import AgentBus.Cluster.HighWaterMark
import AgentBus.Cluster.Rounds
import AgentBus.Lib.Pool
import Mathlib.Data.List.Infix
import Mathlib.Logic.Function.Basic

/-!
# Replication of a shard

The nodes of a cluster, for one shard.  A publisher appends to the shard's log of its node, if
that node leads the shard, and waits for the high-water mark (`appendDurable` in
`internal/grpcapi/server.go`).  The worker of a leader (`internal/cluster/replicator`) declares
the replicas, keeps its own entry of the mark at its tail, and streams its log to each follower,
whose handler (`Server.Replicate` in `internal/cluster/transport/server.go`) appends what it does
not have and acknowledges its tail.

Every goroutine is a thread of a pool: calls to a shard or a mark are steps of their own, and a
session can stop at any point.  The goroutines of a worker are started separately.  Which nodes
lead changes at any time, and a thread that runs is not stopped by it; the first steps of a worker
are also made after its node has stopped leading, but no stream is opened then.  Acknowledgements
on their way are kept with the session.

## Main definitions

* `Node`, `State` — the nodes.
* `Handler`, `Thread`, `Thread.step` — the goroutines.
* `cluster` — the program.
* `Thread.Reports`, `Thread.Pending` — the offsets a thread is about to report.
* `Steps`, `Thread.step_spec` — what a step can do.
-/

namespace AgentBus.Cluster

open Pool

/-- One node: its log of the shard, its high-water mark, and whether it takes itself for the
leader. -/
structure Node where
  shard : Shard
  hwm : HighWaterMark
  leads : Bool

/-- The nodes by their names. -/
structure State where
  nodes : String → Node

namespace State

/-- Nodes that have opened files of these records; `Manager.Shard` sets the entry of the node
itself to its tail. -/
def init (files : String → List Payload) : State where
  nodes n :=
    { shard := Shard.opened (files n)
      hwm := (HighWaterMark.new n).update n (files n).length
      leads := false }

def shard (s : State) (n : String) : Shard := (s.nodes n).shard

def hwm (s : State) (n : String) : HighWaterMark := (s.nodes n).hwm

def setShard (s : State) (n : String) (sh : Shard) : State :=
  ⟨Function.update s.nodes n { s.nodes n with shard := sh }⟩

def setHwm (s : State) (n : String) (h : HighWaterMark) : State :=
  ⟨Function.update s.nodes n { s.nodes n with hwm := h }⟩

def setLeads (s : State) (n : String) (leads : Bool) : State :=
  ⟨Function.update s.nodes n { s.nodes n with leads := leads }⟩

end State

/-- Where the handler of a `Replicate` stream is. -/
inductive Handler where
  | receiving
  | received (off : ℕ) (payload : Payload)
  | appending (payload : Payload) (a : Appending)
  /-- The tail is to be read for the acknowledgement. -/
  | acking
  | closed
  deriving DecidableEq, Repr

/-- A goroutine. -/
inductive Thread where
  /-- A publisher, before the check that the node leads the shard. -/
  | routing (n : String) (payload : Payload)
  | appending (n : String) (payload : Payload) (a : Appending)
  /-- In `WaitFor (off + 1)`. -/
  | waiting (n : String) (payload : Payload) (off : ℕ)
  /-- `WaitFor` has returned nil, with these replicas tracked. -/
  | acked (n : String) (payload : Payload) (off : ℕ) (replicas : List String)
  | failed
  /-- `shardWorker.run`, before `SetReplicas`. -/
  | running (n : String) (followers : List String)
  /-- `selfUpdateLoop`: before the tail is read, before it is recorded, and in the loop. -/
  | starting (n : String)
  | started (n : String) (start : ℕ)
  | tracking (n : String) (cursor : Cursor)
  /-- `runOneFollowerSession`: before the stream is open, and with it. -/
  | dialing (leader follower : String)
  | session (leader follower : String) (cursor : Cursor) (handler : Handler) (acks : List ℕ)
  | done
  deriving DecidableEq, Repr

/-- What starts a thread. -/
inductive Request where
  | publish (n : String) (payload : Payload)
  | run (n : String) (followers : List String)
  | selfUpdate (n : String)
  | replicate (leader follower : String)

/-- How a step goes on. -/
inductive Choice where
  | go
  /-- A step with calls to the system. -/
  | disk (d : Disk)
  /-- The leader receives an acknowledgement. -/
  | ack
  /-- The context of a wait ends. -/
  | cancel
  deriving DecidableEq, Repr

/-- What the handler does with a record, by its offset and the follower's tail. -/
def Handler.receive (off : ℕ) (payload : Payload) (tail : ℕ) : Handler :=
  if off < tail then .acking
  else if off = tail then .appending payload (.writing payload)
  else .closed

/-- One step of a thread. -/
def Thread.step (s : State) : Thread → Choice → Option (State × Thread)
  | .routing n payload, .go =>
    some (s, if (s.nodes n).leads then .appending n payload (.writing payload) else .failed)
  | .appending n payload a, .disk d =>
    (a.step (s.shard n) d).map fun r => (s.setShard n r.1, .appending n payload r.2)
  | .appending n payload (.returned off), .go => some (s, .waiting n payload off)
  | .appending _ _ (.failed _), .go => some (s, .failed)
  | .waiting n payload off, .go =>
    if off + 1 ≤ (s.hwm n).current then some (s, .acked n payload off (s.hwm n).replicas)
    else none
  | .waiting _ _ _, .cancel => some (s, .failed)
  | .running n followers, .go =>
    some (s.setHwm n ((s.hwm n).setReplicas followers), .done)
  | .starting n, .go => some (s, .started n (s.shard n).tail)
  | .started n start, .go =>
    some (s.setHwm n ((s.hwm n).update n start), .tracking n (.backfill start))
  | .tracking n cursor, .go =>
    (cursor.step (s.shard n)).map fun r =>
      match r.2 with
      | none => (s, .tracking n r.1)
      | some (off, _) => (s.setHwm n ((s.hwm n).update n (off + 1)), .tracking n r.1)
  | .dialing leader follower, .go =>
    if (s.nodes leader).leads then
      some (s, .session leader follower (.backfill 0) .receiving [])
    else none
  | .session leader follower cursor .receiving acks, .go =>
    (cursor.step (s.shard leader)).map fun r =>
      match r.2 with
      | none => (s, .session leader follower r.1 .receiving acks)
      | some (off, payload) => (s, .session leader follower r.1 (.received off payload) acks)
  | .session leader follower cursor (.received off payload) acks, .go =>
    some (s, .session leader follower cursor
      (.receive off payload (s.shard follower).tail) acks)
  | .session leader follower cursor (.appending payload a) acks, .disk d =>
    (a.step (s.shard follower) d).map fun r =>
      (s.setShard follower r.1, .session leader follower cursor (.appending payload r.2) acks)
  | .session leader follower cursor (.appending _ (.returned _)) acks, .go =>
    some (s, .session leader follower cursor .acking acks)
  | .session leader follower cursor (.appending _ (.failed _)) acks, .go =>
    some (s, .session leader follower cursor .closed acks)
  | .session leader follower cursor .acking acks, .go =>
    some (s, .session leader follower cursor .receiving (acks ++ [(s.shard follower).tail]))
  | .session leader follower cursor handler (k :: acks), .ack =>
    some (s.setHwm leader ((s.hwm leader).update follower k),
      .session leader follower cursor handler acks)
  | _, _ => none

/-- A change of leadership reaches a node. -/
structure EnvStep where
  node : String
  leads : Bool
  deriving DecidableEq, Repr

/-- The cluster as a program for a pool of threads. -/
def cluster : Program State Thread Request Choice EnvStep where
  entry
    | .publish n payload => .routing n payload
    | .run n followers => .running n followers
    | .selfUpdate n => .starting n
    | .replicate leader follower => .dialing leader follower
  thread := Thread.step
  env s e := some (s.setLeads e.node e.leads)

/-- Thread `i` goes on `n` times. -/
def goOn (i n : ℕ) : List (Act Request Choice EnvStep) := List.replicate n (.run i .go)

/-- Thread `i` appends to the log of its node, on a healthy disk. -/
def appendOn (i : ℕ) : List (Act Request Choice EnvStep) :=
  List.replicate 3 (.run i (.disk .healthy))

/-- Node `n` starts to lead with these followers: the worker is thread `i`, the loop for its own
entry thread `i + 1`. -/
def leadOn (i : ℕ) (n : String) (followers : List String) : List (Act Request Choice EnvStep) :=
  [.env ⟨n, true⟩, .spawn (.run n followers), .spawn (.selfUpdate n)] ++ goOn i 1 ++ goOn (i + 1) 2

/-- Thread `i` publishes at node `n`, up to the wait. -/
def publishOn (i : ℕ) (n : String) (payload : Payload) : List (Act Request Choice EnvStep) :=
  [.spawn (.publish n payload)] ++ goOn i 1 ++ appendOn i ++ goOn i 1

/-! ## What a step can do -/

/-- The offset a step of the thread reads for a mark: at node `m`, for replica `id`. -/
def Thread.Reports (s : State) (m id : String) (k : ℕ) : Thread → Choice → Prop
  | .starting n, .go => m = n ∧ id = n ∧ k = (s.shard n).tail
  | .tracking n cursor, .go => m = n ∧ id = n ∧
      ∃ cursor' off payload, cursor.step (s.shard n) = some (cursor', some (off, payload)) ∧
        k = off + 1
  | .session leader follower _ .acking _, .go =>
    m = leader ∧ id = follower ∧ k = (s.shard follower).tail
  | _, _ => False

/-- The offsets a thread has read for a mark and not yet recorded, or has waited for. -/
def Thread.Pending (m id : String) (k : ℕ) : Thread → Prop
  | .acked n _ off replicas => m = n ∧ id ∈ replicas ∧ k = off + 1
  | .started n start => m = n ∧ id = n ∧ k = start
  | .session leader follower _ _ acks => m = leader ∧ id = follower ∧ k ∈ acks
  | _ => False

/-- What is known of a thread, whatever the other threads do. -/
def Thread.Valid (s : State) : Thread → Prop
  | .appending n payload a => a.Valid (s.shard n) payload
  | .waiting n payload off => (s.shard n).records[off]? = some payload
  | .acked n payload off _ => (s.shard n).records[off]? = some payload
  | .tracking n cursor => cursor.Valid (s.shard n)
  | .session leader follower cursor handler _ =>
    cursor.Valid (s.shard leader) ∧
      ∀ payload a, handler = .appending payload a → a.Valid (s.shard follower) payload
  | _ => True

/-- Every log is in order. -/
def State.Valid (s : State) : Prop := ∀ n, (s.shard n).Valid

/-- Every log only grows. -/
def State.Grows (s s' : State) : Prop := ∀ n, (s.shard n).Grows (s'.shard n)

/-- What one step of a thread does. -/
structure Steps (s : State) (t : Thread) (c : Choice) (s' : State) (t' : Thread) : Prop where
  valid : s'.Valid
  thread : t'.Valid s'
  grows : s.Grows s'
  leads : ∀ n, (s'.nodes n).leads = (s.nodes n).leads
  offsets : ∀ m id k, (id, k) ∈ (s'.hwm m).offsets →
    (id, k) ∈ (s.hwm m).offsets ∨ k = 0 ∨ t.Pending m id k ∨ t.Reports s m id k c
  pending : ∀ m id k, t'.Pending m id k →
    t.Pending m id k ∨ t.Reports s m id k c ∨ ∃ k', k ≤ k' ∧ (id, k') ∈ (s.hwm m).offsets

theorem State.Grows.refl (s : State) : s.Grows s := fun n => .refl (s.shard n)

variable {s s' : State} {t t' : Thread} {c : Choice} {n : String}

/-- The next record of a leader's log makes a beginning of it longer. -/
theorem prefix_concat {l leader : List Payload} {p : Payload} (h : l <+: leader)
    (hp : leader[l.length]? = some p) : l ++ [p] <+: leader := by
  obtain ⟨hlt, hget⟩ := List.getElem?_eq_some_iff.mp hp
  have hprefix := List.concat_get_prefix h hlt
  rwa [List.get_eq_getElem, hget] at hprefix

/-- What is known of a thread survives the steps of the others. -/
theorem State.Grows.thread (h : s.Grows s') (ht : t.Valid s) : t.Valid s' := by
  cases t with
  | appending n payload a => exact (h n).appending ht
  | waiting n payload off => exact (h n).getElem? ht
  | acked n payload off replicas => exact (h n).getElem? ht
  | tracking n cursor => exact (h n).cursor ht
  | session leader follower cursor handler acks =>
    exact ⟨(h leader).cursor ht.1, fun payload a ha => (h follower).appending (ht.2 payload a ha)⟩
  | _ => trivial

section Updates

variable {s : State} {n m : String} {sh : Shard} {w : HighWaterMark}

@[simp] theorem State.shard_setShard :
    (s.setShard n sh).shard m = if m = n then sh else s.shard m := by
  by_cases hm : m = n <;> simp [State.setShard, State.shard, hm]

@[simp] theorem State.hwm_setShard : (s.setShard n sh).hwm m = s.hwm m := by
  by_cases hm : m = n <;> simp [State.setShard, State.hwm, hm]

@[simp] theorem State.shard_setHwm : (s.setHwm n w).shard m = s.shard m := by
  by_cases hm : m = n <;> simp [State.setHwm, State.shard, hm]

@[simp] theorem State.hwm_setHwm : (s.setHwm n w).hwm m = if m = n then w else s.hwm m := by
  by_cases hm : m = n <;> simp [State.setHwm, State.hwm, hm]

@[simp] theorem State.leads_setShard :
    ((s.setShard n sh).nodes m).leads = (s.nodes m).leads := by
  by_cases hm : m = n <;> simp [State.setShard, hm]

@[simp] theorem State.leads_setHwm : ((s.setHwm n w).nodes m).leads = (s.nodes m).leads := by
  by_cases hm : m = n <;> simp [State.setHwm, hm]

variable {b : Bool}

@[simp] theorem State.leads_setLeads :
    ((s.setLeads n b).nodes m).leads = if m = n then b else (s.nodes m).leads := by
  by_cases hm : m = n <;> simp [State.setLeads, hm]

@[simp] theorem State.shard_setLeads : (s.setLeads n b).shard m = s.shard m := by
  by_cases hm : m = n <;> simp [State.setLeads, State.shard, hm]

@[simp] theorem State.hwm_setLeads : (s.setLeads n b).hwm m = s.hwm m := by
  by_cases hm : m = n <;> simp [State.setLeads, State.hwm, hm]

end Updates

/-- A change of leadership leaves the logs. -/
theorem State.grows_setLeads (s : State) (n : String) (b : Bool) : s.Grows (s.setLeads n b) := by
  intro m
  rw [State.shard_setLeads]
  exact .refl _

/-- A step that touches no node. -/
theorem Steps.quiet (hs : s.Valid) (ht' : t'.Valid s)
    (hpending : ∀ m id k, t'.Pending m id k → t.Pending m id k ∨ t.Reports s m id k c) :
    Steps s t c s t' :=
  ⟨hs, ht', .refl s, fun _ => rfl, fun _ _ _ h => .inl h,
    fun m id k h => (hpending m id k h).imp_right .inl⟩

/-- A step that appends to the log of a node. -/
theorem Steps.append {sh : Shard} (hs : s.Valid) (hv : sh.Valid) (hg : (s.shard n).Grows sh)
    (ht' : s.Grows (s.setShard n sh) → t'.Valid (s.setShard n sh))
    (hpending : ∀ m id k, t'.Pending m id k → t.Pending m id k) :
    Steps s t c (s.setShard n sh) t' := by
  have hgrows : s.Grows (s.setShard n sh) := by
    intro m
    rw [State.shard_setShard]
    split
    · rename_i hm
      rw [hm]
      exact hg
    · exact .refl _
  refine ⟨?_, ht' hgrows, hgrows, fun _ => State.leads_setShard, ?_,
    fun m id k h => .inl (hpending m id k h)⟩
  · intro m
    rw [State.shard_setShard]
    split
    · exact hv
    · exact hs m
  · intro m id k h
    rw [State.hwm_setShard] at h
    exact .inl h

/-- A step that changes the mark of a node. -/
theorem Steps.mark {w : HighWaterMark} (hs : s.Valid) (ht' : t'.Valid s)
    (hoffsets : ∀ id k, (id, k) ∈ w.offsets →
      (id, k) ∈ (s.hwm n).offsets ∨ k = 0 ∨ t.Pending n id k ∨ t.Reports s n id k c)
    (hpending : ∀ m id k, t'.Pending m id k → t.Pending m id k) :
    Steps s t c (s.setHwm n w) t' := by
  have hgrows : s.Grows (s.setHwm n w) := by
    intro m
    rw [State.shard_setHwm]
    exact .refl _
  refine ⟨?_, hgrows.thread ht', hgrows, fun _ => State.leads_setHwm, ?_,
    fun m id k h => .inl (hpending m id k h)⟩
  · intro m
    rw [State.shard_setHwm]
    exact hs m
  · intro m id k h
    rw [State.hwm_setHwm] at h
    split at h
    · rename_i hm
      subst hm
      exact hoffsets id k h
    · exact .inl h

/-- **What one step of a thread does.** -/
theorem Thread.step_spec (hs : s.Valid) (ht : t.Valid s) (hstep : t.step s c = some (s', t')) :
    Steps s t c s' t' := by
  unfold Thread.step at hstep
  split at hstep
  case h_1 n payload =>
    cases hstep
    refine .quiet hs ?_ ?_
    · split
      · rfl
      · trivial
    · intro m id k h
      split at h <;> cases h
  case h_2 n payload a d =>
    obtain ⟨⟨sh, a'⟩, ha', heq⟩ := Option.map_eq_some_iff.mp hstep
    cases heq
    obtain ⟨hv, hg, hvalid⟩ := Appending.step_spec (hs n) ht ha'
    refine .append hs hv hg ?_ (fun m id k h => h)
    intro _
    simpa [Thread.Valid, State.shard_setShard] using hvalid
  case h_3 n payload off =>
    cases hstep
    exact .quiet hs ht (fun m id k h => h.elim)
  case h_4 =>
    cases hstep
    exact .quiet hs trivial (fun m id k h => h.elim)
  case h_5 n payload off =>
    split at hstep
    · rename_i hmark
      cases hstep
      refine ⟨hs, ht, .refl s, fun _ => rfl, fun _ _ _ h => .inl h, ?_⟩
      rintro m id k ⟨rfl, hid, rfl⟩
      obtain ⟨⟨id', k'⟩, hmem, rfl⟩ := List.mem_map.mp hid
      exact .inr (.inr ⟨k', hmark.trans (HighWaterMark.current_le_of_mem hmem), hmem⟩)
    · cases hstep
  case h_6 =>
    cases hstep
    exact .quiet hs trivial (fun m id k h => h.elim)
  case h_7 n followers =>
    cases hstep
    refine .mark hs trivial ?_ (fun m id k h => h.elim)
    intro id k h
    rcases HighWaterMark.mem_setReplicas h with h | h
    · exact .inr (.inl h)
    · exact .inl h
  case h_8 n =>
    cases hstep
    exact .quiet hs trivial (fun m id k h => .inr h)
  case h_9 n start =>
    cases hstep
    refine .mark hs trivial ?_ (fun m id k h => h.elim)
    intro id k h
    rcases HighWaterMark.mem_update h with h | ⟨rfl, rfl⟩
    · exact .inl h
    · exact .inr (.inr (.inl ⟨rfl, rfl, rfl⟩))
  case h_10 n cursor =>
    obtain ⟨⟨cursor', sent⟩, hc, heq⟩ := Option.map_eq_some_iff.mp hstep
    have hcursor := (Cursor.step_spec (hs n) ht hc).1
    cases sent with
    | none =>
      cases heq
      exact .quiet hs hcursor (fun m id k h => h.elim)
    | some rec =>
      cases heq
      refine .mark hs hcursor ?_ (fun m id k h => h.elim)
      intro id k h
      rcases HighWaterMark.mem_update h with h | ⟨rfl, rfl⟩
      · exact .inl h
      · exact .inr (.inr (.inr ⟨rfl, rfl, cursor', rec.1, rec.2, hc, rfl⟩))
  case h_11 leader follower =>
    split at hstep
    · cases hstep
      refine .quiet hs ⟨trivial, by simp⟩ ?_
      rintro m id k ⟨-, -, h⟩
      simp at h
    · cases hstep
  case h_12 leader follower cursor acks =>
    obtain ⟨⟨cursor', sent⟩, hc, heq⟩ := Option.map_eq_some_iff.mp hstep
    have hcursor := (Cursor.step_spec (hs leader) ht.1 hc).1
    cases sent with
    | none | some rec =>
      cases heq
      exact .quiet hs ⟨hcursor, by simp⟩ (fun m id k h => .inl h)
  case h_13 leader follower cursor off payload acks =>
    cases hstep
    refine .quiet hs ⟨ht.1, ?_⟩ (fun m id k h => .inl h)
    intro payload' a ha
    unfold Handler.receive at ha
    split at ha
    · cases ha
    · split at ha
      · cases ha
        rfl
      · cases ha
  case h_14 leader follower cursor payload a acks d =>
    obtain ⟨⟨sh, a'⟩, ha', heq⟩ := Option.map_eq_some_iff.mp hstep
    cases heq
    obtain ⟨hv, hg, hvalid⟩ := Appending.step_spec (hs follower) (ht.2 payload a rfl) ha'
    refine .append hs hv hg ?_ (fun m id k h => h)
    intro hgrows
    refine ⟨(hgrows leader).cursor ht.1, ?_⟩
    rintro payload' a'' ⟨⟩
    simpa [State.shard_setShard] using hvalid
  case h_15 | h_16 =>
    cases hstep
    exact .quiet hs ⟨ht.1, by simp⟩ (fun m id k h => .inl h)
  case h_17 leader follower cursor acks =>
    cases hstep
    refine .quiet hs ⟨ht.1, by simp⟩ ?_
    rintro m id k ⟨hm, hid, hk⟩
    rcases List.mem_append.mp hk with hk | hk
    · exact .inl ⟨hm, hid, hk⟩
    · exact .inr ⟨hm, hid, by simpa using hk⟩
  case h_18 leader follower cursor handler k₀ acks =>
    cases hstep
    refine .mark hs ht ?_ ?_
    · intro id k h
      rcases HighWaterMark.mem_update h with h | ⟨rfl, rfl⟩
      · exact .inl h
      · exact .inr (.inr (.inl ⟨rfl, rfl, by simp⟩))
    · rintro m id k ⟨hm, hid, hk⟩
      exact ⟨hm, hid, by simp [hk]⟩
  case h_19 => cases hstep

/-! ## Calls of `Append` -/

/-- The call of `Append` that a thread is in, with its node. -/
def Thread.append? : Thread → Option (String × Appending)
  | .appending n _ a => some (n, a)
  | .session _ follower _ (.appending _ a) _ => some (follower, a)
  | _ => none

theorem Thread.Valid.append? (h : t.Valid s) {a : Appending} (ha : t.append? = some (n, a)) :
    ∃ payload, a.Valid (s.shard n) payload := by
  unfold Thread.append? at ha
  split at ha <;> cases ha
  · exact ⟨_, h⟩
  · exact ⟨_, h.2 _ _ rfl⟩

/-- What a step of a thread does to the logs. -/
inductive Thread.Logs (s : State) (t : Thread) (c : Choice) (s' : State) (t' : Thread) : Prop
  /-- Nothing; a call may have started or ended. -/
  | quiet (shard : ∀ n, s'.shard n = s.shard n)
      (started : ∀ n a, t'.append? = some (n, a) →
        t.append? = some (n, a) ∨ ∃ payload, a = .writing payload)
      (ended : ∀ n a, t.append? = some (n, a) → t'.append? = some (n, a) ∨ a.role = .outside)
  /-- A step of its call. -/
  | append (n : String) (a a' : Appending) (d : Disk) (sh : Shard) (choice : c = .disk d)
      (before : t.append? = some (n, a)) (step : a.step (s.shard n) d = some (sh, a'))
      (shared : s' = s.setShard n sh) (after : t'.append? = some (n, a'))

theorem Thread.step_logs (hstep : t.step s c = some (s', t')) : Thread.Logs s t c s' t' := by
  unfold Thread.step at hstep
  split at hstep
  case h_1 n payload =>
    cases hstep
    refine .quiet (fun _ => rfl) (fun m a ha => ?_) (by rintro _ _ ⟨⟩)
    split at ha <;> cases ha
    exact .inr ⟨payload, rfl⟩
  case h_2 n payload a d =>
    obtain ⟨⟨sh, a'⟩, ha', heq⟩ := Option.map_eq_some_iff.mp hstep
    cases heq
    exact .append n a a' d sh rfl rfl ha' rfl rfl
  case h_3 | h_4 | h_15 | h_16 =>
    cases hstep
    exact .quiet (fun _ => rfl) (by rintro _ _ ⟨⟩) (by rintro _ _ ⟨⟩; exact .inr rfl)
  case h_10 n cursor =>
    obtain ⟨⟨cursor', sent⟩, -, heq⟩ := Option.map_eq_some_iff.mp hstep
    cases sent <;> cases heq <;> exact .quiet (by simp) (by rintro _ _ ⟨⟩) (by rintro _ _ ⟨⟩)
  case h_12 leader follower cursor acks =>
    obtain ⟨⟨cursor', sent⟩, -, heq⟩ := Option.map_eq_some_iff.mp hstep
    cases sent <;> cases heq <;>
      exact .quiet (fun _ => rfl) (by rintro _ _ ⟨⟩) (by rintro _ _ ⟨⟩)
  case h_13 leader follower cursor off payload acks =>
    cases hstep
    refine .quiet (fun _ => rfl) (fun m a ha => ?_) (by rintro _ _ ⟨⟩)
    unfold Handler.receive at ha
    split at ha
    · cases ha
    · split at ha <;> cases ha
      exact .inr ⟨payload, rfl⟩
  case h_14 leader follower cursor payload a acks d =>
    obtain ⟨⟨sh, a'⟩, ha', heq⟩ := Option.map_eq_some_iff.mp hstep
    cases heq
    exact .append follower a a' d sh rfl rfl ha' rfl rfl
  case h_18 leader follower cursor handler k acks =>
    cases hstep
    refine .quiet (by simp) (fun m a ha => .inl ?_) (fun m a ha => .inl ?_) <;>
      cases handler <;> exact ha
  case h_5 | h_11 =>
    split at hstep <;> cases hstep
    exact .quiet (by simp) (by rintro _ _ ⟨⟩) (by rintro _ _ ⟨⟩)
  case h_6 | h_7 | h_8 | h_9 | h_17 =>
    cases hstep
    exact .quiet (by simp) (by rintro _ _ ⟨⟩) (by rintro _ _ ⟨⟩)
  case h_19 => cases hstep

/-! ## The rule for marks -/

/-- Everything recorded in a mark satisfies a relation. -/
def Recorded (Sound : State → String → String → ℕ → Prop) (s : State) : Prop :=
  ∀ m id k, (id, k) ∈ (s.hwm m).offsets → Sound s m id k

/-- Everything a thread is about to record, or has waited for, satisfies a relation. -/
def Underway (Sound : State → String → String → ℕ → Prop) (s : State) (t : Thread) : Prop :=
  ∀ m id k, t.Pending m id k → Sound s m id k

/-- **The rule for marks.**  A relation that the growth of logs keeps, that passes to smaller
offsets, and that holds of 0 and of every offset when it is read, holds of everything that is
recorded. -/
theorem recorded_sound {G : Guard State Thread Choice EnvStep}
    {Sound : State → String → String → ℕ → Prop} {s₀ : State}
    (zero : ∀ s m id, Sound s m id 0)
    (down : ∀ s m id k k', k ≤ k' → Sound s m id k' → Sound s m id k)
    (mono : ∀ s s' m id k, s.Grows s' → Sound s m id k → Sound s' m id k)
    (reads : ∀ s t c m id k, s.Valid → t.Valid s → G.thread s t c → t.Reports s m id k c →
      Sound s m id k)
    (valid : s₀.Valid) (init : Recorded Sound s₀) {w : World State Thread}
    (h : cluster.Reach G s₀ w) :
    Holds (fun s => s.Valid ∧ Recorded Sound s) (fun s t => t.Valid s ∧ Underway Sound s t)
      (fun _ _ => True) w := by
  have keeps : ∀ {s s' : State} {t : Thread}, s.Grows s' → t.Valid s ∧ Underway Sound s t →
      t.Valid s' ∧ Underway Sound s' t := fun hg ht =>
    ⟨hg.thread ht.1, fun m id k hk => mono _ _ m id k hg (ht.2 m id k hk)⟩
  refine Program.Reach.local_invariant (fun _ _ _ => trivial) ⟨valid, init⟩ ?_ ?_ ?_ h
  · intro s r _
    refine ⟨?_, fun _ _ => trivial⟩
    cases r <;> exact ⟨trivial, fun _ _ _ hk => hk.elim⟩
  · intro s t c s' t' hs ht hG hstep
    have spec := Thread.step_spec hs.1 ht.1 hstep
    refine ⟨⟨⟨spec.valid, ?_⟩, spec.thread, ?_⟩, fun u hu _ => ⟨keeps spec.grows hu, trivial⟩⟩
    · intro m id k hk
      rcases spec.offsets m id k hk with hk | rfl | hk | hk
      · exact mono _ _ m id k spec.grows (hs.2 m id k hk)
      · exact zero s' m id
      · exact mono _ _ m id k spec.grows (ht.2 m id k hk)
      · exact mono _ _ m id k spec.grows (reads s t c m id k hs.1 ht.1 hG hk)
    · intro m id k hk
      rcases spec.pending m id k hk with hk | hk | ⟨k', hle, hk⟩
      · exact mono _ _ m id k spec.grows (ht.2 m id k hk)
      · exact mono _ _ m id k spec.grows (reads s t c m id k hs.1 ht.1 hG hk)
      · exact mono _ _ m id k spec.grows (down s m id k k' hle (hs.2 m id k' hk))
  · intro s e s' hs _ hstep
    cases hstep
    have hg := s.grows_setLeads e.node e.leads
    refine ⟨⟨fun n => by rw [State.shard_setLeads]; exact hs.1 n, ?_⟩, fun u hu => keeps hg hu⟩
    intro m id k hk
    rw [State.hwm_setLeads] at hk
    exact mono _ _ m id k hg (hs.2 m id k hk)

theorem State.valid_init (files : String → List Payload) : (State.init files).Valid :=
  fun n => Shard.valid_opened (files n)

/-- What is recorded when the files are opened: 0, or the node's own tail. -/
theorem State.mem_offsets_init {files : String → List Payload} {m id : String} {k : ℕ}
    (h : (id, k) ∈ ((State.init files).hwm m).offsets) :
    k = 0 ∨ (id = m ∧ k = (files m).length) := by
  rcases HighWaterMark.mem_update h with h | h
  · simp [HighWaterMark.new] at h
    exact .inl h.2
  · exact .inr h

end AgentBus.Cluster
