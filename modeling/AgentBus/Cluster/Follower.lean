import AgentBus.Cluster.Replication

/-!
# The log of a follower

One leader, whose log of a shard grows, and one follower, to which it streams that log from the
start in any number of sessions (`runOneFollowerSession` in `internal/cluster/replicator`, and
`Server.Replicate` in `internal/cluster/transport/server.go`, which answers).  The handler of a
session reads the follower's tail and appends in two separate calls.

While sessions do not overlap, the follower's log is a beginning of the leader's
(`follower_prefix`).  Sessions do overlap when `Replicator.Add` replaces a worker: two handlers
may then find the same offset missing and both append it (`appended_twice`).  With the tail where
the handler saw it at the time of the append, every offset is appended once (`applied_once`).

## Main definitions

* `Replica`, `Session`, `Session.step`, `replication` — the two logs and the sessions.
* `Session.Idle` — a session that has not started, or has ended.
* `undisturbed` — the tail has not moved between the two calls.
* `Session.Carries`, `Session.InStep` — what is known of a session.
-/

namespace AgentBus.Cluster

open Pool

/-- The leader's log and the follower. -/
structure Replica where
  leader : List Payload
  shard : Shard
  /-- The entries the handlers have appended, by the offset the leader sent. -/
  applied : List (ℕ × Payload)
  /-- The `LastOffset` of each acknowledgement, with the log the follower then held. -/
  acks : List (UInt64 × List Payload)
  deriving DecidableEq, Repr

/-- A follower that has opened a file of these records. -/
def Replica.init (leader file : List Payload) : Replica := ⟨leader, Shard.opened file, [], []⟩

/-- A session: `next` is the offset the leader sends next. -/
inductive Session where
  | dialing
  | streaming (next : ℕ) (handler : Handler)
  deriving DecidableEq, Repr

/-- One step of a session; `cancel` breaks the stream off. -/
def Session.step (s : Replica) : Session → Choice → Option (Replica × Session)
  | .dialing, .go => some (s, .streaming 0 .receiving)
  | .streaming next .receiving, .go =>
    s.leader[next]?.map fun payload => (s, .streaming (next + 1) (.received next payload))
  | .streaming next (.received off payload), .go =>
    some (s, .streaming next (.receive off payload s.shard.tail))
  | .streaming next (.appending payload a), .disk d =>
    (a.step s.shard d).map fun r =>
      ({ s with
          shard := r.1
          applied := if s.shard.tail < r.1.tail then s.applied ++ [(next - 1, payload)]
            else s.applied },
        .streaming next (.appending payload r.2))
  | .streaming next (.appending _ (.returned _)), .go => some (s, .streaming next .acking)
  | .streaming next (.appending _ (.failed _)), .go => some (s, .streaming next .closed)
  | .streaming next .acking, .go =>
    some ({ s with acks := s.acks ++ [(UInt64.ofNat s.shard.tail - 1, s.shard.records)] },
      .streaming next .receiving)
  | .streaming next .receiving, .cancel => some (s, .streaming next .closed)
  | .streaming next .acking, .cancel => some (s, .streaming next .closed)
  | _, _ => none

/-- The sessions as a program; the environment appends to the leader's log. -/
def replication : Program Replica Session Unit Choice Payload where
  entry _ := .dialing
  thread := Session.step
  env s payload := some { s with leader := s.leader ++ [payload] }

/-- The session has not started, or has ended. -/
def Session.Idle : Session → Prop
  | .dialing => True
  | .streaming _ handler => handler = .closed

instance (t : Session) : Decidable t.Idle := by
  cases t <;> unfold Session.Idle <;> infer_instance

/-- Sessions do not overlap: while one takes a step, no other is under way. -/
def oneAtATime : World Replica Session → Act Unit Choice Payload → Prop :=
  (Guard.all : Guard Replica Session Choice Payload).Beside fun _ _ _ u => u.Idle

instance (w : World Replica Session) (a : Act Unit Choice Payload) : Decidable (oneAtATime w a) :=
  have : ∀ s t l, Decidable ((Guard.all : Guard Replica Session Choice Payload).thread s t l) :=
    fun _ _ _ => isTrue trivial
  have : ∀ s e, Decidable ((Guard.all : Guard Replica Session Choice Payload).env s e) :=
    fun _ _ => isTrue trivial
  inferInstanceAs (Decidable (Guard.Beside _ _ w a))

/-- The offset a session is about to append. -/
def Session.writing : Session → Option ℕ
  | .streaming next (.appending _ (.writing _)) => some (next - 1)
  | _ => none

/-- A handler appends only while the tail is still where it saw it. -/
def undisturbed : Guard Replica Session Choice Payload where
  thread s t _ := ∀ off ∈ t.writing, s.shard.tail = off
  env _ _ := True

instance (s : Replica) (t : Session) (c : Choice) : Decidable (undisturbed.thread s t c) :=
  inferInstanceAs (Decidable (∀ off ∈ t.writing, s.shard.tail = off))

instance (s : Replica) (payload : Payload) : Decidable (undisturbed.env s payload) :=
  inferInstanceAs (Decidable True)

/-! ## What a step can do -/

/-- The entry a session works on is the leader's. -/
def Session.Carries (leader : List Payload) : Session → Prop
  | .streaming next (.received off payload) => next = off + 1 ∧ leader[off]? = some payload
  | .streaming next (.appending payload a) =>
    leader[next - 1]? = some payload ∧ ∀ payload', a = .writing payload' → payload' = payload
  | _ => True

/-- What one step of a session does to the follower. -/
inductive Follows (s : Replica) (t : Session) (s' : Replica) : Prop
  /-- Its records stay. -/
  | keeps (records : s'.shard.records = s.shard.records) (applied : s'.applied = s.applied)
  /-- The entry the session works on is appended. -/
  | appends (off : ℕ) (payload : Payload) (writing : t.writing = some off)
      (entry : s.leader[off]? = some payload)
      (records : s'.shard.records = s.shard.records ++ [payload])
      (applied : s'.applied = s.applied ++ [(off, payload)])

variable {leader : List Payload} {t : Session} {s s' : Replica}

theorem Session.Carries.grow {tl : List Payload} (h : t.Carries leader) :
    t.Carries (leader ++ tl) := by
  cases t with
  | dialing => trivial
  | streaming next handler =>
    cases handler with
    | received off payload => exact ⟨h.1, getElem?_grow h.2⟩
    | appending payload a => exact ⟨getElem?_grow h.1, h.2⟩
    | _ => trivial

/-- **What one step of a session does.** -/
theorem Session.step_spec {t' : Session} {c : Choice} (ht : t.Carries s.leader)
    (hstep : t.step s c = some (s', t')) :
    s'.leader = s.leader ∧ t'.Carries s.leader ∧ Follows s t s' := by
  unfold Session.step at hstep
  split at hstep
  · cases hstep
    exact ⟨rfl, trivial, .keeps rfl rfl⟩
  · obtain ⟨payload, hread, heq⟩ := Option.map_eq_some_iff.mp hstep
    cases heq
    exact ⟨rfl, ⟨rfl, hread⟩, .keeps rfl rfl⟩
  · rename_i next off payload
    cases hstep
    refine ⟨rfl, ?_, .keeps rfl rfl⟩
    obtain ⟨rfl, hread⟩ := ht
    unfold Handler.receive
    split
    · trivial
    · split
      · exact ⟨hread, by rintro _ ⟨⟩; rfl⟩
      · trivial
  · rename_i next payload a d
    obtain ⟨⟨sh, a'⟩, ha, heq⟩ := Option.map_eq_some_iff.mp hstep
    cases heq
    obtain ⟨hwrote, hnot⟩ := Appending.step_records ha
    refine ⟨rfl, ⟨ht.1, fun payload' h => absurd h (hnot payload')⟩, ?_⟩
    cases hwrote with
    | nothing _ hrecords => exact .keeps hrecords (if_neg (by simp [Shard.tail, hrecords]))
    | refused _ _ _ _ hrecords => exact .keeps hrecords (if_neg (by simp [Shard.tail, hrecords]))
    | record payload' hwriting _ hrecords =>
      cases ht.2 payload' hwriting
      subst hwriting
      exact .appends _ _ rfl ht.1 hrecords (if_pos (by simp [Shard.tail, hrecords]))
  all_goals first
    | (cases hstep; exact ⟨rfl, trivial, .keeps rfl rfl⟩)
    | cases hstep

/-! ## Sessions that overlap -/

/-- What the follower has appended, when it was opened on `file` and the leader's log was
`leader`. -/
structure Replica.Once (leader file : List Payload) (s : Replica) : Prop where
  /-- No offset is appended twice. -/
  once : (s.applied.map Prod.fst).Nodup
  /-- What was appended for an offset is the follower's record there, and the leader's. -/
  same : ∀ off payload, (off, payload) ∈ s.applied →
    s.shard.records[off]? = some payload ∧ s.leader[off]? = some payload
  /-- From a beginning of the leader's log the follower goes on to another. -/
  records : file <+: leader → s.shard.records <+: s.leader

theorem Replica.Once.step {file : List Payload} (h : s.Once leader file)
    (hleader : s'.leader = s.leader) (hguard : ∀ off ∈ t.writing, s.shard.tail = off)
    (hstep : Follows s t s') : s'.Once leader file := by
  cases hstep with
  | keeps hrecords happlied =>
    constructor
    · rw [happlied]
      exact h.once
    · rw [happlied, hrecords, hleader]
      exact h.same
    · rw [hrecords, hleader]
      exact h.records
  | appends off payload hwriting hentry hrecords happlied =>
    have htail : s.shard.records.length = off := hguard off hwriting
    have hbelow : ∀ o p, (o, p) ∈ s.applied → o < off := by
      intro o p hop
      rw [← htail]
      exact (List.getElem?_eq_some_iff.mp (h.same o p hop).1).1
    constructor
    · rw [happlied, List.map_append, List.map_singleton, List.nodup_append]
      refine ⟨h.once, List.nodup_singleton _, ?_⟩
      intro o ho o' ho'
      obtain ⟨⟨o, p⟩, hop, rfl⟩ := List.mem_map.mp ho
      rw [List.mem_singleton.mp ho']
      exact Nat.ne_of_lt (hbelow o p hop)
    · intro o p hop
      rw [hrecords, hleader]
      rw [happlied] at hop
      rcases List.mem_append.mp hop with hop | hop
      · exact ⟨getElem?_grow (h.same o p hop).1, (h.same o p hop).2⟩
      · cases List.mem_singleton.mp hop
        refine ⟨?_, hentry⟩
        rw [← htail, List.getElem?_concat_length]
    · intro hfile
      rw [hrecords, hleader]
      exact prefix_concat (h.records hfile) (htail ▸ hentry)

/-- **Every offset is appended once.**  For any logs of the leader and the follower, and any
sessions, of which a handler appends only while the tail is where it saw it. -/
theorem applied_once (leader file : List Payload) (w : World Replica Session)
    (h : replication.Reach undisturbed (Replica.init leader file) w) :
    w.shared.Once leader file := by
  refine (Program.Reach.local_invariant (I := fun s => s.Once leader file)
    (L := fun s t => t.Carries s.leader) (R := fun _ _ => True) ?_ ?_ ?_ ?_ ?_ h).shared
  · exact fun _ _ _ => trivial
  · exact ⟨List.nodup_nil, by rintro _ _ ⟨⟩, fun hfile => hfile⟩
  · exact fun _ _ _ => ⟨trivial, fun _ _ => trivial⟩
  · intro s t c s' t' hs ht hguard hstep
    obtain ⟨hleader, ht', hfollows⟩ := Session.step_spec ht hstep
    rw [hleader]
    exact ⟨⟨hs.step hleader hguard hfollows, ht'⟩, fun u hu _ => ⟨hu, trivial⟩⟩
  · intro s payload s' hs _ henv
    cases henv
    refine ⟨⟨hs.once, ?_, ?_⟩, fun u hu => hu.grow⟩
    · intro off p hop
      exact ⟨(hs.same off p hop).1, getElem?_grow (hs.same off p hop).2⟩
    · intro hfile
      exact (hs.records hfile).trans (List.prefix_append _ _)

/-- Session `i` receives the next entry, and reads the tail. -/
def receiveOn (i : ℕ) : List (Act Unit Choice Payload) := [.run i .go, .run i .go]

/-- Session `i` appends on a healthy disk, and acknowledges. -/
def applyOn (i : ℕ) : List (Act Unit Choice Payload) :=
  [.run i (.disk .healthy), .run i (.disk .healthy), .run i (.disk .healthy), .run i .go,
    .run i .go]

/-- Two sessions stream the same two records; the second skips what the first has appended. -/
def inTurn : List (Act Unit Choice Payload) :=
  List.flatten [[.spawn (), .spawn (), .run 0 .go, .run 1 .go], receiveOn 0, applyOn 0,
    receiveOn 1, [.run 1 .go], receiveOn 1, applyOn 1]

theorem applied_once_inTurn :
    ∃ w, replication.Reach undisturbed (Replica.init [[1], [2]] []) w ∧
      w.shared.applied = [(0, [1]), (1, [2])] ∧ w.shared.Once [[1], [2]] [] := by
  have hrun : (replication.execWithin undisturbed ⟨Replica.init [[1], [2]] [], []⟩ inTurn).map
      (fun w => w.shared.applied) = some [(0, [1]), (1, [2])] := by
    decide +kernel
  obtain ⟨w, hreach, heq⟩ := Program.exists_reach_within hrun
  exact ⟨w, hreach, heq, applied_once _ _ w hreach⟩

/-- Two sessions stream the same two records, and both read the tail before either appends. -/
def together : List (Act Unit Choice Payload) :=
  List.flatten [[.spawn (), .spawn (), .run 0 .go, .run 1 .go], receiveOn 0, receiveOn 1,
    applyOn 0, applyOn 1, receiveOn 0, [.run 0 .go], receiveOn 1, [.run 1 .go]]

/-- The first record is appended twice, and the second is taken for one that is held. -/
theorem appended_twice :
    ∃ w, replication.Reach Guard.all (Replica.init [[1], [2]] []) w ∧
      w.shared.applied = [(0, [1]), (0, [1])] ∧ w.shared.shard.records = [[1], [1]] ∧
      w.shared.leader = [[1], [2]] ∧
      w.threads = [.streaming 2 .receiving, .streaming 2 .receiving] := by
  have hrun : (replication.exec ⟨Replica.init [[1], [2]] [], []⟩ together).map
      (fun w => (w.shared.applied, w.shared.shard.records, w.shared.leader, w.threads)) =
        some ([(0, [1]), (0, [1])], [[1], [1]], [[1], [2]],
          [.streaming 2 .receiving, .streaming 2 .receiving]) := by
    decide +kernel
  obtain ⟨w, hw, heq⟩ := Program.exists_reach hrun
  simp only [Prod.mk.injEq] at heq
  exact ⟨w, hw, heq⟩

/-! ## Sessions one at a time -/

/-- Where a session stands to the follower's log: what it has sent, the follower holds. -/
def Session.InStep (s : Replica) : Session → Prop
  | .streaming next .receiving => next ≤ s.shard.tail
  | .streaming _ (.received off _) => off ≤ s.shard.tail
  | .streaming next (.appending _ (.writing _)) => next = s.shard.tail + 1
  | .streaming _ (.appending _ (.failed _)) => True
  | .streaming next (.appending _ _) => 0 < next ∧ next ≤ s.shard.tail
  | .streaming next .acking => 0 < next ∧ next ≤ s.shard.tail
  | _ => True

/-- The follower holds a beginning of the leader's log, and has acknowledged its last record. -/
structure Replica.Prefixed (s : Replica) : Prop where
  records : s.shard.records <+: s.leader
  acks : ∀ last held, (last, held) ∈ s.acks →
    held ≠ [] ∧ last = UInt64.ofNat (held.length - 1)

theorem Session.Idle.inStep (h : t.Idle) : t.InStep s := by
  cases t with
  | dialing => trivial
  | streaming next handler =>
    cases h
    trivial

/-- An append that is in its group commit, or over. -/
theorem Session.inStep_appending {next : ℕ} {payload : Payload} {a : Appending}
    (hnot : ∀ payload', a ≠ .writing payload') (hpos : 0 < next) (hle : next ≤ s.shard.tail) :
    Session.InStep s (.streaming next (.appending payload a)) := by
  cases a with
  | writing payload' => exact absurd rfl (hnot payload')
  | failed err => trivial
  | committing off c => exact ⟨hpos, hle⟩
  | returned off => exact ⟨hpos, hle⟩

theorem Session.InStep.appending {next : ℕ} {payload : Payload} {a : Appending}
    (h : Session.InStep s (.streaming next (.appending payload a)))
    (hwriting : ∀ payload', a ≠ .writing payload') (hfailed : ∀ err, a ≠ .failed err) :
    0 < next ∧ next ≤ s.shard.tail := by
  cases a with
  | writing payload' => exact absurd rfl (hwriting payload')
  | failed err => exact absurd rfl (hfailed err)
  | committing off c => exact h
  | returned off => exact h

/-- The handler finds no gap. -/
theorem Handler.receive_ne_closed {off tail : ℕ} (h : off ≤ tail) (payload : Payload) :
    Handler.receive off payload tail ≠ .closed := by
  unfold Handler.receive
  split
  · simp
  · split
    · simp
    · omega

/-- **What one step of a session keeps** when no other is under way. -/
theorem Session.InStep.step {t' : Session} {c : Choice} (hs : s.Prefixed)
    (hcarries : t.Carries s.leader) (ht : t.InStep s) (hstep : t.step s c = some (s', t')) :
    s'.Prefixed ∧ t'.InStep s' := by
  unfold Session.step at hstep
  split at hstep
  · cases hstep
    exact ⟨hs, Nat.zero_le _⟩
  · obtain ⟨payload, hread, heq⟩ := Option.map_eq_some_iff.mp hstep
    cases heq
    exact ⟨hs, ht⟩
  · rename_i next off payload
    cases hstep
    refine ⟨hs, ?_⟩
    obtain ⟨rfl, -⟩ := hcarries
    have hle : off ≤ s.shard.tail := ht
    unfold Handler.receive
    split
    · rename_i hlt
      exact ⟨Nat.succ_pos off, hlt⟩
    · split
      · rename_i heq
        exact congrArg (· + 1) heq
      · trivial
  · rename_i next payload a d
    obtain ⟨⟨sh, a'⟩, ha, heq⟩ := Option.map_eq_some_iff.mp hstep
    cases heq
    obtain ⟨hwrote, hnot⟩ := Appending.step_records ha
    cases hwrote with
    | nothing hwriting hrecords =>
      have hfailed : ∀ err, a ≠ .failed err := by
        rintro err rfl
        cases ha
      obtain ⟨hpos, hle⟩ := ht.appending hwriting hfailed
      exact ⟨⟨hrecords ▸ hs.records, hs.acks⟩,
        inStep_appending hnot hpos (by simpa [Shard.tail, hrecords] using hle)⟩
    | refused _ err _ hfailed hrecords =>
      rw [hfailed]
      exact ⟨⟨hrecords ▸ hs.records, hs.acks⟩, trivial⟩
    | record payload' hwriting _ hrecords =>
      cases hcarries.2 payload' hwriting
      subst hwriting
      have hnext : next = s.shard.tail + 1 := ht
      have hentry : s.leader[s.shard.tail]? = some payload := by
        have := hcarries.1
        rwa [hnext, Nat.add_sub_cancel] at this
      refine ⟨⟨?_, hs.acks⟩, inStep_appending hnot (by omega) ?_⟩
      · rw [hrecords]
        exact prefix_concat hs.records hentry
      · simp [Shard.tail, hrecords, hnext]
  · cases hstep
    exact ⟨hs, ht⟩
  · cases hstep
    exact ⟨hs, trivial⟩
  · cases hstep
    have hlast : 0 < s.shard.tail := Nat.lt_of_lt_of_le ht.1 ht.2
    refine ⟨⟨hs.records, ?_⟩, ht.2⟩
    intro last held hack
    rcases List.mem_append.mp hack with hack | hack
    · exact hs.acks last held hack
    · cases List.mem_singleton.mp hack
      exact ⟨List.ne_nil_of_length_pos hlast, (UInt64.ofNat_sub hlast).symm⟩
  · cases hstep
    exact ⟨hs, trivial⟩
  · cases hstep
    exact ⟨hs, trivial⟩
  · cases hstep

/-- The invariant of sessions that do not overlap. -/
theorem replication_inStep {file : List Payload} (hfile : file <+: leader)
    {w : World Replica Session} (h : replication.Runs oneAtATime ⟨Replica.init leader file, []⟩ w) :
    Holds Replica.Prefixed (fun s t => t.Carries s.leader ∧ t.InStep s) (fun _ _ => True) w := by
  refine Program.Runs.local_invariant (fun _ _ _ => trivial)
    (holds_idle ⟨hfile, by rintro _ _ ⟨⟩⟩) ?_ ?_ ?_ h
  · exact fun _ _ _ => ⟨⟨trivial, trivial⟩, fun _ _ => trivial⟩
  · intro s t c s' t' hs ht _ hstep
    obtain ⟨hleader, hcarries, -⟩ := Session.step_spec ht.1 hstep
    obtain ⟨hs', ht'⟩ := ht.2.step hs ht.1 hstep
    rw [hleader]
    exact ⟨⟨hs', hcarries, ht'⟩, fun u hu _ hidle => ⟨⟨hu.1, hidle.inStep⟩, trivial⟩⟩
  · intro s payload s' hs _ henv
    cases henv
    refine ⟨⟨hs.records.trans (List.prefix_append _ _), hs.acks⟩, ?_⟩
    rintro u ⟨hcarries, hu⟩
    refine ⟨hcarries.grow, ?_⟩
    cases u with
    | dialing => trivial
    | streaming next handler => exact hu

/-- What a follower owes its leader. -/
structure Replicated (w : World Replica Session) : Prop where
  /-- The follower's log is a beginning of the leader's. -/
  records : w.shared.shard.records <+: w.shared.leader
  /-- A handler that has received an entry does not find a gap. -/
  noGap : ∀ next off payload, .streaming next (.received off payload) ∈ w.threads →
    Handler.receive off payload w.shared.shard.tail ≠ .closed
  /-- Every acknowledgement names the last record of the log that was held. -/
  acks : ∀ last held, (last, held) ∈ w.shared.acks →
    held ≠ [] ∧ last = UInt64.ofNat (held.length - 1)
  /-- A session whose handler has worked off the whole log leaves the two logs equal. -/
  whole : .streaming w.shared.leader.length .receiving ∈ w.threads →
    w.shared.shard.records = w.shared.leader

/-- **The follower's log is a beginning of the leader's.**  For any log of the leader, which
grows, a follower that starts with a beginning of it, and any sessions that do not overlap and
break off anywhere. -/
theorem follower_prefix (leader file : List Payload) (hfile : file <+: leader)
    (w : World Replica Session)
    (h : replication.Runs oneAtATime ⟨Replica.init leader file, []⟩ w) : Replicated w := by
  have hw := replication_inStep hfile h
  have heach : ∀ t ∈ w.threads, t.InStep w.shared := fun t ht => (hw.of_mem ht).2
  refine ⟨hw.shared.records, ?_, hw.shared.acks, ?_⟩
  · intro next off payload ht
    exact Handler.receive_ne_closed (heach _ ht) payload
  · intro ht
    exact hw.shared.records.eq_of_length_le (heach _ ht)

/-- A session breaks off after one record, the leader's log grows, and another session streams
it. -/
def twoSessions : List (Act Unit Choice Payload) :=
  List.flatten [[.spawn (), .run 0 .go], receiveOn 0, applyOn 0,
    [.run 0 .cancel, .env [2], .spawn (), .run 1 .go], receiveOn 1, [.run 1 .go], receiveOn 1,
    applyOn 1]

theorem follower_prefix_twoSessions :
    ∃ w, replication.Runs oneAtATime ⟨Replica.init [[1]] [], []⟩ w ∧
      w.shared.shard.records = [[1], [2]] ∧
      w.shared.acks = [(0, [[1]]), (0, [[1]]), (1, [[1], [2]])] ∧ Replicated w := by
  have hrun : (replication.execIf oneAtATime ⟨Replica.init [[1]] [], []⟩ twoSessions).map
      (fun w => (w.shared.shard.records, w.shared.acks)) =
        some ([[1], [2]], [(0, [[1]]), (0, [[1]]), (1, [[1], [2]])]) := by
    decide +kernel
  obtain ⟨w, hw, heq⟩ := Option.map_eq_some_iff.mp hrun
  rw [Prod.mk.injEq] at heq
  have hruns := Program.Runs.refl.execIf _ hw
  exact ⟨w, hruns, heq.1, heq.2, follower_prefix [[1]] [] List.nil_prefix w hruns⟩

end AgentBus.Cluster
