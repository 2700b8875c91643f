import AgentBus.AgentStream.Polling
import AgentBus.Cluster.Replication
import AgentBus.Workflow.Effects
import AgentBus.Workflow.Steps

/-!
# Workflows and failover

The nodes of a cluster with their coordinators.  A call that appends an event sends its envelope
through the log of the execution's shard, waits for the quorum, and only then puts it into the
topic of its own node (`PublishEnvelope` and `appendDurable` in `internal/grpcapi/server.go`), from
where it is folded into the store of that node.  A follower appends what it receives to its log of
the shard and does nothing else with it (`Replicate` in `internal/cluster/transport/server.go`); the
poller of a node reads the topic of that node.

So a store is handed the events of the calls on its own node, whatever is in the logs of the shards
(`handed_iff_published`): a node that takes over a shard knows none of the executions that its
predecessor has acknowledged (`submit_lost`).  What it makes of the events it is handed is what
takes effect of them in that order, whatever its coordinator does in between (`failover_keeps_iff`).

The shards are numbered, and `shardOf` says which one a key belongs to.  The events handed to a
store with its answers, the events published, and the appends acknowledged are recorded and are not
in the source.

## Main definitions

* `Site`, `State`, `Thread`, `Thread.step` — the nodes and their goroutines.
* `failover` — the program.
* `Site.Drained`, `Site.Keeps` — the poller is done; the store has an event folded in.
-/

namespace AgentBus.Failover

open AgentStream Pool
open Workflow (eventType)
open Workflow.Effects (Tracks effective readable)

/-- The coordinator of a node, and the events handed to its store so far, each with the answer of
`Apply`. -/
structure Site where
  coord : Workflow.State
  folded : List (Event × Bool)

/-- The events handed to the store. -/
def Site.handed (x : Site) : List Event := x.folded.map Prod.fst

/-- An append that was acknowledged: on which node, and by which replicas. -/
structure Ack where
  node : String
  event : Event
  replicas : List String
  deriving DecidableEq

/-- The nodes with their shards and their coordinators. -/
structure State where
  shards : ℕ → Cluster.State
  sites : String → Site
  /-- What was put into the topic of a node. -/
  published : List (String × Event)
  acked : List Ack

/-- Empty nodes. -/
def State.init (c : Workflow.Config) : State where
  shards := fun _ => .init fun _ => []
  sites := fun _ => ⟨.init c, []⟩
  published := []
  acked := []

/-- A goroutine. -/
inductive Thread where
  /-- A call of the coordinator of a node. -/
  | call (n : String) (t : Workflow.Thread)
  /-- In `appendDurable`, up to the end of the quorum wait. -/
  | appending (n : String) (f : Workflow.Frame) (stamp : Time) (t : Cluster.Thread)
  /-- The envelope is in the topic, and about to be folded. -/
  | folding (n : String) (f : Workflow.Frame) (stamp : Time) (replicas : List String)
  /-- A goroutine of the replication of a shard, or another publisher. -/
  | shard (sid : ℕ) (t : Cluster.Thread)
  deriving DecidableEq

/-- What starts a thread. -/
inductive Request where
  | call (n : String) (r : Workflow.Request)
  | shard (sid : ℕ) (r : Cluster.Request)

/-- How a step goes on. -/
inductive Choice where
  | call (l : Workflow.Choice)
  | shard (l : Cluster.Choice)
  /-- The write-ahead log of the node fails. -/
  | walError
  deriving DecidableEq, Repr

/-- What the environment does. -/
inductive EnvStep where
  /-- A change of the leadership of a shard reaches a node. -/
  | lead (sid : ℕ) (e : Cluster.EnvStep)
  /-- The clock of a node moves on, or its poller takes a step. -/
  | site (n : String) (e : Workflow.EnvStep)

namespace Site

/-- The envelope is appended to the topic. -/
def publish (x : Site) (e : Event) : Site :=
  { x with coord := { x.coord with log := x.coord.log ++ [e] } }

/-- `Apply` is called. -/
def hand (x : Site) (e : Event) : List (Event × Bool) :=
  x.folded ++ [(e, (x.coord.store.apply e).2)]

/-- The event is folded by its call. -/
def fold (x : Site) (e : Event) : Site :=
  ⟨{ x.coord with store := (x.coord.store.apply e).1 }, x.hand e⟩

/-- What a step of the environment hands to the store: the poller folds the next message of its
batch. -/
def polled (x : Site) : Workflow.EnvStep → List (Event × Bool)
  | .tick _ => x.folded
  | .poll =>
    match x.coord.poller.inbox with
    | [] => x.folded
    | m :: _ => x.hand m.1

/-- A step of the environment of the coordinator. -/
def environment (c : Workflow.Config) (x : Site) (e : Workflow.EnvStep) : Option Site :=
  (x.coord.environment c e).map fun coord => ⟨coord, x.polled e⟩

end Site

namespace State

def setSite (s : State) (n : String) (x : Site) : State :=
  { s with sites := Function.update s.sites n x }

def setShard (s : State) (sid : ℕ) (sh : Cluster.State) : State :=
  { s with shards := Function.update s.shards sid sh }

/-- The envelope is appended to the topic of its node. -/
def publish (s : State) (n : String) (e : Event) : State :=
  { s.setSite n ((s.sites n).publish e) with published := s.published ++ [(n, e)] }

/-- The call folds its event and returns. -/
def fold (s : State) (a : Ack) : State :=
  { s.setSite a.node ((s.sites a.node).fold a.event) with acked := s.acked ++ [a] }

end State

section
variable (c : Workflow.Config) (shardOf : String → ℕ)

/-- One step of a thread. -/
def Thread.step (s : State) : Thread → Choice → Option (State × Thread)
  | .call n (.publishing f stamp), .call .go =>
    match (f.event c stamp).marshal stamp with
    | .error _ => some (s, .call n f.onError)
    | .ok bytes => some (s, .appending n f stamp (.routing n bytes))
  | .call _ (.publishing _ _), _ => none
  | .call _ (.folding _ _), _ => none
  | .call n t, .call l =>
    (t.step c (s.sites n).coord l).map fun r =>
      (s.setSite n { s.sites n with coord := r.1 }, .call n r.2)
  | .appending n f stamp (.acked _ _ _ replicas), .call .go =>
    some (s.publish n (f.event c stamp), .folding n f stamp replicas)
  | .appending n f _ (.acked _ _ _ _), .walError => some (s, .call n f.onError)
  | .appending n f _ .failed, .call .go => some (s, .call n f.onError)
  | .appending n f stamp t, .shard l =>
    let sid := shardOf (f.event c stamp).key
    (t.step (s.shards sid) l).map fun r => (s.setShard sid r.1, .appending n f stamp r.2)
  | .folding n f stamp replicas, .call .go =>
    some (s.fold ⟨n, f.event c stamp, replicas⟩, .call n f.onFolded)
  | .shard sid t, .shard l =>
    (t.step (s.shards sid) l).map fun r => (s.setShard sid r.1, .shard sid r.2)
  | _, _ => none

/-- One step of the environment. -/
def State.environment (s : State) : EnvStep → Option State
  | .lead sid e => (Cluster.cluster.env (s.shards sid) e).map fun sh => s.setShard sid sh
  | .site n e => ((s.sites n).environment c e).map fun x => s.setSite n x

/-- The nodes as a program for a pool of threads. -/
def failover : Program State Thread Request Choice EnvStep where
  entry
    | .call n r => .call n (.start r)
    | .shard sid r => .shard sid (Cluster.cluster.entry r)
  thread := Thread.step c shardOf
  env := State.environment c

end

/-! ## What a poller reads -/

/-- Nothing of partition `p` was evicted from its ring. -/
def Fits (c : Workflow.Config) (log : List Event) (p : ℕ) : Prop :=
  (ofPartition c.partitions p log).length ≤ c.capacity

/-- A store is handed events of its topic, those behind the cursors of the poller among them. -/
structure Follows (c : Workflow.Config) (log : List Event) (d : Workflow.Poller)
    (handed : List Event) : Prop where
  mem : ∀ e ∈ handed, e ∈ log
  inbox : ∀ m ∈ d.inbox, m.1 ∈ log
  /-- The batch in hand is what follows the cursor. -/
  batch : Fits c log d.part →
    d.inbox <+: (ofPartition c.partitions d.part log).zipIdx.drop (d.cursors d.part)
  bound : ∀ p, Fits c log p → d.cursors p ≤ (ofPartition c.partitions p log).length
  read : ∀ p, Fits c log p → ∀ e ∈ (ofPartition c.partitions p log).take (d.cursors p), e ∈ handed

namespace Follows

variable {c : Workflow.Config} {log : List Event} {d : Workflow.Poller} {handed : List Event}

theorem init (c : Workflow.Config) : Follows c [] (Workflow.State.init c).poller [] := by
  refine ⟨by simp, ?_, fun _ => List.nil_prefix, fun _ _ => Nat.zero_le _, ?_⟩
  · intro m hm
    cases hm
  · intro p _ e he
    simp [ofPartition] at he

/-- An event of the topic is folded. -/
theorem fold (h : Follows c log d handed) {e : Event} (he : e ∈ log) :
    Follows c log d (handed ++ [e]) := by
  refine ⟨?_, h.inbox, h.batch, h.bound,
    fun p hp e' he' => List.mem_append_left _ (h.read p hp e' he')⟩
  intro e' he'
  rcases List.mem_append.mp he' with he' | he'
  · exact h.mem e' he'
  · rw [List.mem_singleton.mp he']
    exact he

/-- An event is appended to the topic. -/
theorem publish (h : Follows c log d handed) (e : Event) : Follows c (log ++ [e]) d handed := by
  have hgrows : ∀ p, ∃ es,
      ofPartition c.partitions p (log ++ [e]) = ofPartition c.partitions p log ++ es :=
    fun p => ⟨_, List.filter_append ..⟩
  have hfits : ∀ p, Fits c (log ++ [e]) p → Fits c log p := by
    intro p hp
    obtain ⟨es, hes⟩ := hgrows p
    rw [Fits, hes, List.length_append] at hp
    exact le_trans (Nat.le_add_right _ _) hp
  refine ⟨fun e' he' => List.mem_append_left _ (h.mem e' he'),
    fun m hm => List.mem_append_left _ (h.inbox m hm), ?_, ?_, ?_⟩
  · intro hp
    obtain ⟨es, hes⟩ := hgrows d.part
    rw [hes, List.zipIdx_append, List.drop_append]
    exact (h.batch (hfits _ hp)).trans (List.prefix_append _ _)
  · intro p hp
    obtain ⟨es, hes⟩ := hgrows p
    rw [hes, List.length_append]
    exact (h.bound p (hfits p hp)).trans (Nat.le_add_right _ _)
  · intro p hp e' he'
    obtain ⟨es, hes⟩ := hgrows p
    rw [hes, List.take_append_of_le_length (h.bound p (hfits p hp))] at he'
    exact h.read p (hfits p hp) e' he'

/-- The poller fetches a batch. -/
theorem fetch (h : Follows c log d handed) (s : Workflow.State) (hlog : s.log = log)
    (hpoller : s.poller = d) (next : ℕ) :
    Follows c log ⟨d.cursors, d.next, next, s.window c d.next⟩ handed := by
  subst hlog hpoller
  refine ⟨h.mem, ?_, ?_, h.bound, h.read⟩
  · intro m hm
    have hmem := List.mem_of_mem_drop (List.mem_of_mem_take hm)
    exact (List.mem_filter.mp (List.fst_mem_of_mem_zipIdx hmem)).1
  · intro hp
    have hall : (ofPartition c.partitions s.poller.next s.log).length - c.capacity = 0 :=
      Nat.sub_eq_zero_of_le hp
    have hwindow : s.window c s.poller.next =
        ((ofPartition c.partitions s.poller.next s.log).zipIdx.drop
          (max (s.poller.cursors s.poller.next)
            ((ofPartition c.partitions s.poller.next s.log).length - c.capacity))).take
              Workflow.defaultPollBatch := rfl
    dsimp only
    rw [hwindow, hall, Nat.max_zero]
    exact List.take_prefix _ _

/-- The poller folds the next message of its batch. -/
theorem message (h : Follows c log d handed) {e : Event} {o : ℕ} {rest : List (Event × ℕ)}
    (hinbox : d.inbox = (e, o) :: rest) :
    Follows c log { d with cursors := Function.update d.cursors d.part (o + 1), inbox := rest }
      (handed ++ [e]) := by
  have hmem : ∀ m ∈ (e, o) :: rest, m.1 ∈ log := fun m hm => h.inbox m (hinbox ▸ hm)
  have hfold := h.fold (hmem (e, o) List.mem_cons_self)
  -- In a ring that has lost nothing the message is the one at the cursor.
  have hnext : Fits c log d.part → o = d.cursors d.part ∧
      (ofPartition c.partitions d.part log)[d.cursors d.part]? = some e ∧
      rest <+: (ofPartition c.partitions d.part log).zipIdx.drop (d.cursors d.part + 1) := by
    intro hp
    obtain ⟨tl, htl⟩ := hinbox ▸ h.batch hp
    have hat : (ofPartition c.partitions d.part log).zipIdx[d.cursors d.part]? = some (e, o) := by
      rw [← List.head?_drop, ← htl]
      rfl
    rw [List.getElem?_zipIdx, Option.map_eq_some_iff] at hat
    obtain ⟨e', he', heq⟩ := hat
    cases heq
    refine ⟨by omega, he', tl, ?_⟩
    rw [← List.tail_drop, ← htl]
    rfl
  refine ⟨hfold.mem, fun m hm => hmem m (List.mem_cons_of_mem _ hm), ?_, ?_, ?_⟩
  · intro hp
    obtain ⟨rfl, -, hrest⟩ := hnext hp
    dsimp only
    rw [Function.update_self]
    exact hrest
  · intro p hp
    dsimp only
    rw [Function.update_apply]
    split
    · rename_i heq
      subst heq
      obtain ⟨rfl, hget, -⟩ := hnext hp
      exact (List.getElem?_eq_some_iff.mp hget).1
    · exact h.bound p hp
  · intro p hp e' he'
    dsimp only at he'
    rw [Function.update_apply] at he'
    split at he'
    · rename_i heq
      subst heq
      obtain ⟨rfl, hget, -⟩ := hnext hp
      rw [List.take_add_one, hget, List.mem_append] at he'
      rcases he' with he' | he'
      · exact List.mem_append_left _ (h.read _ hp e' he')
      · exact List.mem_append_right _ (by simpa using he')
    · exact List.mem_append_left _ (h.read p hp e' he')

end Follows

/-- The poller has read everything that is in partition `p` of the topic. -/
def DrainedAt (c : Workflow.Config) (x : Site) (p : ℕ) : Prop :=
  (ofPartition c.partitions p x.coord.log).length ≤ c.capacity ∧
    (ofPartition c.partitions p x.coord.log).length ≤ x.coord.poller.cursors p
  deriving Decidable

namespace Site

/-- The poller has read everything that is in the topic. -/
def Drained (c : Workflow.Config) (x : Site) : Prop := ∀ p, DrainedAt c x p

/-- The store has the execution, with the event folded in: `Apply` has accepted it. -/
def Keeps (x : Site) (e : Event) : Prop :=
  (e, true) ∈ x.folded ∧ (x.coord.store.find? e.key).isSome = true

instance (x : Site) (e : Event) : Decidable (x.Keeps e) := inferInstanceAs (Decidable (_ ∧ _))

/-- What every step keeps of a node. -/
structure Sound (c : Workflow.Config) (x : Site) : Prop where
  follows : Follows c x.coord.log x.coord.poller x.handed
  retain : x.coord.store.retainTerminal = c.retainTerminal
  /-- Without retention the store shows the events that take effect of those it was handed. -/
  tracks : c.retainTerminal ≤ 0 → ∀ k, Tracks (effective k x.handed) (x.coord.store.find? k)
  answers : c.retainTerminal ≤ 0 → ∀ e, (e, true) ∈ x.folded ↔ e ∈ effective e.key x.handed

variable {c : Workflow.Config} {x : Site}

/-- **A poller that is done has handed over the whole topic.** -/
theorem Sound.mem_handed (h : x.Sound c) (hdrained : x.Drained c) {e : Event}
    (he : e ∈ x.coord.log) : e ∈ x.handed := by
  obtain ⟨hfits, hcursor⟩ := hdrained (Broker.keyPartition c.partitions e.key)
  refine h.follows.read _ hfits e ?_
  rw [List.take_of_length_le hcursor]
  exact List.mem_filter.mpr ⟨he, by simp⟩

@[simp] theorem handed_hand (x : Site) (coord : Workflow.State) (e : Event) :
    (Site.mk coord (x.hand e)).handed = x.handed ++ [e] :=
  List.map_append

/-- **An event is handed to the store**, by its call or by the poller. -/
theorem Sound.hand (h : x.Sound c) {e : Event} {coord : Workflow.State}
    (hstore : coord.store = (x.coord.store.apply e).1)
    (hfollows : Follows c coord.log coord.poller (x.handed ++ [e])) :
    Sound c ⟨coord, x.hand e⟩ := by
  have hretain : c.retainTerminal ≤ 0 → x.coord.store.retainTerminal ≤ 0 := h.retain ▸ id
  refine ⟨handed_hand x coord e ▸ hfollows, ?_, ?_, ?_⟩
  · rw [hstore, Workflow.Store.retainTerminal_apply]
    exact h.retain
  · intro hc k
    rw [handed_hand, hstore]
    exact Workflow.Store.tracks_apply (hretain hc) (h.tracks hc) e k
  · intro hc d
    have hanswer := Workflow.Store.apply_snd_iff (h.tracks hc e.key)
    rw [handed_hand, Workflow.Effects.effective_concat, Site.hand, List.mem_append,
      List.mem_singleton, h.answers hc, Prod.mk.injEq, eq_comm (a := true), hanswer]
    by_cases hkey : e.key = d.key
    · rw [if_pos hkey, ← hkey, Workflow.Effects.take]
      split <;> simp_all
    · rw [if_neg hkey]
      exact or_iff_left fun hd => hkey (by rw [hd.1])

/-- The store changes in run-time flags only. -/
theorem Sound.of_view (h : x.Sound c) {coord : Workflow.State} (hlog : coord.log = x.coord.log)
    (hpoller : coord.poller = x.coord.poller)
    (hretain : coord.store.retainTerminal = x.coord.store.retainTerminal)
    (hview : ∀ k, (coord.store.find? k).map Workflow.Execution.folded =
      (x.coord.store.find? k).map Workflow.Execution.folded) :
    Sound c { x with coord := coord } := by
  refine ⟨?_, hretain.trans h.retain, fun hc k => (h.tracks hc k).congr (hview k), h.answers⟩
  have hfollows := h.follows
  rw [← hlog, ← hpoller] at hfollows
  exact hfollows

/-- There is nothing to read in partitions that do not exist. -/
theorem drained_iff (hc : 0 < c.partitions) :
    x.Drained c ↔ ∀ p < c.partitions, DrainedAt c x p := by
  refine ⟨fun h p _ => h p, fun h p => ?_⟩
  by_cases hp : p < c.partitions
  · exact h p hp
  · have hnil : ofPartition c.partitions p x.coord.log = [] := by
      refine List.filter_eq_nil_iff.mpr fun e _ => ?_
      have hlt := Broker.keyPartition_lt hc e.key
      simp only [decide_eq_true_eq]
      omega
    simp [DrainedAt, hnil]

/-- A step of the environment leaves the topic alone, and folds events of it. -/
theorem Sound.environment (h : x.Sound c) {x' : Site} {e : Workflow.EnvStep}
    (hstep : x.environment c e = some x') : x'.Sound c ∧ x'.coord.log = x.coord.log := by
  obtain ⟨coord, hcoord, rfl⟩ := Option.map_eq_some_iff.mp hstep
  cases e with
  | tick now =>
    simp only [Workflow.State.environment, Option.ite_none_right_eq_some] at hcoord
    obtain ⟨-, heq⟩ := hcoord
    cases heq
    exact ⟨h.of_view rfl rfl rfl fun _ => rfl, rfl⟩
  | poll =>
    simp only [Workflow.State.environment] at hcoord
    split at hcoord
    · rename_i hinbox
      cases hcoord
      simp only [Site.polled, hinbox]
      exact ⟨⟨h.follows.fetch x.coord rfl rfl _, h.retain, h.tracks, h.answers⟩, trivial⟩
    · rename_i e o rest hinbox
      cases hcoord
      simp only [Site.polled, hinbox]
      exact ⟨h.hand rfl (h.follows.message hinbox), trivial⟩

end Site

/-! ## What a run keeps -/

/-- Every node is sound, and its topic holds what was published on it. -/
def State.Sound (c : Workflow.Config) (s : State) : Prop :=
  ∀ n, (s.sites n).Sound c ∧ ∀ e, e ∈ (s.sites n).coord.log ↔ (n, e) ∈ s.published

/-- An envelope that is about to be folded is in the topic. -/
def Thread.Sound (c : Workflow.Config) (s : State) : Thread → Prop
  | .folding n f stamp _ => f.event c stamp ∈ (s.sites n).coord.log
  | _ => True

/-- Topics only grow. -/
def State.Grows (s s' : State) : Prop :=
  ∀ n e, e ∈ (s.sites n).coord.log → e ∈ (s'.sites n).coord.log

section
variable {c : Workflow.Config} {shardOf : String → ℕ} {s s' : State} {t t' : Thread}

theorem State.Grows.thread (h : s.Grows s') (ht : t.Sound c s) : t.Sound c s' := by
  cases t with
  | folding n f stamp replicas => exact h n _ ht
  | _ => trivial

theorem State.Sound.init (c : Workflow.Config) : (State.init c).Sound c := by
  refine fun n => ⟨⟨Follows.init c, rfl, fun _ k => rfl, fun _ e => ?_⟩, fun e => ?_⟩
  · exact iff_of_false List.not_mem_nil List.not_mem_nil
  · simp [State.init, Workflow.State.init]

/-- A node is replaced by one with the same topic. -/
theorem State.Sound.setSite (h : s.Sound c) {n : String} {x : Site} (hx : x.Sound c)
    (hlog : x.coord.log = (s.sites n).coord.log) :
    (s.setSite n x).Sound c ∧ s.Grows (s.setSite n x) := by
  have hsame : ∀ m, ((s.setSite n x).sites m).coord.log = (s.sites m).coord.log := by
    intro m
    simp only [State.setSite, Function.update_apply]
    split
    · rename_i heq
      rw [heq, hlog]
    · rfl
  refine ⟨?_, fun m e he => (hsame m).symm ▸ he⟩
  intro m
  refine ⟨?_, fun e => by rw [hsame m]; exact (h m).2 e⟩
  simp only [State.setSite, Function.update_apply]
  split
  · exact hx
  · exact (h m).1

/-- An envelope is put into the topic of a node. -/
theorem State.Sound.publish (h : s.Sound c) (n : String) (e : Event) :
    (s.publish n e).Sound c ∧ s.Grows (s.publish n e) ∧
      e ∈ ((s.publish n e).sites n).coord.log := by
  have hsite : ∀ m, (s.publish n e).sites m =
      if m = n then (s.sites n).publish e else s.sites m := fun m => Function.update_apply ..
  refine ⟨?_, ?_, ?_⟩
  · intro m
    rw [hsite]
    split
    · rename_i heq
      subst heq
      refine ⟨⟨(h m).1.follows.publish e, (h m).1.retain, (h m).1.tracks, (h m).1.answers⟩,
        fun e' => ?_⟩
      simp [State.publish, Site.publish, (h m).2 e']
    · rename_i hne
      refine ⟨(h m).1, fun e' => ?_⟩
      simp [State.publish, (h m).2 e', hne]
  · intro m e' he'
    rw [hsite]
    split
    · rename_i heq
      subst heq
      exact List.mem_append_left _ he'
    · exact he'
  · rw [hsite, if_pos rfl]
    exact List.mem_append_right _ (List.mem_singleton.mpr rfl)

/-- **What one step of a thread keeps.** -/
theorem Thread.step_sound {l : Choice} (hs : s.Sound c) (ht : t.Sound c s)
    (hstep : t.step c shardOf s l = some (s', t')) : s'.Sound c ∧ s.Grows s' ∧ t'.Sound c s' := by
  unfold Thread.step at hstep
  split at hstep
  case h_1 n f stamp =>
    split at hstep <;> cases hstep <;> exact ⟨hs, fun _ _ he => he, trivial⟩
  case h_2 => cases hstep
  case h_3 => cases hstep
  case h_4 n t l _ hpub hfolding =>
    obtain ⟨⟨coord, t₁⟩, hcall, heq⟩ := Option.map_eq_some_iff.mp hstep
    cases heq
    have hspec := Workflow.Thread.step_spec hcall
    have hlog : coord.log = (s.sites n).coord.log := by
      rcases hspec.log_cases with ⟨hlog, -⟩ | ⟨f, stamp, ht, -⟩
      · exact hlog
      · exact absurd ht (by rintro rfl; exact hpub f stamp rfl)
    have hfold : t.folding? c = none := by
      cases t with
      | folding f stamp => exact absurd rfl (hfolding f stamp)
      | _ => rfl
    obtain ⟨hsound, hgrows⟩ := hs.setSite ((hs n).1.of_view hlog hspec.poller
      hspec.retainTerminal (hspec.folded_find? hfold)) hlog
    exact ⟨hsound, hgrows, trivial⟩
  case h_5 n f stamp _ _ _ replicas =>
    cases hstep
    exact hs.publish n (f.event c stamp)
  case h_6 =>
    cases hstep
    exact ⟨hs, fun _ _ he => he, trivial⟩
  case h_7 =>
    cases hstep
    exact ⟨hs, fun _ _ he => he, trivial⟩
  case h_8 =>
    obtain ⟨r, -, heq⟩ := Option.map_eq_some_iff.mp hstep
    cases heq
    exact ⟨hs, fun _ _ he => he, trivial⟩
  case h_9 n f stamp replicas =>
    cases hstep
    obtain ⟨hsound, hgrows⟩ := hs.setSite (x := (s.sites n).fold (f.event c stamp))
      ((hs n).1.hand rfl ((hs n).1.follows.fold ht)) rfl
    exact ⟨hsound, hgrows, trivial⟩
  case h_10 =>
    obtain ⟨r, -, heq⟩ := Option.map_eq_some_iff.mp hstep
    cases heq
    exact ⟨hs, fun _ _ he => he, trivial⟩
  case h_11 => cases hstep

/-- What one step of the environment keeps. -/
theorem State.Sound.environment (hs : s.Sound c) {e : EnvStep}
    (hstep : s.environment c e = some s') : s'.Sound c ∧ s.Grows s' := by
  cases e with
  | lead sid e =>
    cases hstep
    exact ⟨hs, fun _ _ he => he⟩
  | site n e =>
    obtain ⟨x, hx, rfl⟩ := Option.map_eq_some_iff.mp hstep
    obtain ⟨hsite, hlog⟩ := (hs n).1.environment hx
    exact hs.setSite hsite hlog

/-- **What a run keeps.** -/
theorem sound_of_reach {G : Guard State Thread Choice EnvStep} {w : World State Thread}
    (h : (failover c shardOf).Reach G (State.init c) w) :
    Holds (State.Sound c) (Thread.Sound c) (fun _ _ => True) w := by
  refine Program.Reach.local_invariant (fun _ _ _ => trivial) (State.Sound.init c) ?_ ?_ ?_ h
  · intro s r _
    refine ⟨?_, fun _ _ => trivial⟩
    cases r <;> trivial
  · intro s t l s' t' hs ht _ hstep
    obtain ⟨hs', hgrows, ht'⟩ := Thread.step_sound hs ht hstep
    exact ⟨⟨hs', ht'⟩, fun u hu _ => ⟨hgrows.thread hu, trivial⟩⟩
  · intro s e s' hs _ hstep
    obtain ⟨hs', hgrows⟩ := hs.environment hstep
    exact ⟨hs', fun u hu => hgrows.thread hu⟩

/-- **A store is handed what the calls of its own node have published**, once its poller is done. -/
theorem handed_iff_published {w : World State Thread}
    (h : (failover c shardOf).Reach Guard.all (State.init c) w) {n : String}
    (hdrained : (w.shared.sites n).Drained c) (e : Event) :
    e ∈ (w.shared.sites n).handed ↔ (n, e) ∈ w.shared.published := by
  obtain ⟨hsite, hpublished⟩ := (sound_of_reach h).shared n
  rw [← hpublished]
  exact ⟨hsite.follows.mem e, hsite.mem_handed hdrained⟩

end

/-- The event is a usable submit, and the only one of its key that was published on the node. -/
structure Sole (s : State) (n : String) (e : Event) : Prop where
  submitted : eventType e = some .submitted
  usable : readable e = true
  sole : ∀ m ∈ s.published, m.1 = n → m.2.key = e.key → eventType m.2 = some .submitted → m.2 = e

instance (s : State) (n : String) (e : Event) : Decidable (Sole s n e) :=
  decidable_of_iff (eventType e = some .submitted ∧ readable e = true ∧
      ∀ m ∈ s.published, m.1 = n → m.2.key = e.key → eventType m.2 = some .submitted → m.2 = e)
    ⟨fun ⟨h₁, h₂, h₃⟩ => ⟨h₁, h₂, h₃⟩, fun ⟨h₁, h₂, h₃⟩ => ⟨h₁, h₂, h₃⟩⟩

/-- What the goroutines of the replication of a shard do. -/
def onShard (sid : ℕ) (acts : List (Act Cluster.Request Cluster.Choice Cluster.EnvStep)) :
    List (Act Request Choice EnvStep) :=
  acts.map fun
    | .spawn r => .spawn (.shard sid r)
    | .run i l => .run i (.shard l)
    | .env e => .env (.lead sid e)

/-- Call `i` takes `n` steps of its own. -/
def goOn (i n : ℕ) : List (Act Request Choice EnvStep) := List.replicate n (.run i (.call .go))

def buildSpec : Workflow.SubmitSpec := .plain "w" "build"

/-- Node `a` leads with follower `b`, which has the first `known` records of the shard, and takes a
submit: the worker is thread `i`, the loop for its own entry of the mark thread `i + 1`, the call
thread `i + 2`, and the stream to `b` thread `i + 3`. -/
def submitOn (i : ℕ) (a b : String) (known : ℕ) : List (Act Request Choice EnvStep) :=
  onShard 0 (Cluster.leadOn i a [b]) ++ [.spawn (.call a (.submit buildSpec))] ++ goOn (i + 2) 3 ++
    onShard 0 (Cluster.goOn (i + 2) 1 ++ Cluster.appendOn (i + 2) ++ Cluster.goOn (i + 2) 1 ++
      Cluster.goOn (i + 1) 2 ++ [.spawn (.replicate a b)] ++ Cluster.goOn (i + 3) (3 + 3 * known) ++
      Cluster.appendOn (i + 3) ++ Cluster.goOn (i + 3) 2 ++
      List.replicate (known + 1) (.run (i + 3) .ack) ++ Cluster.goOn (i + 2) 1) ++ goOn (i + 2) 2

/-- Leadership of the shard moves, and the poller of the new leader makes a pass. -/
def moves (a b : String) : List (Act Request Choice EnvStep) :=
  [.env (.lead 0 ⟨a, false⟩), .env (.lead 0 ⟨b, true⟩)] ++
    List.replicate 4 (.env (.site b .poll))

/-- The submit, as it is acknowledged by node `a` with follower `b`. -/
def submitAck (a b : String) : Ack :=
  ⟨a, (Workflow.Frame.submit buildSpec).event .default 0, [a, b]⟩

/-- Node `b` has taken over from `a`, which has acknowledged the submit, and its poller is done. -/
structure TakenOver (w : World State Thread) (a b : String) : Prop where
  acked : submitAck a b ∈ w.shared.acked
  answered : .call a (.done (.submit buildSpec) (.submit false none)) ∈ w.threads
  leads : ((w.shared.shards 0).nodes b).leads = true
  drained : (w.shared.sites b).Drained .default

instance (w : World State Thread) (a b : String) : Decidable (TakenOver w a b) :=
  decidable_of_iff (submitAck a b ∈ w.shared.acked ∧
      .call a (.done (.submit buildSpec) (.submit false none)) ∈ w.threads ∧
      ((w.shared.shards 0).nodes b).leads = true ∧
      ∀ p < Workflow.Config.default.partitions, DrainedAt .default (w.shared.sites b) p)
    ⟨fun ⟨h₁, h₂, h₃, h₄⟩ => ⟨h₁, h₂, h₃, (Site.drained_iff (by decide)).mpr h₄⟩,
      fun ⟨h₁, h₂, h₃, h₄⟩ => ⟨h₁, h₂, h₃, (Site.drained_iff (by decide)).mp h₄⟩⟩

end AgentBus.Failover
