import AgentBus.Cluster.Leadership
import AgentBus.Lib.Delimiters
import AgentBus.Lib.Machine
import AgentBus.Lib.Maps
import Mathlib.Data.String.Basic

/-!
# The refresh loop and its workers

`refreshShardLeadershipLoop` of `internal/cluster/cluster.go` keeps the shards it owns and the key
of the last followers next to the workers of the replicator.  Here a tick takes any shard leaders
and any list of followers, and visits the shards in any order; `Node.tick` is the tick whose
followers come from the member records (`Node.tick_eq`).

After every tick the workers that run are those of the shards the node leads, each with followers
of the key of this tick (`workers_track_leadership`).  Whether these are the followers of this tick
is another matter: the key is a text that depends on the order and has no escapes
(`key_of_order`, `followerSetKey_iff`).

## Main definitions

* `Replicator.Running` — a worker that was not cancelled.
* `Replicator.Placed` — the workers that run are those in place.
* `Loop.tick`, `Loop.step` — the loop, and what can happen.
* `Delimited` — a follower whose id and address do not contain the delimiters.
-/

namespace AgentBus.Cluster.Replicator

variable {r : Replicator} {s t : UInt32} {fs gs : List FollowerAddr}

/-! ## The workers that run -/

/-- A worker with these followers runs for the shard. -/
def Running (r : Replicator) (s : UInt32) (fs : List FollowerAddr) : Prop :=
  ∃ (i : ℕ) (w : Worker), r.workers[i]? = some w ∧ w.shardID = s ∧ w.followers = fs ∧
    w.cancelled = false

/-- A worker runs exactly when it is in place for its shard. -/
structure Placed (r : Replicator) : Prop where
  worker : ∀ s i, r.shards s = some i → ∃ w, r.workers[i]? = some w ∧ w.shardID = s
  running : ∀ i w, r.workers[i]? = some w → (w.cancelled = false ↔ r.shards w.shardID = some i)

theorem getElem?_cancel (r : Replicator) (s : UInt32) (i : ℕ) :
    (r.cancel s)[i]? = r.workers[i]?.map fun w =>
      if r.shards s = some i then { w with cancelled := true } else w := by
  unfold cancel
  split
  · rename_i j hj
    rw [List.getElem?_modify, hj]
    simp only [Option.some.injEq]
    rfl
  · rename_i hnone
    simp [hnone]

theorem placed_new (selfID : String) : (new selfID).Placed where
  worker s i h := by simp [new] at h
  running i w h := by simp [new] at h

theorem Placed.drop (h : r.Placed) (s : UInt32) : (r.drop s).Placed := by
  constructor
  · intro t i hi
    by_cases ht : t = s
    · simp [Replicator.drop, ht] at hi
    · rw [show (r.drop s).shards t = r.shards t from Function.update_of_ne ht ..] at hi
      obtain ⟨w, hw, rfl⟩ := h.worker t i hi
      refine ⟨_, (getElem?_cancel r s i).trans (congrArg _ hw), ?_⟩
      split <;> rfl
  · intro i w hw
    rw [show (r.drop s).workers = r.cancel s from rfl, getElem?_cancel] at hw
    obtain ⟨w₀, hw₀, rfl⟩ := Option.map_eq_some_iff.mp hw
    have hrun := h.running i w₀ hw₀
    by_cases hin : r.shards s = some i
    · obtain ⟨w₁, hw₁, hs⟩ := h.worker s i hin
      obtain rfl : w₁ = w₀ := Option.some.inj (hw₁.symm.trans hw₀)
      simp [hin, Replicator.drop, hs]
    · rw [if_neg hin, hrun]
      by_cases ht : w₀.shardID = s
      · simp [Replicator.drop, ht, hin]
      · simp [Replicator.drop, ht]

/-- A new worker at the end, put in place for its shard. -/
theorem Placed.push (h : r.Placed) (hs : r.shards s = none) (fs : List FollowerAddr) :
    ({ r with
      workers := r.workers ++ [⟨s, fs, false⟩]
      shards := Function.update r.shards s (some r.workers.length) } : Replicator).Placed := by
  constructor
  · intro t i hi
    by_cases ht : t = s
    · obtain rfl : r.workers.length = i := by simpa [ht] using hi
      exact ⟨⟨s, fs, false⟩, by simp, ht.symm⟩
    · obtain ⟨w, hw, hshard⟩ := h.worker t i (by simpa [ht] using hi)
      refine ⟨w, ?_, hshard⟩
      rw [List.getElem?_append_left (List.getElem?_eq_some_iff.mp hw).1]
      exact hw
  · intro i w hw
    by_cases hlt : i < r.workers.length
    · rw [List.getElem?_append_left hlt] at hw
      rw [h.running i w hw]
      by_cases ht : w.shardID = s
      · simp [ht, hs, hlt.ne']
      · simp [ht]
    · obtain rfl : i = r.workers.length := by
        have := (List.getElem?_eq_some_iff.mp hw).1
        simp only [List.length_append, List.length_singleton] at this
        omega
      rw [List.getElem?_concat_length] at hw
      cases hw
      simp

theorem Placed.add (h : r.Placed) (s : UInt32) (fs : List FollowerAddr) : (r.add s fs).Placed := by
  have hpush := (h.drop s).push (Function.update_self ..) fs
  simp only [Replicator.drop, length_cancel, Function.update_idem] at hpush
  exact hpush

@[simp] theorem serving_drop (t : UInt32) :
    (r.drop s).serving t = if t = s then none else r.serving t := by
  by_cases ht : t = s
  · simp [serving, drop, ht]
  · simp only [serving, drop, ht, Function.update_of_ne, ne_eq, not_false_eq_true, if_false,
      cancel_setFor]

theorem Placed.serving_add (h : r.Placed) (t : UInt32) :
    (r.add s fs).serving t = if t = s then some fs else r.serving t := by
  by_cases ht : t = s
  · rw [if_pos ht, ht]
    exact serving_add_self
  · rw [if_neg ht]
    simp only [serving, Replicator.add, Function.update_of_ne ht]
    cases hi : r.shards t with
    | none => rfl
    | some i =>
      obtain ⟨w, hw, -⟩ := h.worker t i hi
      exact add_setFor (List.getElem?_eq_some_iff.mp hw).1

/-- What a shard is served with is what runs for it. -/
theorem Placed.running_iff (h : r.Placed) : r.Running s fs ↔ r.serving s = some fs := by
  constructor
  · rintro ⟨i, w, hw, rfl, rfl, hrun⟩
    simp [serving, (h.running i w hw).mp hrun, hw, Worker.setFor]
  · intro hserving
    obtain ⟨i, hi, hset⟩ := Option.bind_eq_some_iff.mp hserving
    obtain ⟨w, hw, rfl⟩ := h.worker s i hi
    refine ⟨i, w, hw, rfl, ?_, (h.running i w hw).mpr hi⟩
    simpa [hw, Worker.setFor] using hset

/-! ## Several shards at once -/

theorem Placed.foldl_drop (h : r.Placed) (shards : List UInt32) :
    (shards.foldl Replicator.drop r).Placed ∧
      ∀ t, (shards.foldl Replicator.drop r).serving t =
        if t ∈ shards then none else r.serving t :=
  Maps.foldl_put Placed serving (fun _ hr s => ⟨hr.drop s, serving_drop⟩) shards h

theorem Placed.foldl_add (h : r.Placed) (fs : List FollowerAddr) (shards : List UInt32) :
    (shards.foldl (fun r s => r.add s fs) r).Placed ∧
      ∀ t, (shards.foldl (fun r s => r.add s fs) r).serving t =
        if t ∈ shards then some fs else r.serving t :=
  Maps.foldl_put Placed serving (fun _ hr s => ⟨hr.add s fs, hr.serving_add⟩) shards h

end AgentBus.Cluster.Replicator

namespace AgentBus.Leadership

open Cluster

/-! ## The loop -/

/-- The shards and the key that `refreshShardLeadershipLoop` keeps, with the replicator. -/
structure Loop where
  owned : List UInt32
  lastFollowerKey : String
  replicator : Replicator

namespace Loop

/-- Before the first tick. -/
def start (selfID : String) : Loop := ⟨[], "", .new selfID⟩

/-- One round, with these shard leaders and followers.  The shards that are dropped and the shards
the node leads are visited in the orders the maps of the source give them. -/
def tick (l : Loop) (fsm : FSM) (addrs : List FollowerAddr) (drops order : List UInt32) :
    Option Loop :=
  if drops.isPerm (l.owned.filter fun s => s ∉ fsm.ledBy l.replicator.selfID) ∧
      order.isPerm (fsm.ledBy l.replicator.selfID) then
    some
      { owned := order
        lastFollowerKey := followerSetKey addrs
        replicator :=
          (order.filter fun s => s ∉ l.owned ∨ followerSetKey addrs ≠ l.lastFollowerKey).foldl
            (fun r s => r.add s addrs) (drops.foldl Replicator.drop l.replicator) }
  else none

/-- What can happen: a tick, or a step of a worker's goroutine. -/
inductive Act where
  | tick (fsm : FSM) (addrs : List FollowerAddr) (drops order : List UInt32)
  | declare (i : ℕ)
  | update (shardID : UInt32) (replicaID : String) (offset : ℕ)

def step (l : Loop) : Act → Option Loop
  | .tick fsm addrs drops order => l.tick fsm addrs drops order
  | .declare i => (l.replicator.declare i).map fun r => { l with replicator := r }
  | .update shardID replicaID offset =>
    some { l with replicator := l.replicator.update shardID replicaID offset }

/-- The workers that run are in place, for the shards the loop owns, with followers of the last
key. -/
structure Sound (selfID : String) (l : Loop) : Prop where
  self : l.replicator.selfID = selfID
  placed : l.replicator.Placed
  owned : ∀ s, s ∈ l.owned ↔ ∃ fs, l.replicator.serving s = some fs
  key : ∀ s fs, l.replicator.serving s = some fs → followerSetKey fs = l.lastFollowerKey

end Loop

/-- The part of a node that its refresh loop works on. -/
def Node.loop (n : Node) : Loop := ⟨n.owned, n.lastFollowerKey, n.replicator⟩

/-- A tick of a node is one of the loop, with the followers of the member records. -/
theorem Node.tick_eq (n : Node) (order : List UInt32) :
    (n.tick order).map Node.loop = n.loop.tick n.fsm n.followers
      (n.owned.filter fun s => s ∉ n.fsm.ledBy n.replicator.selfID) order := by
  unfold Node.tick Loop.tick
  split
  · rename_i hperm
    have hdrops := List.isPerm_iff.mpr
      (List.Perm.refl (n.owned.filter fun s => s ∉ n.fsm.ledBy n.replicator.selfID))
    rw [if_pos ⟨hdrops, hperm⟩]
    rfl
  · rename_i hperm
    rw [if_neg fun hboth => hperm hboth.2]
    rfl

namespace FSM

@[simp] theorem mem_ledBy {f : FSM} {id : String} {s : UInt32} :
    s ∈ f.ledBy id ↔ f.shardLeaders.lookup s = some id := by
  rw [← Option.mem_def, AList.mem_lookup_iff, ledBy]
  simp only [List.mem_map, List.mem_filter, decide_eq_true_eq]
  constructor
  · rintro ⟨⟨s', id'⟩, ⟨hmem, rfl⟩, rfl⟩
    exact hmem
  · exact fun hmem => ⟨⟨s, id⟩, ⟨hmem, rfl⟩, rfl⟩

end FSM

namespace Loop

variable {selfID : String} {l l' : Loop} {fsm : FSM} {addrs : List FollowerAddr}
  {drops order : List UInt32}

theorem sound_start (selfID : String) : (start selfID).Sound selfID where
  self := rfl
  placed := Replicator.placed_new selfID
  owned s := by simp [start, Replicator.serving, Replicator.new]
  key s fs h := by simp [start, Replicator.serving, Replicator.new] at h

/-- What each shard is served with after a tick. -/
structure Ticks (l : Loop) (fsm : FSM) (addrs : List FollowerAddr) (l' : Loop) : Prop where
  self : l'.replicator.selfID = l.replicator.selfID
  placed : l'.replicator.Placed
  owned : ∀ s, s ∈ l'.owned ↔ s ∈ fsm.ledBy l.replicator.selfID
  key : l'.lastFollowerKey = followerSetKey addrs
  lost : ∀ s, s ∉ l'.owned → l'.replicator.serving s = none
  kept : ∀ s ∈ l'.owned, s ∈ l.owned → followerSetKey addrs = l.lastFollowerKey →
    l'.replicator.serving s = l.replicator.serving s
  started : ∀ s ∈ l'.owned, s ∉ l.owned ∨ followerSetKey addrs ≠ l.lastFollowerKey →
    l'.replicator.serving s = some addrs

theorem Sound.tick_spec (h : l.Sound selfID) (ht : l.tick fsm addrs drops order = some l') :
    l.Ticks fsm addrs l' := by
  unfold tick at ht
  split at ht
  · rename_i hperm
    cases ht
    have hdrops {s : UInt32} := (List.isPerm_iff.mp hperm.1).mem_iff (a := s)
    have horder {s : UInt32} := (List.isPerm_iff.mp hperm.2).mem_iff (a := s)
    obtain ⟨hdropped, hserving⟩ := h.placed.foldl_drop drops
    obtain ⟨hadded, hserving'⟩ := hdropped.foldl_add addrs
      (order.filter fun s => s ∉ l.owned ∨ followerSetKey addrs ≠ l.lastFollowerKey)
    have hnotDropped {s : UInt32} (hs : s ∈ order) : s ∉ drops := by
      rw [hdrops, List.mem_filter]
      exact fun hmem => absurd (horder.mp hs) (of_decide_eq_true hmem.2)
    refine ⟨?_, hadded, fun s => horder, rfl, fun s hs => ?_, fun s hs howned hkey => ?_,
      fun s hs hnew => ?_⟩
    · rw [Maps.foldl_frame Replicator.selfID, Maps.foldl_frame Replicator.selfID]
      · exact fun _ _ _ => rfl
      · exact fun _ _ _ => rfl
    · rw [hserving', if_neg fun hmem => hs (List.mem_filter.mp hmem).1, hserving]
      by_cases howned : s ∈ l.owned
      · refine if_pos (hdrops.mpr (List.mem_filter.mpr ⟨howned, decide_eq_true ?_⟩))
        exact fun hled => hs (horder.mpr hled)
      · rw [if_neg fun hmem => howned (List.mem_filter.mp (hdrops.mp hmem)).1]
        exact Option.eq_none_iff_forall_ne_some.mpr fun fs hfs =>
          howned ((h.owned s).mpr ⟨fs, hfs⟩)
    · rw [hserving', if_neg, hserving, if_neg (hnotDropped hs)]
      intro hmem
      rcases of_decide_eq_true (List.mem_filter.mp hmem).2 with hno | hno
      · exact hno howned
      · exact hno hkey
    · rw [hserving', if_pos (List.mem_filter.mpr ⟨hs, decide_eq_true hnew⟩)]
  · cases ht

theorem Sound.tick (h : l.Sound selfID) (ht : l.tick fsm addrs drops order = some l') :
    l'.Sound selfID := by
  have hspec := h.tick_spec ht
  have hserved (s : UInt32) (hs : s ∈ l'.owned) :
      ∃ fs, l'.replicator.serving s = some fs ∧ followerSetKey fs = l'.lastFollowerKey := by
    by_cases hkept : s ∈ l.owned ∧ followerSetKey addrs = l.lastFollowerKey
    · obtain ⟨fs, hfs⟩ := (h.owned s).mp hkept.1
      refine ⟨fs, (hspec.kept s hs hkept.1 hkept.2).trans hfs, ?_⟩
      rw [h.key s fs hfs, hspec.key, hkept.2]
    · refine ⟨addrs, hspec.started s hs ?_, hspec.key.symm⟩
      by_cases howned : s ∈ l.owned
      · exact .inr fun hkey => hkept ⟨howned, hkey⟩
      · exact .inl howned
  have howned (s : UInt32) (fs : List FollowerAddr) (hfs : l'.replicator.serving s = some fs) :
      s ∈ l'.owned := by
    by_contra hs
    rw [hspec.lost s hs] at hfs
    cases hfs
  refine ⟨hspec.self.trans h.self, hspec.placed, fun s => ⟨fun hs => ?_, ?_⟩, fun s fs hfs => ?_⟩
  · obtain ⟨fs, hfs, -⟩ := hserved s hs
    exact ⟨fs, hfs⟩
  · rintro ⟨fs, hfs⟩
    exact howned s fs hfs
  · obtain ⟨fs', hfs', hkey⟩ := hserved s (howned s fs hfs)
    rw [hfs] at hfs'
    rw [Option.some.inj hfs', hkey]

/-- A step of a goroutine leaves the workers as they are. -/
theorem Sound.of_workers (h : l.Sound selfID) {r : Replicator}
    (hself : r.selfID = l.replicator.selfID) (hworkers : r.workers = l.replicator.workers)
    (hshards : r.shards = l.replicator.shards) :
    ({ l with replicator := r } : Loop).Sound selfID := by
  have hserving (s : UInt32) : r.serving s = l.replicator.serving s := by
    simp only [Replicator.serving, hworkers, hshards]
  refine ⟨hself.trans h.self, ⟨?_, ?_⟩, fun s => ?_, fun s fs hfs => ?_⟩
  · rw [hworkers, hshards]
    exact h.placed.worker
  · rw [hworkers, hshards]
    exact h.placed.running
  · rw [hserving]
    exact h.owned s
  · exact h.key s fs (hserving s ▸ hfs)

theorem Sound.step {a : Act} (h : l.Sound selfID) (hstep : l.step a = some l') :
    l'.Sound selfID := by
  cases a with
  | tick fsm addrs drops order => exact h.tick hstep
  | declare i =>
    obtain ⟨r, hr, rfl⟩ := Option.map_eq_some_iff.mp hstep
    obtain ⟨w, hdecl⟩ := Replicator.declare_spec hr
    exact h.of_workers hdecl.selfID hdecl.workers hdecl.shards
  | update shardID replicaID offset =>
    cases hstep
    exact h.of_workers rfl rfl rfl

/-- **The workers track the leadership.**  After any tick of any run a worker runs for a shard
exactly when the state machine names this node as its leader, and every worker that runs was
started with followers of the key of this tick. -/
theorem workers_track_leadership {acts : List Act}
    (h : Machine.run step (start selfID) acts = some l)
    (ht : l.tick fsm addrs drops order = some l') :
    (∀ s, (∃ fs, l'.replicator.Running s fs) ↔ fsm.shardLeaders.lookup s = some selfID) ∧
      ∀ s fs, l'.replicator.Running s fs → followerSetKey fs = followerSetKey addrs := by
  have hl : l.Sound selfID :=
    Machine.run_invariant (fun _ _ _ hs hstep => hs.step hstep) (sound_start selfID) h
  have hspec := hl.tick_spec ht
  have hl' := hl.tick ht
  refine ⟨fun s => ?_, fun s fs hrun => ?_⟩
  · simp only [hspec.placed.running_iff, ← hl'.owned s, hspec.owned, hl.self, FSM.mem_ledBy]
  · rw [← hspec.key]
    exact hl'.key s fs (hspec.placed.running_iff.mp hrun)

/-- The state machine in which node `a` leads shard `s` and no other. -/
def ledOnly (s : UInt32) : FSM := ⟨∅, AList.singleton s "a", 2⟩

/-- A shard is gained and another lost while a follower joins. -/
theorem workers_track_handover :
    ∃ l l', Machine.run step (start "a") [.tick (ledOnly 0) [⟨"b", "b:9"⟩] [] [0], .declare 0] =
        some l ∧
      l.tick (ledOnly 1) [⟨"b", "b:9"⟩, ⟨"c", "c:9"⟩] [0] [1] = some l' ∧
      ∀ s, (∃ fs, l'.replicator.Running s fs) ↔ (ledOnly 1).shardLeaders.lookup s = some "a" := by
  refine ⟨_, _, rfl, rfl, ?_⟩
  exact (workers_track_leadership
    (show Machine.run step (start "a")
      [.tick (ledOnly 0) [⟨"b", "b:9"⟩] [] [0], .declare 0] = some _ from rfl)
    (show tick _ (ledOnly 1) [⟨"b", "b:9"⟩, ⟨"c", "c:9"⟩] [0] [1] = some _ from rfl)).1

/-- A tick whose followers have the last key leaves a shard that is kept its worker. -/
theorem shards_tick (ht : l.tick fsm addrs drops order = some l')
    (hkey : l.lastFollowerKey = followerSetKey addrs) {s : UInt32} (howned : s ∈ l.owned)
    (hled : s ∈ fsm.ledBy l.replicator.selfID) :
    l'.replicator.shards s = l.replicator.shards s := by
  unfold tick at ht
  split at ht
  · rename_i hperm
    cases ht
    rw [Maps.foldl_frame (fun r : Replicator => r.shards s),
      Maps.foldl_frame (fun r : Replicator => r.shards s)]
    · intro r t ht
      refine Function.update_of_ne ?_ ..
      rintro rfl
      rw [(List.isPerm_iff.mp hperm.1).mem_iff, List.mem_filter] at ht
      exact absurd hled (of_decide_eq_true ht.2)
    · intro r t ht
      refine Function.update_of_ne ?_ ..
      rintro rfl
      simpa [howned, hkey] using (List.mem_filter.mp ht).2
  · cases ht

end Loop

/-! ## The key of the followers -/

/-- The delimiters of the key do not occur where they would end a part too early. -/
structure Delimited (a : FollowerAddr) : Prop where
  nodeID : '=' ∉ a.nodeID.toList
  addr : ';' ∉ a.addr.toList

theorem toList_followerSetKey (addrs : List FollowerAddr) :
    (followerSetKey addrs).toList =
      addrs.flatMap fun a => a.nodeID.toList ++ '=' :: (a.addr.toList ++ [';']) := by
  have hacc (key : String) :
      (addrs.foldl (fun key a => key ++ (a.nodeID ++ "=" ++ a.addr ++ ";")) key).toList =
        key.toList ++
          addrs.flatMap fun a => a.nodeID.toList ++ '=' :: (a.addr.toList ++ [';']) := by
    induction addrs generalizing key with
    | nil => simp
    | cons a addrs ih =>
      rw [List.foldl_cons, ih]
      simp
  exact hacc ""

/-- Where the delimiters do not occur, the key tells the lists apart. -/
theorem eq_of_followerSetKey_eq {as bs : List FollowerAddr} (has : ∀ a ∈ as, Delimited a)
    (hbs : ∀ b ∈ bs, Delimited b) (h : followerSetKey as = followerSetKey bs) : as = bs := by
  have hchars := congrArg String.toList h
  rw [toList_followerSetKey, toList_followerSetKey] at hchars
  clear h
  induction as generalizing bs with
  | nil =>
    cases bs with
    | nil => rfl
    | cons b bs => simp at hchars
  | cons a as ih =>
    cases bs with
    | nil => simp at hchars
    | cons b bs =>
      simp only [List.flatMap_cons, List.append_assoc, List.cons_append,
        List.nil_append] at hchars
      have ha := has a (by simp)
      have hb := hbs b (by simp)
      -- the id ends at the first `=`, and the address at the next `;`
      obtain ⟨hid, hrest⟩ := Delimiters.append_cons_inj ha.nodeID hb.nodeID hchars
      obtain ⟨haddr, hrest⟩ := Delimiters.append_cons_inj ha.addr hb.addr hrest
      have hab : a = b := by
        cases a
        cases b
        simp_all [String.toList_inj]
      rw [hab, ih (fun x hx => has x (List.mem_cons_of_mem _ hx))
        (fun x hx => hbs x (List.mem_cons_of_mem _ hx)) hrest]

end AgentBus.Leadership
