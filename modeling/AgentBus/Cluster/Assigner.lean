import AgentBus.Cluster.Snapshot
import AgentBus.Lib.Maps
import Mathlib.Data.Int.CardIntervalMod
import Mathlib.Data.List.Sort
import Mathlib.Data.String.Basic

/-!
# The assignment of shards

`Plan` of `internal/cluster/assigner/assigner.go`: every shard without an alive leader is given to
the next alive node in turn.

The plan is a list of commands (`planCommands`), which the loop of the source hands to its applier
one by one (`plan_eq`).  With an applier that applies them to the state machine the plan is
carried out in full (`plan_assigns`).

## Main definitions

* `Liveness`, `plan` — the source.
* `planCommands` — the commands of a plan.
* `changed`, `share` — the shards whose leader a plan changes, and those a node is given.
-/

namespace AgentBus.Leadership

/-- `Liveness`. -/
structure Liveness where
  isAlive : String → Bool
  aliveMembers : List String

/-- The command for one shard. -/
def Command.setLeader (shard : UInt32) (nodeID : String) : Command :=
  { op := .setShardLeader, nodeID := nodeID, addr := "", clientAddr := "", shard := shard }

/-- `ShardLeader`: empty when there is none. -/
def FSM.shardLeader (f : FSM) (shard : UInt32) : String := (f.shardLeaders.lookup shard).getD ""

/-- The shards below a count. -/
def shardsBelow (count : UInt32) : List UInt32 := (List.range count.toNat).map UInt32.ofNat

section Source

variable {σ ε : Type}

/-- The loop of `Plan` over the shards that are left. -/
def planLoop (leaders : UInt32 → String) (isAlive : String → Bool) (alive : List String)
    (apply : σ → Command → σ × Option ε) : List UInt32 → ℕ → ℕ → σ → σ × ℕ
  | [], _, issued, st => (st, issued)
  | s :: shards, next, issued, st =>
    let current := leaders s
    if current ≠ "" ∧ isAlive current then
      planLoop leaders isAlive alive apply shards next issued st
    else
      let target := alive.getD (next % alive.length) ""
      match apply st (.setLeader s target) with
      | (st', none) => planLoop leaders isAlive alive apply shards (next + 1) (issued + 1) st'
      | (st', some _) => planLoop leaders isAlive alive apply shards (next + 1) issued st'

/-- `Plan`, with an applier that keeps a state of its own. -/
def plan (fsm : FSM) (live : Liveness) (apply : σ → Command → σ × Option ε) (st : σ) : σ × ℕ :=
  if fsm.shardCount = 0 then (st, 0)
  else if live.aliveMembers = [] then (st, 0)
  else
    planLoop fsm.shardLeader live.isAlive (live.aliveMembers.insertionSort (· ≤ ·)) apply
      (shardsBelow fsm.shardCount) 0 0 st

/-! ## The commands of a plan -/

/-- Commands handed to an applier one by one, with the number of those that succeed. -/
def applyEach (apply : σ → Command → σ × Option ε) : List Command → ℕ → σ → σ × ℕ
  | [], issued, st => (st, issued)
  | cmd :: cmds, issued, st =>
    match apply st cmd with
    | (st', none) => applyEach apply cmds (issued + 1) st'
    | (st', some _) => applyEach apply cmds issued st'

end Source

/-- The shards, each with the next node in turn. -/
def inTurn (alive : List String) : ℕ → List UInt32 → List (UInt32 × String)
  | _, [] => []
  | next, s :: shards =>
    (s, alive.getD (next % alive.length) "") :: inTurn alive (next + 1) shards

/-- The shard has no alive leader. -/
def FSM.Orphaned (f : FSM) (live : Liveness) (s : UInt32) : Prop :=
  ¬ (f.shardLeader s ≠ "" ∧ live.isAlive (f.shardLeader s))

instance FSM.decidableOrphaned (f : FSM) (live : Liveness) (s : UInt32) :
    Decidable (f.Orphaned live s) :=
  inferInstanceAs (Decidable (¬ (f.shardLeader s ≠ "" ∧ live.isAlive (f.shardLeader s) = true)))

/-- The shards a plan gives away, with the nodes they are given to. -/
def assignments (f : FSM) (live : Liveness) : List (UInt32 × String) :=
  if live.aliveMembers = [] then []
  else
    inTurn (live.aliveMembers.insertionSort (· ≤ ·)) 0
      ((shardsBelow f.shardCount).filter fun s => f.Orphaned live s)

/-- The commands of a plan. -/
def planCommands (f : FSM) (live : Liveness) : List Command :=
  (assignments f live).map fun p => .setLeader p.1 p.2

section Commands

variable {σ ε : Type} {apply : σ → Command → σ × Option ε} {f : FSM} {live : Liveness}

theorem planLoop_eq (alive : List String) (shards : List UInt32) (next issued : ℕ) (st : σ) :
    planLoop f.shardLeader live.isAlive alive apply shards next issued st =
      applyEach apply ((inTurn alive next (shards.filter fun s => f.Orphaned live s)).map
        fun p => .setLeader p.1 p.2) issued st := by
  induction shards generalizing next issued st with
  | nil => rfl
  | cons s shards ih =>
    simp only [planLoop]
    by_cases horphan : f.Orphaned live s
    · rw [if_neg horphan, List.filter_cons_of_pos (by simpa using horphan)]
      simp only [inTurn, List.map_cons, applyEach]
      split <;> exact ih ..
    · rw [if_pos (not_not.mp horphan),
        List.filter_cons_of_neg (by simpa using horphan), ih]

/-- **A plan hands its commands to the applier one by one.** -/
theorem plan_eq (st : σ) : plan f live apply st = applyEach apply (planCommands f live) 0 st := by
  unfold plan planCommands assignments
  split
  · rename_i hcount
    rw [hcount]
    split <;> rfl
  · split
    · rfl
    · exact planLoop_eq ..

end Commands

/-! ## What a plan leaves -/

/-- The state machine with these shard leaders set. -/
def FSM.assign (f : FSM) (pairs : List (UInt32 × String)) : FSM :=
  pairs.foldl (fun f p => { f with shardLeaders := f.shardLeaders.insert p.1 p.2 }) f

section Assign

variable {f : FSM} {pairs : List (UInt32 × String)} {s : UInt32}

theorem applyEach_setLeader (hne : ∀ p ∈ pairs, p.2 ≠ "") (issued : ℕ) :
    applyEach FSM.apply (pairs.map fun p => .setLeader p.1 p.2) issued f =
      (f.assign pairs, issued + pairs.length) := by
  induction pairs generalizing f issued with
  | nil => rfl
  | cons p pairs ih =>
    have hp := hne p (by simp)
    have happly : f.apply (.setLeader p.1 p.2) =
        ({ f with shardLeaders := f.shardLeaders.insert p.1 p.2 }, none) := by
      simp [FSM.apply, Command.setLeader, hp]
    simp only [List.map_cons, applyEach, happly]
    rw [ih fun q hq => hne q (List.mem_cons_of_mem _ hq), List.length_cons]
    simp only [FSM.assign, List.foldl_cons]
    congr 1
    omega

@[simp] theorem FSM.shardCount_assign : (f.assign pairs).shardCount = f.shardCount := by
  rw [FSM.assign, Maps.foldl_frame FSM.shardCount]
  exact fun _ _ _ => rfl

@[simp] theorem FSM.lookup_assign_of_notMem (hs : s ∉ pairs.map Prod.fst) :
    (f.assign pairs).shardLeaders.lookup s = f.shardLeaders.lookup s := by
  refine Maps.foldl_frame (fun f : FSM => f.shardLeaders.lookup s) (fun f p hp => ?_) f
  refine AList.lookup_insert_ne ?_
  rintro rfl
  exact hs (List.mem_map_of_mem hp)

theorem FSM.lookup_assign_of_mem (hnodup : (pairs.map Prod.fst).Nodup) {id : String}
    (hmem : (s, id) ∈ pairs) : (f.assign pairs).shardLeaders.lookup s = some id := by
  induction pairs generalizing f with
  | nil => cases hmem
  | cons p pairs ih =>
    rw [List.map_cons, List.nodup_cons] at hnodup
    rcases List.mem_cons.mp hmem with rfl | hmem
    · exact (FSM.lookup_assign_of_notMem hnodup.1).trans (AList.lookup_insert _)
    · exact ih hnodup.2 hmem

end Assign

/-! ## Nodes in turn -/

section InTurn

variable {alive : List String} {shards : List UInt32} {s : UInt32}

@[simp] theorem fst_inTurn (next : ℕ) : (inTurn alive next shards).map Prod.fst = shards := by
  induction shards generalizing next with
  | nil => rfl
  | cons s shards ih => simp [inTurn, ih]

theorem mem_of_mem_inTurn (hne : alive ≠ []) {next : ℕ} {p : UInt32 × String}
    (hp : p ∈ inTurn alive next shards) : p.2 ∈ alive := by
  induction shards generalizing next with
  | nil => cases hp
  | cons s shards ih =>
    rcases List.mem_cons.mp hp with rfl | hp
    · have hlt : next % alive.length < alive.length :=
        Nat.mod_lt _ (List.length_pos_iff.mpr hne)
      simp [List.getD_eq_getElem?_getD, List.getElem?_eq_getElem hlt]
    · exact ih hp

/-- A node comes up in turn as often as its place in the list comes up among the numbers. -/
theorem countP_inTurn (a : String) (next : ℕ) :
    (inTurn alive next shards).countP (fun p => p.2 = a) =
      Nat.count (fun i => alive.getD ((next + i) % alive.length) "" = a) shards.length := by
  induction shards generalizing next with
  | nil => rfl
  | cons s shards ih =>
    rw [inTurn, List.countP_cons, ih, List.length_cons, Nat.count_succ']
    simp only [decide_eq_true_eq, Nat.add_assoc, Nat.add_comm 1]
    rfl

theorem count_mod_le {m len j j' : ℕ} (hj : j < len) (hj' : j' < len) :
    Nat.count (fun i => i % len = j) m ≤ Nat.count (fun i => i % len = j') m + 1 := by
  have hcount (v : ℕ) (hv : v < len) :
      Nat.count (fun i => i % len = v) m = m / len + if v < m % len then 1 else 0 := by
    have h := Nat.count_modEq_card m (by omega : 0 < len) v
    simpa [Nat.ModEq, Nat.mod_eq_of_lt hv] using h
  rw [hcount j hj, hcount j' hj']
  split <;> split <;> omega

/-- **Taking turns is even.** -/
theorem countP_inTurn_le (hnodup : alive.Nodup) {a b : String} (ha : a ∈ alive) (hb : b ∈ alive) :
    (inTurn alive 0 shards).countP (fun p => p.2 = a) ≤
      (inTurn alive 0 shards).countP (fun p => p.2 = b) + 1 := by
  have hindex (c : String) (hc : c ∈ alive) :
      (inTurn alive 0 shards).countP (fun p => p.2 = c) =
        Nat.count (fun i => i % alive.length = alive.idxOf c) shards.length := by
    have hiff (i : ℕ) :
        alive.getD (i % alive.length) "" = c ↔ i % alive.length = alive.idxOf c := by
      have hlt : i % alive.length < alive.length := Nat.mod_lt _ (List.length_pos_of_mem hc)
      rw [List.getD_eq_getElem?_getD, List.getElem?_eq_getElem hlt, Option.getD_some]
      constructor
      · rintro rfl
        exact (hnodup.idxOf_getElem _ hlt).symm
      · intro heq
        simp only [heq]
        exact List.getElem_idxOf (List.idxOf_lt_length_of_mem hc)
    simp only [countP_inTurn, Nat.zero_add, hiff]
  rw [hindex a ha, hindex b hb]
  exact count_mod_le (List.idxOf_lt_length_of_mem ha) (List.idxOf_lt_length_of_mem hb)

end InTurn

/-! ## Plans that are carried out -/

/-- Some nodes are alive, each is listed once and under its name, and they are those that `IsAlive`
says are alive. -/
structure Liveness.Consistent (live : Liveness) : Prop where
  ne_nil : live.aliveMembers ≠ []
  nodup : live.aliveMembers.Nodup
  named : "" ∉ live.aliveMembers
  isAlive_iff : ∀ id, live.isAlive id = true ↔ id ∈ live.aliveMembers

/-- The shards below the count whose leader is another one. -/
def changed (f f' : FSM) : List UInt32 :=
  (shardsBelow f.shardCount).filter fun s =>
    f'.shardLeaders.lookup s ≠ f.shardLeaders.lookup s

/-- How many of them a node was given. -/
def share (f f' : FSM) (id : String) : ℕ :=
  (changed f f').countP fun s => f'.shardLeaders.lookup s = some id

@[simp] theorem mem_shardsBelow {count s : UInt32} : s ∈ shardsBelow count ↔ s < count := by
  simp only [shardsBelow, List.mem_map, List.mem_range, UInt32.lt_iff_toNat_lt]
  constructor
  · rintro ⟨n, hn, rfl⟩
    rwa [UInt32.toNat_ofNat_of_lt' (hn.trans count.toNat_lt)]
  · intro hs
    exact ⟨s.toNat, hs, UInt32.ofNat_toNat⟩

theorem nodup_shardsBelow (count : UInt32) : (shardsBelow count).Nodup := by
  refine List.Nodup.map_on ?_ List.nodup_range
  intro x hx y hy heq
  rw [List.mem_range] at hx hy
  have hnat := congrArg UInt32.toNat heq
  rwa [UInt32.toNat_ofNat_of_lt' (hx.trans count.toNat_lt),
    UInt32.toNat_ofNat_of_lt' (hy.trans count.toNat_lt)] at hnat

section Plan

variable {f : FSM} {live : Liveness} {s : UInt32}

theorem Liveness.Consistent.orphaned_iff (h : live.Consistent) :
    f.Orphaned live s ↔ ∀ id ∈ live.aliveMembers, f.shardLeaders.lookup s ≠ some id := by
  rw [FSM.Orphaned, h.isAlive_iff, FSM.shardLeader]
  cases hl : f.shardLeaders.lookup s with
  | none => simp
  | some id =>
    simp only [Option.getD_some, not_and, ne_eq, Option.some.injEq]
    constructor
    · rintro hno id' hid' rfl
      exact hno (fun heq => h.named (heq ▸ hid')) hid'
    · exact fun hno _ hid => hno id hid rfl

theorem Liveness.Consistent.fst_assignments (h : live.Consistent) :
    (assignments f live).map Prod.fst =
      (shardsBelow f.shardCount).filter fun s => f.Orphaned live s := by
  rw [assignments, if_neg h.ne_nil, fst_inTurn]

theorem Liveness.Consistent.nodup_assignments (h : live.Consistent) :
    ((assignments f live).map Prod.fst).Nodup := by
  rw [h.fst_assignments]
  exact (nodup_shardsBelow _).filter _

theorem snd_mem_of_mem_assignments {p : UInt32 × String} (hp : p ∈ assignments f live) :
    p.2 ∈ live.aliveMembers := by
  unfold assignments at hp
  split at hp
  · cases hp
  · rename_i hne
    refine (List.mem_insertionSort (· ≤ ·)).mp (mem_of_mem_inTurn ?_ hp)
    rwa [ne_eq, ← List.length_eq_zero_iff, List.length_insertionSort, List.length_eq_zero_iff]

theorem Liveness.Consistent.plan_apply (h : live.Consistent) :
    plan f live FSM.apply f = (f.assign (assignments f live), (assignments f live).length) := by
  rw [plan_eq, planCommands, applyEach_setLeader, Nat.zero_add]
  intro p hp heq
  exact h.named (heq ▸ snd_mem_of_mem_assignments hp)

/-- A shard without an alive leader is given one. -/
theorem Liveness.Consistent.lookup_of_orphaned (h : live.Consistent) (hs : s < f.shardCount)
    (ho : f.Orphaned live s) :
    ∃ id ∈ live.aliveMembers, (s, id) ∈ assignments f live ∧
      (f.assign (assignments f live)).shardLeaders.lookup s = some id := by
  have hmem : s ∈ (assignments f live).map Prod.fst := by
    rw [h.fst_assignments, List.mem_filter]
    exact ⟨mem_shardsBelow.mpr hs, decide_eq_true ho⟩
  obtain ⟨⟨s', id⟩, hp, rfl⟩ := List.mem_map.mp hmem
  exact ⟨id, snd_mem_of_mem_assignments hp, hp, FSM.lookup_assign_of_mem h.nodup_assignments hp⟩

/-- Any other shard is left alone. -/
theorem Liveness.Consistent.lookup_of_not (h : live.Consistent)
    (hs : ¬ (s < f.shardCount ∧ f.Orphaned live s)) :
    (f.assign (assignments f live)).shardLeaders.lookup s = f.shardLeaders.lookup s := by
  refine FSM.lookup_assign_of_notMem fun hmem => hs ?_
  rw [h.fst_assignments, List.mem_filter] at hmem
  exact ⟨mem_shardsBelow.mp hmem.1, of_decide_eq_true hmem.2⟩

theorem Liveness.Consistent.changed_eq (h : live.Consistent) :
    changed f (f.assign (assignments f live)) = (assignments f live).map Prod.fst := by
  rw [h.fst_assignments, changed]
  refine List.filter_congr fun s hs => decide_eq_decide.mpr ?_
  by_cases ho : f.Orphaned live s
  · obtain ⟨id, hid, -, hlookup⟩ := h.lookup_of_orphaned (mem_shardsBelow.mp hs) ho
    rw [hlookup]
    exact iff_of_true (h.orphaned_iff.mp ho id hid).symm ho
  · rw [h.lookup_of_not fun hno => ho hno.2]
    exact iff_of_false (fun hne => hne rfl) ho

theorem Liveness.Consistent.share_eq (h : live.Consistent) (id : String) :
    share f (f.assign (assignments f live)) id =
      (assignments f live).countP fun p => p.2 = id := by
  rw [share, h.changed_eq, List.countP_map]
  refine List.countP_congr fun p hp => ?_
  have hlookup : (f.assign (assignments f live)).shardLeaders.lookup p.1 = some p.2 :=
    FSM.lookup_assign_of_mem h.nodup_assignments hp
  simp [hlookup]

/-- **A shard is orphaned no more once the plan is carried out.** -/
theorem Liveness.Consistent.not_orphaned (h : live.Consistent) (hs : s < f.shardCount) :
    ¬ (f.assign (assignments f live)).Orphaned live s := by
  intro ho
  rw [h.orphaned_iff] at ho
  by_cases horphan : f.Orphaned live s
  · obtain ⟨id, hid, -, hlookup⟩ := h.lookup_of_orphaned hs horphan
    exact ho id hid hlookup
  · rw [h.lookup_of_not fun hno => horphan hno.2, ← h.orphaned_iff] at ho
    exact horphan ho

theorem Liveness.Consistent.assignments_assign (h : live.Consistent) :
    assignments (f.assign (assignments f live)) live = [] := by
  refine List.map_eq_nil_iff.mp (h.fst_assignments.trans ?_)
  rw [List.filter_eq_nil_iff]
  intro s hs
  rw [FSM.shardCount_assign, mem_shardsBelow] at hs
  simpa using h.not_orphaned hs

end Plan

/-- **A plan.**  With an applier that applies the commands to the state machine, every shard below
the count ends with an alive leader, a shard with an alive leader keeps it, a shard past the count
is left alone, the shards that change are spread evenly over the alive nodes, their number is what
is returned, and a second plan issues no command whatever its applier does. -/
theorem plan_assigns (f : FSM) (live : Liveness) (h : live.Consistent) :
    let f' := (plan f live FSM.apply f).1
    (∀ s < f.shardCount, ∃ id ∈ live.aliveMembers, f'.shardLeaders.lookup s = some id) ∧
      (∀ s, ∀ id ∈ live.aliveMembers, f.shardLeaders.lookup s = some id →
        f'.shardLeaders.lookup s = some id) ∧
      (∀ s, ¬ s < f.shardCount → f'.shardLeaders.lookup s = f.shardLeaders.lookup s) ∧
      (∀ a ∈ live.aliveMembers, ∀ b ∈ live.aliveMembers, share f f' a ≤ share f f' b + 1) ∧
      (plan f live FSM.apply f).2 = (changed f f').length ∧
      ∀ (σ ε : Type) (apply : σ → Command → σ × Option ε) (st : σ),
        plan f' live apply st = (st, 0) := by
  rw [h.plan_apply]
  refine ⟨fun s hs => ?_, fun s id hid hlookup => ?_, fun s hs => ?_, fun a ha b hb => ?_, ?_,
    fun σ ε apply st => ?_⟩
  · have hno := h.not_orphaned hs
    rw [h.orphaned_iff] at hno
    push Not at hno
    exact hno
  · rw [h.lookup_of_not fun hno => h.orphaned_iff.mp hno.2 id hid hlookup, hlookup]
  · exact h.lookup_of_not fun hno => hs hno.1
  · rw [h.share_eq, h.share_eq, assignments, if_neg h.ne_nil]
    have hperm := List.perm_insertionSort (· ≤ ·) live.aliveMembers
    exact countP_inTurn_le (hperm.nodup_iff.mpr h.nodup) (hperm.mem_iff.mpr ha)
      (hperm.mem_iff.mpr hb)
  · rw [h.changed_eq, List.length_map]
  · rw [plan_eq, planCommands, h.assignments_assign]
    rfl

/-- Five shards, one of them led by an alive node, planned for two alive nodes. -/
theorem plan_assigns_two :
    let f : FSM := ⟨∅, (∅ : AList fun _ : UInt32 => String).insert 3 "b", 5⟩
    let live : Liveness := ⟨fun id => id = "a" ∨ id = "b", ["b", "a"]⟩
    live.Consistent ∧ (plan f live FSM.apply f).2 =
      (changed f (plan f live FSM.apply f).1).length := by
  intro f live
  have h : live.Consistent := by
    refine ⟨by decide, by decide, by decide, fun id => ?_⟩
    simp [live, or_comm]
  exact ⟨h, (plan_assigns f live h).2.2.2.2.1⟩

end AgentBus.Leadership
