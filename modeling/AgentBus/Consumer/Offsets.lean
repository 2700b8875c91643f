import AgentBus.Lib.Decimal
import AgentBus.Lib.Delimiters
import Mathlib.Algebra.Group.Nat.Defs
import Mathlib.Data.List.AList
import Mathlib.Data.List.Infix
import Mathlib.Data.Nat.Notation

/-!
# Offsets of consumer groups

`internal/consumer/manager.go`: the offset that a group has committed in a partition of a topic.
All of them are in one map, under a key that is the topic, the group and the partition in decimal
with colons between them.  Names are Go strings, which are byte strings, and may have colons of
their own: then two different names can have the same key (`commitPartition_collides`).

A key does not tell where its topic ends.  Two positions have one key exactly if the topic of one
goes on, over colons, into what the group of the other begins with; a commit for the one leaves the
offset of the other alone exactly if this is not so (`getPartition_commitPartition_iff`).

## Main definitions

* `itoa`, `key` — the keys.
* `Manager`, `Manager.getPartition`, `Manager.commitPartition` — the offsets.
* `Position.Clashes` — two positions with one key.
-/

namespace AgentBus.Consumer

open Decimal Delimiters

/-- The byte of a colon. -/
def colon : UInt8 := 0x3A

/-- The loop of `itoa`, with the bytes that are left of its buffer. -/
def itoaLoop : ℕ → ℕ → List UInt8 → List UInt8
  | 0, _, buf => buf
  | i + 1, v, buf => if 0 < v then itoaLoop i (v / 10) (UInt8.ofNat (0x30 + v % 10) :: buf) else buf

/-- `itoa`.  The negation of the least integer is itself, and then the loop does not run. -/
def itoa (v : Int64) : List UInt8 :=
  if v = 0 then [0x30]
  else if v < 0 then 0x2D :: itoaLoop 20 (-v).toInt.toNat []
  else itoaLoop 20 v.toInt.toNat []

/-- `key`. -/
def key (topic group : List UInt8) (partition : Int64) : List UInt8 :=
  topic ++ [colon, colon] ++ group ++ [colon, colon, 0x70] ++ itoa partition

/-- `Manager`, without what concerns its file. -/
structure Manager where
  offsets : AList fun _ : List UInt8 => Int64
  deriving DecidableEq

/-- `NewManager`. -/
def newManager : Manager := ⟨∅⟩

/-- What an offset is kept for. -/
structure Position where
  topic : List UInt8
  group : List UInt8
  partition : Int64
  deriving DecidableEq, Repr

/-- The key of a position. -/
def Position.key (p : Position) : List UInt8 := Consumer.key p.topic p.group p.partition

namespace Manager

/-- `GetPartition`. -/
def getPartition (m : Manager) (p : Position) : Option Int64 := m.offsets.lookup p.key

/-- `CommitPartition`: what it does to the map. -/
def commitPartition (m : Manager) (p : Position) (offset : Int64) : Manager :=
  ⟨m.offsets.insert p.key offset⟩

/-- Commits one after the other. -/
def commitAll (m : Manager) (commits : List (Position × Int64)) : Manager :=
  commits.foldl (fun m c => m.commitPartition c.1 c.2) m

/-- A commit changes the offsets under its key. -/
@[simp] theorem getPartition_commitPartition (m : Manager) (p q : Position) (offset : Int64) :
    (m.commitPartition p offset).getPartition q =
      if q.key = p.key then some offset else m.getPartition q := by
  simp only [getPartition, commitPartition]
  split
  · rename_i h
    rw [h, AList.lookup_insert]
  · rename_i h
    exact AList.lookup_insert_ne h

end Manager

/-! ## Keys -/

/-- The loop puts the digits of its number before what it has written. -/
theorem itoaLoop_eq {i v : ℕ} (h : v < 10 ^ i) (buf : List UInt8) :
    itoaLoop i v buf = (if v = 0 then [] else (decimal v).map digitByte) ++ buf := by
  induction i generalizing v buf with
  | zero =>
    have hv : v = 0 := by simpa using h
    simp [itoaLoop, hv]
  | succ i ih =>
    have hdiv : v / 10 < 10 ^ i := by
      rw [Nat.div_lt_iff_lt_mul (by decide)]
      rwa [Nat.pow_succ] at h
    rw [itoaLoop, ih hdiv]
    rcases Nat.eq_zero_or_pos v with rfl | hpos
    · rfl
    · rw [if_pos hpos, if_neg hpos.ne', decimal.eq_def v]
      split
      · simp [show v < 10 by omega, digitByte]
      · simp [show ¬ v < 10 by omega, digitByte]

theorem toNat_toInt_lt (v : Int64) : v.toInt.toNat < 10 ^ 20 := by
  have := v.toInt_lt
  omega

/-- A partition that is not negative is in decimal. -/
theorem itoa_of_nonneg {v : Int64} (h : 0 ≤ v) :
    itoa v = (decimal v.toInt.toNat).map digitByte := by
  rw [itoa, if_neg (Int64.not_lt.mpr h), itoaLoop_eq (toNat_toInt_lt v)]
  split
  · rename_i hzero
    subst hzero
    decide +kernel
  · rename_i hzero
    have hle := Int64.le_iff_toInt_le.mp h
    rw [← Int64.toInt_inj] at hzero
    rw [Int64.toInt_zero] at hle hzero
    rw [if_neg (by omega), List.append_nil]

/-- **Partitions are told apart.** -/
theorem itoa_inj {v v' : Int64} (h : 0 ≤ v) (h' : 0 ≤ v') (heq : itoa v = itoa v') : v = v' := by
  rw [itoa_of_nonneg h, itoa_of_nonneg h'] at heq
  have hvalue := decimal_injective (digitByte_injective.list_map heq)
  have hle := Int64.le_iff_toInt_le.mp h
  have hle' := Int64.le_iff_toInt_le.mp h'
  rw [Int64.toInt_zero] at hle hle'
  exact Int64.toInt_inj.mp (by omega)

theorem itoa_not_letter {v : Int64} (h : 0 ≤ v) : (0x70 : UInt8) ∉ itoa v := by
  rw [itoa_of_nonneg h, List.mem_map]
  rintro ⟨d, -, hd⟩
  revert d
  decide

/-- **What a key tells**: the partition, and the topic and the group with colons between them. -/
theorem Position.key_eq_iff {p q : Position} (hp : 0 ≤ p.partition) (hq : 0 ≤ q.partition) :
    p.key = q.key ↔
      p.topic ++ colon :: colon :: p.group = q.topic ++ colon :: colon :: q.group ∧
        p.partition = q.partition := by
  have hform (p : Position) : p.key = (p.topic ++ colon :: colon :: p.group ++ [colon, colon]) ++
      0x70 :: itoa p.partition := by
    simp [Position.key, Consumer.key]
  rw [hform, hform]
  constructor
  · intro h
    obtain ⟨hnames, hdigits⟩ :=
      append_cons_inj_last (itoa_not_letter hp) (itoa_not_letter hq) h
    exact ⟨List.append_cancel_right hnames, itoa_inj hp hq hdigits⟩
  · rintro ⟨hnames, hpartition⟩
    rw [hnames, hpartition]

/-- The topic of `q` is that of `p` and more, which the group of `p` begins with: one colon of the
two between them, or both and a text `r`. -/
def Position.Shifts (p q : Position) : Prop :=
  (q.topic = p.topic ++ [colon] ∧ p.group = colon :: q.group) ∨
    ∃ r, q.topic = p.topic ++ colon :: colon :: r ∧ p.group = r ++ colon :: colon :: q.group

/-- The names of two positions of one partition read the same with colons between them. -/
def Position.Clashes (p q : Position) : Prop :=
  p.partition = q.partition ∧ (p.Shifts q ∨ q.Shifts p)

theorem Position.Shifts.names {p q : Position} (h : p.Shifts q) :
    p.topic ++ colon :: colon :: p.group = q.topic ++ colon :: colon :: q.group := by
  rcases h with ⟨htopic, hgroup⟩ | ⟨r, htopic, hgroup⟩ <;> simp [htopic, hgroup]

/-- A name that reads the same from a longer topic on. -/
theorem Position.shifts_of_names {p q : Position} {more : List UInt8}
    (htopic : q.topic = p.topic ++ more) (hmore : more ≠ [])
    (h : colon :: colon :: p.group = more ++ colon :: colon :: q.group) : p.Shifts q := by
  match more, hmore with
  | [c], _ =>
    obtain ⟨rfl, hgroup⟩ : colon = c ∧ p.group = colon :: q.group := by simpa using h
    exact .inl ⟨htopic, hgroup⟩
  | c :: c' :: r, _ =>
    obtain ⟨rfl, rfl, hgroup⟩ :
        colon = c ∧ colon = c' ∧ p.group = r ++ colon :: colon :: q.group := by
      simpa using h
    exact .inr ⟨r, htopic, hgroup⟩

/-- **Two positions have one key if they clash**, and only then. -/
theorem Position.key_eq_iff_clashes {p q : Position} (hp : 0 ≤ p.partition)
    (hq : 0 ≤ q.partition) (hne : p ≠ q) : p.key = q.key ↔ p.Clashes q := by
  rw [key_eq_iff hp hq, and_comm, Clashes, and_congr_right_iff]
  intro hpartition
  constructor
  · intro hnames
    rcases List.append_eq_append_iff.mp hnames with ⟨more, htopic, hrest⟩ | ⟨more, htopic, hrest⟩
    · refine .inl (shifts_of_names htopic ?_ hrest)
      rintro rfl
      refine hne ?_
      cases p
      cases q
      simp_all
    · refine .inr (shifts_of_names htopic ?_ hrest)
      rintro rfl
      refine hne ?_
      cases p
      cases q
      simp_all
  · rintro (h | h)
    · exact h.names
    · exact h.names.symm

/-- **When a commit for one position leaves the offset of another alone**: whatever was committed
before, and whatever is committed now, it does if and only if the two do not clash. -/
theorem getPartition_commitPartition_iff (p q : Position) (hne : p ≠ q) (hp : 0 ≤ p.partition)
    (hq : 0 ≤ q.partition) :
    (∀ (commits : List (Position × Int64)) (offset : Int64),
      ((newManager.commitAll commits).commitPartition p offset).getPartition q =
        (newManager.commitAll commits).getPartition q) ↔ ¬ p.Clashes q := by
  simp only [Manager.getPartition_commitPartition]
  rw [← Position.key_eq_iff_clashes hp hq hne, eq_comm (a := p.key)]
  constructor
  · intro h hkey
    have hnew := h [] 0
    rw [if_pos hkey] at hnew
    cases hnew
  · intro h commits offset
    rw [if_neg h]

/-- A topic that ends with a colon, and another one. -/
theorem getPartition_commitPartition_iff_colon :
    ((newManager.commitAll [(⟨[0x7A], [0x79], 0⟩, 7)]).commitPartition
        ⟨[0x61, 0x3A], [0x78], 0⟩ 5).getPartition ⟨[0x7A], [0x79], 0⟩ = some 7 := by
  have hclash : ¬ (⟨[0x61, 0x3A], [0x78], 0⟩ : Position).Clashes ⟨[0x7A], [0x79], 0⟩ := by
    simp [Position.Clashes, Position.Shifts]
  rw [(getPartition_commitPartition_iff _ _ (by decide) (by decide) (by decide)).mpr hclash]
  decide +kernel

/-- The group `c` of topic `a::b` and the group `b::c` of topic `a` have one offset. -/
theorem commitPartition_collides :
    (⟨[0x61, 0x3A, 0x3A, 0x62], [0x63], 0⟩ : Position) ≠ ⟨[0x61], [0x62, 0x3A, 0x3A, 0x63], 0⟩ ∧
      newManager.getPartition ⟨[0x61], [0x62, 0x3A, 0x3A, 0x63], 0⟩ = none ∧
      (newManager.commitPartition ⟨[0x61, 0x3A, 0x3A, 0x62], [0x63], 0⟩ 5).getPartition
        ⟨[0x61], [0x62, 0x3A, 0x3A, 0x63], 0⟩ = some 5 := by
  decide +kernel

end AgentBus.Consumer
