import AgentBus.Lib.Bytes

/-!
# Files of framed records

A file format is given by a `Reader`, which takes the next record off the bytes that are
left or stops, with an error or without.  `Reader.scan` reads a whole file.

If a reader takes every encoded record off the front of any input (`Reader.Reads`), then
scanning a concatenation of encoded records delivers them and goes on with what follows
(`Reader.scan_append`).  `cut` describes a file that was cut after `n` bytes: the records
that survive whole, and the record the cut falls into with the number of bytes left of it.

## Main definitions

* `Next`, `Reader`, `Reader.scan` — reading.
* `encodeAll`, `cut`, `Boundary` — files and their prefixes.
-/

namespace AgentBus.Framing

open Bytes

variable {ρ ε : Type*}

/-- One step of a reader: stop, or deliver a record and go on with the rest. -/
inductive Next (ρ ε : Type*) where
  | stop (err : Option ε)
  | item (r : ρ) (rest : List UInt8)
  deriving DecidableEq

/-- A reader of records; every record takes at least a byte. -/
structure Reader (ρ ε : Type*) where
  next : List UInt8 → Next ρ ε
  shrinks : ∀ {bs r rest}, next bs = .item r rest → rest.length < bs.length

namespace Reader

/-- Read a file: the records delivered, and the error it ends with. -/
def scan (R : Reader ρ ε) (bs : List UInt8) : List ρ × Option ε :=
  match _h : R.next bs with
  | .stop err => ([], err)
  | .item r rest => (r :: (R.scan rest).1, (R.scan rest).2)
termination_by bs.length
decreasing_by all_goals exact R.shrinks ‹_›

variable {R : Reader ρ ε} {bs : List UInt8}

theorem scan_of_stop {err : Option ε} (h : R.next bs = .stop err) : R.scan bs = ([], err) := by
  rw [scan]
  split
  · rename_i err' h'
    rw [h] at h'
    cases h'
    rfl
  · rename_i r rest h'
    rw [h] at h'
    cases h'

theorem scan_of_item {rest : List UInt8} {r : ρ} (h : R.next bs = .item r rest) :
    R.scan bs = (r :: (R.scan rest).1, (R.scan rest).2) := by
  rw [scan]
  split
  · rename_i err' h'
    rw [h] at h'
    cases h'
  · rename_i r' rest' h'
    rw [h] at h'
    cases h'
    rfl

/-- The first record a scan delivers is the one the reader takes first. -/
theorem next_of_scan_cons {r : ρ} {rs : List ρ} {err : Option ε} (h : R.scan bs = (r :: rs, err)) :
    ∃ rest, R.next bs = .item r rest := by
  cases hn : R.next bs with
  | stop err' =>
    rw [scan_of_stop hn] at h
    cases h
  | item r' rest =>
    rw [scan_of_item hn] at h
    cases h
    exact ⟨rest, rfl⟩

/-- The reader takes the encoding of `r` off the front of any input. -/
def Reads (R : Reader ρ ε) (enc : ρ → List UInt8) (r : ρ) : Prop :=
  ∀ rest, R.next (enc r ++ rest) = .item r rest

end Reader

/-- The file of a list of records. -/
def encodeAll (enc : ρ → List UInt8) (rs : List ρ) : List UInt8 := rs.flatMap enc

@[simp] theorem encodeAll_nil (enc : ρ → List UInt8) : encodeAll enc [] = [] := rfl

@[simp] theorem encodeAll_cons (enc : ρ → List UInt8) (r : ρ) (rs : List ρ) :
    encodeAll enc (r :: rs) = enc r ++ encodeAll enc rs := rfl

theorem encodeAll_append (enc : ρ → List UInt8) (rs rs' : List ρ) :
    encodeAll enc (rs ++ rs') = encodeAll enc rs ++ encodeAll enc rs' :=
  List.flatMap_append

variable {R : Reader ρ ε} {enc : ρ → List UInt8} {rs : List ρ}

/-- **Scanning records, however each of them is encoded, delivers them and goes on with what
follows.** -/
theorem Reader.scan_flatMap {α : Type*} {enc : α → List UInt8} {val : α → ρ} {as : List α}
    (h : ∀ a ∈ as, ∀ rest, R.next (enc a ++ rest) = .item (val a) rest) (rest : List UInt8) :
    R.scan (as.flatMap enc ++ rest) = (as.map val ++ (R.scan rest).1, (R.scan rest).2) := by
  induction as with
  | nil => rfl
  | cons a as ih =>
    rw [List.flatMap_cons, List.append_assoc, scan_of_item (h a (by simp) _),
      ih fun a' ha' => h a' (by simp [ha'])]
    rfl

/-- **Scanning encoded records delivers them and goes on with what follows.** -/
theorem Reader.scan_append (h : ∀ r ∈ rs, R.Reads enc r) (rest : List UInt8) :
    R.scan (encodeAll enc rs ++ rest) = (rs ++ (R.scan rest).1, (R.scan rest).2) := by
  have hscan : R.scan (rs.flatMap enc ++ rest) = (rs.map id ++ _, _) := scan_flatMap h rest
  rwa [List.map_id] at hscan

/-- **What a scan has read.**  If every record a reader delivers stands at the front of its input,
the input of a scan is the records delivered and a rest at which the reader stops. -/
theorem Reader.scan_split (h : ∀ bs r rest, R.next bs = .item r rest → bs = enc r ++ rest)
    (bs : List UInt8) :
    ∃ rest, bs = encodeAll enc (R.scan bs).1 ++ rest ∧ R.next rest = .stop (R.scan bs).2 := by
  fun_induction R.scan bs with
  | case1 bs err hnext => exact ⟨bs, rfl, hnext⟩
  | case2 bs r rest hnext ih =>
    obtain ⟨rest', hrest, hstop⟩ := ih
    refine ⟨rest', ?_, hstop⟩
    rw [encodeAll_cons, List.append_assoc, ← hrest]
    exact h bs r rest hnext

/-! ## Cutting a file -/

/-- A file of `rs` cut after `n` bytes: the records left whole, and the record the cut falls
into with the number of its bytes that are left. -/
def cut (enc : ρ → List UInt8) : List ρ → ℕ → List ρ × Option (ρ × ℕ)
  | [], _ => ([], none)
  | r :: rs, n =>
    if n = 0 then ([], none)
    else if (enc r).length ≤ n then
      (r :: (cut enc rs (n - (enc r).length)).1, (cut enc rs (n - (enc r).length)).2)
    else ([], some (r, n))

/-- The bytes left of the record the cut falls into. -/
def fragment (enc : ρ → List UInt8) : Option (ρ × ℕ) → List UInt8
  | none => []
  | some (r, m) => (enc r).take m

/-- The cut falls between two records. -/
def Boundary (enc : ρ → List UInt8) (rs : List ρ) (n : ℕ) : Prop :=
  ∃ k ≤ rs.length, n = (encodeAll enc (rs.take k)).length

/-- **A cut file is its whole records and a fragment.** -/
theorem take_encodeAll (enc : ρ → List UInt8) (rs : List ρ) (n : ℕ) :
    (encodeAll enc rs).take n =
      encodeAll enc (cut enc rs n).1 ++ fragment enc (cut enc rs n).2 := by
  induction rs generalizing n with
  | nil => simp [cut, fragment]
  | cons r rs ih =>
    rw [encodeAll_cons, List.take_append, cut]
    by_cases hn : n = 0
    · simp [hn, fragment]
    · rw [if_neg hn]
      by_cases hle : (enc r).length ≤ n
      · rw [if_pos hle, List.take_of_length_le hle, ih, encodeAll_cons, List.append_assoc]
      · rw [if_neg hle, Nat.sub_eq_zero_of_le (by omega)]
        simp [fragment]

/-- The whole records of a cut file are the first ones. -/
theorem prefix_of_cut (enc : ρ → List UInt8) (rs : List ρ) (n : ℕ) : (cut enc rs n).1 <+: rs := by
  induction rs generalizing n with
  | nil => simp [cut]
  | cons r rs ih =>
    rw [cut]
    split
    · exact List.nil_prefix
    · split
      · exact List.cons_prefix_cons.mpr ⟨rfl, ih _⟩
      · exact List.nil_prefix

theorem mem_of_mem_cut (enc : ρ → List UInt8) (rs : List ρ) (n : ℕ) :
    ∀ r ∈ (cut enc rs n).1, r ∈ rs :=
  fun _ hr => (prefix_of_cut enc rs n).subset hr

/-- The record a cut falls into, and how far. -/
theorem cut_torn {n : ℕ} {r : ρ} {m : ℕ} (h : (cut enc rs n).2 = some (r, m)) :
    r ∈ rs ∧ 0 < m ∧ m < (enc r).length := by
  induction rs generalizing n with
  | nil => simp [cut] at h
  | cons r' rs ih =>
    rw [cut] at h
    split at h
    · cases h
    · split at h
      · obtain ⟨hmem, hm⟩ := ih h
        exact ⟨List.mem_cons_of_mem _ hmem, hm⟩
      · cases h
        exact ⟨List.mem_cons_self, by omega, by omega⟩

/-- **A cut tears no record exactly when it falls on a boundary.** -/
theorem cut_eq_none_iff (hpos : ∀ r ∈ rs, enc r ≠ []) {n : ℕ} (hn : n ≤ (encodeAll enc rs).length) :
    (cut enc rs n).2 = none ↔ Boundary enc rs n := by
  induction rs generalizing n with
  | nil =>
    have hn0 : n = 0 := by simpa using hn
    subst hn0
    exact iff_of_true rfl ⟨0, by simp, by simp⟩
  | cons r rs ih =>
    have hr : 0 < (enc r).length := List.length_pos_iff.mpr (hpos r (by simp))
    rw [encodeAll_cons, List.length_append] at hn
    rw [cut]
    by_cases hn0 : n = 0
    · rw [if_pos hn0, hn0]
      exact iff_of_true rfl ⟨0, by simp, by simp⟩
    · rw [if_neg hn0]
      by_cases hle : (enc r).length ≤ n
      · rw [if_pos hle]
        rw [ih (fun r' hr' => hpos r' (by simp [hr'])) (by omega)]
        constructor
        · rintro ⟨k, hk, heq⟩
          exact ⟨k + 1, by simpa using hk, by simp; omega⟩
        · rintro ⟨k, hk, heq⟩
          cases k with
          | zero => simp at heq; omega
          | succ k => exact ⟨k, by simpa using hk, by simp at heq; omega⟩
      · rw [if_neg hle]
        refine iff_of_false (by simp) ?_
        rintro ⟨k, hk, heq⟩
        cases k with
        | zero => simp at heq; omega
        | succ k => simp at heq; omega

end AgentBus.Framing
