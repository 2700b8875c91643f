import AgentBus.Lib.Base64
import Mathlib.Algebra.Group.Int.Defs
import Mathlib.Algebra.Group.Nat.Defs

/-!
# JSON values, and reading them into records

A `Json` value keeps the members of an object in order and with repetitions, as a
reader of the text meets them.  Numbers keep what their text says rather than a
rational value, since whether a number is an integer literal decides whether it
can be read into an integer.

`readField` reads one field of a record out of the members of an object by the
rules of a record decoder that matches names without regard to case: members are
taken in order, a later one overwrites an earlier one, `null` leaves the field
alone, an unknown member is skipped, and one member of the wrong type makes the
whole read fail.

## Main definitions

* `Json`, `Number` — values.
* `Json.members` — the members a record is read from.
* `readString`, `readInt64`, `readBool`, `readBytes` — the field types.
* `readField` — one field of a record.
-/

namespace AgentBus

/-- A number as its text gives it: sign, integer part, fraction digits and exponent. -/
structure Number where
  negative : Bool
  whole : ℕ
  fraction : List (Fin 10)
  exponent : Option ℤ
  deriving DecidableEq, Repr, Inhabited

/-- The literal of an integer. -/
def Number.ofInt (z : ℤ) : Number := ⟨decide (z < 0), z.natAbs, [], none⟩

/-- The value of an integer literal that fits in 64 bits; a fraction or an exponent is
refused even when the number it denotes is whole. -/
def Number.toInt64? (n : Number) : Option ℤ :=
  let v : ℤ := if n.negative then -n.whole else n.whole
  if n.fraction = [] ∧ n.exponent = none ∧ -2 ^ 63 ≤ v ∧ v < 2 ^ 63 then some v else none

@[simp] theorem Number.toInt64?_ofInt {z : ℤ} (hlo : -2 ^ 63 ≤ z) (hhi : z < 2 ^ 63) :
    (Number.ofInt z).toInt64? = some z := by
  have hv : (if (Number.ofInt z).negative then -((Number.ofInt z).whole : ℤ)
      else ((Number.ofInt z).whole : ℤ)) = z := by
    by_cases hz : z < 0
    · simp only [Number.ofInt, hz, decide_true, if_true]; omega
    · simp only [Number.ofInt, hz, decide_false, Bool.false_eq_true, if_false]; omega
  simp only [Number.toInt64?, hv]
  rw [if_pos ⟨rfl, rfl, hlo, hhi⟩]

/-- JSON values. -/
inductive Json where
  | null
  | bool (b : Bool)
  | num (n : Number)
  | str (s : String)
  | arr (xs : List Json)
  | obj (ms : List (String × Json))
  deriving Inhabited

namespace Json

/-- The members a record is read from; `null` reads as no member at all, and any other
value is of the wrong type. -/
def members : Json → Option (List (String × Json))
  | .obj ms => some ms
  | .null => some []
  | _ => none

/-- Read a string field that holds `old`. -/
def readString (old : String) : Json → Option String
  | .str s => some s
  | .null => some old
  | _ => none

/-- Read a 64-bit integer field that holds `old`. -/
def readInt64 (old : ℤ) : Json → Option ℤ
  | .num n => n.toInt64?
  | .null => some old
  | _ => none

/-- Read a Boolean field that holds `old`. -/
def readBool (old : Bool) : Json → Option Bool
  | .bool b => some b
  | .null => some old
  | _ => none

/-- One octet of a byte string written as an array. -/
def readOctet : Json → Option UInt8
  | .num n => n.toInt64?.bind fun v =>
    if 0 ≤ v ∧ v < 256 then some (UInt8.ofNat v.toNat) else none
  | .null => some 0
  | _ => none

/-- Read a byte-string field: base64 text, an array of octets, or `null` for none. -/
def readBytes (_old : List UInt8) : Json → Option (List UInt8)
  | .str s => Base64.decode s.toList
  | .arr xs => xs.mapM readOctet
  | .null => some []
  | _ => none

/-- The base64 text of a byte string. -/
def ofBytes (bs : List UInt8) : Json := .str (String.ofList (Base64.encode bs))

@[simp] theorem readBytes_ofBytes (old bs : List UInt8) :
    readBytes old (ofBytes bs) = some bs := by
  simp [readBytes, ofBytes]

/-- The case-folding of a character, as far as it can meet an ASCII name: the long s and
the Kelvin sign fold onto letters. -/
def foldRune (c : Char) : Char :=
  if c.isLower then c.toUpper
  else if c = 'ſ' then 'S'
  else if c = 'K' then 'K'
  else c

/-- Member names are compared without regard to case. -/
def foldName (s : String) : List Char := s.toList.map foldRune

/-- Read one field, named `name` and zero before the read, out of the members. -/
def readField {α : Type} (read : α → Json → Option α) (name : String) (zero : α)
    (ms : List (String × Json)) : Option α :=
  ms.foldlM (fun old m => if foldName m.1 = foldName name then read old m.2 else some old) zero

section
variable {α : Type} (read : α → Json → Option α) (name : String) (zero : α)

@[simp] theorem readField_nil : readField read name zero [] = some zero := rfl

/-- The member that carries the field. -/
@[simp] theorem readField_cons_self {k : String} (v : Json) (ms : List (String × Json))
    (hk : foldName k = foldName name) :
    readField read name zero ((k, v) :: ms) =
      (read zero v).bind fun a => readField read name a ms := by
  simp [readField, hk]

/-- A member of another name. -/
@[simp] theorem readField_cons_ne {k : String} (v : Json) (ms : List (String × Json))
    (hk : foldName k ≠ foldName name) :
    readField read name zero ((k, v) :: ms) = readField read name zero ms := by
  simp [readField, hk]

/-- A field without a member stays zero. -/
@[simp] theorem readField_of_notMem {ms : List (String × Json)}
    (h : foldName name ∉ ms.map fun m => foldName m.1) :
    readField read name zero ms = some zero := by
  induction ms with
  | nil => rfl
  | cons m ms ih =>
    simp only [List.map_cons, List.mem_cons, not_or] at h
    rw [readField_cons_ne read name zero _ _ (Ne.symm h.1), ih h.2]

/-- Among members of different names each field is read from its own. -/
theorem readField_of_mem {v : Json} {ms : List (String × Json)} (hv : (name, v) ∈ ms)
    (h : (ms.map fun m => foldName m.1).Nodup) : readField read name zero ms = read zero v := by
  induction ms with
  | nil => cases hv
  | cons m ms ih =>
    simp only [List.map_cons, List.nodup_cons] at h
    rcases List.mem_cons.mp hv with rfl | hmem
    · rw [readField_cons_self read name zero _ _ rfl]
      cases hread : read zero v with
      | none => rfl
      | some a => exact readField_of_notMem read name a h.1
    · have hne : foldName m.1 ≠ foldName name := by
        intro heq
        exact h.1 (heq ▸ List.mem_map.mpr ⟨(name, v), hmem, rfl⟩)
      rw [readField_cons_ne read name zero _ _ hne, ih hmem h.2]

end
end Json
end AgentBus
