import Mathlib.Data.Nat.Notation
import Mathlib.Logic.Function.Basic

/-!
# Decimal digits

A number in decimal, its digits as characters or as bytes, and the digits at the front of a text.

## Main definitions

* `decimal`, `ofDecimal` — from a number to its digits and back.
* `digitChar`, `digitByte`, `digit?` — the text of a digit.
* `takeDigits` — all digits that there are.
-/

namespace AgentBus.Decimal

/-- The decimal digits of a number, most significant first. -/
def decimal (n : ℕ) : List (Fin 10) :=
  if n < 10 then [Fin.ofNat 10 n] else decimal (n / 10) ++ [Fin.ofNat 10 n]

/-- The digit that numbers are padded with. -/
def zeroDigit : Fin 10 := 0

/-- The number that decimal digits spell. -/
def ofDecimal (ds : List (Fin 10)) : ℕ := ds.foldl (fun (n : ℕ) (d : Fin 10) => 10 * n + d.val) 0

@[simp] theorem ofDecimal_decimal (n : ℕ) : ofDecimal (decimal n) = n := by
  fun_induction decimal n with
  | case1 n h => simp [ofDecimal, Fin.ofNat, Nat.mod_eq_of_lt h]
  | case2 n h ih =>
    rw [ofDecimal, List.foldl_append]
    change 10 * ofDecimal (decimal (n / 10)) + n % 10 = n
    omega

theorem decimal_injective : Function.Injective decimal :=
  Function.LeftInverse.injective ofDecimal_decimal

/-- A number starts with its only digit or with one that is not zero. -/
theorem decimal_cases (n : ℕ) :
    (∃ d, decimal n = [d]) ∨ ∃ d ds, decimal n = d :: ds ∧ d ≠ zeroDigit := by
  fun_induction decimal n with
  | case1 n h => exact .inl ⟨_, rfl⟩
  | case2 n h ih =>
    refine .inr ?_
    rcases ih with ⟨d, hd⟩ | ⟨d, ds, hds, hd⟩
    · refine ⟨d, [Fin.ofNat 10 n], by rw [hd]; rfl, ?_⟩
      intro h0
      have hval := ofDecimal_decimal (n / 10)
      rw [hd, h0] at hval
      change 0 = n / 10 at hval
      omega
    · exact ⟨d, ds ++ [Fin.ofNat 10 n], by rw [hds]; rfl, hd⟩

theorem decimal_ne_nil (n : ℕ) : decimal n ≠ [] := by
  rcases decimal_cases n with ⟨d, hd⟩ | ⟨d, ds, hd, -⟩ <;> simp [hd]

/-- The character of a digit. -/
def digitChar (d : Fin 10) : Char := Char.ofNat (48 + d)

/-- The byte of a digit. -/
def digitByte (d : Fin 10) : UInt8 := UInt8.ofNat (48 + d)

theorem digitByte_injective : Function.Injective digitByte := by
  unfold Function.Injective
  decide

/-- The digit a character spells. -/
def digit? (c : Char) : Option (Fin 10) :=
  if 48 ≤ c.toNat ∧ c.toNat < 58 then some (Fin.ofNat 10 (c.toNat - 48)) else none

@[simp] theorem digit?_digitChar (d : Fin 10) : digit? (digitChar d) = some d := by
  revert d
  decide

theorem digitChar_ne {d : Fin 10} {c : Char} (h : digit? c = none) : digitChar d ≠ c := by
  rintro rfl
  simp at h

theorem head?_decimal_ne (n : ℕ) {c : Char} (h : digit? c = none) (rest : List Char) :
    ((decimal n).map digitChar ++ rest).head? ≠ some c := by
  cases hd : decimal n with
  | nil => exact absurd hd (decimal_ne_nil n)
  | cons d ds => simp [digitChar_ne h]

/-- The digits at the front of a text, and what follows them. -/
def takeDigits : List Char → List (Fin 10) × List Char
  | [] => ([], [])
  | c :: cs =>
    match digit? c with
    | some d => (d :: (takeDigits cs).1, (takeDigits cs).2)
    | none => ([], c :: cs)

/-- A text that does not go on with a digit. -/
def NoDigit (cs : List Char) : Prop := ∀ c ∈ cs.head?, digit? c = none

@[simp] theorem takeDigits_append (ds : List (Fin 10)) {rest : List Char} (h : NoDigit rest) :
    takeDigits (ds.map digitChar ++ rest) = (ds, rest) := by
  induction ds with
  | nil =>
    cases rest with
    | nil => rfl
    | cons c cs => simp [takeDigits, h c rfl]
  | cons d ds ih => simp [takeDigits, ih]

end AgentBus.Decimal
