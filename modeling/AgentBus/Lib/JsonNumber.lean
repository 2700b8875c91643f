import AgentBus.Lib.Decimal
import AgentBus.Lib.Json

/-!
# The text of a number

Numbers as JSON writes them: a sign, an integer part without a leading zero, a fraction
and an exponent.  The reader takes all digits there are, so a number is read back only in
front of something that ends it.

## Main definitions

* `Number.print`, `Number.scan` — writing and reading.
* `Number.scan_print` — what is written is read back.
-/

namespace AgentBus

namespace Number

open Decimal

variable {rest cs : List Char}

/-- The text of an exponent. -/
def exponentText : Option ℤ → List Char
  | none => []
  | some z => 'e' :: (if decide (z < 0) then ['-'] else []) ++ (decimal z.natAbs).map digitChar

/-- The text of a number: sign, integer part, fraction and exponent. -/
def print (n : Number) : List Char :=
  (if n.negative then ['-'] else []) ++ (decimal n.whole).map digitChar ++
    (if n.fraction = [] then [] else '.' :: n.fraction.map digitChar) ++ exponentText n.exponent

/-- A sign at the front of a text. -/
def sign : List Char → Bool × List Char
  | '-' :: cs => (true, cs)
  | cs => (false, cs)

/-- One or more digits. -/
def someDigits (cs : List Char) : Option (List (Fin 10) × List Char) :=
  let r := takeDigits cs
  if r.1 = [] then none else some r

/-- The integer part: a zero is followed by no digit. -/
def wholePart (cs : List Char) : Option (ℕ × List Char) := do
  let (ds, cs) ← someDigits cs
  if ds.head? = some zeroDigit ∧ ds ≠ [zeroDigit] then none else some (ofDecimal ds, cs)

/-- The fraction, if there is one. -/
def fractionPart : List Char → Option (List (Fin 10) × List Char)
  | '.' :: cs => someDigits cs
  | cs => some ([], cs)

/-- The sign of an exponent, which may be a plus. -/
def exponentSign : List Char → Bool × List Char
  | '+' :: cs => (false, cs)
  | cs => sign cs

/-- The exponent after its letter. -/
def exponentValue (cs : List Char) : Option (Option ℤ × List Char) := do
  let (negative, cs) := exponentSign cs
  let (ds, cs) ← someDigits cs
  some (some (if negative then -ofDecimal ds else ofDecimal ds), cs)

/-- The exponent, if there is one. -/
def exponentPart : List Char → Option (Option ℤ × List Char)
  | 'e' :: cs => exponentValue cs
  | 'E' :: cs => exponentValue cs
  | cs => some (none, cs)

/-- A number at the front of a text. -/
def scan (cs : List Char) : Option (Number × List Char) := do
  let (negative, cs) := sign cs
  let (whole, cs) ← wholePart cs
  let (fraction, cs) ← fractionPart cs
  let (exponent, cs) ← exponentPart cs
  some (⟨negative, whole, fraction, exponent⟩, cs)

/-! A number is read back in front of anything that ends it. -/

/-- What may follow a value inside a text. -/
def Delimited (cs : List Char) : Prop := ∀ c ∈ cs.head?, c = ',' ∨ c = ']' ∨ c = '}'

theorem Delimited.noDigit (h : Delimited cs) : NoDigit cs := by
  intro c hc
  rcases h c hc with rfl | rfl | rfl <;> rfl

@[simp] theorem someDigits_append {ds : List (Fin 10)} (hds : ds ≠ []) (h : NoDigit rest) :
    someDigits (ds.map digitChar ++ rest) = some (ds, rest) := by
  simp [someDigits, takeDigits_append ds h, hds]

@[simp] theorem wholePart_decimal (n : ℕ) (h : NoDigit rest) :
    wholePart ((decimal n).map digitChar ++ rest) = some (n, rest) := by
  have hzero : ¬ ((decimal n).head? = some zeroDigit ∧ decimal n ≠ [zeroDigit]) := by
    rcases decimal_cases n with ⟨d, hd⟩ | ⟨d, ds, hd, h0⟩ <;> simp_all
  simp only [wholePart, someDigits_append (decimal_ne_nil n) h, Option.bind_eq_bind,
    Option.bind_some, if_neg hzero, ofDecimal_decimal]

/-- The sign in front of a text without one. -/
@[simp] theorem sign_append (b : Bool) (h : cs.head? ≠ some '-') :
    sign ((if b then ['-'] else []) ++ cs) = (b, cs) := by
  cases b with
  | true => rfl
  | false =>
    unfold sign
    split
    · simp_all
    · rfl

theorem fractionPart_append (fs : List (Fin 10)) (h : NoDigit rest) (hdot : rest.head? ≠ some '.') :
    fractionPart ((if fs = [] then [] else '.' :: fs.map digitChar) ++ rest) =
      some (fs, rest) := by
  by_cases hfs : fs = []
  · subst hfs
    simp only [if_true, List.nil_append]
    unfold fractionPart
    split
    · simp at hdot
    · rfl
  · simp only [hfs, if_false, List.cons_append, fractionPart, someDigits_append hfs h]

theorem exponentSign_append (b : Bool) (hminus : cs.head? ≠ some '-')
    (hplus : cs.head? ≠ some '+') :
    exponentSign ((if b then ['-'] else []) ++ cs) = (b, cs) := by
  rw [← sign_append b hminus]
  cases b with
  | true => rfl
  | false =>
    unfold exponentSign
    split
    · simp_all
    · rfl

theorem exponentValue_decimal (z : ℤ) (h : NoDigit rest) :
    exponentValue ((if decide (z < 0) then ['-'] else []) ++
      ((decimal z.natAbs).map digitChar ++ rest)) = some (some z, rest) := by
  have hsign := exponentSign_append (decide (z < 0))
    (head?_decimal_ne z.natAbs (by rfl : digit? '-' = none) rest)
    (head?_decimal_ne z.natAbs (by rfl : digit? '+' = none) rest)
  simp only [exponentValue, hsign, someDigits_append (decimal_ne_nil _) h, Option.bind_eq_bind,
    Option.bind_some, ofDecimal_decimal, Option.some.injEq, Prod.mk.injEq, and_true]
  by_cases hz : z < 0
  · simp only [hz, decide_true, if_true]; omega
  · simp only [hz, decide_false, Bool.false_eq_true, if_false]; omega

@[simp] theorem exponentPart_append (o : Option ℤ) (h : Delimited rest) :
    exponentPart (exponentText o ++ rest) = some (o, rest) := by
  cases o with
  | none =>
    unfold exponentPart exponentText
    split
    · simpa using h 'e' (by simp_all)
    · simpa using h 'E' (by simp_all)
    · simp_all
  | some z =>
    simp only [exponentText, List.cons_append, List.append_assoc, exponentPart]
    exact exponentValue_decimal z h.noDigit

/-- What follows the fraction of a number. -/
theorem noDigit_exponentText (o : Option ℤ) (h : Delimited rest) :
    NoDigit (exponentText o ++ rest) ∧ (exponentText o ++ rest).head? ≠ some '.' := by
  cases o with
  | none =>
    refine ⟨h.noDigit, ?_⟩
    intro hdot
    simpa using h '.' hdot
  | some z => simp [exponentText, NoDigit, digit?]

/-- What follows the integer part of a number. -/
theorem noDigit_fraction (fs : List (Fin 10)) (h : NoDigit rest) :
    NoDigit ((if fs = [] then [] else '.' :: fs.map digitChar) ++ rest) := by
  by_cases hfs : fs = []
  · simpa [hfs] using h
  · simp [hfs, NoDigit, digit?]

/-- **A number is read back.** -/
@[simp] theorem scan_print (n : Number) (h : Delimited rest) :
    scan (n.print ++ rest) = some (n, rest) := by
  obtain ⟨hexp, hdot⟩ := noDigit_exponentText n.exponent h
  have hsign := sign_append n.negative (head?_decimal_ne n.whole (by rfl : digit? '-' = none)
    ((if n.fraction = [] then [] else '.' :: n.fraction.map digitChar) ++
      (exponentText n.exponent ++ rest)))
  simp only [scan, print, List.append_assoc, hsign,
    wholePart_decimal n.whole (noDigit_fraction n.fraction hexp),
    fractionPart_append n.fraction hexp hdot, exponentPart_append n.exponent h,
    Option.bind_eq_bind, Option.bind_some]

end Number
end AgentBus
