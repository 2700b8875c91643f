import AgentBus.Lib.JsonNumber

/-!
# The text of a string

A string is written between quotes with some characters escaped, and read in two passes:
first into codes, then into characters, since two `\u` escapes may spell one character
between them.

## Main definitions

* `Json.escape`, `Json.quote` — writing.
* `Json.codes`, `Json.join`, `Json.text` — reading.
* `Json.text_quote` — what is written is read back.
-/

namespace AgentBus.Json

/-- A hexadecimal digit. -/
def hexDigit (d : Fin 16) : Char :=
  if d.val < 10 then Char.ofNat (48 + d) else Char.ofNat (87 + d)

/-- The value of a hexadecimal digit in either case. -/
def hexValue? (c : Char) : Option ℕ :=
  if 48 ≤ c.toNat ∧ c.toNat < 58 then some (c.toNat - 48)
  else if 97 ≤ c.toNat ∧ c.toNat < 103 then some (c.toNat - 87)
  else if 65 ≤ c.toNat ∧ c.toNat < 71 then some (c.toNat - 55)
  else none

@[simp] theorem hexValue?_hexDigit (d : Fin 16) : hexValue? (hexDigit d) = some d.val := by
  revert d
  decide

/-- Four hexadecimal digits. -/
def hex4 (n : ℕ) : List Char :=
  [hexDigit (Fin.ofNat 16 (n / 4096)), hexDigit (Fin.ofNat 16 (n / 256)),
    hexDigit (Fin.ofNat 16 (n / 16)), hexDigit (Fin.ofNat 16 n)]

/-- The number that four hexadecimal digits spell. -/
def hex4? (a b c d : Char) : Option ℕ := do
  let a ← hexValue? a
  let b ← hexValue? b
  let c ← hexValue? c
  let d ← hexValue? d
  some (a * 4096 + b * 256 + c * 16 + d)

/-- The letter that stands for a character after a backslash. -/
def shortEscape? (c : Char) : Option Char :=
  if c = '"' ∨ c = '\\' then some c
  else if c = '\x08' then some 'b'
  else if c = '\x0c' then some 'f'
  else if c = '\n' then some 'n'
  else if c = '\r' then some 'r'
  else if c = '\t' then some 't'
  else none

/-- The characters that are written as they are.  Besides what the grammar asks for, the
characters that mean something to HTML and the two line separators are escaped. -/
def isPlain (c : Char) : Bool :=
  !(c.toNat < 0x20 || c = '<' || c = '>' || c = '&' || c = '\u2028' || c = '\u2029')

/-- How a character is written inside a string. -/
def escape (c : Char) : List Char :=
  match shortEscape? c with
  | some e => ['\\', e]
  | none => if isPlain c then [c] else '\\' :: 'u' :: hex4 c.toNat

/-- The text of a string. -/
def quote (s : String) : List Char := '"' :: (s.toList.flatMap escape ++ ['"'])

/-- What a string is made of: characters, and 16-bit units given by number. -/
inductive Code where
  | rune (c : Char)
  | unit (n : ℕ)
  deriving DecidableEq, Repr

/-- The character after a backslash. -/
def unescape? (c : Char) : Option Char :=
  if c = '"' ∨ c = '\\' ∨ c = '/' then some c
  else if c = 'b' then some '\x08'
  else if c = 'f' then some '\x0c'
  else if c = 'n' then some '\n'
  else if c = 'r' then some '\r'
  else if c = 't' then some '\t'
  else none

/-- What follows a backslash. -/
def escaped? : List Char → Option (Code × List Char)
  | 'u' :: a :: b :: c :: d :: cs => (hex4? a b c d).map fun n => (.unit n, cs)
  | e :: cs => (unescape? e).map fun c => (.rune c, cs)
  | [] => none

/-- One code of a string. -/
def code? : List Char → Option (Code × List Char)
  | [] => none
  | c :: cs =>
    if c = '\\' then escaped? cs
    else if c.toNat < 0x20 then none
    else some (.rune c, cs)

/-- The codes of a string up to its closing quote. -/
def codes : ℕ → List Char → Option (List Code × List Char)
  | 0, _ => none
  | n + 1, cs =>
    if cs.head? = some '"' then some ([], cs.tail)
    else do
      let (u, cs) ← code? cs
      let (us, cs) ← codes n cs
      some (u :: us, cs)

/-- The first unit of a surrogate pair. -/
def isHigh (n : ℕ) : Bool := 0xD800 ≤ n && n < 0xDC00

/-- The second unit of a surrogate pair. -/
def isLow (n : ℕ) : Bool := 0xDC00 ≤ n && n < 0xE000

/-- The character of a unit on its own; half a pair is replaced. -/
def loneUnit (n : ℕ) : Char := if isHigh n || isLow n then '\uFFFD' else Char.ofNat n

/-- The characters that codes spell. -/
def join : List Code → List Char
  | [] => []
  | .rune c :: us => c :: join us
  | .unit hi :: .unit lo :: us =>
    if isHigh hi && isLow lo then
      Char.ofNat (0x10000 + (hi - 0xD800) * 0x400 + (lo - 0xDC00)) :: join us
    else loneUnit hi :: join (.unit lo :: us)
  | .unit n :: us => loneUnit n :: join us

/-- A string after its opening quote. -/
def text (cs : List Char) : Option (String × List Char) := do
  let (us, cs) ← codes (cs.length + 1) cs
  some (String.ofList (join us), cs)

/-! A string is read back, character by character. -/

@[simp] theorem hex4?_hex4 {n : ℕ} (h : n < 65536) :
    hex4? (hexDigit (Fin.ofNat 16 (n / 4096))) (hexDigit (Fin.ofNat 16 (n / 256)))
      (hexDigit (Fin.ofNat 16 (n / 16))) (hexDigit (Fin.ofNat 16 n)) = some n := by
  simp only [hex4?, hexValue?_hexDigit, Fin.ofNat, Option.bind_eq_bind, Option.bind_some,
    Option.some.injEq]
  omega

/-- A scalar value is no half of a pair. -/
@[simp] theorem join_unit_toNat (c : Char) (us : List Code) :
    join (.unit c.toNat :: us) = c :: join us := by
  have hlone : (isHigh c.toNat || isLow c.toNat) = false := by
    have hvalid := c.valid
    simp only [UInt32.isValidChar, Nat.isValidChar] at hvalid
    change c.toNat < 0xd800 ∨ 0xdfff < c.toNat ∧ c.toNat < 0x110000 at hvalid
    simp only [isHigh, isLow, Bool.or_eq_false_iff, Bool.and_eq_false_iff, decide_eq_false_iff_not]
    omega
  have hunit : loneUnit c.toNat = c := by simp [loneUnit, hlone, Char.ofNat_toNat]
  have hhigh : isHigh c.toNat = false := (Bool.or_eq_false_iff.mp hlone).1
  rcases us with _ | ⟨_ | lo, us⟩ <;> simp [join, hhigh, hunit]

theorem shortEscape?_eq_some {c e : Char} (h : shortEscape? c = some e) :
    unescape? e = some c ∧ e ≠ 'u' := by
  unfold shortEscape? at h
  split at h
  · rename_i hc
    cases h
    rcases hc with rfl | rfl <;> decide
  · repeat' split at h
    all_goals cases h
    all_goals simp_all [unescape?]

theorem shortEscape?_eq_none {c : Char} (h : shortEscape? c = none) : c ≠ '"' ∧ c ≠ '\\' := by
  constructor <;> rintro rfl <;> simp [shortEscape?] at h

/-- An escaped character without a letter of its own has a number of four digits. -/
theorem toNat_lt_of_not_isPlain {c : Char} (h : isPlain c = false) : c.toNat < 65536 := by
  simp only [isPlain, Bool.not_eq_false', Bool.or_eq_true, decide_eq_true_eq] at h
  rcases h with ((((h | rfl) | rfl) | rfl) | rfl) | rfl
  · omega
  all_goals decide

/-- **A written character is read as one code that stands for it.** -/
theorem code?_escape (c : Char) :
    ∃ u, (∀ rest, code? (escape c ++ rest) = some (u, rest)) ∧
      ∀ us, join (u :: us) = c :: join us := by
  unfold escape
  cases hshort : shortEscape? c with
  | some e =>
    obtain ⟨he, hu⟩ := shortEscape?_eq_some hshort
    refine ⟨.rune c, fun rest => ?_, fun us => rfl⟩
    simp [code?, escaped?, hu, he]
  | none =>
    have hslash := (shortEscape?_eq_none hshort).2
    cases hplain : isPlain c with
    | true =>
      refine ⟨.rune c, fun rest => ?_, fun us => rfl⟩
      have hlow : ¬ c.toNat < 0x20 := by
        intro hlow
        simp [isPlain, hlow] at hplain
      simp [code?, hslash, hlow]
    | false =>
      refine ⟨.unit c.toNat, fun rest => ?_, join_unit_toNat c⟩
      simp only [hex4, Bool.false_eq_true, if_false, List.cons_append, List.nil_append, code?,
        if_true, escaped?, hex4?_hex4 (toNat_lt_of_not_isPlain hplain), Option.map_some]

/-- A written character is not mistaken for the closing quote. -/
theorem head?_escape (c : Char) (rest : List Char) :
    escape c ≠ [] ∧ (escape c ++ rest).head? ≠ some '"' := by
  unfold escape
  cases hshort : shortEscape? c with
  | some e => simp
  | none =>
    cases hplain : isPlain c with
    | true => simp [(shortEscape?_eq_none hshort).1]
    | false => simp

/-- The codes of a written string spell it. -/
theorem codes_escape (cs rest : List Char) {n : ℕ} (h : cs.length < n) :
    ∃ us, codes n (cs.flatMap escape ++ '"' :: rest) = some (us, rest) ∧ join us = cs := by
  induction cs generalizing n with
  | nil =>
    obtain ⟨n, rfl⟩ := Nat.exists_eq_succ_of_ne_zero (Nat.ne_zero_of_lt h)
    exact ⟨[], rfl, rfl⟩
  | cons c cs ih =>
    obtain ⟨n, rfl⟩ := Nat.exists_eq_succ_of_ne_zero (Nat.ne_zero_of_lt h)
    obtain ⟨us, hus, hjoin⟩ := ih (Nat.lt_of_succ_lt_succ h)
    obtain ⟨u, hu, hstep⟩ := code?_escape c
    refine ⟨u :: us, ?_, by rw [hstep, hjoin]⟩
    rw [List.flatMap_cons, List.append_assoc, codes, if_neg (head?_escape c _).2, hu]
    simp only [Option.bind_eq_bind, Option.bind_some, hus]

theorem length_le_flatMap_escape (cs : List Char) : cs.length ≤ (cs.flatMap escape).length := by
  induction cs with
  | nil => simp
  | cons c cs ih =>
    have := List.length_pos_iff.mpr (head?_escape c []).1
    simp only [List.length_cons, List.flatMap_cons, List.length_append]
    omega

/-- **A string is read back after its opening quote.** -/
theorem text_quote (s : String) (rest : List Char) :
    text (s.toList.flatMap escape ++ '"' :: rest) = some (s, rest) := by
  have hlen := length_le_flatMap_escape s.toList
  obtain ⟨us, hus, hjoin⟩ := codes_escape s.toList rest
    (n := (s.toList.flatMap escape ++ '"' :: rest).length + 1)
    (by simp only [List.length_append, List.length_cons]; omega)
  simp only [text, hus, Option.bind_eq_bind, Option.bind_some, hjoin, String.ofList_toList]

end AgentBus.Json
