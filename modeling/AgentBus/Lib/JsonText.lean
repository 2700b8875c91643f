import AgentBus.Lib.JsonString
import Mathlib.Order.Nat

/-!
# JSON text

The text of a value, written without blanks, and a reader of the whole grammar: blanks,
literals, numbers, strings, arrays and objects.  The reader is given as many steps as it
can use on its text.

## Main definitions

* `Json.print` — the text of a value.
* `Json.value`, `Json.parse` — the reader.
* `Json.parse_print` — what is written is read back.
-/

namespace AgentBus.Json

open Decimal Number

mutual

/-- The text of a value. -/
def print : Json → List Char
  | .null => ['n', 'u', 'l', 'l']
  | .bool true => ['t', 'r', 'u', 'e']
  | .bool false => ['f', 'a', 'l', 's', 'e']
  | .num n => n.print
  | .str s => quote s
  | .arr [] => ['[', ']']
  | .arr (x :: xs) => '[' :: (print x ++ printElements xs)
  | .obj [] => ['{', '}']
  | .obj ((k, v) :: ms) => '{' :: (quote k ++ ':' :: (print v ++ printMembers ms))

/-- The elements of an array after the first, and the bracket. -/
def printElements : List Json → List Char
  | [] => [']']
  | x :: xs => ',' :: (print x ++ printElements xs)

/-- The members of an object after the first, and the brace. -/
def printMembers : List (String × Json) → List Char
  | [] => ['}']
  | (k, v) :: ms => ',' :: (quote k ++ ':' :: (print v ++ printMembers ms))

end

/-- The blanks between tokens. -/
def isBlank (c : Char) : Bool := c = ' ' || c = '\t' || c = '\n' || c = '\r'

/-- Skip the blanks. -/
def skip (cs : List Char) : List Char := cs.dropWhile isBlank

/-- A literal name, of which the first letter was seen. -/
def literal (word : List Char) (v : Json) (cs : List Char) : Option (Json × List Char) :=
  if cs.take word.length = word then some (v, cs.drop word.length) else none

/-- The name of a member and the colon after it. -/
def memberName (cs : List Char) : Option (String × List Char) :=
  match skip cs with
  | '"' :: cs => do
      let (k, cs) ← text cs
      match skip cs with
      | ':' :: cs => some (k, cs)
      | _ => none
  | _ => none

mutual

/-- A value at the front of a text. -/
def value : ℕ → List Char → Option (Json × List Char)
  | 0, _ => none
  | fuel + 1, cs =>
    match skip cs with
    | [] => none
    | c :: cs =>
      if c = '"' then do
        let (s, cs) ← text cs
        some (.str s, cs)
      else if c = '[' then
        match skip cs with
        | ']' :: cs => some (.arr [], cs)
        | cs => do
            let (xs, cs) ← elements fuel cs
            some (.arr xs, cs)
      else if c = '{' then
        match skip cs with
        | '}' :: cs => some (.obj [], cs)
        | cs => do
            let (ms, cs) ← memberList fuel cs
            some (.obj ms, cs)
      else if c = 'n' then literal ['u', 'l', 'l'] .null cs
      else if c = 't' then literal ['r', 'u', 'e'] (.bool true) cs
      else if c = 'f' then literal ['a', 'l', 's', 'e'] (.bool false) cs
      else do
        let (n, cs) ← Number.scan (c :: cs)
        some (.num n, cs)

/-- One or more elements up to the bracket. -/
def elements : ℕ → List Char → Option (List Json × List Char)
  | 0, _ => none
  | fuel + 1, cs => do
      let (x, cs) ← value fuel cs
      match skip cs with
      | ']' :: cs => some ([x], cs)
      | ',' :: cs => do
          let (xs, cs) ← elements fuel cs
          some (x :: xs, cs)
      | _ => none

/-- One or more members up to the brace. -/
def memberList : ℕ → List Char → Option (List (String × Json) × List Char)
  | 0, _ => none
  | fuel + 1, cs => do
      let (k, cs) ← memberName cs
      let (v, cs) ← value fuel cs
      match skip cs with
      | '}' :: cs => some ([(k, v)], cs)
      | ',' :: cs => do
          let (ms, cs) ← memberList fuel cs
          some ((k, v) :: ms, cs)
      | _ => none

end

/-- The value a whole text spells.  Every second step consumes a character. -/
def parse (cs : List Char) : Option Json := do
  let (v, cs) ← value (2 * cs.length) cs
  if skip cs = [] then some v else none

/-! ## Reading back a value -/

@[simp] theorem skip_cons {c : Char} (h : isBlank c = false) (cs : List Char) :
    skip (c :: cs) = c :: cs := by
  simp [skip, h]

theorem quote_append (s : String) (rest : List Char) :
    quote s ++ rest = '"' :: (s.toList.flatMap escape ++ '"' :: rest) := by
  simp [quote]

theorem memberName_quote (k : String) (rest : List Char) :
    memberName (quote k ++ ':' :: rest) = some (k, rest) := by
  have hquote : isBlank '"' = false := rfl
  have hcolon : isBlank ':' = false := rfl
  simp only [memberName, quote_append, skip_cons hquote, text_quote, Option.bind_eq_bind,
    Option.bind_some, skip_cons hcolon]

/-- The characters a number may start with. -/
def numberStarts : List Char := ['-', '0', '1', '2', '3', '4', '5', '6', '7', '8', '9']

theorem digitChar_mem_numberStarts (d : Fin 10) : digitChar d ∈ numberStarts := by
  revert d
  decide

/-- A number starts with a sign or a digit. -/
theorem exists_print_num (n : Number) : ∃ c cs, n.print = c :: cs ∧ c ∈ numberStarts := by
  cases hd : decimal n.whole with
  | nil => exact absurd hd (decimal_ne_nil _)
  | cons d ds =>
    cases hneg : n.negative with
    | true => exact ⟨'-', _, by simp [Number.print, hneg]; rfl, by decide⟩
    | false =>
      exact ⟨digitChar d, _, by simp [Number.print, hneg, hd]; rfl,
        digitChar_mem_numberStarts d⟩

/-- The first character of a number decides for the number. -/
theorem of_mem_numberStarts {c : Char} (h : c ∈ numberStarts) :
    isBlank c = false ∧ c ≠ ']' ∧ c ≠ '"' ∧ c ≠ '[' ∧ c ≠ '{' ∧ c ≠ 'n' ∧ c ≠ 't' ∧ c ≠ 'f' := by
  simp only [numberStarts, List.mem_cons, List.not_mem_nil, or_false] at h
  rcases h with rfl | rfl | rfl | rfl | rfl | rfl | rfl | rfl | rfl | rfl | rfl <;> decide

/-- A value starts with something other than a blank or a closing bracket. -/
theorem exists_print (v : Json) :
    ∃ c cs, print v = c :: cs ∧ isBlank c = false ∧ c ≠ ']' := by
  cases v with
  | null => exact ⟨_, _, by rw [print], rfl, by decide⟩
  | bool b => cases b <;> exact ⟨_, _, by rw [print], rfl, by decide⟩
  | num n =>
    obtain ⟨c, cs, hn, hc⟩ := exists_print_num n
    obtain ⟨hblank, hbracket, -⟩ := of_mem_numberStarts hc
    exact ⟨c, cs, by rw [print, hn], hblank, hbracket⟩
  | str s => exact ⟨_, _, by rw [print, quote], rfl, by decide⟩
  | arr xs => cases xs <;> exact ⟨_, _, by rw [print], rfl, by decide⟩
  | obj ms => rcases ms with _ | ⟨⟨k, v⟩, ms⟩ <;> exact ⟨_, _, by rw [print], rfl, by decide⟩

theorem length_print_pos (v : Json) : 0 < (print v).length := by
  obtain ⟨c, cs, hv, -⟩ := exists_print v
  simp [hv]

theorem delimited_printElements (xs : List Json) (rest : List Char) :
    0 < (printElements xs).length ∧ Delimited (printElements xs ++ rest) := by
  cases xs <;> simp [printElements, Delimited]

theorem delimited_printMembers (ms : List (String × Json)) (rest : List Char) :
    0 < (printMembers ms).length ∧ Delimited (printMembers ms ++ rest) := by
  rcases ms with _ | ⟨⟨k, v⟩, ms⟩ <;> simp [printMembers, Delimited]

/-- What `fuel` steps of the reader are enough for. -/
structure ReadsBack (fuel : ℕ) : Prop where
  value : ∀ (v : Json) (rest : List Char), Delimited rest → 2 * (print v).length ≤ fuel →
    value fuel (print v ++ rest) = some (v, rest)
  elements : ∀ (x : Json) (xs : List Json) (rest : List Char),
    2 * ((print x).length + (printElements xs).length) ≤ fuel + 1 →
    elements fuel (print x ++ (printElements xs ++ rest)) = some (x :: xs, rest)
  members : ∀ (k : String) (v : Json) (ms : List (String × Json)) (rest : List Char),
    2 * ((print v).length + (printMembers ms).length) ≤ fuel + 1 →
    memberList fuel (quote k ++ ':' :: (print v ++ (printMembers ms ++ rest))) =
      some ((k, v) :: ms, rest)

theorem readsBack_value {fuel : ℕ} (ih : ReadsBack fuel) (v : Json) (rest : List Char)
    (h : Delimited rest) (hf : 2 * (print v).length ≤ fuel + 1) :
    value (fuel + 1) (print v ++ rest) = some (v, rest) := by
  cases v with
  | null => simp [print, value, skip, isBlank, literal]
  | bool b => cases b <;> simp [print, value, skip, isBlank, literal]
  | num n =>
    obtain ⟨c, cs, hn, hc⟩ := exists_print_num n
    obtain ⟨hblank, -, h1, h2, h3, h4, h5, h6⟩ := of_mem_numberStarts hc
    have hscan := scan_print n h
    rw [hn] at hscan
    simp only [print, hn, List.cons_append] at hscan ⊢
    simp only [value, skip_cons hblank, h1, h2, h3, h4, h5, h6, if_false, hscan,
      Option.bind_eq_bind, Option.bind_some]
  | str s =>
    have hquote : isBlank '"' = false := rfl
    simp only [print, value, quote_append, skip_cons hquote, if_true, text_quote,
      Option.bind_eq_bind, Option.bind_some]
  | arr xs =>
    cases xs with
    | nil => simp [print, value, skip, isBlank]
    | cons x xs =>
      have hopen : isBlank '[' = false := rfl
      obtain ⟨c, cs, hx, hblank, hbracket⟩ := exists_print x
      have hrest := ih.elements x xs rest (by
        simp only [print, List.length_cons, List.length_append] at hf
        omega)
      rw [hx] at hrest
      simp only [print, hx, List.cons_append, List.append_assoc] at hrest ⊢
      simp only [value, skip_cons hopen, skip_cons hblank]
      simp [hbracket, hrest]
  | obj ms =>
    rcases ms with _ | ⟨⟨k, v⟩, ms⟩
    · simp [print, value, skip, isBlank]
    · have hopen : isBlank '{' = false := rfl
      have hquote : isBlank '"' = false := rfl
      have hrest := ih.members k v ms rest (by
        simp only [print, List.length_cons, List.length_append] at hf
        omega)
      simp only [quote_append] at hrest
      simp only [print, quote_append, List.cons_append, List.append_assoc] at hrest ⊢
      simp only [value, skip_cons hopen, skip_cons hquote]
      simp [hrest]

theorem readsBack_elements {fuel : ℕ} (ih : ReadsBack fuel) (x : Json) (xs : List Json)
    (rest : List Char) (hf : 2 * ((print x).length + (printElements xs).length) ≤ fuel + 2) :
    elements (fuel + 1) (print x ++ (printElements xs ++ rest)) = some (x :: xs, rest) := by
  obtain ⟨hpos, hdel⟩ := delimited_printElements xs rest
  have hx := ih.value x _ hdel (by omega)
  simp only [elements, hx, Option.bind_eq_bind, Option.bind_some]
  cases xs with
  | nil => simp [printElements, skip, isBlank]
  | cons y ys =>
    have hcomma : isBlank ',' = false := rfl
    have hrest := ih.elements y ys rest (by
      simp only [printElements, List.length_cons, List.length_append] at hf
      omega)
    simp only [printElements, List.cons_append, List.append_assoc, skip_cons hcomma, hrest,
      Option.bind_some]

theorem readsBack_members {fuel : ℕ} (ih : ReadsBack fuel) (k : String) (v : Json)
    (ms : List (String × Json)) (rest : List Char)
    (hf : 2 * ((print v).length + (printMembers ms).length) ≤ fuel + 2) :
    memberList (fuel + 1) (quote k ++ ':' :: (print v ++ (printMembers ms ++ rest))) =
      some ((k, v) :: ms, rest) := by
  obtain ⟨hpos, hdel⟩ := delimited_printMembers ms rest
  have hv := ih.value v _ hdel (by omega)
  simp only [memberList, memberName_quote, hv, Option.bind_eq_bind, Option.bind_some]
  rcases ms with _ | ⟨⟨k', v'⟩, ms⟩
  · simp [printMembers, skip, isBlank]
  · have hcomma : isBlank ',' = false := rfl
    have hrest := ih.members k' v' ms rest (by
      simp only [printMembers, List.length_cons, List.length_append] at hf
      omega)
    simp only [printMembers, List.cons_append, List.append_assoc, skip_cons hcomma, hrest,
      Option.bind_some]

theorem readsBack (fuel : ℕ) : ReadsBack fuel := by
  induction fuel with
  | zero =>
    refine ⟨?_, ?_, ?_⟩
    · intro v rest _ hf
      have := length_print_pos v
      omega
    · intro x xs rest hf
      have := length_print_pos x
      omega
    · intro k v ms rest hf
      have := length_print_pos v
      omega
  | succ fuel ih => exact ⟨readsBack_value ih, readsBack_elements ih, readsBack_members ih⟩

/-- **What is written is read back**, for every value. -/
@[simp] theorem parse_print (v : Json) : parse (print v) = some v := by
  have hv := (readsBack (2 * (print v).length)).value v [] (by simp [Delimited]) le_rfl
  rw [List.append_nil] at hv
  simp only [parse, hv, Option.bind_eq_bind, Option.bind_some, skip, List.dropWhile_nil, if_true]

theorem print_injective : Function.Injective print := by
  intro v v' h
  have hparse := congrArg parse h
  rwa [parse_print, parse_print, Option.some.injEq] at hparse

/-- Values are compared by their texts. -/
instance : DecidableEq Json := fun _ _ => decidable_of_iff _ print_injective.eq_iff

end AgentBus.Json
