import AgentBus.Lib.JsonText

/-!
# Strings that were not escaped

A program may put a string between quotes as it is.  Where every character of it stands for itself,
the reader gives the string back (`text_verbatim`).  Otherwise whatever the reader makes of the text
is shorter: an escape takes up more characters than it stands for, and a quote ends the string early
(`text_cases`).

An object that was put together with such a string at its end therefore says what it was meant to
say if the string is verbatim, and only then (`parse_spliced`, `verbatim_of_spliced`).

## Main definitions

* `Verbatim` — every character stands for itself.
* `spliced` — the text of an object whose last member is a string that was not escaped.
-/

namespace AgentBus.Json

/-- Every character stands for itself between quotes. -/
def Verbatim (cs : List Char) : Prop := ∀ c ∈ cs, c ≠ '"' ∧ c ≠ '\\' ∧ 0x20 ≤ c.toNat

instance (cs : List Char) : Decidable (Verbatim cs) := List.decidableBAll _ cs

/-! ## What is read back -/

@[simp] theorem join_map_rune (cs : List Char) : join (cs.map .rune) = cs := by
  induction cs with
  | nil => rfl
  | cons c cs ih => rw [List.map_cons, join, ih]

variable {cs rest raw : List Char} {fuel : ℕ} {ms : List (String × Json)} {k : String}

theorem codes_verbatim (h : Verbatim cs) (rest : List Char) {n : ℕ} (hn : cs.length < n) :
    codes n (cs ++ '"' :: rest) = some (cs.map .rune, rest) := by
  induction cs generalizing n with
  | nil =>
    obtain ⟨n, rfl⟩ := Nat.exists_eq_succ_of_ne_zero (Nat.ne_zero_of_lt hn)
    rfl
  | cons c cs ih =>
    obtain ⟨n, rfl⟩ := Nat.exists_eq_succ_of_ne_zero (Nat.ne_zero_of_lt hn)
    obtain ⟨hquote, hslash, hlow⟩ := h c (by simp)
    have hrest := ih (fun c' hc' => h c' (by simp [hc'])) (Nat.lt_of_succ_lt_succ hn)
    have hcode : code? (c :: (cs ++ '"' :: rest)) = some (.rune c, cs ++ '"' :: rest) := by
      simp [code?, hslash, Nat.not_lt.mpr hlow]
    simp [codes, hquote, hcode, hrest]

/-- **A verbatim string is read as it stands.** -/
@[simp] theorem text_verbatim (h : Verbatim cs) (rest : List Char) :
    text (cs ++ '"' :: rest) = some (String.ofList cs, rest) := by
  have hcodes := codes_verbatim h rest (n := (cs ++ '"' :: rest).length + 1)
    (by rw [List.length_append]; omega)
  simp only [text, hcodes, Option.bind_eq_bind, Option.bind_some, join_map_rune]

/-! ## What else can be read -/

theorem length_join_le (us : List Code) : (join us).length ≤ us.length := by
  fun_induction join us with
  | case1 => simp
  | case2 c us ih => simpa using ih
  | case3 hi lo us hpair ih =>
    simp only [List.length_cons]
    omega
  | case4 hi lo us hpair ih => simpa using ih
  | case5 n us hnot ih => simpa using ih

theorem escaped?_length {u : Code} (h : escaped? cs = some (u, rest)) :
    rest.length < cs.length := by
  unfold escaped? at h
  split at h
  · obtain ⟨n, -, hn⟩ := Option.map_eq_some_iff.mp h
    cases hn
    simp only [List.length_cons]
    omega
  · obtain ⟨c, -, hc⟩ := Option.map_eq_some_iff.mp h
    cases hc
    simp
  · cases h

/-- A code is a character that stands for itself, or takes up at least two. -/
theorem code?_cases {u : Code} (h : code? cs = some (u, rest)) :
    (∃ c, cs = c :: rest ∧ u = .rune c ∧ c ≠ '\\' ∧ 0x20 ≤ c.toNat) ∨
      rest.length + 2 ≤ cs.length := by
  cases cs with
  | nil => cases h
  | cons c cs =>
    rw [code?] at h
    split at h
    · have hlength := escaped?_length h
      simp only [List.length_cons]
      omega
    · split at h
      · cases h
      · cases h
        exact .inl ⟨c, rfl, rfl, ‹_›, by omega⟩

theorem codes_cases {n : ℕ} {us : List Code} (h : codes n cs = some (us, rest)) :
    (∃ vs, Verbatim vs ∧ cs = vs ++ '"' :: rest ∧ us = vs.map .rune) ∨
      us.length + rest.length + 2 ≤ cs.length := by
  induction n generalizing cs us with
  | zero => cases h
  | succ n ih =>
    rw [codes] at h
    split at h
    · rename_i hquote
      cases h
      cases cs with
      | nil => cases hquote
      | cons c cs =>
        cases hquote
        exact .inl ⟨[], by simp [Verbatim], rfl, rfl⟩
    · rename_i hquote
      obtain ⟨⟨u, cs'⟩, hcode, h⟩ := Option.bind_eq_some_iff.mp h
      obtain ⟨⟨us', rest'⟩, hcodes, h⟩ := Option.bind_eq_some_iff.mp h
      cases h
      rcases code?_cases hcode with ⟨c, rfl, rfl, hslash, hlow⟩ | hlong
      · rcases ih hcodes with ⟨vs, hvs, rfl, rfl⟩ | hlong
        · refine .inl ⟨c :: vs, ?_, rfl, rfl⟩
          simpa [Verbatim] using ⟨⟨by simpa using hquote, hslash, hlow⟩, hvs⟩
        · simp only [List.length_cons]
          omega
      · refine .inr ?_
        rcases ih hcodes with ⟨vs, hvs, rfl, rfl⟩ | hrest
        · simp only [List.length_append, List.length_cons, List.length_map] at hlong ⊢
          omega
        · simp only [List.length_cons]
          omega

/-- **A string was written verbatim, or is shorter than what it was read from.** -/
theorem text_cases {s : String} (h : text cs = some (s, rest)) :
    (Verbatim s.toList ∧ cs = s.toList ++ '"' :: rest) ∨
      s.toList.length + rest.length + 2 ≤ cs.length := by
  obtain ⟨⟨us, cs'⟩, hcodes, h⟩ := Option.bind_eq_some_iff.mp h
  cases h
  rcases codes_cases hcodes with ⟨vs, hvs, rfl, rfl⟩ | hlong
  · exact .inl (by simpa using hvs)
  · have hjoin := length_join_le us
    simp only [String.toList_ofList]
    omega

/-! ## The members of an object -/

/-- The first member of a list, and what follows it. -/
theorem memberList_eq_some (h : memberList (fuel + 1) cs = some (ms, rest)) :
    ∃ k cs₁ v cs₂, memberName cs = some (k, cs₁) ∧ value fuel cs₁ = some (v, cs₂) ∧
      ((skip cs₂ = '}' :: rest ∧ ms = [(k, v)]) ∨
        ∃ cs₃ later, skip cs₂ = ',' :: cs₃ ∧ memberList fuel cs₃ = some (later, rest) ∧
          ms = (k, v) :: later) := by
  rw [memberList] at h
  obtain ⟨⟨k, cs₁⟩, hname, h⟩ := Option.bind_eq_some_iff.mp h
  obtain ⟨⟨v, cs₂⟩, hvalue, h⟩ := Option.bind_eq_some_iff.mp h
  refine ⟨k, cs₁, v, cs₂, hname, hvalue, ?_⟩
  dsimp only at h
  split at h
  · rename_i hclose
    cases h
    exact .inl ⟨hclose, rfl⟩
  · rename_i hcomma
    obtain ⟨⟨later, rest'⟩, hlater, h⟩ := Option.bind_eq_some_iff.mp h
    cases h
    exact .inr ⟨_, later, hcomma, hlater, rfl⟩
  · cases h 
theorem readField_append {α : Type} (read : α → Json → Option α) (name : String) (zero : α)
    (ms ms' : List (String × Json)) :
    readField read name zero (ms ++ ms') =
      (readField read name zero ms).bind fun a => readField read name a ms' := by
  rw [readField, List.foldlM_append]
  rfl

/-- The last member of a name is the one that counts. -/
theorem readField_concat {old : String} (h : readField readString k "" ms = some old) (s : String) :
    readField readString k "" (ms ++ [(k, .str s)]) = some s := by
  rw [readField_append, h, Option.bind_some, readField_cons_self _ _ _ _ _ rfl]
  rfl

/-! ## An object that ends with a string that was not escaped -/

/-- The members before the last one. -/
def leading (ms : List (String × Json)) : List Char :=
  ms.flatMap fun m => quote m.1 ++ ':' :: (print m.2 ++ [','])

/-- The last member, whose string was not escaped, and the brace. -/
def lastMember (k : String) (raw : List Char) : List Char :=
  quote k ++ ':' :: '"' :: (raw ++ ['"', '}'])

/-- The text of an object that was put together from these members and a last one. -/
def spliced (ms : List (String × Json)) (k : String) (raw : List Char) : List Char :=
  '{' :: (leading ms ++ lastMember k raw)

/-- The leading members are read. -/
theorem memberList_leading (ms : List (String × Json)) (rest : List Char)
    (h : 2 * (leading ms).length ≤ fuel) :
    ∃ fuel' ≥ fuel - 2 * (leading ms).length, memberList fuel (leading ms ++ rest) =
      (memberList fuel' rest).map fun r => (ms ++ r.1, r.2) := by
  induction ms generalizing fuel with
  | nil => exact ⟨fuel, by simp, by simp [leading]⟩
  | cons m ms ih =>
    obtain ⟨k, v⟩ := m
    have hsplit : leading ((k, v) :: ms) = quote k ++ ':' :: (print v ++ ',' :: leading ms) := by
      simp [leading]
    rw [hsplit] at h ⊢
    simp only [List.length_append, List.length_cons] at h ⊢
    obtain ⟨fuel, rfl⟩ : ∃ n, fuel = n + 1 := ⟨fuel - 1, by omega⟩
    obtain ⟨fuel', hfuel', hrest⟩ := ih (show 2 * (leading ms).length ≤ fuel by omega)
    refine ⟨fuel', by omega, ?_⟩
    have hv := (readsBack fuel).value v (',' :: (leading ms ++ rest)) (by simp [Number.Delimited])
      (by omega)
    have hcomma : isBlank ',' = false := rfl
    simp only [List.append_assoc, List.cons_append, memberList, memberName_quote, hv,
      Option.bind_eq_bind, Option.bind_some, skip_cons hcomma, hrest]
    cases memberList fuel' rest <;> rfl

theorem value_quote (fuel : ℕ) (cs : List Char) :
    value (fuel + 1) ('"' :: cs) = (text cs).map fun r => (.str r.1, r.2) := by
  have hquote : isBlank '"' = false := rfl
  simp only [value, skip_cons hquote, if_true]
  cases text cs <;> rfl

theorem value_brace (fuel : ℕ) (cs : List Char) :
    value (fuel + 1) ('{' :: '"' :: cs) =
      (memberList fuel ('"' :: cs)).map fun r => (.obj r.1, r.2) := by
  have hopen : isBlank '{' = false := rfl
  have hquote : isBlank '"' = false := rfl
  simp only [value, skip_cons hopen, skip_cons hquote]
  cases hms : memberList fuel ('"' :: cs) <;> simp [hms]

theorem exists_spliced (ms : List (String × Json)) (k : String) (raw : List Char) :
    ∃ cs, leading ms ++ lastMember k raw = '"' :: cs := by
  cases ms with
  | nil => exact ⟨_, quote_append ..⟩
  | cons m ms =>
    rw [leading, List.flatMap_cons, quote_append]
    exact ⟨_, rfl⟩

/-- The object is read up to its last member. -/
theorem value_spliced (ms : List (String × Json)) (k : String) (raw : List Char) :
    ∃ fuel, value (2 * (spliced ms k raw).length) (spliced ms k raw) =
      (memberList (fuel + 2) (lastMember k raw)).map fun r => (.obj (ms ++ r.1), r.2) := by
  have hlength : 2 * (spliced ms k raw).length =
      2 * (leading ms ++ lastMember k raw).length + 1 + 1 := by
    rw [spliced, List.length_cons]
    omega
  obtain ⟨fuel, hfuel, hmembers⟩ := memberList_leading ms (lastMember k raw)
    (show 2 * (leading ms).length ≤ 2 * (leading ms ++ lastMember k raw).length + 1 by
      rw [List.length_append]; omega)
  simp only [lastMember, List.length_append, List.length_cons] at hfuel
  obtain ⟨fuel, rfl⟩ : ∃ n, fuel = n + 2 := ⟨fuel - 2, by omega⟩
  obtain ⟨cs, hcs⟩ := exists_spliced ms k raw
  refine ⟨fuel, ?_⟩
  rw [hlength, spliced]
  rw [hcs] at hmembers ⊢
  rw [value_brace, hmembers, Option.map_map]
  rfl

/-- The last member as the reader meets it: its string ends somewhere, and there may be more
members after it. -/
theorem memberList_last (h : memberList (fuel + 2) (lastMember k raw) = some (ms, rest)) :
    ∃ s cs later, text (raw ++ ['"', '}']) = some (s, cs) ∧ cs ≠ [] ∧
      ms = (k, .str s) :: later := by
  obtain ⟨k', cs₁, v, cs, hname, hv, hend⟩ := memberList_eq_some h
  rw [lastMember, memberName_quote] at hname
  cases hname
  rw [value_quote] at hv
  obtain ⟨⟨s, cs⟩, htext, hv⟩ := Option.map_eq_some_iff.mp hv
  cases hv
  have hcs : cs ≠ [] := by
    rintro rfl
    rcases hend with ⟨hclose, -⟩ | ⟨cs₃, later, hcomma, -⟩
    · cases hclose
    · cases hcomma
  rcases hend with ⟨-, rfl⟩ | ⟨cs₃, later, -, -, rfl⟩
  · exact ⟨s, cs, [], htext, hcs, rfl⟩
  · exact ⟨s, cs, later, htext, hcs, rfl⟩ 
/-- **The object says what it was meant to say only if the string is verbatim**: any other string
is read as a shorter one. -/
theorem verbatim_of_spliced {ms' : List (String × Json)}
    (hparse : parse (spliced ms k raw) = some (.obj ms')) (hlength : ms'.length = ms.length + 1)
    (hread : readField readString k "" ms' = some (String.ofList raw)) : Verbatim raw := by
  obtain ⟨fuel, hvalue⟩ := value_spliced ms k raw
  obtain ⟨⟨v, rest⟩, hv, hparse⟩ := Option.bind_eq_some_iff.mp hparse
  rw [hvalue] at hv
  obtain ⟨⟨last, rest'⟩, hlast, hv⟩ := Option.map_eq_some_iff.mp hv
  cases hv
  dsimp only at hparse
  split at hparse <;> cases hparse
  obtain ⟨s, cs, later, htext, hcs, rfl⟩ := memberList_last hlast
  have hlater : later = [] := by
    rw [List.length_append, List.length_cons] at hlength
    exact List.eq_nil_of_length_eq_zero (by omega)
  subst hlater
  rw [readField_append] at hread
  obtain ⟨before, -, hread⟩ := Option.bind_eq_some_iff.mp hread
  rw [readField_cons_self _ _ _ _ _ rfl] at hread
  obtain rfl : s = String.ofList raw := Option.some.inj hread
  rcases text_cases htext with ⟨hverbatim, -⟩ | hlong
  · simpa using hverbatim
  · have hpos := List.length_pos_iff.mpr hcs
    simp only [String.toList_ofList, List.length_append, List.length_cons, List.length_nil]
      at hlong
    omega

/-- **With a verbatim string the object is the one that was meant.** -/
theorem parse_spliced (ms : List (String × Json)) (k : String) (h : Verbatim raw) :
    parse (spliced ms k raw) = some (.obj (ms ++ [(k, .str (String.ofList raw))])) := by
  obtain ⟨fuel, hvalue⟩ := value_spliced ms k raw
  have hclose : isBlank '}' = false := rfl
  have hlast : memberList (fuel + 2) (lastMember k raw) =
      some ([(k, .str (String.ofList raw))], []) := by
    simp only [lastMember, memberList, memberName_quote, value_quote, text_verbatim h,
      Option.bind_eq_bind, Option.bind_some, Option.map_some, skip_cons hclose]
  have hskip : skip [] = [] := rfl
  simp only [parse, hvalue, hlast, hskip, Option.map_some, Option.bind_eq_bind, Option.bind_some,
    if_true]

end AgentBus.Json
