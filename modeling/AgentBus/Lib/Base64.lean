import Mathlib.Data.List.Basic

/-!
# Standard base64

The standard alphabet with `=` padding, three octets to four characters.  The
decoder skips line breaks and does not insist that the unused bits of a final
group are zero.

`decode_encode` is the round trip.
-/

namespace AgentBus.Base64

/-- The sixty-four digits, in order. -/
def alphabet : List Char :=
  "ABCDEFGHIJKLMNOPQRSTUVWXYZabcdefghijklmnopqrstuvwxyz0123456789+/".toList

/-- The character of a sextet. -/
def digit (n : ℕ) : Char := alphabet.getD n '='

/-- The sextet of a character. -/
def value? (c : Char) : Option ℕ := alphabet.idxOf? c

@[simp] theorem value?_digit : ∀ n < 64, value? (digit n) = some n := by decide +kernel

/-- Neither the padding nor a line break is among the digits. -/
theorem alphabet_spec :
    alphabet.length = 64 ∧ '=' ∉ alphabet ∧ '\n' ∉ alphabet ∧ '\r' ∉ alphabet := by
  decide +kernel

theorem digit_mem {n : ℕ} (h : n < 64) : digit n ∈ alphabet := by
  rw [← alphabet_spec.1] at h
  rw [digit, List.getD_eq_getElem?_getD, List.getElem?_eq_getElem h]
  exact List.getElem_mem h

theorem digit_ne_pad (n : ℕ) (h : n < 64) : digit n ≠ '=' :=
  ne_of_mem_of_not_mem (digit_mem h) alphabet_spec.2.1

theorem digit_ne_break (n : ℕ) (h : n < 64) : digit n ≠ '\n' ∧ digit n ≠ '\r' :=
  ⟨ne_of_mem_of_not_mem (digit_mem h) alphabet_spec.2.2.1,
    ne_of_mem_of_not_mem (digit_mem h) alphabet_spec.2.2.2⟩

/-- Encode octets. -/
def encode : List UInt8 → List Char
  | [] => []
  | [a] => [digit (a.toNat / 4), digit (a.toNat % 4 * 16), '=', '=']
  | [a, b] =>
    [digit (a.toNat / 4), digit (a.toNat % 4 * 16 + b.toNat / 16),
      digit (b.toNat % 16 * 4), '=']
  | a :: b :: c :: rest =>
    digit (a.toNat / 4) :: digit (a.toNat % 4 * 16 + b.toNat / 16) ::
      digit (b.toNat % 16 * 4 + c.toNat / 64) :: digit (c.toNat % 64) :: encode rest

/-- Decode groups of four characters. -/
def decodeGroups : List Char → Option (List UInt8)
  | [] => some []
  | c₀ :: c₁ :: c₂ :: c₃ :: rest => do
      let x ← value? c₀
      let y ← value? c₁
      if c₂ = '=' then
        if c₃ = '=' ∧ rest = [] then some [UInt8.ofNat (x * 4 + y / 16)] else none
      else do
        let z ← value? c₂
        if c₃ = '=' then
          if rest = [] then
            some [UInt8.ofNat (x * 4 + y / 16), UInt8.ofNat (y % 16 * 16 + z / 4)]
          else none
        else do
          let v ← value? c₃
          let more ← decodeGroups rest
          some (UInt8.ofNat (x * 4 + y / 16) :: UInt8.ofNat (y % 16 * 16 + z / 4) ::
            UInt8.ofNat (z % 4 * 64 + v) :: more)
  | _ => none

/-- Decode text, skipping line breaks. -/
def decode (cs : List Char) : Option (List UInt8) :=
  decodeGroups (cs.filter fun c => c ≠ '\n' ∧ c ≠ '\r')

@[simp] theorem decodeGroups_encode (bs : List UInt8) : decodeGroups (encode bs) = some bs := by
  fun_induction encode bs with
  | case1 => rfl
  | case2 a =>
    have ha := a.toNat_lt
    have h : a.toNat / 4 * 4 + a.toNat % 4 * 16 / 16 = a.toNat := by omega
    simp only [decodeGroups, value?_digit _ (by omega : a.toNat / 4 < 64),
      value?_digit _ (by omega : a.toNat % 4 * 16 < 64), Option.bind_eq_bind,
      Option.bind_some, and_self, if_true, h, UInt8.ofNat_toNat]
  | case3 a b =>
    have ha := a.toNat_lt
    have hb := b.toNat_lt
    have h₁ : a.toNat / 4 * 4 + (a.toNat % 4 * 16 + b.toNat / 16) / 16 = a.toNat := by omega
    have h₂ : (a.toNat % 4 * 16 + b.toNat / 16) % 16 * 16 + b.toNat % 16 * 4 / 4
        = b.toNat := by omega
    simp only [decodeGroups, value?_digit _ (by omega : a.toNat / 4 < 64),
      value?_digit _ (by omega : a.toNat % 4 * 16 + b.toNat / 16 < 64),
      value?_digit _ (by omega : b.toNat % 16 * 4 < 64),
      digit_ne_pad _ (by omega : b.toNat % 16 * 4 < 64), Option.bind_eq_bind,
      Option.bind_some, if_true, if_false, h₁, h₂, UInt8.ofNat_toNat]
  | case4 a b c rest ih =>
    have ha := a.toNat_lt
    have hb := b.toNat_lt
    have hc := c.toNat_lt
    have h₁ : a.toNat / 4 * 4 + (a.toNat % 4 * 16 + b.toNat / 16) / 16 = a.toNat := by omega
    have h₂ : (a.toNat % 4 * 16 + b.toNat / 16) % 16 * 16
        + (b.toNat % 16 * 4 + c.toNat / 64) / 4 = b.toNat := by omega
    have h₃ : (b.toNat % 16 * 4 + c.toNat / 64) % 4 * 64 + c.toNat % 64 = c.toNat := by omega
    simp only [decodeGroups, value?_digit _ (by omega : a.toNat / 4 < 64),
      value?_digit _ (by omega : a.toNat % 4 * 16 + b.toNat / 16 < 64),
      value?_digit _ (by omega : b.toNat % 16 * 4 + c.toNat / 64 < 64),
      value?_digit _ (by omega : c.toNat % 64 < 64),
      digit_ne_pad _ (by omega : b.toNat % 16 * 4 + c.toNat / 64 < 64),
      digit_ne_pad _ (by omega : c.toNat % 64 < 64), Option.bind_eq_bind,
      Option.bind_some, if_false, h₁, h₂, h₃, UInt8.ofNat_toNat, ih]

theorem encode_no_break (bs : List UInt8) : ∀ c ∈ encode bs, c ≠ '\n' ∧ c ≠ '\r' := by
  fun_induction encode bs with
  | case1 => simp
  | case2 a =>
    have ha := a.toNat_lt
    simp [digit_ne_break _ (by omega : a.toNat / 4 < 64),
      digit_ne_break _ (by omega : a.toNat % 4 * 16 < 64)]
  | case3 a b =>
    have ha := a.toNat_lt
    have hb := b.toNat_lt
    simp [digit_ne_break _ (by omega : a.toNat / 4 < 64),
      digit_ne_break _ (by omega : a.toNat % 4 * 16 + b.toNat / 16 < 64),
      digit_ne_break _ (by omega : b.toNat % 16 * 4 < 64)]
  | case4 a b c rest ih =>
    have ha := a.toNat_lt
    have hb := b.toNat_lt
    have hc := c.toNat_lt
    simp only [List.mem_cons, forall_eq_or_imp]
    exact ⟨digit_ne_break _ (by omega), digit_ne_break _ (by omega),
      digit_ne_break _ (by omega), digit_ne_break _ (by omega), ih⟩

/-- **Decoding undoes encoding.** -/
@[simp] theorem decode_encode (bs : List UInt8) : decode (encode bs) = some bs := by
  have hkeep : (encode bs).filter (fun c => c ≠ '\n' ∧ c ≠ '\r') = encode bs := by
    rw [List.filter_eq_self]
    intro c hc
    simpa using encode_no_break bs c hc
  rw [decode, hkeep, decodeGroups_encode]

end AgentBus.Base64
