import Mathlib.Data.List.Basic

/-!
# Characters and their bytes

A text is written as the UTF-8 bytes of its characters and read back leniently: a byte
that starts no character reads as the replacement character, and the reader goes on with
the byte after it.

## Main definitions

* `Utf8.encode`, `Utf8.decode` — characters to bytes and back.
* `Utf8.decode_encode` — what is written is read back.
* `Utf8.ofBytes` — the string that bytes spell.
* `Utf8.IsValid` — bytes that nothing is replaced in.
-/

namespace AgentBus.Utf8

/-- The bytes of a list of characters. -/
def encode (cs : List Char) : List UInt8 := cs.flatMap String.utf8EncodeChar

/-- What stands for a byte that is not UTF-8. -/
def replacement : Char := '�'

/-- The characters that bytes spell. -/
def decode : List UInt8 → List Char
  | [] => []
  | b :: bs =>
    match (b :: bs).toByteArray.utf8DecodeChar? 0 with
    | some c => c :: decode ((b :: bs).drop c.utf8Size)
    | none => replacement :: decode bs
termination_by bs => bs.length
decreasing_by
  · have := c.utf8Size_pos
    simp only [List.length_drop, List.length_cons]
    omega
  · simp

/-- The bytes of one character are read as that character, whatever follows. -/
@[simp] theorem decode_utf8EncodeChar_append (c : Char) (bs : List UInt8) :
    decode (String.utf8EncodeChar c ++ bs) = c :: decode bs := by
  have hlen := String.length_utf8EncodeChar c
  have hread : (String.utf8EncodeChar c ++ bs).toByteArray.utf8DecodeChar? 0 = some c := by
    rw [List.toByteArray_append]
    exact ByteArray.utf8DecodeChar?_utf8EncodeChar_append
  cases hbs : String.utf8EncodeChar c ++ bs with
  | nil =>
    have := c.utf8Size_pos
    rw [(List.append_eq_nil_iff.mp hbs).1, List.length_nil] at hlen
    omega
  | cons b tl =>
    rw [decode, ← hbs, hread]
    dsimp only
    rw [← hlen, List.drop_left]

/-- **What is written is read back.** -/
@[simp] theorem decode_encode (cs : List Char) : decode (encode cs) = cs := by
  induction cs with
  | nil => simp [encode, decode]
  | cons c cs ih =>
    rw [encode, List.flatMap_cons, decode_utf8EncodeChar_append]
    exact congrArg (c :: ·) ih

/-- The string that bytes spell. -/
def ofBytes (bs : List UInt8) : String := String.ofList (decode bs)

theorem toByteArray_eq_encode (s : String) : s.toByteArray.data.toList = encode s.toList := by
  rw [← String.utf8Encode_toList, List.utf8Encode, List.toList_data_toByteArray, encode]

@[simp] theorem ofBytes_toByteArray (s : String) : ofBytes s.toByteArray.data.toList = s := by
  rw [ofBytes, toByteArray_eq_encode, decode_encode, String.ofList_toList]

/-! ## Bytes that nothing is replaced in -/

/-- The bytes spell characters, and none of them is replaced. -/
def IsValid (bs : List UInt8) : Prop := encode (decode bs) = bs

instance (bs : List UInt8) : Decidable (IsValid bs) :=
  inferInstanceAs (Decidable (encode (decode bs) = bs))

theorem isValid_encode (cs : List Char) : IsValid (encode cs) := by
  rw [IsValid, decode_encode]

@[simp] theorem encode_append (cs cs' : List Char) : encode (cs ++ cs') = encode cs ++ encode cs' :=
  List.flatMap_append

theorem IsValid.append {xs ys : List UInt8} (hx : IsValid xs) (hy : IsValid ys) :
    IsValid (xs ++ ys) := by
  rw [← hx, ← hy, ← encode_append]
  exact isValid_encode _

/-- A byte below 128 is a character of its own. -/
theorem utf8EncodeChar_of_mem {c : Char} {b : UInt8} (hmem : b ∈ String.utf8EncodeChar c)
    (hb : b.toNat < 128) : String.utf8EncodeChar c = [b] := by
  unfold String.utf8EncodeChar at hmem ⊢
  dsimp only at hmem ⊢
  split at hmem
  · rename_i hv
    rw [if_pos hv, List.mem_singleton.mp hmem]
  · -- the bytes of longer characters are all above
    exfalso
    repeat' split at hmem
    all_goals simp only [List.mem_cons, List.not_mem_nil, or_false] at hmem
    all_goals rcases hmem with rfl | rfl | rfl | rfl
    all_goals rw [UInt8.toNat_ofNat'] at hb
    all_goals omega

/-- Cut at a byte below 128, the parts spell characters. -/
theorem exists_encode_of_append {cs : List Char} {xs ys : List UInt8} {b : UInt8}
    (hb : b.toNat < 128) (h : encode cs = xs ++ b :: ys) :
    (∃ cs₁, xs = encode cs₁) ∧ ∃ cs₂, ys = encode cs₂ := by
  induction cs generalizing xs with
  | nil => simp [encode] at h
  | cons c cs ih =>
    rw [encode, List.flatMap_cons] at h
    rcases List.append_eq_append_iff.mp h with ⟨as, rfl, htail⟩ | ⟨as, hchar, htail⟩
    · obtain ⟨⟨cs₁, rfl⟩, hys⟩ := ih htail
      exact ⟨⟨c :: cs₁, rfl⟩, hys⟩
    · cases as with
      | nil =>
        have hcut : encode cs = [] ++ b :: ys := htail.symm
        obtain ⟨-, hys⟩ := ih hcut
        exact ⟨⟨[c], by simp [encode, hchar]⟩, hys⟩
      | cons a as =>
        obtain ⟨rfl, hys⟩ := List.cons.inj htail
        have hone := utf8EncodeChar_of_mem (c := c) (by rw [hchar]; simp) hb
        rw [hchar, List.append_eq_singleton_iff] at hone
        obtain ⟨rfl, has⟩ : xs = [] ∧ b :: as = [b] := by simpa using hone
        obtain rfl := (List.cons.inj has).2
        exact ⟨⟨[], rfl⟩, cs, hys⟩

@[simp] theorem encode_ascii {b : UInt8} (hb : b.toNat < 128) :
    encode [Char.ofNat b.toNat] = [b] := by
  have hvalid : b.toNat.isValidChar := Or.inl (by omega)
  have hval : (Char.ofNat b.toNat).val.toNat = b.toNat := by
    rw [Char.ofNat, dif_pos hvalid]
    rfl
  simp only [encode, List.flatMap_cons, List.flatMap_nil, List.append_nil, String.utf8EncodeChar,
    hval]
  rw [if_pos (by omega), UInt8.ofNat_toNat]

/-- **Validity is decided on each side of a byte below 128.** -/
theorem isValid_append_cons_iff {xs ys : List UInt8} {b : UInt8} (hb : b.toNat < 128) :
    IsValid (xs ++ b :: ys) ↔ IsValid xs ∧ IsValid ys := by
  constructor
  · intro h
    obtain ⟨⟨cs₁, rfl⟩, cs₂, rfl⟩ := exists_encode_of_append hb h
    exact ⟨isValid_encode cs₁, isValid_encode cs₂⟩
  · rintro ⟨hx, hy⟩
    have hbyte : IsValid [b] := encode_ascii hb ▸ isValid_encode _
    exact hx.append (hbyte.append hy)

theorem isValid_of_ascii {bs : List UInt8} (h : ∀ b ∈ bs, b.toNat < 128) : IsValid bs := by
  induction bs with
  | nil => exact isValid_encode []
  | cons b bs ih =>
    have hb := h b (by simp)
    have hcut : IsValid ([] ++ b :: bs) ↔ IsValid [] ∧ IsValid bs := isValid_append_cons_iff hb
    exact hcut.mpr ⟨isValid_encode [], ih fun b' hb' => h b' (by simp [hb'])⟩

end AgentBus.Utf8
