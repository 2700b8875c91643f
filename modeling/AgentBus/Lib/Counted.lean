import AgentBus.Lib.Bytes

/-!
# Counted lists

A list on the wire: two bytes that count the items, and for each of them a number in a field of
fixed width, four bytes with the length of its payload, and the payload.

The decoder walks the bytes by position, and takes slices that it has checked to be in range
(`items_succ`).  It accepts what the encoder writes and nothing else (`decode_encode`,
`encode_of_decode`), except that the count is truncated: a list that is longer than two bytes can
count is refused (`decode_encode_of_le`).

## Main definitions

* `encode` — the bytes of a list.
* `slice`, `items`, `decode` — reading it by position.
-/

namespace AgentBus.Counted

open Bytes

/-- How decoding fails: the bytes are refused, or an index is out of range. -/
inductive Fault where
  | malformed
  | outOfRange
  deriving DecidableEq, Repr

/-- A number for the fixed field, and a payload. -/
abbrev Item := ℕ × List UInt8

/-- The bytes of an item whose fixed field has `k` bytes. -/
def encodeItem (k : ℕ) (item : Item) : List UInt8 :=
  be k item.1 ++ (be 4 item.2.length ++ item.2)

/-- The bytes of a list of items. -/
def encode (k : ℕ) (items : List Item) : List UInt8 :=
  be 2 items.length ++ items.flatMap (encodeItem k)

/-- The bytes from one position to another. -/
def slice (bs : List UInt8) (lo hi : ℕ) : Except Fault (List UInt8) :=
  if lo ≤ hi ∧ hi ≤ bs.length then .ok ((bs.drop lo).take (hi - lo)) else .error .outOfRange

/-- Items from a position on, and the position after them. -/
def items (k : ℕ) (bs : List UInt8) : ℕ → ℕ → Except Fault (List Item × ℕ)
  | 0, pos => .ok ([], pos)
  | n + 1, pos =>
    if bs.length < pos + (k + 4) then .error .malformed
    else do
      let field ← slice bs pos (pos + k)
      let length ← slice bs (pos + k) (pos + k + 4)
      let pos := pos + k + 4
      let l := ofBe length
      if bs.length < pos + l then .error .malformed
      else do
        let payload ← slice bs pos (pos + l)
        let (rest, pos) ← items k bs n (pos + l)
        return ((ofBe field, payload) :: rest, pos)

/-- A list that takes up all of the bytes. -/
def decode (k : ℕ) (bs : List UInt8) : Except Fault (List Item) :=
  if bs.length < 2 then .error .malformed
  else do
    let count ← slice bs 0 2
    let (items, pos) ← items k bs (ofBe count) 2
    if pos ≠ bs.length then .error .malformed else return items

/-- The number fits its field, and the length of the payload its four bytes. -/
def Fits (k : ℕ) (item : Item) : Prop := item.1 < 256 ^ k ∧ item.2.length < 2 ^ 32

variable {k n pos pos' : ℕ} {bs : List UInt8} {is : List Item}

/-! ## Reading by position -/

@[simp] theorem slice_of_le {lo hi : ℕ} (hlo : lo ≤ hi) (hhi : hi ≤ bs.length) :
    slice bs lo hi = .ok ((bs.drop lo).take (hi - lo)) :=
  if_pos ⟨hlo, hhi⟩

/-- **Every slice is in range**: an item is refused, or it is what stands at the position. -/
theorem items_succ (k n pos : ℕ) (bs : List UInt8) :
    items k bs (n + 1) pos =
      let l := ofBe ((bs.drop (pos + k)).take 4)
      if bs.length < pos + (k + 4) ∨ bs.length < pos + k + 4 + l then .error .malformed
      else (items k bs n (pos + k + 4 + l)).map fun r =>
        ((ofBe ((bs.drop pos).take k), (bs.drop (pos + k + 4)).take l) :: r.1, r.2) := by
  rw [items]
  by_cases hheader : bs.length < pos + (k + 4)
  · simp [hheader]
  · rw [slice_of_le (by omega) (by omega), slice_of_le (by omega) (by omega)]
    simp only [hheader, if_false, false_or, Nat.add_sub_cancel_left, bind, Except.bind]
    by_cases hpayload : bs.length < pos + k + 4 + ofBe ((bs.drop (pos + k)).take 4)
    · simp [hpayload]
    · rw [slice_of_le (by omega) (by omega)]
      simp only [hpayload, if_false, Nat.add_sub_cancel_left]
      cases items k bs n (pos + k + 4 + ofBe ((bs.drop (pos + k)).take 4)) <;> rfl

theorem decode_eq (k : ℕ) (bs : List UInt8) :
    decode k bs =
      if bs.length < 2 then .error .malformed
      else (items k bs (ofBe (bs.take 2)) 2).bind fun r =>
        if r.2 ≠ bs.length then .error .malformed else .ok r.1 := by
  rw [decode]
  by_cases hcount : bs.length < 2
  · simp [hcount]
  · rw [slice_of_le (by omega) (by omega)]
    rfl

theorem items_ne_outOfRange (k : ℕ) (bs : List UInt8) (n pos : ℕ) :
    items k bs n pos ≠ .error .outOfRange := by
  induction n generalizing pos with
  | zero => simp [items]
  | succ n ih =>
    rw [items_succ]
    dsimp only
    split
    · simp
    · have hrest := ih (pos + k + 4 + ofBe ((bs.drop (pos + k)).take 4))
      generalize items k bs n _ = r at hrest ⊢
      cases r <;> simp_all [Except.map]

/-- **No index is ever out of range.** -/
theorem decode_ne_outOfRange (k : ℕ) (bs : List UInt8) : decode k bs ≠ .error .outOfRange := by
  rw [decode_eq]
  split
  · simp
  · have hitems := items_ne_outOfRange k bs (ofBe (bs.take 2)) 2
    generalize items k bs (ofBe (bs.take 2)) 2 = r at hitems ⊢
    cases r with
    | error e => simpa [Except.bind] using hitems
    | ok r => simp only [Except.bind]; split <;> simp

/-! ## What is written is read -/

@[simp] theorem length_encodeItem (k : ℕ) (item : Item) :
    (encodeItem k item).length = k + 4 + item.2.length := by
  simp [encodeItem, Nat.add_assoc]

/-- The items that stand at a position are read. -/
theorem items_flatMap (h : ∀ item ∈ is, Fits k item) (before after : List UInt8) :
    items k (before ++ (is.flatMap (encodeItem k) ++ after)) is.length before.length =
      .ok (is, before.length + (is.flatMap (encodeItem k)).length) := by
  induction is generalizing before with
  | nil => simp [items]
  | cons item is ih =>
    obtain ⟨hfield, hlength⟩ := h item (by simp)
    set tail := is.flatMap (encodeItem k) ++ after with htail
    have hrest := ih (fun item' h' => h item' (by simp [h'])) (before ++ encodeItem k item)
    rw [List.append_assoc, List.length_append, length_encodeItem] at hrest
    have hbytes : before ++ ((item :: is).flatMap (encodeItem k) ++ after) =
        before ++ (encodeItem k item ++ tail) := by
      simp [htail]
    -- the three parts of the item
    have hfirst : ((before ++ (encodeItem k item ++ tail)).drop before.length).take k =
        be k item.1 := by
      simp [encodeItem]
    have hsecond : ((before ++ (encodeItem k item ++ tail)).drop (before.length + k)).take 4 =
        be 4 item.2.length := by
      rw [List.drop_length_add_append]
      simp [encodeItem]
    have hthird : ((before ++ (encodeItem k item ++ tail)).drop
        (before.length + k + 4)).take item.2.length = item.2 := by
      rw [Nat.add_assoc, List.drop_length_add_append]
      simp [encodeItem, List.take_append, List.drop_append]
    have hl : ofBe (be 4 item.2.length) = item.2.length := ofBe_be hlength
    have hroom : ¬ ((before ++ (encodeItem k item ++ tail)).length < before.length + (k + 4) ∨
        (before ++ (encodeItem k item ++ tail)).length <
          before.length + k + 4 + item.2.length) := by
      simp only [List.length_append, length_encodeItem]
      omega
    rw [hbytes, List.length_cons, items_succ]
    simp only [hsecond, hl, hroom, if_false, hfirst, hthird, ofBe_be hfield]
    rw [show before.length + k + 4 + item.2.length =
      before.length + (k + 4 + item.2.length) by omega, hrest]
    simp only [Except.map, List.flatMap_cons, List.length_append, length_encodeItem]
    rw [Nat.add_assoc]

/-- Reading the count and as many items as it says. -/
theorem decode_count {count : ℕ} (hcount : count = is.length % 256 ^ 2)
    (h : ∀ item ∈ is, Fits k item) :
    decode k (encode k is) =
      if 2 + ((is.take count).flatMap (encodeItem k)).length ≠ (encode k is).length then
        .error .malformed
      else .ok (is.take count) := by
  have hle : count ≤ is.length := hcount ▸ Nat.mod_le _ _
  have hsplit : encode k is = be 2 is.length ++ ((is.take count).flatMap (encodeItem k) ++
      (is.drop count).flatMap (encodeItem k)) := by
    rw [encode, ← List.flatMap_append, List.take_append_drop]
  have htake : ∀ item ∈ is.take count, Fits k item :=
    fun item hitem => h item (List.mem_of_mem_take hitem)
  have hitems := items_flatMap htake (be 2 is.length) ((is.drop count).flatMap (encodeItem k))
  rw [← hsplit, List.length_take, Nat.min_eq_left hle, length_be] at hitems
  have hfield : ofBe ((encode k is).take 2) = count := by
    rw [encode, List.take_left' (length_be ..), ofBe_be_mod, hcount]
  have hroom : ¬ (encode k is).length < 2 := by
    rw [encode, List.length_append, length_be]
    omega
  rw [decode_eq, if_neg hroom, hfield, hitems]
  rfl

/-- **A list that two bytes can count comes back.** -/
theorem decode_encode (h : ∀ item ∈ is, Fits k item) (hlength : is.length < 256 ^ 2) :
    decode k (encode k is) = .ok is := by
  rw [decode_count (Nat.mod_eq_of_lt hlength).symm h, List.take_length, if_neg]
  simp [encode]

/-- **A longer one is refused**: there are items left after those that were counted. -/
theorem decode_encode_of_le (h : ∀ item ∈ is, Fits k item) (hlength : 256 ^ 2 ≤ is.length) :
    decode k (encode k is) = .error .malformed := by
  rw [decode_count rfl h, if_pos]
  set count := is.length % 256 ^ 2
  have hlt : count < is.length := (Nat.mod_lt _ (by norm_num)).trans_le hlength
  have hleft : is.flatMap (encodeItem k) = (is.take count).flatMap (encodeItem k) ++
      (is.drop count).flatMap (encodeItem k) := by
    rw [← List.flatMap_append, List.take_append_drop]
  have hpos : 0 < ((is.drop count).flatMap (encodeItem k)).length := by
    rw [List.drop_eq_getElem_cons hlt, List.flatMap_cons, List.length_append, length_encodeItem]
    omega
  rw [encode, hleft, List.length_append, List.length_append, length_be]
  omega

/-! ## What is read was written -/

/-- A field that was read is the field of its number. -/
theorem be_ofBe_take {j : ℕ} (h : j ≤ bs.length) : be j (ofBe (bs.take j)) = bs.take j := by
  have hfield := be_ofBe (bs.take j)
  rwa [List.length_take, Nat.min_eq_left h] at hfield

/-- The items that are read stand at the position. -/
theorem flatMap_of_items (h : items k bs n pos = .ok (is, pos')) (hpos : pos ≤ bs.length) :
    bs.drop pos = is.flatMap (encodeItem k) ++ bs.drop pos' ∧ is.length = n ∧
      pos' ≤ bs.length ∧ ∀ item ∈ is, Fits k item := by
  induction n generalizing pos is with
  | zero =>
    cases h
    exact ⟨rfl, rfl, hpos, by simp⟩
  | succ n ih =>
    rw [items_succ] at h
    dsimp only at h
    split at h
    · cases h
    · rename_i hroom
      set l := ofBe ((bs.drop (pos + k)).take 4) with hl
      cases hrest : items k bs n (pos + k + 4 + l) with
      | error e => rw [hrest] at h; cases h
      | ok r =>
        rw [hrest] at h
        cases h
        obtain ⟨hdrop, hlength, hend, hfits⟩ := ih hrest (by omega)
        have hfield : be k (ofBe ((bs.drop pos).take k)) = (bs.drop pos).take k :=
          be_ofBe_take (by simp; omega)
        have hsize : be 4 l = (bs.drop (pos + k)).take 4 := be_ofBe_take (by simp; omega)
        have hpayload : ((bs.drop (pos + k + 4)).take l).length = l := by simp; omega
        refine ⟨?_, by simp [hlength], hend, ?_⟩
        · rw [List.flatMap_cons, encodeItem, hfield, hpayload, hsize, List.append_assoc,
            List.append_assoc, List.append_assoc, ← hdrop]
          simp only [← List.drop_drop, List.take_append_drop]
        · intro item hitem
          rcases List.mem_cons.mp hitem with rfl | hitem
          · have hlt := ofBe_lt ((bs.drop pos).take k)
            have hlt' := ofBe_lt ((bs.drop (pos + k)).take 4)
            rw [List.length_take, List.length_drop, Nat.min_eq_left (by omega)] at hlt hlt'
            exact ⟨hlt, by rw [hpayload]; exact hlt'⟩
          · exact hfits item hitem

/-- **What is accepted is the encoding of the result.** -/
theorem encode_of_decode (h : decode k bs = .ok is) :
    encode k is = bs ∧ ∀ item ∈ is, Fits k item := by
  rw [decode_eq] at h
  split at h
  · cases h
  · rename_i hcount
    cases hitems : items k bs (ofBe (bs.take 2)) 2 with
    | error e => rw [hitems] at h; cases h
    | ok r =>
      rw [hitems] at h
      simp only [Except.bind] at h
      split at h
      · cases h
      · rename_i hend
        cases h
        obtain ⟨hdrop, hlength, -, hfits⟩ := flatMap_of_items hitems (by omega)
        rw [not_not.mp hend, List.drop_length, List.append_nil] at hdrop
        refine ⟨?_, hfits⟩
        rw [encode, hlength, ← hdrop, be_ofBe_take (by omega), List.take_append_drop]

end AgentBus.Counted
