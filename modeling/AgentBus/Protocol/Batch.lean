import AgentBus.Lib.Counted

/-!
# Batch payloads, fetch requests and fetch responses

`internal/protocol/protocol.go`: the payload of a batch publish is a count and the messages, each
after its length, and a fetch response puts the offset of each message before it.  Both decoders
walk the payload by position, with the same checks.

Each codec is an inverse of the other as far as sixteen bits can count the messages
(`codecs_inverse`).

## Main definitions

* `encodeBatchPayload`, `decodeBatchPayload` — a batch publish.
* `decodeFetchRequest` — a fetch request.
* `BatchMessage`, `encodeFetchResponse`, `decodeFetchResponse` — a fetch response.
-/

namespace AgentBus.Protocol

open Counted

/-- `EncodeBatchPayload`: a message has no field before its length. -/
def encodeBatchPayload (payloads : List (List UInt8)) : List UInt8 :=
  Counted.encode 0 (payloads.map fun p => (0, p))

/-- `DecodeBatchPayload`; `malformed` is `ErrBadPayload`, and `outOfRange` is the panic of a slice.
The length of a message is not negative, as an `int` has more than 32 bits. -/
def decodeBatchPayload (payload : List UInt8) : Except Fault (List (List UInt8)) :=
  (Counted.decode 0 payload).map fun items => items.map Prod.snd

/-- `DecodeFetchRequest`: an offset of eight bytes and a count of four. -/
def decodeFetchRequest (payload : List UInt8) : Option (ℤ × ℕ) :=
  if payload.length ≠ 12 then none
  else some (Int.bmod (Bytes.ofBe (payload.take 8)) (2 ^ 64), Bytes.ofBe (payload.drop 8))

/-- `BatchMessage`. -/
structure BatchMessage where
  offset : Int64
  payload : List UInt8
  deriving DecidableEq, Repr

/-- The offset as `uint64`, and the payload. -/
def BatchMessage.item (m : BatchMessage) : Item := (m.offset.toUInt64.toNat, m.payload)

/-- The offset as `int64`, and the payload. -/
def BatchMessage.ofItem (item : Item) : BatchMessage where
  offset := (UInt64.ofNat item.1).toInt64
  payload := item.2

/-- `EncodeFetchResponse`: the field before the length is the offset. -/
def encodeFetchResponse (messages : List BatchMessage) : List UInt8 :=
  Counted.encode 8 (messages.map BatchMessage.item)

/-- `DecodeFetchResponse`. -/
def decodeFetchResponse (payload : List UInt8) : Except Fault (List BatchMessage) :=
  (Counted.decode 8 payload).map fun items => items.map BatchMessage.ofItem

@[simp] theorem BatchMessage.ofItem_item (m : BatchMessage) : ofItem m.item = m := by
  simp [ofItem, item]

@[simp] theorem BatchMessage.item_ofItem {item : Item} (h : Fits 8 item) :
    (BatchMessage.ofItem item).item = item := by
  have hoffset : item.1 % 2 ^ 64 = item.1 := Nat.mod_eq_of_lt h.1
  ext1 <;> simp_all [ofItem, BatchMessage.item]

theorem BatchMessage.fits_item {m : BatchMessage} (h : m.payload.length < 2 ^ 32) :
    Fits 8 m.item :=
  ⟨m.offset.toUInt64.toNat_lt, h⟩

theorem fits_payload {p : List UInt8} (h : p.length < 2 ^ 32) : Fits 0 (0, p) :=
  ⟨by norm_num, h⟩

/-- An item without a field is its payload. -/
theorem item_of_fits_zero {item : Item} (h : Fits 0 item) : (0, item.2) = item := by
  have hzero : item.1 < 1 := h.1
  ext1
  · simp only
    omega
  · rfl

/-! ## Codecs by way of items -/

section Codec

variable {α : Type*} {k : ℕ} {item : α → Item} {ofItem : Item → α}

theorem map_error_iff {β γ : Type*} {r : Except Fault β} {f : β → γ} {e : Fault} :
    r.map f = .error e ↔ r = .error e := by
  cases r <;> simp [Except.map]

/-- What is written comes back exactly if two bytes can count it. -/
theorem map_decode_encode (hitem : ∀ a, ofItem (item a) = a) {as : List α}
    (hfits : ∀ a ∈ as, Fits k (item a)) :
    (as.length ≤ 65535 →
        (Counted.decode k (Counted.encode k (as.map item))).map (fun items => items.map ofItem) =
          .ok as) ∧
      (65535 < as.length →
        (Counted.decode k (Counted.encode k (as.map item))).map (fun items => items.map ofItem) =
          .error .malformed) := by
  have hall : ∀ i ∈ as.map item, Fits k i := List.forall_mem_map.mpr hfits
  constructor <;> intro hlength
  · rw [Counted.decode_encode hall (by rw [List.length_map]; omega)]
    simp [Except.map, Function.comp_def, hitem]
  · rw [map_error_iff]
    exact Counted.decode_encode_of_le hall (by rw [List.length_map]; omega)

/-- What is accepted is what is written for the result. -/
theorem encode_of_map_decode (hitem : ∀ i, Fits k i → item (ofItem i) = i) {bs : List UInt8}
    {as : List α} (h : (Counted.decode k bs).map (fun items => items.map ofItem) = .ok as) :
    Counted.encode k (as.map item) = bs := by
  cases hdecode : Counted.decode k bs with
  | error e => rw [hdecode] at h; cases h
  | ok is =>
    rw [hdecode] at h
    cases h
    obtain ⟨hencode, hfits⟩ := Counted.encode_of_decode hdecode
    have hback : (is.map ofItem).map item = is.map id := by
      rw [List.map_map]
      exact List.map_congr_left fun i hi => hitem i (hfits i hi)
    rw [hback, List.map_id, hencode]

end Codec

/-- Each of the two codecs gives back what was encoded if there are at most 65535 messages, and an
error otherwise; what a decoder accepts is the encoding of what it returns, and no slice it takes
is out of range. -/
theorem codecs_inverse :
    (∀ xs : List (List UInt8), (∀ x ∈ xs, x.length < 2 ^ 32) →
      (xs.length ≤ 65535 → decodeBatchPayload (encodeBatchPayload xs) = .ok xs) ∧
        (65535 < xs.length → decodeBatchPayload (encodeBatchPayload xs) = .error .malformed)) ∧
    (∀ p xs, decodeBatchPayload p = .ok xs → encodeBatchPayload xs = p) ∧
    (∀ p, decodeBatchPayload p ≠ .error .outOfRange) ∧
    (∀ ms : List BatchMessage, (∀ m ∈ ms, m.payload.length < 2 ^ 32) →
      (ms.length ≤ 65535 → decodeFetchResponse (encodeFetchResponse ms) = .ok ms) ∧
        (65535 < ms.length → decodeFetchResponse (encodeFetchResponse ms) = .error .malformed)) ∧
    (∀ p ms, decodeFetchResponse p = .ok ms → encodeFetchResponse ms = p) ∧
    ∀ p, decodeFetchResponse p ≠ .error .outOfRange := by
  refine ⟨fun xs hxs => ?_, fun p xs h => ?_, fun p h => ?_, fun ms hms => ?_, fun p ms h => ?_,
    fun p h => ?_⟩
  · exact map_decode_encode (fun _ => rfl) fun x hx => fits_payload (hxs x hx)
  · exact encode_of_map_decode (fun i hi => item_of_fits_zero hi) h
  · exact decode_ne_outOfRange 0 p (map_error_iff.mp h)
  · exact map_decode_encode BatchMessage.ofItem_item fun m hm => BatchMessage.fits_item (hms m hm)
  · exact encode_of_map_decode (fun i hi => BatchMessage.item_ofItem hi) h
  · exact decode_ne_outOfRange 8 p (map_error_iff.mp h)

example : decodeFetchResponse (encodeFetchResponse [⟨-1, [7, 8]⟩, ⟨3, []⟩]) =
    .ok [⟨-1, [7, 8]⟩, ⟨3, []⟩] := by
  decide +kernel

end AgentBus.Protocol
