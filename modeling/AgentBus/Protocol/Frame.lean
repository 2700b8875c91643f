import AgentBus.Lib.Framing

/-!
# Frames of the TCP protocol

`internal/protocol/protocol.go` and `publishTCP` of `internal/cli/publish.go`.  A frame is a magic,
the operation, the lengths of topic and payload, and the two; a publish with a key puts the key and
its length before the message.  The lengths are cut to one, four and two bytes without a check, and
nothing tells the reader where the next frame begins.

What is published comes back exactly if each length fits its field (`published_iff_fits`).

## Main definitions

* `Frame`, `encode`, `decode` — frames.
* `encodeKeyedPayload`, `decodeKeyedPayload` — the payload of a publish with a key.
* `Publish.frame`, `connection` — what a publisher sends, and reading it back.
-/

namespace AgentBus.Protocol

open Bytes Framing

/-- `Magic`. -/
def magic : ℕ := 0x474B

/-- `OpPublish`. -/
def opPublish : UInt8 := 0x01

/-- `OpPublishWithKey`. -/
def opPublishWithKey : UInt8 := 0x09

/-- The errors of decoding. -/
inductive Error where
  /-- An error of `io.ReadFull`. -/
  | read (e : ReadError)
  /-- `ErrBadMagic`. -/
  | badMagic
  /-- `ErrBadPayload`. -/
  | badPayload
  deriving DecidableEq, Repr

/-- `Frame`. -/
structure Frame where
  op : UInt8
  topic : List UInt8
  payload : List UInt8
  deriving DecidableEq, Repr

/-- The eight bytes before the topic. -/
def header (f : Frame) : List UInt8 :=
  be 2 magic ++ [f.op, UInt8.ofNat f.topic.length] ++ be 4 f.payload.length

/-- `Encode`. -/
def encode (f : Frame) : List UInt8 := header f ++ (f.topic ++ f.payload)

/-- `Decode`: the frame, and the bytes after it. -/
def decode (bs : List UInt8) : Except Error (Frame × List UInt8) :=
  match readFull 8 bs with
  | .error e => .error (.read e)
  | .ok (header, bs) =>
    if ofBe (header.take 2) ≠ magic then .error .badMagic
    else
      let topicLen := (header.getD 3 0).toNat
      let payloadLen := ofBe (header.drop 4)
      match readFull (topicLen + payloadLen) bs with
      | .error e => .error (.read e)
      | .ok (body, bs) =>
        .ok (⟨header.getD 2 0, body.take topicLen, body.drop topicLen⟩, bs)

/-- `EncodeKeyedPayload`. -/
def encodeKeyedPayload (key payload : List UInt8) : List UInt8 :=
  be 2 key.length ++ (key ++ payload)

/-- `DecodeKeyedPayload`. -/
def decodeKeyedPayload (p : List UInt8) : Except Error (List UInt8 × List UInt8) :=
  if p.length < 2 then .error .badPayload
  else
    let kLen := ofBe (p.take 2)
    if p.length < 2 + kLen then .error .badPayload
    else .ok ((p.drop 2).take kLen, p.drop (2 + kLen))

/-! ## One frame -/

@[simp] theorem length_header (f : Frame) : (header f).length = 8 := by simp [header]

/-- **A frame is read by its lengths**, and that of the topic has one byte. -/
theorem decode_encode {f : Frame} (hpayload : f.payload.length < 2 ^ 32) (rest : List UInt8) :
    decode (encode f ++ rest) =
      let topicLen := f.topic.length % 256
      let n := topicLen + f.payload.length
      .ok (⟨f.op, ((f.topic ++ f.payload).take n).take topicLen,
        ((f.topic ++ f.payload).take n).drop topicLen⟩, (f.topic ++ f.payload).drop n ++ rest) := by
  have hn : f.topic.length % 256 + f.payload.length ≤ (f.topic ++ f.payload).length := by
    rw [List.length_append]
    exact Nat.add_le_add_right (Nat.mod_le ..) _
  have hmagic : ofBe ((header f).take 2) = magic := by
    rw [header, List.append_assoc, List.take_left' (length_be ..)]
    decide
  have hop : (header f).getD 2 0 = f.op := by
    simp [header, be]
  have htopic : ((header f).getD 3 0).toNat = f.topic.length % 256 := by
    simp [header, be]
  have hlength : ofBe ((header f).drop 4) = f.payload.length := by
    rw [header, List.drop_left' (by simp), ofBe_be hpayload]
  simp only [decode, encode, List.append_assoc, readFull_append (length_header f), hmagic, hop,
    htopic, hlength, ne_eq, not_true_eq_false, if_false]
  rw [← List.append_assoc, readFull_of_le hn]

/-- A frame whose lengths fit comes back. -/
theorem decode_encode_of_lt {f : Frame} (hpayload : f.payload.length < 2 ^ 32)
    (htopic : f.topic.length < 256) (rest : List UInt8) :
    decode (encode f ++ rest) = .ok (f, rest) := by
  rw [decode_encode hpayload]
  simp only [Nat.mod_eq_of_lt htopic, ← List.length_append, List.take_length, List.drop_length,
    List.take_left, List.drop_left, List.nil_append]

/-- A topic that comes back is shorter than 256 bytes. -/
theorem topic_lt_of_decode {f f' : Frame} (hpayload : f.payload.length < 2 ^ 32)
    {rest rest' : List UInt8} (h : decode (encode f ++ rest) = .ok (f', rest'))
    (htopic : f'.topic = f.topic) : f.topic.length < 256 := by
  rw [decode_encode hpayload] at h
  injection h with h
  have hlength := congrArg (fun r => r.1.topic.length) h
  simp only [htopic, List.length_take] at hlength
  have hlt := Nat.mod_lt f.topic.length (show 0 < 256 by norm_num)
  omega

theorem length_of_decode {bs rest : List UInt8} {f : Frame} (h : decode bs = .ok (f, rest)) :
    rest.length + 8 ≤ bs.length := by
  unfold decode at h
  split at h
  · cases h
  · rename_i header bs' hheader
    split at h
    · cases h
    · simp only at h
      split at h
      · cases h
      · rename_i body bs'' hbody
        cases h
        obtain ⟨rfl, hlength⟩ := readFull_eq_ok hheader
        obtain ⟨rfl, -⟩ := readFull_eq_ok hbody
        simp only [List.length_append]
        omega

/-- **A keyed payload is read by the length of its key**, which has two bytes. -/
@[simp] theorem decodeKeyedPayload_encode (key payload : List UInt8) :
    decodeKeyedPayload (encodeKeyedPayload key payload) =
      .ok ((key ++ payload).take (key.length % 65536), (key ++ payload).drop (key.length % 65536))
      := by
  have hlength : ofBe ((encodeKeyedPayload key payload).take 2) = key.length % 65536 := by
    rw [encodeKeyedPayload, List.take_left' (length_be ..)]
    exact ofBe_be_mod ..
  have hle : key.length % 65536 ≤ key.length := Nat.mod_le ..
  have hroom : ¬ (encodeKeyedPayload key payload).length < 2 + key.length % 65536 := by
    simp only [encodeKeyedPayload, List.length_append, length_be]
    omega
  rw [decodeKeyedPayload, if_neg (by omega)]
  simp only [hlength, hroom, if_false]
  rw [← List.drop_drop, encodeKeyedPayload, List.drop_left' (length_be ..)]

/-! ## What a publisher sends -/

/-- What `publishTCP` is called with. -/
structure Publish where
  topic : List UInt8
  key : List UInt8
  msg : List UInt8
  deriving DecidableEq, Repr

/-- The frame that `publishTCP` encodes. -/
def Publish.frame (p : Publish) : Frame :=
  if p.key ≠ [] then ⟨opPublishWithKey, p.topic, encodeKeyedPayload p.key p.msg⟩
  else ⟨opPublish, p.topic, p.msg⟩

/-- What is read off a frame: the payload is decoded if the frame is keyed. -/
def Frame.publish (f : Frame) : Except Error Publish :=
  if f.op = opPublishWithKey then
    (decodeKeyedPayload f.payload).map fun (key, payload) => ⟨f.topic, key, payload⟩
  else .ok ⟨f.topic, [], f.payload⟩

/-- `Decode` again and again, until no bytes are left. -/
def connection : Reader Publish Error where
  next bs :=
    if bs = [] then .stop none
    else
      match decode bs with
      | .error e => .stop (some e)
      | .ok (f, rest) =>
        match f.publish with
        | .error e => .stop (some e)
        | .ok p => .item p rest
  shrinks {bs p rest} h := by
    split at h
    · cases h
    · split at h
      · cases h
      · rename_i f rest' hdecode
        have hlength := length_of_decode hdecode
        split at h
        · cases h
        · cases h
          omega

/-- The topic and the key are short enough for their lengths. -/
def Publish.Fits (p : Publish) : Prop := p.topic.length < 256 ∧ p.key.length < 65536

instance (p : Publish) : Decidable p.Fits :=
  inferInstanceAs (Decidable (p.topic.length < 256 ∧ p.key.length < 65536))

@[simp] theorem Publish.topic_frame (p : Publish) : p.frame.topic = p.topic := by
  unfold frame
  split <;> rfl

/-- A frame with the right topic gives the publish back exactly if its key fits. -/
theorem publish_frame_iff (p : Publish) : p.frame.publish = .ok p ↔ p.key.length < 65536 := by
  by_cases hkey : p.key = []
  · refine iff_of_true ?_ (by simp [hkey])
    simp [Publish.frame, Frame.publish, hkey, opPublish, opPublishWithKey]
    rw [← hkey]
  · simp only [Publish.frame, Frame.publish, hkey, ne_eq, not_false_eq_true, if_true,
      decodeKeyedPayload_encode, Except.map]
    constructor
    · intro h
      injection h with h
      have hlength := congrArg (fun p => p.key.length) h
      simp only [List.length_take] at hlength
      have hlt := Nat.mod_lt p.key.length (show 0 < 65536 by norm_num)
      omega
    · intro hlt
      simp [Nat.mod_eq_of_lt hlt]

theorem encode_ne_nil (f : Frame) (rest : List UInt8) : encode f ++ rest ≠ [] := by
  simp [encode, header]

/-- What fits is read back, whatever follows it. -/
theorem next_of_fits {p : Publish} (hpayload : p.frame.payload.length < 2 ^ 32) (hfits : p.Fits)
    (rest : List UInt8) : connection.next (encode p.frame ++ rest) = .item p rest := by
  have hdecode := decode_encode_of_lt hpayload (by rw [p.topic_frame]; exact hfits.1) rest
  simp only [connection, encode_ne_nil, if_false, hdecode, (publish_frame_iff p).mpr hfits.2]

/-- What is read back fits. -/
theorem fits_of_next {p : Publish} (hpayload : p.frame.payload.length < 2 ^ 32)
    {rest rest' : List UInt8} (h : connection.next (encode p.frame ++ rest) = .item p rest') :
    p.Fits := by
  simp only [connection, encode_ne_nil, if_false] at h
  split at h
  · cases h
  · rename_i f bs hdecode
    split at h
    · cases h
    · rename_i p' hpublish
      cases h
      have htopic : f.topic = p.topic := by
        unfold Frame.publish at hpublish
        split at hpublish
        · cases hkeyed : decodeKeyedPayload f.payload with
          | error e => rw [hkeyed] at hpublish; cases hpublish
          | ok r => rw [hkeyed] at hpublish; cases hpublish; rfl
        · cases hpublish
          rfl
      have hlt := topic_lt_of_decode hpayload hdecode (by rw [htopic, p.topic_frame])
      rw [decode_encode_of_lt hpayload hlt] at hdecode
      cases hdecode
      exact ⟨by rwa [p.topic_frame] at hlt, (publish_frame_iff p).mp hpublish⟩

/-- What is published comes back in order and with nothing left over exactly if every topic has
less than 256 bytes and every key less than 65536. -/
theorem published_iff_fits (ps : List Publish)
    (hpayload : ∀ p ∈ ps, p.frame.payload.length < 2 ^ 32) :
    connection.scan (ps.flatMap fun p => encode p.frame) = (ps, none) ↔ ∀ p ∈ ps, p.Fits := by
  have hend : connection.scan [] = ([], none) := Reader.scan_of_stop rfl
  constructor
  · intro h
    induction ps with
    | nil => simp
    | cons p ps ih =>
      obtain ⟨rest, hnext⟩ := Reader.next_of_scan_cons h
      rw [List.flatMap_cons] at hnext h
      have hp := fits_of_next (hpayload p (by simp)) hnext
      rw [Reader.scan_of_item (next_of_fits (hpayload p (by simp)) hp _)] at h
      simp only [Prod.mk.injEq, List.cons.injEq, true_and] at h
      have hps := ih (fun p' hp' => hpayload p' (by simp [hp'])) (Prod.ext h.1 h.2)
      simpa using ⟨hp, hps⟩
  · intro h
    have hscan :
        connection.scan (ps.flatMap (fun p => encode p.frame) ++ []) = (ps.map id ++ _, _) :=
      Reader.scan_flatMap (fun p hp => next_of_fits (hpayload p hp) (h p hp)) []
    rw [hend, List.append_nil] at hscan
    simpa using hscan

/-- A publish with a key and one without. -/
theorem published_iff_fits_two :
    connection.scan (([⟨[0x61], [0x62], [0x63]⟩, ⟨[0x61], [], []⟩] : List Publish).flatMap
        fun p => encode p.frame) =
      ([⟨[0x61], [0x62], [0x63]⟩, ⟨[0x61], [], []⟩], none) :=
  (published_iff_fits [⟨[0x61], [0x62], [0x63]⟩, ⟨[0x61], [], []⟩] (by decide +kernel)).mpr
    (by decide +kernel)

/-- The length of a topic of 256 bytes is written as zero: the frame is read without a topic, and
then the topic is read as a frame. -/
theorem published_long_topic :
    (⟨List.replicate 256 0x61, [], []⟩ : Publish).frame.payload.length < 2 ^ 32 ∧
      connection.scan (encode (⟨List.replicate 256 0x61, [], []⟩ : Publish).frame) =
        ([⟨[], [], []⟩], some .badMagic) := by
  have hfirst : connection.next (encode (⟨List.replicate 256 0x61, [], []⟩ : Publish).frame) =
      .item ⟨[], [], []⟩ (List.replicate 256 0x61) := by decide +kernel
  have hsecond : connection.next (List.replicate 256 0x61) = .stop (some .badMagic) := by
    decide +kernel
  exact ⟨by decide, by rw [Reader.scan_of_item hfirst, Reader.scan_of_stop hsecond]⟩

end AgentBus.Protocol
