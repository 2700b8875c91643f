import AgentBus.Wal.Record

/-!
# The versions of the log

`AppendRecord` writes version 3 of the format.  Files still hold records of two older versions:
version 2 has the same layout without the checksum, and version 1 has no magic, no key and no
partition.  `ReplayWithOptions` tells them apart by the first two bytes, which in version 1 are
part of the timestamp, and by the version byte.

No record has its length in front, so a file can be replayed only if every layout is read up to
exactly where the next record begins.  `replay_mixed` says so for files that mix all three.

## Main definitions

* `encodeV1`, `encodeV2` — the older versions.
* `Encodes` — the bytes of a record in any version.
-/

namespace AgentBus.Wal

open Bytes Framing

/-- The header of version 2 after the magic; the byte after the version is not used. -/
def headerV2 (padding : UInt8) (r : Record) : List UInt8 :=
  [2, padding] ++ be 8 r.timestamp.toUInt64.toNat ++ be 4 r.partition.toUInt32.toNat ++
    be 2 r.topic.length ++ be 2 r.key.length ++ be 4 r.payload.length

/-- A record in version 2. -/
def encodeV2 (padding : UInt8) (r : Record) : List UInt8 := magic ++ headerV2 padding r ++ body r

/-- The header of version 1: the timestamp, and the lengths of topic and payload. -/
def headerV1 (timestamp : Int64) (topic payload : List UInt8) : List UInt8 :=
  be 8 timestamp.toUInt64.toNat ++ be 2 topic.length ++ be 4 payload.length

/-- A record in version 1. -/
def encodeV1 (timestamp : Int64) (topic payload : List UInt8) : List UInt8 :=
  headerV1 timestamp topic payload ++ (topic ++ payload)

/-- The bytes of a record in any of the versions.  A record of version 3 has a timestamp of its
own, so that `AppendRecord` does not stamp it. -/
inductive Encodes (sum : List UInt8 → UInt32) : List UInt8 → Record → Prop
  | v3 {now : Int64} {r : Record} {bs : List UInt8} (timestamp : r.timestamp ≠ 0)
      (accepted : appendRecord sum now r = .ok bs) : Encodes sum bs r
  | v2 (padding : UInt8) {r : Record} (fits : Fits r) : Encodes sum (encodeV2 padding r) r
  | v1 (timestamp : Int64) {topic payload : List UInt8} (topic_le : topic.length ≤ 0xFFFF)
      (payload_le : payload.length ≤ maxPayloadSize)
      (notMagic : (encodeV1 timestamp topic payload).take 2 ≠ magic) :
      Encodes sum (encodeV1 timestamp topic payload) ⟨timestamp, topic, [], -1, payload⟩

/-! ## Version 2 -/

@[simp] theorem length_headerV2 (padding : UInt8) (r : Record) :
    (headerV2 padding r).length = 22 := by
  simp [headerV2]

/-- The headers of versions 2 and 3 differ in their first two bytes only. -/
@[simp] theorem field_headerV2 (padding : UInt8) (r : Record) (lo n : ℕ) :
    field (headerV2 padding r) (2 + lo) n = field (header r) (2 + lo) n := by
  simp [field, headerV2, header, ← List.drop_drop]

theorem recordOf_headerV2 (padding : UInt8) {r : Record} (h : Fits r) :
    recordOf (headerV2 padding r) (body r) = r := by
  have hsame : recordOf (headerV2 padding r) (body r) = recordOf (header r) (body r) := by
    simp only [recordOf, field_headerV2 padding r 0 8, field_headerV2 padding r 8 4,
      field_headerV2 padding r 12 2, field_headerV2 padding r 14 2]
  rw [hsame, recordOf_header_body h]

/-- **Replay takes a record of version 2 back.** -/
theorem nextRecord_encodeV2 (sum : List UInt8 → UInt32) (opts : ReplayOptions) (padding : UInt8)
    {r : Record} (h : Fits r) (rest : List UInt8) :
    nextRecord sum opts (encodeV2 padding r ++ rest) = .item r rest := by
  have hversion : ofBe (field (headerV2 padding r) 0 1) = 2 := by simp [headerV2, field, ofBe]
  have hlen : ofBe (field (headerV2 padding r) 14 2) + ofBe (field (headerV2 padding r) 16 2) +
      ofBe (field (headerV2 padding r) 18 4) = (body r).length := by
    rw [field_headerV2 padding r 12 2, field_headerV2 padding r 14 2,
      field_headerV2 padding r 16 4, ofBe_topicLen h, ofBe_keyLen h, ofBe_payloadLen h]
    simp [body]
    omega
  have hsize : ¬ maxPayloadSize < ofBe (field (headerV2 padding r) 18 4) := by
    rw [field_headerV2 padding r 16 4, ofBe_payloadLen h]
    exact not_lt.mpr h.payload
  have hsplit : encodeV2 padding r ++ rest = magic ++ (headerV2 padding r ++ (body r ++ rest)) := by
    simp only [encodeV2, List.append_assoc]
  rw [hsplit, nextRecord_magic, readV2Record, reading_append (length_headerV2 padding r)]
  simp only [hversion, hlen, reading_append rfl, recordOf_headerV2 padding h]
  rw [if_neg (by decide), if_neg hsize, if_neg (by decide)]

/-! ## Version 1 -/

section V1

variable (timestamp : Int64) {topic payload : List UInt8}

@[simp] theorem length_headerV1 (topic payload : List UInt8) :
    (headerV1 timestamp topic payload).length = 14 := by
  simp [headerV1]

/-- The timestamp and the lengths are read back from the header. -/
theorem ofBe_headerV1 (htopic : topic.length ≤ 0xFFFF)
    (hpayload : payload.length ≤ maxPayloadSize) :
    ofBe (field (headerV1 timestamp topic payload) 0 8) = timestamp.toUInt64.toNat ∧
      ofBe (field (headerV1 timestamp topic payload) 8 2) = topic.length ∧
      ofBe (field (headerV1 timestamp topic payload) 10 4) = payload.length := by
  have hts : field (headerV1 timestamp topic payload) 0 8 = be 8 timestamp.toUInt64.toNat := by
    rw [headerV1, List.append_assoc]
    exact field_append (x := []) rfl (length_be _ _)
  have htl : field (headerV1 timestamp topic payload) 8 2 = be 2 topic.length := by
    rw [headerV1, List.append_assoc]
    exact field_append (length_be _ _) (length_be _ _)
  have hpl : field (headerV1 timestamp topic payload) 10 4 = be 4 payload.length := by
    have h := field_append (z := [])
      (by simp : (be 8 timestamp.toUInt64.toNat ++ be 2 topic.length).length = 10)
      (length_be 4 payload.length)
    rwa [List.append_nil] at h
  refine ⟨?_, ?_, ?_⟩
  · rw [hts]
    exact ofBe_be timestamp.toUInt64.toNat_lt
  · rw [htl]
    exact ofBe_be (by omega)
  · rw [hpl]
    exact ofBe_be (by simp only [maxPayloadSize] at hpayload; omega)

/-- **Replay takes a record of version 1 back**, with an empty key and partition -1. -/
theorem nextRecord_encodeV1 (sum : List UInt8 → UInt32) (opts : ReplayOptions)
    (htopic : topic.length ≤ 0xFFFF) (hpayload : payload.length ≤ maxPayloadSize)
    (hmagic : (encodeV1 timestamp topic payload).take 2 ≠ magic) (rest : List UInt8) :
    nextRecord sum opts (encodeV1 timestamp topic payload ++ rest) =
      .item ⟨timestamp, topic, [], -1, payload⟩ rest := by
  obtain ⟨hts, htl, hpl⟩ := ofBe_headerV1 timestamp htopic hpayload
  have hhead : (encodeV1 timestamp topic payload).take 2 =
      (headerV1 timestamp topic payload).take 2 :=
    List.take_append_of_le_length (by simp)
  have hread : readFull 2 (encodeV1 timestamp topic payload ++ rest) =
      .ok ((headerV1 timestamp topic payload).take 2,
        (headerV1 timestamp topic payload).drop 2 ++ (topic ++ payload ++ rest)) := by
    have hsplit : encodeV1 timestamp topic payload ++ rest =
        (headerV1 timestamp topic payload).take 2 ++
          ((headerV1 timestamp topic payload).drop 2 ++ (topic ++ payload ++ rest)) := by
      rw [← List.append_assoc, List.take_append_drop, encodeV1, List.append_assoc,
        List.append_assoc]
    rw [hsplit]
    exact readFull_append (by simp) _
  rw [hhead] at hmagic
  simp only [nextRecord, hread, if_neg hmagic, readV1Record]
  rw [reading_append (by simp)]
  simp only [List.take_append_drop, hts, htl, hpl, if_neg (not_lt.mpr hpayload)]
  rw [reading_append (by simp)]
  simp

end V1

/-! ## Files of all versions -/

/-- **Replay takes a record of any version back**, whatever follows it. -/
theorem Encodes.next {sum : List UInt8 → UInt32} {bs : List UInt8} {r : Record}
    (h : Encodes sum bs r) (opts : ReplayOptions) (rest : List UInt8) :
    (reader sum opts).next (bs ++ rest) = .item r rest := by
  cases h with
  | v3 timestamp accepted =>
    obtain ⟨hfits, rfl⟩ := appendRecord_eq_ok accepted
    rw [Record.stamped, if_neg timestamp] at hfits ⊢
    exact reads_encode sum opts hfits rest
  | v2 padding fits =>
    rw [reader_next]
    exact nextRecord_encodeV2 sum opts padding fits rest
  | v1 timestamp topic_le payload_le notMagic =>
    rw [reader_next]
    exact nextRecord_encodeV1 timestamp sum opts topic_le payload_le notMagic rest

/-- **The log is read back across versions.**  Replaying the bytes of any records, each in any
version, delivers those records in order and returns no error. -/
theorem replay_mixed (sum : List UInt8 → UInt32) (opts : ReplayOptions)
    (log : List (List UInt8 × Record)) (h : ∀ e ∈ log, Encodes sum e.1 e.2) :
    replay sum opts (log.flatMap Prod.fst) = (log.map Prod.snd, none) := by
  have hscan := Reader.scan_flatMap (fun e he => (h e he).next opts) []
  have hnil : (reader sum opts).scan [] = ([], none) := Reader.scan_of_stop rfl
  rwa [List.append_nil, hnil, List.append_nil] at hscan

/-- A record for a keyed topic. -/
def keyedRecord : Record :=
  { timestamp := 7, topic := [0x74], key := [0x6b], partition := 2, payload := [1, 2] }

/-- The same record in versions 3 and 2, and one of version 1 in between. -/
theorem replay_mixed_three :
    replay crc32c ⟨false⟩ (encode crc32c keyedRecord ++ (encodeV1 7 [0x74] [1, 2] ++
        encodeV2 0 keyedRecord)) =
      ([keyedRecord, ⟨7, [0x74], [], -1, [1, 2]⟩, keyedRecord], none) := by
  have haccepted : appendRecord crc32c 0 keyedRecord = .ok (encode crc32c keyedRecord) := rfl
  have h := replay_mixed crc32c ⟨false⟩ [(encode crc32c keyedRecord, keyedRecord),
    (encodeV1 7 [0x74] [1, 2], ⟨7, [0x74], [], -1, [1, 2]⟩), (encodeV2 0 keyedRecord, keyedRecord)]
    (by
      intro e he
      simp only [List.mem_cons, List.not_mem_nil, or_false] at he
      rcases he with rfl | rfl | rfl
      · exact .v3 (by decide) haccepted
      · exact .v1 7 (by decide) (by decide) (by decide)
      · exact .v2 0 ⟨by decide, by decide, by decide⟩)
  simpa using h

end AgentBus.Wal
