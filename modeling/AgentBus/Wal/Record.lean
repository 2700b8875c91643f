import AgentBus.Lib.Framing

/-!
# The main write-ahead log: format and replay

`internal/wal/wal.go`: `AppendRecord` checks a record and writes it in version 3 of the
format, a two-byte magic, a fixed header, the topic, key and payload, and a checksum of all
but the magic.  `ReplayWithOptions` reads versions 3, 2 and, where the magic is missing, 1.

Topics and keys are Go strings, which are byte strings.  The checksum is a parameter; the
source uses `crc32c`.

## Main definitions

* `Record`, `appendRecord`, `encode` — writing.
* `ReplayOptions`, `nextRecord`, `reader`, `replay` — reading.
* `reads_encode` — replay takes an accepted record back.
-/

namespace AgentBus.Wal

open Bytes Framing

/-- `Record`: one entry of the log. -/
structure Record where
  timestamp : Int64
  topic : List UInt8
  key : List UInt8
  partition : Int32
  payload : List UInt8
  deriving DecidableEq, Repr

/-- The errors of appending and replaying. -/
inductive Error where
  /-- `ErrCorruptRecord`. -/
  | corruptRecord
  /-- `ErrPayloadTooLarge`. -/
  | payloadTooLarge
  /-- `io.EOF`. -/
  | eof
  /-- `io.ErrUnexpectedEOF`. -/
  | unexpectedEOF
  deriving DecidableEq, Repr

/-- `MaxPayloadSize`. -/
def maxPayloadSize : ℕ := 64 * 2 ^ 20

/-- One byte of CRC32C, reflected. -/
def crcByte (crc : UInt32) (b : UInt8) : UInt32 :=
  (List.range 8).foldl
    (fun c _ => if c &&& 1 = 1 then (c >>> 1) ^^^ 0x82F63B78 else c >>> 1) (crc ^^^ b.toUInt32)

/-- The CRC32-Castagnoli checksum of `hash/crc32`. -/
def crc32c (bs : List UInt8) : UInt32 := ~~~ bs.foldl crcByte 0xFFFFFFFF

/-! ## Writing -/

/-- The two bytes every record of version 2 or 3 starts with. -/
def magic : List UInt8 := [0x47, 0x57]

/-- The header after the magic: version and padding, timestamp, partition, and the lengths
of topic, key and payload. -/
def header (r : Record) : List UInt8 :=
  [3, 0] ++ be 8 r.timestamp.toUInt64.toNat ++ be 4 r.partition.toUInt32.toNat ++
    be 2 r.topic.length ++ be 2 r.key.length ++ be 4 r.payload.length

/-- The variable part of a record. -/
def body (r : Record) : List UInt8 := r.topic ++ r.key ++ r.payload

/-- A record in version 3 of the format. -/
def encode (sum : List UInt8 → UInt32) (r : Record) : List UInt8 :=
  magic ++ header r ++ body r ++ be 4 (sum (header r ++ body r)).toNat

/-- The record with the clock's time when it has none. -/
def Record.stamped (now : Int64) (r : Record) : Record :=
  if r.timestamp = 0 then { r with timestamp := now } else r

/-- `AppendRecord`: the bytes it appends to the file, or the check that fails. -/
def appendRecord (sum : List UInt8 → UInt32) (now : Int64) (r : Record) :
    Except Error (List UInt8) :=
  if r.partition = 0 ∧ r.topic = [] then .error .corruptRecord
  else if r.partition < -1 then .error .corruptRecord
  else if 0xFFFF < r.topic.length then .error .corruptRecord
  else if 0xFFFF < r.key.length then .error .corruptRecord
  else if maxPayloadSize < r.payload.length then .error .payloadTooLarge
  else .ok (encode sum (r.stamped now))

/-- The limits the format puts on a record. -/
structure Fits (r : Record) : Prop where
  topic : r.topic.length ≤ 0xFFFF
  key : r.key.length ≤ 0xFFFF
  payload : r.payload.length ≤ maxPayloadSize

variable {sum : List UInt8 → UInt32} {r : Record} {bs rest : List UInt8} {n : ℕ}

/-- What `AppendRecord` accepts fits the format, and it writes the stamped record. -/
theorem appendRecord_eq_ok {now : Int64} (h : appendRecord sum now r = .ok bs) :
    Fits (r.stamped now) ∧ bs = encode sum (r.stamped now) := by
  unfold appendRecord at h
  repeat' split at h
  all_goals cases h
  rename_i htopic hkey hpayload
  have hsame : (r.stamped now).topic = r.topic ∧ (r.stamped now).key = r.key ∧
      (r.stamped now).payload = r.payload := by
    unfold Record.stamped
    split <;> exact ⟨rfl, rfl, rfl⟩
  refine ⟨⟨?_, ?_, ?_⟩, rfl⟩
  · rw [hsame.1]; omega
  · rw [hsame.2.1]; omega
  · rw [hsame.2.2]; omega

@[simp] theorem length_header (r : Record) : (header r).length = 22 := by simp [header]

@[simp] theorem length_encode (sum : List UInt8 → UInt32) (r : Record) :
    (encode sum r).length = 28 + (body r).length := by
  simp [encode, magic]
  omega

/-- A record of a named topic that fits the format is accepted. -/
theorem appendRecord_of_fits (sum : List UInt8 → UInt32) (now : Int64) (h : Fits r)
    (htopic : r.topic ≠ []) (hpart : ¬ r.partition < -1) :
    appendRecord sum now r = .ok (encode sum (r.stamped now)) := by
  simp only [appendRecord, htopic, and_false, if_false, hpart, not_lt.mpr h.topic,
    not_lt.mpr h.key, not_lt.mpr h.payload]

/-! ## Reading -/

/-- `ReplayOptions`. -/
structure ReplayOptions where
  allowPartialTail : Bool
  deriving DecidableEq, Repr

/-- How a read that fails inside a record ends the replay. -/
def ReplayOptions.short (opts : ReplayOptions) : ReadError → Next Record Error
  | .eof => .stop (some .eof)
  | .unexpectedEOF => .stop (if opts.allowPartialTail then none else some .unexpectedEOF)

/-- Read `n` bytes of a record and go on with them. -/
def reading (opts : ReplayOptions) (n : ℕ) (bs : List UInt8)
    (k : List UInt8 → List UInt8 → Next Record Error) : Next Record Error :=
  match readFull n bs with
  | .error e => opts.short e
  | .ok (field, rest) => k field rest

/-- The `n` bytes of a header from `lo` on. -/
def field (bs : List UInt8) (lo n : ℕ) : List UInt8 := (bs.drop lo).take n

/-- The record in a header and a body, for the layout of versions 2 and 3. -/
def recordOf (header body : List UInt8) : Record :=
  let topicLen := ofBe (field header 14 2)
  let keyLen := ofBe (field header 16 2)
  { timestamp := .ofUInt64 (.ofNat (ofBe (field header 2 8)))
    partition := .ofUInt32 (.ofNat (ofBe (field header 10 4)))
    topic := body.take topicLen
    key := field body topicLen keyLen
    payload := body.drop (topicLen + keyLen) }

/-- `readV2Record`: versions 2 and 3, after the magic. -/
def readV2Record (sum : List UInt8 → UInt32) (opts : ReplayOptions) (bs : List UInt8) :
    Next Record Error :=
  reading opts 22 bs fun header bs =>
    let version := ofBe (field header 0 1)
    let topicLen := ofBe (field header 14 2)
    let keyLen := ofBe (field header 16 2)
    let payloadLen := ofBe (field header 18 4)
    if version ≠ 2 ∧ version ≠ 3 then .stop (some .corruptRecord)
    else if maxPayloadSize < payloadLen then .stop (some .corruptRecord)
    else
      reading opts (topicLen + keyLen + payloadLen) bs fun body bs =>
        if version = 3 then
          reading opts 4 bs fun crc bs =>
            if (sum (header ++ body)).toNat ≠ ofBe crc then .stop (some .corruptRecord)
            else .item (recordOf header body) bs
        else .item (recordOf header body) bs

/-- `readV1Record`: the first version, whose first two bytes were read as a magic. -/
def readV1Record (opts : ReplayOptions) (start bs : List UInt8) : Next Record Error :=
  reading opts 12 bs fun headerRest bs =>
    let header := start ++ headerRest
    let topicLen := ofBe (field header 8 2)
    let payloadLen := ofBe (field header 10 4)
    if maxPayloadSize < payloadLen then .stop (some .corruptRecord)
    else
      reading opts (topicLen + payloadLen) bs fun body bs =>
        .item
          { timestamp := .ofUInt64 (.ofNat (ofBe (field header 0 8)))
            topic := body.take topicLen
            key := []
            partition := -1
            payload := body.drop topicLen } bs

/-- One round of the loop of `ReplayWithOptions`. -/
def nextRecord (sum : List UInt8 → UInt32) (opts : ReplayOptions) (bs : List UInt8) :
    Next Record Error :=
  match readFull 2 bs with
  | .error .eof => .stop none
  | .error .unexpectedEOF => opts.short .unexpectedEOF
  | .ok (start, rest) =>
    if start = magic then readV2Record sum opts rest else readV1Record opts start rest

variable {opts : ReplayOptions}

@[simp] theorem reading_append (h : bs.length = n) (rest : List UInt8)
    (k : List UInt8 → List UInt8 → Next Record Error) :
    reading opts n (bs ++ rest) k = k bs rest := by
  simp only [reading, readFull_append h]

/-- A read that is cut after `m` bytes. -/
theorem reading_take {m : ℕ} (h : m < n) (hle : m ≤ bs.length)
    (k : List UInt8 → List UInt8 → Next Record Error) :
    reading opts n (bs.take m) k = opts.short (if m = 0 then .eof else .unexpectedEOF) := by
  have hlen : (bs.take m).length = m := by simp [hle]
  have hnil : bs.take m = [] ↔ m = 0 := by rw [← List.length_eq_zero_iff, hlen]
  simp only [reading, readFull_short (show (bs.take m).length < n by omega), hnil]

/-- A round that delivers a record has read its field. -/
theorem reading_eq_item {k : List UInt8 → List UInt8 → Next Record Error}
    (h : reading opts n bs k = .item r rest) :
    ∃ bs₁ bs₂, bs = bs₁ ++ bs₂ ∧ bs₁.length = n ∧ k bs₁ bs₂ = .item r rest := by
  unfold reading at h
  split at h
  · rename_i e _
    cases e <;> cases h
  · rename_i bs₁ bs₂ hread
    obtain ⟨heq, hlen⟩ := readFull_eq_ok hread
    exact ⟨bs₁, bs₂, heq, hlen, h⟩

/-- What a record of version 2 or 3 was read from. -/
theorem readV2Record_eq_item (h : readV2Record sum opts bs = .item r rest) :
    ∃ hd tl, bs = hd ++ tl ∧ hd.length = 22 ∧ rest.length ≤ tl.length ∧
      r.timestamp = .ofUInt64 (.ofNat (ofBe (field hd 2 8))) := by
  obtain ⟨hd, tl, rfl, hlen, h⟩ := reading_eq_item h
  refine ⟨hd, tl, rfl, hlen, ?_⟩
  simp only at h
  split at h
  · cases h
  · split at h
    · cases h
    · obtain ⟨bd, tl', rfl, -, h⟩ := reading_eq_item h
      split at h
      · obtain ⟨crc, tl'', rfl, -, h⟩ := reading_eq_item h
        split at h
        · cases h
        · cases h
          exact ⟨by simp; omega, rfl⟩
      · cases h
        exact ⟨by simp, rfl⟩

/-- What a record of version 1 was read from. -/
theorem readV1Record_eq_item {start : List UInt8} (h : readV1Record opts start bs = .item r rest) :
    ∃ hd tl, bs = hd ++ tl ∧ hd.length = 12 ∧ rest.length ≤ tl.length ∧
      r.timestamp = .ofUInt64 (.ofNat (ofBe (field (start ++ hd) 0 8))) := by
  obtain ⟨hd, tl, rfl, hlen, h⟩ := reading_eq_item h
  refine ⟨hd, tl, rfl, hlen, ?_⟩
  simp only at h
  split at h
  · cases h
  · obtain ⟨bd, tl', rfl, -, h⟩ := reading_eq_item h
    cases h
    exact ⟨by simp, rfl⟩

/-- What a record was read from: its first two bytes and what is left of them. -/
theorem nextRecord_eq_item (h : nextRecord sum opts bs = .item r rest) :
    ∃ start tl, bs = start ++ tl ∧ start.length = 2 ∧
      ((start = magic ∧ readV2Record sum opts tl = .item r rest) ∨
        (start ≠ magic ∧ readV1Record opts start tl = .item r rest)) := by
  unfold nextRecord at h
  split at h
  · cases h
  · cases h
  · rename_i start tl hread
    obtain ⟨heq, hlen⟩ := readFull_eq_ok hread
    refine ⟨start, tl, heq, hlen, ?_⟩
    split at h
    · exact .inl ⟨‹_›, h⟩
    · exact .inr ⟨‹_›, h⟩

/-- The loop of `ReplayWithOptions` as a reader. -/
def reader (sum : List UInt8 → UInt32) (opts : ReplayOptions) : Reader Record Error where
  next := nextRecord sum opts
  shrinks := by
    intro bs r rest h
    obtain ⟨start, tl, rfl, hlen, h | h⟩ := nextRecord_eq_item h
    · obtain ⟨hd, tl', rfl, -, hle, -⟩ := readV2Record_eq_item h.2
      simp
      omega
    · obtain ⟨hd, tl', rfl, -, hle, -⟩ := readV1Record_eq_item h.2
      simp
      omega

@[simp] theorem reader_next (sum : List UInt8 → UInt32) (opts : ReplayOptions) (bs : List UInt8) :
    (reader sum opts).next bs = nextRecord sum opts bs :=
  rfl

/-- `ReplayWithOptions`: the records handed to the callback, and the error returned. -/
def replay (sum : List UInt8 → UInt32) (opts : ReplayOptions) (bs : List UInt8) :
    List Record × Option Error :=
  (reader sum opts).scan bs

/-! ## Reading what was written -/

@[simp] theorem field_append {x y z : List UInt8} {lo : ℕ} (hx : x.length = lo)
    (hy : y.length = n) : field (x ++ (y ++ z)) lo n = y := by
  subst hx hy
  simp [field]

section Header

variable (r : Record)

@[simp] theorem field_version : field (header r) 0 1 = [3] := by
  simp [header, field]

@[simp] theorem field_timestamp : field (header r) 2 8 = be 8 r.timestamp.toUInt64.toNat := by
  rw [header]
  simp only [List.append_assoc]
  exact field_append rfl (length_be _ _)

@[simp] theorem field_partition : field (header r) 10 4 = be 4 r.partition.toUInt32.toNat := by
  rw [header]
  simp only [List.append_assoc]
  rw [← List.append_assoc, field_append (by simp) (length_be _ _)]

@[simp] theorem field_topicLen : field (header r) 14 2 = be 2 r.topic.length := by
  rw [header]
  simp only [List.append_assoc]
  rw [← List.append_assoc, ← List.append_assoc, field_append (by simp) (length_be _ _)]

@[simp] theorem field_keyLen : field (header r) 16 2 = be 2 r.key.length := by
  rw [header]
  rw [List.append_assoc, field_append (by simp) (length_be _ _)]

@[simp] theorem field_payloadLen : field (header r) 18 4 = be 4 r.payload.length := by
  have h := field_append (z := []) (by simp : ([3, 0] ++ be 8 r.timestamp.toUInt64.toNat ++
    be 4 r.partition.toUInt32.toNat ++ be 2 r.topic.length ++ be 2 r.key.length).length = 18)
    (length_be 4 r.payload.length)
  rwa [List.append_nil] at h

variable {r}

@[simp] theorem ofBe_topicLen (h : Fits r) : ofBe (field (header r) 14 2) = r.topic.length := by
  rw [field_topicLen]
  exact ofBe_be (by have := h.topic; omega)

@[simp] theorem ofBe_keyLen (h : Fits r) : ofBe (field (header r) 16 2) = r.key.length := by
  rw [field_keyLen]
  exact ofBe_be (by have := h.key; omega)

@[simp] theorem ofBe_payloadLen (h : Fits r) : ofBe (field (header r) 18 4) = r.payload.length := by
  rw [field_payloadLen]
  exact ofBe_be (by have := h.payload; simp only [maxPayloadSize] at this; omega)

/-- The record is read back from its own header and body. -/
theorem recordOf_header_body (h : Fits r) : recordOf (header r) (body r) = r := by
  have hts : ofBe (field (header r) 2 8) = r.timestamp.toUInt64.toNat := by
    rw [field_timestamp]
    exact ofBe_be (r.timestamp.toUInt64.toNat_lt)
  have hpart : ofBe (field (header r) 10 4) = r.partition.toUInt32.toNat := by
    rw [field_partition]
    exact ofBe_be (r.partition.toUInt32.toNat_lt)
  simp only [recordOf, hts, hpart, ofBe_topicLen h, ofBe_keyLen h, UInt64.ofNat_toNat,
    UInt32.ofNat_toNat, body]
  simp [field]

/-- Once the header is read, the rest of a record is its body and its checksum. -/
@[simp] theorem readV2Record_header (sum : List UInt8 → UInt32) (opts : ReplayOptions) (h : Fits r)
    (rest : List UInt8) :
    readV2Record sum opts (header r ++ rest) =
      reading opts (body r).length rest fun bd rest =>
        reading opts 4 rest fun crc rest =>
          if (sum (header r ++ bd)).toNat ≠ ofBe crc then .stop (some .corruptRecord)
          else .item (recordOf (header r) bd) rest := by
  have hpay := h.payload
  have hlen : r.topic.length + r.key.length + r.payload.length = (body r).length := by
    simp [body]
    omega
  rw [readV2Record, reading_append (length_header r)]
  simp only [field_version, ofBe_topicLen h, ofBe_keyLen h, ofBe_payloadLen h, hlen]
  rw [if_neg (by decide), if_neg (by omega)]
  rfl

end Header

theorem nextRecord_magic (sum : List UInt8 → UInt32) (opts : ReplayOptions) (rest : List UInt8) :
    nextRecord sum opts (magic ++ rest) = readV2Record sum opts rest := by
  have hread : readFull 2 (magic ++ rest) = .ok (magic, rest) :=
    readFull_append (show magic.length = 2 from rfl) rest
  simp only [nextRecord, hread, if_true]

/-- **Replay takes an accepted record back**, whatever follows it. -/
theorem reads_encode (sum : List UInt8 → UInt32) (opts : ReplayOptions) (h : Fits r) :
    (reader sum opts).Reads (encode sum) r := by
  intro rest
  have hcrc : ofBe (be 4 (sum (header r ++ body r)).toNat) = (sum (header r ++ body r)).toNat :=
    ofBe_be (UInt32.toNat_lt _)
  have hsplit : encode sum r ++ rest =
      magic ++ (header r ++ (body r ++ (be 4 (sum (header r ++ body r)).toNat ++ rest))) := by
    simp only [encode, List.append_assoc]
  rw [reader_next, hsplit, nextRecord_magic, readV2Record_header sum opts h, reading_append rfl,
    reading_append (length_be _ _), hcrc, if_neg (by simp), recordOf_header_body h]

/-- **Replay takes a file of accepted records back.** -/
theorem replay_encodeAll (sum : List UInt8 → UInt32) (opts : ReplayOptions) {rs : List Record}
    (h : ∀ r ∈ rs, Fits r) : replay sum opts (encodeAll (encode sum) rs) = (rs, none) := by
  have hscan := Reader.scan_append (fun r hr => reads_encode sum opts (h r hr)) []
  have hnil : (reader sum opts).scan [] = ([], none) := Reader.scan_of_stop rfl
  rw [List.append_nil, hnil, List.append_nil] at hscan
  exact hscan

/-- The places in a record between two reads, apart from its ends: after the magic, after
the header and after the body. -/
def ReadEdge (r : Record) (m : ℕ) : Prop := m = 2 ∨ m = 24 ∨ m = 24 + (body r).length

instance (r : Record) (m : ℕ) : Decidable (ReadEdge r m) :=
  inferInstanceAs (Decidable (_ ∨ _ ∨ _))

/-- **How replay meets a torn record.**  Where the cut falls between two reads, the read after
it finds nothing and reports the end of the file; elsewhere it reports an unexpected end. -/
theorem nextRecord_torn (sum : List UInt8 → UInt32) (opts : ReplayOptions) (h : Fits r) {m : ℕ}
    (hpos : 0 < m) (hlt : m < (encode sum r).length) :
    nextRecord sum opts ((encode sum r).take m) =
      opts.short (if ReadEdge r m then .eof else .unexpectedEOF) := by
  rw [length_encode] at hlt
  by_cases h1 : m = 1
  · subst h1
    have htake : (encode sum r).take 1 = [0x47] := by simp [encode, magic]
    have hedge : ¬ ReadEdge r 1 := by simp [ReadEdge]; omega
    rw [htake, nextRecord, readFull_short (by simp), if_neg hedge, if_neg (by simp)]
  · obtain ⟨m, rfl⟩ : ∃ m', m = 2 + m' := ⟨m - 2, by omega⟩
    have htake : (encode sum r).take (2 + m) =
        magic ++ (header r ++ (body r ++ be 4 (sum (header r ++ body r)).toNat)).take m := by
      simp only [encode, List.append_assoc]
      rw [List.take_append, List.take_of_length_le (by simp [magic])]
      simp [magic]
    rw [htake, nextRecord_magic]
    by_cases h2 : m < 22
    · -- The cut is in the header.
      have hedge : ReadEdge r (2 + m) ↔ m = 0 := by simp only [ReadEdge]; omega
      rw [readV2Record, reading_take h2 (by simp; omega)]
      simp only [hedge]
    · obtain ⟨m, rfl⟩ : ∃ m', m = 22 + m' := ⟨m - 22, by omega⟩
      have htake' : (header r ++ (body r ++ be 4 (sum (header r ++ body r)).toNat)).take (22 + m) =
          header r ++ (body r ++ be 4 (sum (header r ++ body r)).toNat).take m := by
        rw [List.take_append, List.take_of_length_le (by simp)]
        simp
      rw [htake', readV2Record_header sum opts h]
      by_cases h3 : m < (body r).length
      · -- The cut is in the body.
        have hedge : ReadEdge r (2 + (22 + m)) ↔ m = 0 := by simp only [ReadEdge]; omega
        rw [reading_take h3 (by simp; omega)]
        simp only [hedge]
      · -- The cut is in the checksum.
        obtain ⟨m, rfl⟩ : ∃ m', m = (body r).length + m' := ⟨m - (body r).length, by omega⟩
        have htake'' : (body r ++ be 4 (sum (header r ++ body r)).toNat).take
            ((body r).length + m) = body r ++ (be 4 (sum (header r ++ body r)).toNat).take m := by
          rw [List.take_append, List.take_of_length_le (by omega)]
          simp
        have hedge : ReadEdge r (2 + (22 + ((body r).length + m))) ↔ m = 0 := by
          simp only [ReadEdge]; omega
        rw [htake'', reading_append rfl, reading_take (by omega) (by simp; omega)]
        simp only [hedge]

end AgentBus.Wal
