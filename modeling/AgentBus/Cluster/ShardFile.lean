import AgentBus.Cluster.Shard
import AgentBus.Wal.Record

/-!
# The file of a shard: recovery and replay

`internal/cluster/shardwal/shardwal.go`: a record is its length, a checksum of its payload, and
the payload.  `Open` walks the file to find the next offset (`recoverTail`), and `Replay` walks
it again to deliver the records.  The two loops are copies of each other and are translated one
by one; `walk` is what they have in common, and the rest of the module speaks of it.

On a record that is torn, `recoverTail` returns before it has set the tail.  Recovery therefore
counts what a replay delivers unless the file ends in a torn record after a whole one
(`recoverTail_agrees_iff`), and what is appended to a file that a crash has cut comes back at
the offsets that were promised only if the crash tore no record (`reopen_after_crash_iff`).

The checksum is a parameter; the source uses `crc32c`.  The callback of `Replay` is one that
does not fail, as it collects the records.

## Main definitions

* `encodeRecord`, `recoverTail`, `replayFrom` — the format and the two loops.
* `walk` — a reader of the same format that says how it stops.
* `Torn` — what a crash can leave of a record.
* `Handle` — a shard with its file, as one caller sees it.
-/

namespace AgentBus.Cluster

open Bytes Framing

variable (sum : List UInt8 → UInt32)

/-- A record in the file. -/
def encodeRecord (payload : Payload) : List UInt8 :=
  be 4 payload.length ++ be 4 (sum payload).toNat ++ payload

/-- The errors of `recoverTail`. -/
inductive RecoverError where
  /-- recover: record too large (size > MaxPayloadSize) -/
  | recordTooLarge (size : ℕ)
  /-- recover: CRC mismatch at offset -/
  | crcMismatch (offset : ℕ)
  deriving DecidableEq, Repr

/-- The errors of `Replay`. -/
inductive ReplayError where
  /-- replay: record too large at offset -/
  | recordTooLarge (offset : ℕ)
  /-- replay: CRC mismatch at offset -/
  | crcMismatch (offset : ℕ)
  deriving DecidableEq, Repr

/-- `recoverTail`: the tail that `Open` finds, after `count` records. -/
def recoverTail (count : ℕ) (bs : List UInt8) : Except RecoverError ℕ :=
  match _h : readFull 8 bs with
  | .error .eof => .ok count
  -- The tail of the shard is still 0 here.
  | .error .unexpectedEOF => .ok 0
  | .ok (hdr, rest) =>
    if maxPayloadSize < ofBe (hdr.take 4) then .error (.recordTooLarge (ofBe (hdr.take 4)))
    else
      match _h' : readFull (ofBe (hdr.take 4)) rest with
      | .error _ => .ok 0
      | .ok (body, rest') =>
        if (sum body).toNat ≠ ofBe (hdr.drop 4) then .error (.crcMismatch count)
        else recoverTail (count + 1) rest'
termination_by bs.length
decreasing_by
  obtain ⟨rfl, hlen⟩ := readFull_eq_ok _h
  obtain ⟨rfl, -⟩ := readFull_eq_ok _h'
  simp
  omega

/-- `Replay`: the records delivered from `fromOffset` on, and the error it ends with, after
`offset` records. -/
def replayFrom (fromOffset offset : ℕ) (bs : List UInt8) :
    List (ℕ × Payload) × Option ReplayError :=
  match _h : readFull 8 bs with
  | .error .eof => ([], none)
  | .error .unexpectedEOF => ([], none)
  | .ok (hdr, rest) =>
    if maxPayloadSize < ofBe (hdr.take 4) then ([], some (.recordTooLarge offset))
    else
      match _h' : readFull (ofBe (hdr.take 4)) rest with
      | .error _ => ([], none)
      | .ok (body, rest') =>
        if (sum body).toNat ≠ ofBe (hdr.drop 4) then ([], some (.crcMismatch offset))
        else
          let r := replayFrom fromOffset (offset + 1) rest'
          if fromOffset ≤ offset then ((offset, body) :: r.1, r.2) else r
termination_by bs.length
decreasing_by
  obtain ⟨rfl, hlen⟩ := readFull_eq_ok _h
  obtain ⟨rfl, -⟩ := readFull_eq_ok _h'
  simp
  omega

/-! ## What the two loops have in common -/

/-- How a walk stops, other than at the end of the file. -/
inductive Stop where
  | torn
  | tooLarge (size : ℕ)
  | mismatch
  deriving DecidableEq, Repr

/-- The next record of a file. -/
def nextRecord (bs : List UInt8) : Next Payload Stop :=
  match readFull 8 bs with
  | .error .eof => .stop none
  | .error .unexpectedEOF => .stop (some .torn)
  | .ok (hdr, rest) =>
    if maxPayloadSize < ofBe (hdr.take 4) then .stop (some (.tooLarge (ofBe (hdr.take 4))))
    else
      match readFull (ofBe (hdr.take 4)) rest with
      | .error _ => .stop (some .torn)
      | .ok (body, rest') =>
        if (sum body).toNat ≠ ofBe (hdr.drop 4) then .stop (some .mismatch)
        else .item body rest'

/-- A record that is delivered is a valid one at the front of the bytes. -/
theorem nextRecord_eq_item {bs rest : List UInt8} {p : Payload}
    (h : nextRecord sum bs = .item p rest) :
    bs = encodeRecord sum p ++ rest ∧ p.length ≤ maxPayloadSize := by
  unfold nextRecord at h
  split at h
  · cases h
  · cases h
  · rename_i hdr rest₀ hhdr
    obtain ⟨rfl, hlen⟩ := readFull_eq_ok hhdr
    split at h
    · cases h
    · rename_i hsize
      split at h
      · cases h
      · rename_i body rest' hbody
        obtain ⟨rfl, hbodyLen⟩ := readFull_eq_ok hbody
        split at h
        · cases h
        · rename_i hsum
          cases h
          have h₁ : be 4 p.length = hdr.take 4 := by
            rw [hbodyLen]
            have := be_ofBe (hdr.take 4)
            rwa [List.length_take, min_eq_left (by omega)] at this
          have h₂ : be 4 (sum p).toNat = hdr.drop 4 := by
            rw [not_not.mp hsum]
            have := be_ofBe (hdr.drop 4)
            rwa [List.length_drop, hlen] at this
          refine ⟨?_, by omega⟩
          rw [encodeRecord, h₁, h₂, List.take_append_drop, List.append_assoc]

@[simp] theorem length_encodeRecord (p : Payload) :
    (encodeRecord sum p).length = 8 + p.length := by
  simp [encodeRecord]
  omega

/-- The walk over a file. -/
def walk : Reader Payload Stop where
  next := nextRecord sum
  shrinks := by
    intro bs r rest h
    rw [(nextRecord_eq_item sum h).1]
    simp

/-- The records of a walk are within the limit. -/
theorem mem_scan_size (bs : List UInt8) :
    ∀ p ∈ ((walk sum).scan bs).1, p.length ≤ maxPayloadSize := by
  fun_induction (walk sum).scan bs with
  | case1 bs err h => simp
  | case2 bs p rest h ih =>
    intro q hq
    rcases List.mem_cons.mp hq with rfl | hq
    · exact (nextRecord_eq_item sum h).2
    · exact ih q hq

@[simp] theorem walk_next (bs : List UInt8) : (walk sum).next bs = nextRecord sum bs := rfl

/-- What recovery answers when the walk has delivered `n` records and stopped so. -/
def Stop.recovered (n : ℕ) : Option Stop → Except RecoverError ℕ
  | none => .ok n
  | some .torn => .ok 0
  | some (.tooLarge size) => .error (.recordTooLarge size)
  | some .mismatch => .error (.crcMismatch n)

/-- What a replay answers when the walk has delivered `n` records and stopped so. -/
def Stop.replayed (n : ℕ) : Option Stop → Option ReplayError
  | none => none
  | some .torn => none
  | some (.tooLarge _) => some (.recordTooLarge n)
  | some .mismatch => some (.crcMismatch n)

/-- The records with their offsets, from `off` on. -/
def numbered (off : ℕ) (ps : List Payload) : List (ℕ × Payload) :=
  (ps.zipIdx off).map Prod.swap

@[simp] theorem map_snd_numbered (off : ℕ) (ps : List Payload) :
    (numbered off ps).map Prod.snd = ps := by
  simp [numbered, Function.comp_def]

theorem getElem?_numbered (off : ℕ) (ps : List Payload) (i : ℕ) :
    (numbered off ps)[i]? = ps[i]?.map fun p => (off + i, p) := by
  simp [numbered, Function.comp_def]

@[simp] theorem numbered_cons (off : ℕ) (p : Payload) (ps : List Payload) :
    numbered off (p :: ps) = (off, p) :: numbered (off + 1) ps := rfl

/-- One round of the loop of `recoverTail`. -/
theorem recoverTail_round (count : ℕ) (bs : List UInt8) :
    recoverTail sum count bs =
      match nextRecord sum bs with
      | .stop err => Stop.recovered count err
      | .item _ rest => recoverTail sum (count + 1) rest := by
  rw [recoverTail]
  split
  · simp only [nextRecord, *, Stop.recovered]
  · simp only [nextRecord, *, Stop.recovered]
  · split
    · simp only [nextRecord, *, if_true, Stop.recovered]
    · split
      · simp only [nextRecord, *, if_false, Stop.recovered]
      · split
        · rename_i hsum
          simp only [nextRecord, *, if_false, if_pos hsum, Stop.recovered]
        · simp only [nextRecord, *, if_false]

/-- **Recovery is the walk.** -/
theorem recoverTail_eq (count : ℕ) (bs : List UInt8) :
    recoverTail sum count bs =
      Stop.recovered (count + ((walk sum).scan bs).1.length) ((walk sum).scan bs).2 := by
  fun_induction (walk sum).scan bs generalizing count with
  | case1 bs err h =>
    rw [recoverTail_round, ← walk_next, h]
    rfl
  | case2 bs p rest h ih =>
    rw [recoverTail_round, ← walk_next, h, List.length_cons, ← Nat.add_assoc,
      Nat.add_right_comm]
    exact ih (count + 1)

/-- One round of the loop of `Replay`. -/
theorem replayFrom_round (fromOffset offset : ℕ) (bs : List UInt8) :
    replayFrom sum fromOffset offset bs =
      match nextRecord sum bs with
      | .stop err => ([], Stop.replayed offset err)
      | .item p rest =>
        let r := replayFrom sum fromOffset (offset + 1) rest
        if fromOffset ≤ offset then ((offset, p) :: r.1, r.2) else r := by
  rw [replayFrom]
  split
  · simp only [nextRecord, *, Stop.replayed]
  · simp only [nextRecord, *, Stop.replayed]
  · split
    · simp only [nextRecord, *, if_true, Stop.replayed]
    · split
      · simp only [nextRecord, *, if_false, Stop.replayed]
      · split
        · rename_i hsum
          simp only [nextRecord, *, if_false, if_pos hsum, Stop.replayed]
        · simp only [nextRecord, *, if_false]

/-- **A replay is the walk.** -/
theorem replayFrom_eq (fromOffset offset : ℕ) (bs : List UInt8) :
    replayFrom sum fromOffset offset bs =
      ((numbered offset ((walk sum).scan bs).1).filter fun r => fromOffset ≤ r.1,
        Stop.replayed (offset + ((walk sum).scan bs).1.length) ((walk sum).scan bs).2) := by
  fun_induction (walk sum).scan bs generalizing offset with
  | case1 bs err h =>
    rw [replayFrom_round, ← walk_next, h]
    rfl
  | case2 bs p rest h ih =>
    rw [replayFrom_round, ← walk_next, h, List.length_cons, ← Nat.add_assoc,
      Nat.add_right_comm, numbered_cons, List.filter_cons]
    simp only [ih (offset + 1), decide_eq_true_eq]
    split <;> rfl

/-- `Replay (0)` on a file. -/
def replay (bs : List UInt8) : List (ℕ × Payload) × Option ReplayError := replayFrom sum 0 0 bs

theorem replay_eq (bs : List UInt8) :
    replay sum bs = (numbered 0 ((walk sum).scan bs).1,
      Stop.replayed ((walk sum).scan bs).1.length ((walk sum).scan bs).2) := by
  simp [replay, replayFrom_eq]

/-- **The walk takes a record back**, whatever follows it. -/
theorem reads_encodeRecord {p : Payload} (h : p.length ≤ maxPayloadSize) :
    (walk sum).Reads (encodeRecord sum) p := by
  intro rest
  have hlen : ofBe (be 4 p.length) = p.length :=
    ofBe_be (by simp only [maxPayloadSize] at h; omega)
  have hsum : ofBe (be 4 (sum p).toNat) = (sum p).toNat := ofBe_be (UInt32.toNat_lt _)
  have hread : readFull 8 (encodeRecord sum p ++ rest) =
      .ok (be 4 p.length ++ be 4 (sum p).toNat, p ++ rest) := by
    rw [encodeRecord, List.append_assoc]
    exact readFull_append (by simp) _
  have htake : (be 4 p.length ++ be 4 (sum p).toNat).take 4 = be 4 p.length :=
    List.take_left' (length_be _ _)
  have hdrop : (be 4 p.length ++ be 4 (sum p).toNat).drop 4 = be 4 (sum p).toNat :=
    List.drop_left' (length_be _ _)
  simp only [walk_next, nextRecord, hread, htake, hdrop, hlen, hsum, readFull_append rfl]
  rw [if_neg (by omega), if_neg (by simp)]

/-! ## Torn records -/

/-- What a crash can leave of a record: a part of the header, or the header and a part of the
payload it announces. -/
def Torn (bs : List UInt8) : Prop :=
  (0 < bs.length ∧ bs.length < 8) ∨
    (8 ≤ bs.length ∧ ofBe (bs.take 4) ≤ maxPayloadSize ∧ bs.length < 8 + ofBe (bs.take 4))

/-- The walk calls a record torn when it is. -/
theorem nextRecord_torn_iff (bs : List UInt8) :
    nextRecord sum bs = .stop (some .torn) ↔ Torn bs := by
  by_cases hlen : 8 ≤ bs.length
  · have hread : readFull 8 bs = .ok (bs.take 8, bs.drop 8) := by rw [readFull, if_pos hlen]
    have htake : (bs.take 8).take 4 = bs.take 4 := by rw [List.take_take]; rfl
    have htorn : Torn bs ↔
        ofBe (bs.take 4) ≤ maxPayloadSize ∧ bs.length < 8 + ofBe (bs.take 4) := by
      unfold Torn
      omega
    rw [htorn]
    simp only [nextRecord, hread, htake]
    split
    · simp; omega
    · by_cases hbody : bs.length < 8 + ofBe (bs.take 4)
      · rw [readFull_short (by simp; omega)]
        simp; omega
      · rw [readFull, if_pos (by simp; omega)]
        simp only [ne_eq, ite_not]
        split <;> simp <;> omega
  · rw [nextRecord, readFull_short (by omega)]
    unfold Torn
    cases bs with
    | nil => simp
    | cons b bs => simp at hlen ⊢; omega

/-- A proper part of a record is torn. -/
theorem torn_take {p : Payload} (h : p.length ≤ maxPayloadSize) {m : ℕ} (hpos : 0 < m)
    (hlt : m < (encodeRecord sum p).length) : Torn ((encodeRecord sum p).take m) := by
  rw [length_encodeRecord] at hlt
  have hlen : ((encodeRecord sum p).take m).length = m := by simp; omega
  by_cases hm : m < 8
  · exact .inl ⟨by omega, by omega⟩
  · have htake : ((encodeRecord sum p).take m).take 4 = be 4 p.length := by
      rw [List.take_take, min_eq_left (by omega), encodeRecord, List.append_assoc]
      exact List.take_left' (length_be _ _)
    have hsize : ofBe (be 4 p.length) = p.length :=
      ofBe_be (by simp only [maxPayloadSize] at h; omega)
    refine .inr ⟨by omega, ?_, ?_⟩
    · rwa [htake, hsize]
    · rw [htake, hsize]; omega

section Whole

variable {ps : List Payload} (h : ∀ p ∈ ps, p.length ≤ maxPayloadSize)

include h

/-- The walk over whole records and a torn one. -/
theorem scan_torn {rest : List UInt8} (hrest : Torn rest) :
    (walk sum).scan (encodeAll (encodeRecord sum) ps ++ rest) = (ps, some .torn) := by
  have hstop : (walk sum).next rest = .stop (some .torn) := (nextRecord_torn_iff sum rest).mpr hrest
  rw [Reader.scan_append fun p hp => reads_encodeRecord sum (h p hp), Reader.scan_of_stop hstop,
    List.append_nil]

/-- The walk over whole records. -/
theorem scan_encodeAll : (walk sum).scan (encodeAll (encodeRecord sum) ps) = (ps, none) := by
  have hscan := Reader.scan_append (fun p hp => reads_encodeRecord sum (h p hp)) []
  have hnil : (walk sum).scan [] = ([], none) := Reader.scan_of_stop rfl
  rwa [List.append_nil, hnil, List.append_nil] at hscan

/-- `Open` counts the records of a file of whole records. -/
theorem recoverTail_encodeAll :
    recoverTail sum 0 (encodeAll (encodeRecord sum) ps) = .ok ps.length := by
  rw [recoverTail_eq, scan_encodeAll sum h, Nat.zero_add]
  rfl

end Whole

/-- A file that ends in a torn record after at least one whole record. -/
def EndsTorn (bs : List UInt8) : Prop :=
  ∃ ps rest, ps ≠ [] ∧ (∀ p ∈ ps, p.length ≤ maxPayloadSize) ∧ Torn rest ∧
    bs = encodeAll (encodeRecord sum) ps ++ rest

/-- A file ends so when the walk says so. -/
theorem endsTorn_iff (bs : List UInt8) :
    EndsTorn sum bs ↔ ((walk sum).scan bs).1 ≠ [] ∧ ((walk sum).scan bs).2 = some .torn := by
  constructor
  · rintro ⟨ps, rest, hne, hsize, hrest, rfl⟩
    rw [scan_torn sum hsize hrest]
    exact ⟨hne, rfl⟩
  · rintro ⟨hne, hstop⟩
    obtain ⟨rest, hbs, hnext⟩ :=
      Reader.scan_split (R := walk sum) (fun bs p rest hn => (nextRecord_eq_item sum hn).1) bs
    rw [hstop, walk_next, nextRecord_torn_iff] at hnext
    exact ⟨_, rest, hne, mem_scan_size sum bs, hnext, hbs⟩

/-- Recovery counts what a replay of the file delivers: in particular `k` whole records followed
by a part of a further one are `k`. -/
structure RecoveryAgrees (bs : List UInt8) : Prop where
  counts : ∀ n, recoverTail sum 0 bs = .ok n ↔
    (replay sum bs).2 = none ∧ (replay sum bs).1.length = n
  torn : ∀ ps p m, (∀ q ∈ ps, q.length ≤ maxPayloadSize) → p.length ≤ maxPayloadSize →
    m < (encodeRecord sum p).length →
    bs = encodeAll (encodeRecord sum) ps ++ (encodeRecord sum p).take m →
    recoverTail sum 0 bs = .ok ps.length

/-- **When recovery counts what replay can read.**  On every file `recoverTail` finds the number of
records that `Replay (0)` delivers without an error, and fails when it fails, if and only if the
file does not end in a torn record after a whole one. -/
theorem recoverTail_agrees_iff (bs : List UInt8) :
    RecoveryAgrees sum bs ↔ ¬ EndsTorn sum bs := by
  have hlen : ∀ ps : List Payload, (numbered 0 ps).length = ps.length := by simp [numbered]
  rw [endsTorn_iff]
  constructor
  · rintro ⟨hcounts, -⟩ ⟨hne, hstop⟩
    have hzero : recoverTail sum 0 bs = .ok 0 := by rw [recoverTail_eq, hstop]; rfl
    have hlen0 := ((hcounts 0).mp hzero).2
    rw [replay_eq, hlen] at hlen0
    exact hne (List.length_eq_zero_iff.mp hlen0)
  · intro hnot
    have hcounts : ∀ n, recoverTail sum 0 bs = .ok n ↔
        (replay sum bs).2 = none ∧ (replay sum bs).1.length = n := by
      intro n
      rw [recoverTail_eq, replay_eq, hlen, Nat.zero_add]
      cases hstop : ((walk sum).scan bs).2 with
      | none => simp [Stop.recovered, Stop.replayed]
      | some stop =>
        cases stop with
        | torn =>
          have hnil : ((walk sum).scan bs).1 = [] := by
            by_contra hne
            exact hnot ⟨hne, hstop⟩
          simp [Stop.recovered, Stop.replayed, hnil]
        | tooLarge size => simp [Stop.recovered, Stop.replayed]
        | mismatch => simp [Stop.recovered, Stop.replayed]
    refine ⟨hcounts, ?_⟩
    rintro ps p m hps hp hm rfl
    rw [hcounts, replay_eq, hlen]
    rcases Nat.eq_zero_or_pos m with rfl | hpos
    · rw [List.take_zero, List.append_nil, scan_encodeAll sum hps]
      exact ⟨rfl, rfl⟩
    · rw [scan_torn sum hps (torn_take sum hp hpos hm)]
      exact ⟨rfl, rfl⟩

/-- One whole record and three bytes of a second: a replay delivers the record, and the shard
opens at 0. -/
theorem recoverTail_forgets_record :
    let bs := encodeRecord Wal.crc32c [1] ++ (encodeRecord Wal.crc32c [2]).take 3
    recoverTail Wal.crc32c 0 bs = .ok 0 ∧ replay Wal.crc32c bs = ([(0, [1])], none) := by
  have hsize : ∀ p ∈ ([[1]] : List Payload), p.length ≤ maxPayloadSize := by
    simp [maxPayloadSize]
  have hscan : (walk Wal.crc32c).scan
      (encodeRecord Wal.crc32c [1] ++ (encodeRecord Wal.crc32c [2]).take 3) =
        ([[1]], some .torn) :=
    scan_torn Wal.crc32c hsize
      (torn_take Wal.crc32c (p := [2]) (by simp [maxPayloadSize]) (by decide) (by simp))
  refine ⟨?_, ?_⟩
  · rw [recoverTail_eq, hscan]
    rfl
  · rw [replay_eq, hscan]
    rfl

/-! ## Appending after a crash -/

/-- A shard with its file, as a caller sees it that is alone and whose disk does not fail. -/
structure Handle where
  tail : ℕ
  file : List UInt8

namespace Handle

/-- `Open` on a file with these bytes: the tail is recovered, the rest is left as it is. -/
def openFile (bs : List UInt8) : Except RecoverError Handle :=
  (recoverTail sum 0 bs).map fun tail => ⟨tail, bs⟩

/-- `Append`: the offset of the record, which is written at the end of the file. -/
def append (h : Handle) (payload : Payload) : Except ShardError (ℕ × Handle) :=
  if maxPayloadSize < payload.length then .error (.payloadTooLarge payload.length)
  else .ok (h.tail, ⟨h.tail + 1, h.file ++ encodeRecord sum payload⟩)

/-- A list of calls of `Append`: the offsets returned; the first error if one is refused. -/
def appendAll (h : Handle) : List Payload → Except ShardError (List ℕ × Handle)
  | [] => .ok ([], h)
  | p :: ps => do
      let (off, h') ← h.append sum p
      let (offs, h'') ← h'.appendAll ps
      return (off :: offs, h'')

/-- **Accepted calls append the encodings and count from the tail.** -/
theorem appendAll_eq_ok {h h' : Handle} {ps : List Payload} {offs : List ℕ}
    (hok : h.appendAll sum ps = .ok (offs, h')) :
    h'.file = h.file ++ encodeAll (encodeRecord sum) ps ∧
      offs = List.range' h.tail ps.length ∧ ∀ p ∈ ps, p.length ≤ maxPayloadSize := by
  induction ps generalizing h offs with
  | nil =>
    cases hok
    simp
  | cons p ps ih =>
    rw [appendAll, append] at hok
    split at hok
    · cases hok
    · rename_i hsize
      cases hrest : Handle.appendAll sum ⟨h.tail + 1, h.file ++ encodeRecord sum p⟩ ps with
      | error e => simp [hrest, bind, Except.bind] at hok
      | ok r =>
        obtain ⟨offs', h''⟩ := r
        simp only [bind, Except.bind, hrest, pure, Except.pure, Except.ok.injEq,
          Prod.mk.injEq] at hok
        obtain ⟨rfl, rfl⟩ := hok
        obtain ⟨hfile, hoffs, hsizes⟩ := ih hrest
        refine ⟨?_, ?_, ?_⟩
        · rw [hfile, encodeAll_cons, List.append_assoc]
        · rw [hoffs]
          rfl
        · intro q hq
          rcases List.mem_cons.mp hq with rfl | hq
          · omega
          · exact hsizes q hq

/-- A shard that opens has recovered a tail and left its file alone. -/
theorem openFile_eq_ok {bs : List UInt8} {h : Handle} (hok : openFile sum bs = .ok h) :
    ∃ t, recoverTail sum 0 bs = .ok t ∧ h = ⟨t, bs⟩ := by
  cases hrec : recoverTail sum 0 bs with
  | error e => simp [openFile, hrec, Except.map] at hok
  | ok t =>
    simp only [openFile, hrec, Except.map, Except.ok.injEq] at hok
    exact ⟨t, rfl, hok.symm⟩

/-- A call within the limit is accepted. -/
theorem appendAll_singleton (h : Handle) {p : Payload} (hp : p.length ≤ maxPayloadSize) :
    h.appendAll sum [p] = .ok ([h.tail], ⟨h.tail + 1, h.file ++ encodeRecord sum p⟩) := by
  simp only [appendAll, append, if_neg (not_lt.mpr hp), bind, Except.bind, pure, Except.pure]

end Handle

/-- After a crash that left the first `n` bytes of the file of these records, the shard opens, and
whatever is appended then is delivered by a replay at the offset its call returned, after the
records left whole. -/
def Continues (ps : List Payload) (file : List UInt8) (n : ℕ) : Prop :=
  ∃ h, Handle.openFile sum (file.take n) = .ok h ∧
    ∀ qs offs h', h.appendAll sum qs = .ok (offs, h') →
      replay sum h'.file = (numbered 0 ((cut (encodeRecord sum) ps n).1 ++ qs), none) ∧
        ∀ (i off : ℕ) (q : Payload), offs[i]? = some off → qs[i]? = some q →
          (off, q) ∈ (replay sum h'.file).1

/-- The walk over a file that was cut and then appended to. -/
theorem scan_cut {ps : List Payload} (h : ∀ p ∈ ps, p.length ≤ maxPayloadSize) (n : ℕ)
    (rest : List UInt8) :
    (walk sum).scan ((encodeAll (encodeRecord sum) ps).take n ++ rest) =
      ((cut (encodeRecord sum) ps n).1 ++
          ((walk sum).scan (fragment (encodeRecord sum) (cut (encodeRecord sum) ps n).2 ++ rest)).1,
        ((walk sum).scan
          (fragment (encodeRecord sum) (cut (encodeRecord sum) ps n).2 ++ rest)).2) := by
  rw [take_encodeAll, List.append_assoc, Reader.scan_append fun p hp =>
    reads_encodeRecord sum (h p (mem_of_mem_cut _ _ _ p hp))]

/-- A record that a fragment cannot start: the length in front of it differs. -/
theorem exists_unreadable {p : Payload} (hp : p.length ≤ maxPayloadSize) {m : ℕ} (hpos : 0 < m) :
    ∃ q : Payload, q.length ≤ maxPayloadSize ∧
      ∀ rest, (encodeRecord sum p).take m ++ encodeRecord sum q ≠ encodeRecord sum q ++ rest := by
  have hstart : ∀ q : Payload, q.length < 256 → ∃ tl,
      encodeRecord sum q = 0 :: 0 :: 0 :: UInt8.ofNat q.length :: tl := by
    intro q hq
    refine ⟨be 4 (sum q).toNat ++ q, ?_⟩
    have h1 : q.length / 256 = 0 := by omega
    simp [encodeRecord, be, h1]
  by_cases hm : m < 4
  · -- The fragment pushes the length of the new record out of the first four bytes.
    refine ⟨[0], by simp [maxPayloadSize], ?_⟩
    intro rest heq
    obtain ⟨tl, htl⟩ := hstart [0] (by simp)
    have hfrag : ((encodeRecord sum p).take m).length = m := by simp; omega
    have hbyte : ((encodeRecord sum p).take m ++ encodeRecord sum [0])[3]? = some 0 := by
      rw [List.getElem?_append_right (by omega), hfrag, htl]
      rcases (by omega : m = 1 ∨ m = 2 ∨ m = 3) with rfl | rfl | rfl <;> rfl
    rw [heq, htl] at hbyte
    simp at hbyte
  · -- The fragment holds the length of the torn record.
    obtain ⟨q, hq, hne⟩ : ∃ q : Payload, q.length ≤ 1 ∧ q.length ≠ p.length := by
      by_cases hp1 : p.length = 1
      · exact ⟨[], by simp, by simp [hp1]⟩
      · exact ⟨[0], by simp, by simpa using Ne.symm hp1⟩
    refine ⟨q, by simp only [maxPayloadSize]; omega, ?_⟩
    intro rest heq
    have hleft : ((encodeRecord sum p).take m ++ encodeRecord sum q).take 4 = be 4 p.length := by
      rw [List.take_append_of_le_length (by simp; omega), List.take_take, min_eq_left (by omega),
        encodeRecord, List.append_assoc]
      exact List.take_left' (length_be _ _)
    have hright : (encodeRecord sum q ++ rest).take 4 = be 4 q.length := by
      rw [List.take_append_of_le_length (by simp; omega), encodeRecord, List.append_assoc]
      exact List.take_left' (length_be _ _)
    have hbe : be 4 p.length = be 4 q.length := by rw [← hleft, heq, hright]
    have hp' : ofBe (be 4 p.length) = p.length :=
      ofBe_be (by simp only [maxPayloadSize] at hp; omega)
    have hq' : ofBe (be 4 q.length) = q.length := ofBe_be (by omega)
    rw [hbe, hq'] at hp'
    exact hne hp'

/-- **Which crashes a shard survives.**  For every list of payloads appended and every length at
which a crash cuts the file, the shard goes on as if it had held just the records left whole if and
only if the cut falls between two records. -/
theorem reopen_after_crash_iff (ps : List Payload) (offs : List ℕ) (h : Handle)
    (happ : Handle.appendAll sum ⟨0, []⟩ ps = .ok (offs, h)) (n : ℕ) (hn : n ≤ h.file.length) :
    Continues sum ps h.file n ↔ Boundary (encodeRecord sum) ps n := by
  obtain ⟨hfile, -, hsize⟩ := Handle.appendAll_eq_ok sum happ
  rw [List.nil_append] at hfile
  rw [hfile] at hn ⊢
  rw [← cut_eq_none_iff (fun p _ => by rw [← List.length_pos_iff, length_encodeRecord]; omega) hn]
  have hscan := scan_cut sum hsize n
  constructor
  · rintro ⟨h₂, hopen, hall⟩
    by_contra htorn
    obtain ⟨⟨p, m⟩, hcut⟩ := Option.ne_none_iff_exists'.mp htorn
    obtain ⟨hmem, hpos, -⟩ := cut_torn hcut
    obtain ⟨q, hq, hun⟩ := exists_unreadable sum (hsize p hmem) hpos
    obtain ⟨t, -, rfl⟩ := Handle.openFile_eq_ok sum hopen
    obtain ⟨hreplay, -⟩ := hall [q] [t] _ (Handle.appendAll_singleton sum _ hq)
    have hdelivered := congrArg (fun r => r.1.map Prod.snd) hreplay
    simp only [replay_eq, hscan, hcut, fragment, map_snd_numbered,
      List.append_cancel_left_eq] at hdelivered
    obtain ⟨rest, hnext⟩ := Reader.next_of_scan_cons (Prod.ext hdelivered rfl)
    exact hun rest (nextRecord_eq_item sum hnext).1
  · intro hcut
    have hwhole : ∀ p ∈ (cut (encodeRecord sum) ps n).1, p.length ≤ maxPayloadSize :=
      fun p hp => hsize p (mem_of_mem_cut _ _ _ p hp)
    have htail : recoverTail sum 0 ((encodeAll (encodeRecord sum) ps).take n) =
        .ok (cut (encodeRecord sum) ps n).1.length := by
      rw [take_encodeAll, hcut, fragment, List.append_nil, recoverTail_encodeAll sum hwhole]
    refine ⟨_, by rw [Handle.openFile, htail]; rfl, ?_⟩
    intro qs offs₂ h₃ hqs
    obtain ⟨hfile₃, hoffs, hsize₃⟩ := Handle.appendAll_eq_ok sum hqs
    have hreplay : replay sum h₃.file =
        (numbered 0 ((cut (encodeRecord sum) ps n).1 ++ qs), none) := by
      rw [replay_eq, hfile₃, hscan, hcut, fragment, List.nil_append, scan_encodeAll sum hsize₃]
      rfl
    refine ⟨hreplay, ?_⟩
    intro i off q hoff hq
    have hi : i < qs.length := (List.getElem?_eq_some_iff.mp hq).1
    rw [hoffs, List.getElem?_range' hi, Nat.one_mul] at hoff
    cases hoff
    rw [hreplay]
    refine List.mem_of_getElem? (i := (cut (encodeRecord sum) ps n).1.length + i) ?_
    rw [getElem?_numbered, List.getElem?_append_right (by omega), Nat.add_sub_cancel_left, hq,
      Nat.zero_add]
    rfl

/-- A crash three bytes into the second record, and one record appended after the restart: its
offset is 0, where a replay delivers the first record, and the new one is taken for the rest of the
torn one. -/
theorem reopen_after_crash_lost :
    ∃ h h₂ h₃, Handle.appendAll Wal.crc32c ⟨0, []⟩ [[1], [2]] = .ok ([0, 1], h) ∧
      Handle.openFile Wal.crc32c (h.file.take 12) = .ok h₂ ∧
      (cut (encodeRecord Wal.crc32c) [[1], [2]] 12).1 = [[1]] ∧
      h₂.appendAll Wal.crc32c [[3]] = .ok ([0], h₃) ∧
      replay Wal.crc32c h₃.file = ([(0, [1])], some (.crcMismatch 1)) := by
  have htail : recoverTail Wal.crc32c 0
      ((encodeRecord Wal.crc32c [1] ++ encodeRecord Wal.crc32c [2]).take 12) = .ok 0 := by
    decide +kernel
  refine ⟨⟨2, encodeRecord Wal.crc32c [1] ++ encodeRecord Wal.crc32c [2]⟩,
    ⟨0, (encodeRecord Wal.crc32c [1] ++ encodeRecord Wal.crc32c [2]).take 12⟩, _,
    rfl, ?_, by decide +kernel, rfl, by decide +kernel⟩
  rw [Handle.openFile, htail]
  rfl

/-- A crash between two records. -/
theorem reopen_after_clean_crash :
    ∃ h, Handle.appendAll Wal.crc32c ⟨0, []⟩ [[1], [2]] = .ok ([0, 1], h) ∧
      Continues Wal.crc32c [[1], [2]] h.file 9 := by
  refine ⟨_, rfl, ?_⟩
  exact (reopen_after_crash_iff Wal.crc32c [[1], [2]] [0, 1] _ rfl 9 (by simp)).mpr
    ⟨1, by simp, by simp⟩

end AgentBus.Cluster
