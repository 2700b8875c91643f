import AgentBus.Cluster.ShardCommit

/-!
# Subscribing to a shard

`Subscribe` in `internal/cluster/shardwal/shardwal.go`: a goroutine scans the file from its start
and sends what it finds from an offset on, and then waits for more to be synced and scans the file
again, up to what was synced.  Meanwhile others append, and the file may end in the middle of a
record.  Here the file is bytes, `Replay` reads them by `io.ReadFull`, and the channel holds 128
records; a read is one step, since what has been in the file once stays there.

Any number of subscriptions run beside any number of calls of `Append`.  What is received on a
channel is the log from the start offset on, without a gap and without a record twice
(`received_in_order`).

The shard is never closed here.  Of a write that fails, a whole number of records reaches the
file, as in `AgentBus.Cluster.Shard`.

## Main definitions

* `LogFile` — a shard and its file.
* `Scan`, `Subscriber`, `Subscriber.step` — the goroutine of `Subscribe`.
* `subscriptions`, `noErrors` — the program, and the runs in which the disk does not fail.
* `Subscriber.Sound` — what is known of a subscription.
-/

namespace AgentBus.Cluster

open Bytes Framing Pool

/-- A shard, and how many bytes of its records are in the file. -/
structure LogFile where
  shard : Shard
  size : ℕ
  deriving DecidableEq, Repr

/-- Where a `Replay` is: it delivers from `fromOffset` on, and its callback stops it at `limit`;
the record at `offset` starts at byte `pos`. -/
structure Scan where
  limit : Option ℕ
  fromOffset : ℕ
  offset : ℕ
  pos : ℕ
  deriving DecidableEq, Repr

/-- `Replay` before its first read. -/
def Scan.start (limit : Option ℕ) (fromOffset : ℕ) : Scan := ⟨limit, fromOffset, 0, 0⟩

/-- The scan goes on after this record. -/
def Scan.advance (scan : Scan) (payload : Payload) : Scan :=
  { scan with offset := scan.offset + 1, pos := scan.pos + 8 + payload.length }

/-- Where the goroutine of `Subscribe` is. -/
inductive Phase where
  /-- A scan is to read the header of a record. -/
  | header (scan : Scan)
  /-- It has, and is to read the payload. -/
  | body (scan : Scan) (hdr : List UInt8)
  /-- The callback is to send a record. -/
  | sending (scan : Scan) (payload : Payload)
  /-- In the loop for what is synced. -/
  | live
  | closed
  deriving DecidableEq, Repr

/-- A subscription. -/
structure Subscriber where
  /-- The `fromOffset` of `Subscribe`. -/
  start : ℕ
  next : ℕ
  phase : Phase
  /-- The context has been cancelled. -/
  cancelled : Bool
  /-- What is in the channel. -/
  queue : List (ℕ × Payload)
  /-- What has been received on it. -/
  received : List (ℕ × Payload)
  /-- The offset of each record sent, with `synced` at that time. -/
  sent : List (ℕ × ℕ)
  deriving DecidableEq, Repr

/-- `Subscribe`. -/
def Subscriber.new (fromOffset : ℕ) : Subscriber where
  start := fromOffset
  next := fromOffset
  phase := .header (.start none fromOffset)
  cancelled := false
  queue := []
  received := []
  sent := []

/-- The capacity of the channel. -/
def channelSize : ℕ := 128

/-- `Replay` has returned nil, or `io.EOF` from the callback.  The first scan is the backfill. -/
def Subscriber.ended (t : Subscriber) (scan : Scan) : Subscriber :=
  match scan.limit with
  | none => { t with phase := if t.cancelled then .closed else .live }
  | some _ => { t with phase := .live }

/-- A record has been read. -/
def Subscriber.deliver (t : Subscriber) (scan : Scan) (payload : Payload) : Subscriber :=
  if scan.fromOffset ≤ scan.offset then
    match scan.limit with
    | none => { t with phase := .sending scan payload }
    | some currentTail =>
      if currentTail ≤ scan.offset then t.ended scan
      else { t with phase := .sending scan payload }
  else { t with phase := .header (scan.advance payload) }

/-- How a step goes on. -/
inductive Input where
  /-- A step of `Append`, with calls to the system. -/
  | disk (d : Disk)
  | go
  /-- The callback finds the context cancelled. -/
  | quit
  /-- The context is cancelled. -/
  | cancel
  /-- A record is received on the channel. -/
  | receive
  deriving DecidableEq, Repr

variable (sum : List UInt8 → UInt32)

/-- The file. -/
def LogFile.contents (s : LogFile) : List UInt8 :=
  (encodeAll (encodeRecord sum) s.shard.records).take s.size

/-- The bytes of the records that have been flushed. -/
def flushedBytes (s : Shard) : ℕ := (encodeAll (encodeRecord sum) s.file).length

/-- `Open` on a file of these records. -/
def LogFile.opened (records : List Payload) : LogFile :=
  ⟨Shard.opened records, (encodeAll (encodeRecord sum) records).length⟩

/-- One step of a subscription. -/
def Subscriber.step (s : LogFile) (t : Subscriber) : Input → Option Subscriber
  | .go =>
    match t.phase with
    | .header scan =>
      match readFull 8 ((s.contents sum).drop scan.pos) with
      | .error _ => some (t.ended scan)
      | .ok (hdr, _) =>
        if maxPayloadSize < ofBe (hdr.take 4) then some { t with phase := .closed }
        else some { t with phase := .body scan hdr }
    | .body scan hdr =>
      match readFull (ofBe (hdr.take 4)) ((s.contents sum).drop (scan.pos + 8)) with
      | .error _ => some (t.ended scan)
      | .ok (payload, _) =>
        if (sum payload).toNat ≠ ofBe (hdr.drop 4) then some { t with phase := .closed }
        else some (t.deliver scan payload)
    | .sending scan payload =>
      if t.queue.length < channelSize then
        some { t with
          phase := .header (scan.advance payload)
          next := scan.offset + 1
          queue := t.queue ++ [(scan.offset, payload)]
          sent := t.sent ++ [(scan.offset, s.shard.synced)] }
      else none
    | .live =>
      if t.next < s.shard.synced then
        some { t with phase := .header (.start (some s.shard.synced) t.next) }
      else if t.cancelled then some { t with phase := .closed }
      else none
    | .closed => none
  | .quit =>
    match t.phase with
    | .sending scan _ => if t.cancelled then some (t.ended scan) else none
    | _ => none
  | .cancel => some { t with cancelled := true }
  | .receive =>
    match t.queue with
    | [] => none
    | r :: queue => some { t with queue := queue, received := t.received ++ [r] }
  | .disk _ => none

/-- A call of `Append`, or a subscription. -/
inductive Task where
  | append (a : Appending)
  | subscribe (t : Subscriber)
  deriving DecidableEq, Repr

/-- What starts a task. -/
inductive Start where
  | append (payload : Payload)
  | subscribe (fromOffset : ℕ)

/-- One step of a task; what a step of `Append` flushes is in the file. -/
def Task.step (s : LogFile) : Task → Input → Option (LogFile × Task)
  | .append a, .disk d =>
    (a.step s.shard d).map fun r => (⟨r.1, max s.size (flushedBytes sum r.1)⟩, .append r.2)
  | .append _, _ => none
  | .subscribe t, input => (t.step sum s input).map fun t' => (s, .subscribe t')

/-- The program.  The environment lets bytes through to the file, as a full buffer does. -/
def subscriptions : Program LogFile Task Start Input ℕ where
  entry
    | .append payload => .append (.writing payload)
    | .subscribe fromOffset => .subscribe (.new fromOffset)
  thread := Task.step sum
  env s n := some { s with
    size := min (s.size + n) (encodeAll (encodeRecord sum) s.shard.records).length }

/-- No write, flush or sync fails. -/
def noErrors : Guard LogFile Task Input ℕ where
  thread _ _ input :=
    match input with
    | .disk d => d.write.isOk = true ∧ d.flush.isOk = true ∧ d.fsync.isOk = true
    | _ => True
  env _ _ := True

instance (s : LogFile) (t : Task) (input : Input) : Decidable (noErrors.thread s t input) := by
  unfold noErrors
  dsimp only
  split <;> infer_instance

instance (s : LogFile) (n : ℕ) : Decidable (noErrors.env s n) := inferInstanceAs (Decidable True)

/-! ## Reading the file -/

/-- The bytes from the record at `off` on. -/
theorem drop_encodeAll (records : List Payload) (off : ℕ) :
    (encodeAll (encodeRecord sum) records).drop
        (encodeAll (encodeRecord sum) (records.take off)).length =
      encodeAll (encodeRecord sum) (records.drop off) := by
  have hsplit : encodeAll (encodeRecord sum) records =
      encodeAll (encodeRecord sum) (records.take off) ++
        encodeAll (encodeRecord sum) (records.drop off) := by
    rw [← encodeAll_append, List.take_append_drop]
  rw [hsplit]
  exact List.drop_left' rfl

/-- A scan stands at the start of a record. -/
structure Scan.At (records : List Payload) (scan : Scan) : Prop where
  offset : scan.offset ≤ records.length
  pos : scan.pos = (encodeAll (encodeRecord sum) (records.take scan.offset)).length

variable {sum}

variable {s : LogFile} {scan : Scan} {records tl : List Payload} {t : Subscriber}

theorem Scan.At.drop_contents (h : scan.At sum s.shard.records) :
    (s.contents sum).drop scan.pos =
      (encodeAll (encodeRecord sum) (s.shard.records.drop scan.offset)).take
        (s.size - scan.pos) := by
  rw [LogFile.contents, List.drop_take]
  congr 1
  rw [h.pos, drop_encodeAll]

/-- A header that is read is the header of the record. -/
theorem Scan.At.header (h : scan.At sum s.shard.records) {hdr rest : List UInt8}
    (hread : readFull 8 ((s.contents sum).drop scan.pos) = .ok (hdr, rest)) :
    ∃ p, s.shard.records[scan.offset]? = some p ∧ hdr = (encodeRecord sum p).take 8 := by
  obtain ⟨hbytes, hlen⟩ := readFull_eq_ok hread
  rw [h.drop_contents] at hbytes
  cases hrest : s.shard.records.drop scan.offset with
  | nil =>
    rw [hrest] at hbytes
    have hroom := congrArg List.length hbytes
    simp only [encodeAll_nil, List.take_nil, List.length_nil, List.length_append] at hroom
    omega
  | cons p ps =>
    refine ⟨p, by rw [← List.head?_drop, hrest]; rfl, ?_⟩
    rw [hrest, encodeAll_cons] at hbytes
    have hroom := congrArg List.length hbytes
    rw [List.length_take, List.length_append, List.length_append, hlen] at hroom
    have htake := congrArg (List.take 8) hbytes
    rw [List.take_take, min_eq_left (by omega),
      List.take_append_of_le_length (by rw [length_encodeRecord]; omega),
      List.take_left' hlen] at htake
    exact htake.symm

/-- A payload that is read after its header is the record. -/
theorem Scan.At.body (h : scan.At sum s.shard.records) {p payload rest : List UInt8}
    (hp : s.shard.records[scan.offset]? = some p)
    (hread : readFull p.length ((s.contents sum).drop (scan.pos + 8)) = .ok (payload, rest)) :
    payload = p := by
  obtain ⟨hbytes, hlen⟩ := readFull_eq_ok hread
  have hrest : s.shard.records.drop scan.offset = p :: s.shard.records.drop (scan.offset + 1) := by
    obtain ⟨hlt, rfl⟩ := List.getElem?_eq_some_iff.mp hp
    exact List.drop_eq_getElem_cons hlt
  have hpayload : (encodeRecord sum p).drop 8 = p := by
    rw [encodeRecord]
    exact List.drop_left' (by simp)
  rw [← List.drop_drop, h.drop_contents, hrest, encodeAll_cons, List.drop_take,
    List.drop_append_of_le_length (by rw [length_encodeRecord]; omega), hpayload] at hbytes
  have hroom := congrArg List.length hbytes
  rw [List.length_take, List.length_append, List.length_append, hlen] at hroom
  have htake := congrArg (List.take p.length) hbytes
  rwa [List.take_take, min_eq_left (by omega), List.take_left' rfl, List.take_left' hlen,
    eq_comm] at htake

theorem Scan.At.advance (h : scan.At sum records) {p : Payload}
    (hp : records[scan.offset]? = some p) : (scan.advance p).At sum records := by
  obtain ⟨hlt, rfl⟩ := List.getElem?_eq_some_iff.mp hp
  refine ⟨hlt, ?_⟩
  rw [Scan.advance, List.take_add_one, hp, encodeAll_append, List.length_append, ← h.pos,
    Option.toList_some, encodeAll_cons, encodeAll_nil, List.append_nil, length_encodeRecord]
  simp only
  omega

theorem Scan.At.grow (h : scan.At sum records) : scan.At sum (records ++ tl) := by
  refine ⟨h.offset.trans (by simp), ?_⟩
  rw [List.take_append_of_le_length h.offset]
  exact h.pos

/-! ## What is known of a subscription -/

variable (sum)

/-- Where the goroutine is in the log, when it is to send the record at `next`. -/
def Phase.At (records : List Payload) (next : ℕ) : Phase → Prop
  | .header scan => scan.At sum records ∧ next = max scan.offset scan.fromOffset
  | .body scan hdr => (scan.At sum records ∧ next = max scan.offset scan.fromOffset) ∧
      ∃ p, records[scan.offset]? = some p ∧ hdr = (encodeRecord sum p).take 8
  | .sending scan payload => (scan.At sum records ∧ next = max scan.offset scan.fromOffset) ∧
      scan.fromOffset ≤ scan.offset ∧ records[scan.offset]? = some payload
  | .live => True
  | .closed => True

/-- What is known of a subscription: what it has sent is the log from its start on. -/
structure Subscriber.Sound (records : List Payload) (t : Subscriber) : Prop where
  out : ∀ i r, (t.received ++ t.queue)[i]? = some r →
    r.1 = t.start + i ∧ records[t.start + i]? = some r.2
  next : t.next = t.start + (t.received ++ t.queue).length
  phase : t.phase.At sum records t.next

variable {sum}

theorem Phase.At.grow {next : ℕ} {phase : Phase} (h : phase.At sum records next) :
    phase.At sum (records ++ tl) next := by
  cases phase with
  | header scan => exact ⟨h.1.grow, h.2⟩
  | body scan hdr =>
    obtain ⟨⟨hat, hnext⟩, p, hp, hhdr⟩ := h
    exact ⟨⟨hat.grow, hnext⟩, p, getElem?_grow hp, hhdr⟩
  | sending scan payload => exact ⟨⟨h.1.1.grow, h.1.2⟩, h.2.1, getElem?_grow h.2.2⟩
  | live => trivial
  | closed => trivial

theorem Subscriber.Sound.grow (h : t.Sound sum records) : t.Sound sum (records ++ tl) := by
  refine ⟨?_, h.next, h.phase.grow⟩
  intro i r hr
  obtain ⟨hoff, hget⟩ := h.out i r hr
  exact ⟨hoff, getElem?_grow hget⟩

/-- A step that moves the goroutine on, and sends nothing. -/
theorem Subscriber.Sound.move (h : t.Sound sum records) {phase : Phase}
    (hphase : phase.At sum records t.next) :
    Subscriber.Sound sum records { t with phase := phase } :=
  ⟨h.out, h.next, hphase⟩

theorem Subscriber.Sound.ended (h : t.Sound sum records) (scan : Scan) :
    (t.ended scan).Sound sum records := by
  unfold Subscriber.ended
  split
  · refine h.move ?_
    split <;> trivial
  · exact h.move trivial

theorem Subscriber.Sound.deliver (h : t.Sound sum records) {payload : Payload}
    (hat : scan.At sum records) (hnext : t.next = max scan.offset scan.fromOffset)
    (hget : records[scan.offset]? = some payload) : (t.deliver scan payload).Sound sum records := by
  unfold Subscriber.deliver
  split
  · rename_i hfrom
    split
    · exact h.move ⟨⟨hat, hnext⟩, hfrom, hget⟩
    · split
      · exact h.ended scan
      · exact h.move ⟨⟨hat, hnext⟩, hfrom, hget⟩
  · -- The record is before the start; the offset to send next stays.
    rename_i hfrom
    refine h.move ⟨hat.advance hget, ?_⟩
    simp only [Scan.advance]
    omega

/-- The header of a record gives the length of its payload. -/
theorem ofBe_header {p : Payload} (hp : p.length ≤ maxPayloadSize) :
    ofBe (((encodeRecord sum p).take 8).take 4) = p.length := by
  rw [List.take_take, min_eq_left (by omega), encodeRecord, List.append_assoc,
    List.take_left' (length_be 4 p.length)]
  exact ofBe_be (by simp only [maxPayloadSize] at hp; omega)

/-- **One step of a subscription** keeps what is known of it. -/
theorem Subscriber.Sound.step {t' : Subscriber} {input : Input}
    (hsize : ∀ p ∈ s.shard.records, p.length ≤ maxPayloadSize) (h : t.Sound sum s.shard.records)
    (hstep : t.step sum s input = some t') : t'.Sound sum s.shard.records := by
  have hphase := h.phase
  unfold Subscriber.step at hstep
  split at hstep
  · split at hstep
    · -- The header is read.
      rename_i scan hscan
      rw [hscan] at hphase
      split at hstep
      · cases hstep
        exact h.ended scan
      · rename_i hdr rest hread
        split at hstep
        · cases hstep
          exact h.move trivial
        · cases hstep
          exact h.move ⟨hphase, hphase.1.header hread⟩
    · -- The payload is read.
      rename_i scan hdr hscan
      rw [hscan] at hphase
      obtain ⟨⟨hat, hnext⟩, p, hp, rfl⟩ := hphase
      rw [ofBe_header (hsize p (List.mem_of_getElem? hp))] at hstep
      split at hstep
      · cases hstep
        exact h.ended scan
      · rename_i payload rest hread
        split at hstep
        · cases hstep
          exact h.move trivial
        · cases hstep
          rw [hat.body hp hread]
          exact h.deliver hat hnext hp
    · -- The record is sent.
      rename_i scan payload hscan
      rw [hscan] at hphase
      obtain ⟨⟨hat, hnext⟩, hfrom, hget⟩ := hphase
      rw [max_eq_left hfrom] at hnext
      split at hstep
      · cases hstep
        have hplace : t.start + (t.received ++ t.queue).length = scan.offset := by
          rw [← h.next, hnext]
        refine ⟨?_, ?_, hat.advance hget, ?_⟩
        · intro i r hr
          rw [← List.append_assoc] at hr
          rcases getElem?_append_singleton_cases hr with ⟨rfl, rfl⟩ | hr
          · rw [hplace]
            exact ⟨rfl, hget⟩
          · exact h.out i r hr
        · rw [← List.append_assoc, List.length_append, List.length_singleton, ← Nat.add_assoc,
            hplace]
        · simp only [Scan.advance]
          omega
      · cases hstep
    · split at hstep
      · cases hstep
        refine h.move ⟨⟨Nat.zero_le _, rfl⟩, ?_⟩
        simp [Scan.start]
      · split at hstep
        · cases hstep
          exact h.move trivial
        · cases hstep
    · cases hstep
  · split at hstep
    · split at hstep
      · cases hstep
        exact h.ended _
      · cases hstep
    · cases hstep
  · cases hstep
    exact ⟨h.out, h.next, h.phase⟩
  · split at hstep
    · cases hstep
    · rename_i r queue hqueue
      cases hstep
      refine ⟨?_, ?_, h.phase⟩
      · intro i r' hr
        exact h.out i r' (by rw [hqueue]; simpa using hr)
      · have hnext := h.next
        rw [hqueue] at hnext
        simpa using hnext
  · cases hstep

/-- What is known of a task. -/
def Task.Sound (sum : List UInt8 → UInt32) (s : LogFile) : Task → Prop
  | .append _ => True
  | .subscribe t => t.Sound sum s.shard.records

theorem Subscriber.sound_new (records : List Payload) (fromOffset : ℕ) :
    (Subscriber.new fromOffset).Sound sum records where
  out _ _ h := by simp [Subscriber.new] at h
  next := rfl
  phase := ⟨⟨Nat.zero_le _, rfl⟩, (max_eq_right (Nat.zero_le _)).symm⟩

/-- **The invariant of the pool.** -/
theorem subscriptions_sound {G : Guard LogFile Task Input ℕ}
    (hrecords : ∀ p ∈ records, p.length ≤ maxPayloadSize) {w : World LogFile Task}
    (h : (subscriptions sum).Reach G (LogFile.opened sum records) w) :
    Holds (fun s => ∀ p ∈ s.shard.records, p.length ≤ maxPayloadSize)
      (fun s t => t.Sound sum s) (fun _ _ => True) w := by
  refine Program.Reach.local_invariant (fun _ _ _ => trivial) hrecords ?_ ?_ ?_ h
  · intro s r _
    refine ⟨?_, fun _ _ => trivial⟩
    cases r with
    | append payload => trivial
    | subscribe fromOffset => exact Subscriber.sound_new s.shard.records fromOffset
  · intro s t input s' t' hs ht _ hstep
    cases t with
    | append a =>
      cases input with
      | disk d =>
        obtain ⟨⟨sh, a'⟩, ha, heq⟩ := Option.map_eq_some_iff.mp hstep
        cases heq
        have hwrote := (Appending.step_records ha).1
        obtain ⟨tl, htl⟩ := hwrote.grows
        refine ⟨⟨hwrote.sizes hs, trivial⟩, fun u hu _ => ⟨?_, trivial⟩⟩
        cases u with
        | append _ => trivial
        | subscribe t =>
          simp only [Task.Sound, ← htl]
          exact hu.grow
      | _ => cases hstep
    | subscribe t =>
      obtain ⟨t₁, ht₁, heq⟩ := Option.map_eq_some_iff.mp hstep
      cases heq
      exact ⟨⟨hs, ht.step hs ht₁⟩, fun u hu _ => ⟨hu, trivial⟩⟩
  · intro s n s' hs _ henv
    cases henv
    refine ⟨hs, fun u hu => ?_⟩
    cases u with
    | append _ => trivial
    | subscribe t => exact hu

/-- **A subscription delivers the log in order, each record once.**  On a shard opened on a file of
whole valid records, beside any calls of `Append` on a disk that does not fail, what has been
received from a start offset on is at all times the records from that offset on. -/
theorem received_in_order (sum : List UInt8 → UInt32) (records : List Payload)
    (hrecords : ∀ p ∈ records, p.length ≤ maxPayloadSize) (w : World LogFile Task)
    (h : (subscriptions sum).Reach noErrors (LogFile.opened sum records) w) (t : Subscriber)
    (ht : .subscribe t ∈ w.threads) :
    t.received =
      numbered t.start ((w.shared.shard.records.drop t.start).take t.received.length) := by
  have hsound : t.Sound sum w.shared.shard.records := (subscriptions_sound hrecords h).of_mem ht
  refine List.ext_getElem? fun j => ?_
  rw [getElem?_numbered, List.getElem?_take, List.getElem?_drop]
  by_cases hj : j < t.received.length
  · rw [if_pos hj]
    have hget : t.received[j]? = some (t.received[j]) := List.getElem?_eq_getElem hj
    obtain ⟨hoff, hrec⟩ := hsound.out j (t.received[j])
      (by rw [List.getElem?_append_left hj, hget])
    rw [hget, hrec, Option.map_some, ← hoff]
  · rw [if_neg hj, List.getElem?_eq_none (not_lt.mp hj), Option.map_none]

/-- The goroutine of task `i` takes `n` steps. -/
def goes (i n : ℕ) : List (Act Start Input ℕ) := List.replicate n (.run i .go)

/-- Two calls of `Append` on a shard of one record.  The subscription has sent what the first has
flushed and met five bytes of the second's record; then both are synced, and it sends the rest. -/
def besideAppends : List (Act Start Input ℕ) :=
  List.flatten [[.spawn (.subscribe 0), .spawn (.append [2]), .spawn (.append [3]),
      .run 1 (.disk .healthy), .run 2 (.disk .healthy), .env 5],
    goes 0 7, [.run 1 (.disk .healthy), .run 1 (.disk .healthy)],
    List.replicate 3 (.run 2 (.disk .healthy)), goes 0 9, List.replicate 3 (.run 0 .receive)]

theorem received_in_order_besideAppends :
    ∃ w t, (subscriptions Wal.crc32c).Reach noErrors (LogFile.opened Wal.crc32c [[1]]) w ∧
      .subscribe t ∈ w.threads ∧ t.received = [(0, [1]), (1, [2]), (2, [3])] ∧
      t.received =
        numbered t.start ((w.shared.shard.records.drop t.start).take t.received.length) := by
  have hrun : ((subscriptions Wal.crc32c).execWithin noErrors ⟨LogFile.opened Wal.crc32c [[1]], []⟩
      besideAppends).bind (fun w => w.threads.head?.map fun t =>
        match t with
        | .append _ => []
        | .subscribe t => t.received) = some [(0, [1]), (1, [2]), (2, [3])] := by
    decide +kernel
  obtain ⟨w, hw, hhead⟩ := Option.bind_eq_some_iff.mp hrun
  obtain ⟨u, hu, heq⟩ := Option.map_eq_some_iff.mp hhead
  have hreach := Program.Reach.init.execWithin _ hw
  cases u with
  | append a => cases heq
  | subscribe t =>
    have ht := List.mem_of_head? hu
    exact ⟨w, t, hreach, ht, heq,
      received_in_order Wal.crc32c [[1]] (by simp [maxPayloadSize]) w hreach t ht⟩

end AgentBus.Cluster
