import AgentBus.AgentStream.Codec
import AgentBus.Broker.Broker
import AgentBus.Wal.Record

/-!
# Publishing an envelope, and restoring the broker

A single node publishes an envelope in three steps: it writes the envelope's text, appends
it to the write-ahead log with the partition its key is routed to, and then publishes it in
memory (`Server.PublishEnvelope` and `appendDurable` in `internal/grpcapi/server.go`).  When
the process starts it replays the file into a fresh broker (`cmd/broker/main.go`).

The file takes every record that passes the checks; a failing disk is not modelled.

## Main definitions

* `Server.appendDurable`, `Server.publishEnvelope` — publishing.
* `restore` — the replay at the start of the process.
* `Server.appendDurable_spec`, `restore_showsAll` — the two against the topic's view.
-/

namespace AgentBus.Grpcapi

open AgentStream Broker Framing

/-! ## Publishing -/

/-- `Server` on a single node: the write-ahead log file and the broker. -/
structure Server where
  wal : List UInt8
  broker : Broker (List UInt8)

/-- The errors of publishing. -/
inductive PublishError where
  /-- The envelope is invalid, with the check that fails. -/
  | invalidEnvelope (msg : String)
  /-- The append to the write-ahead log failed. -/
  | walAppend (err : Wal.Error)
  /-- The broker has no such partition. -/
  | publish
  deriving DecidableEq, Repr

/-- `Time.UnixNano`. -/
def unixNano (t : Time) : Int64 := .ofInt (t - 62135596800 * Time.second)

/-- `appendDurable`: the offset and the partition, with the clock at `now`. -/
def Server.appendDurable (sum : List UInt8 → UInt32) (now : Time) (s : Server)
    (topic key : String) (encoded : List UInt8) : Server × Except PublishError (ℤ × ℕ) :=
  let r := s.broker.routeKey topic key
  match Wal.appendRecord sum (unixNano now)
      { timestamp := unixNano now, topic := stringBytes topic, key := stringBytes key
        partition := Int32.ofNat r.2, payload := encoded } with
  | .error err => ({ s with broker := r.1 }, .error (.walAppend err))
  | .ok bs =>
    let q := r.1.publishToPartition topic r.2 encoded
    match q.2 with
    | none => (⟨s.wal ++ bs, q.1⟩, .error .publish)
    | some offset => (⟨s.wal ++ bs, q.1⟩, .ok (offset, r.2))

/-- `PublishEnvelope`. -/
def Server.publishEnvelope (sum : List UInt8 → UInt32) (now : Time) (s : Server)
    (topic : String) (e : Event) : Server × Except PublishError (ℤ × ℕ) :=
  match e.marshal now with
  | .error msg => (s, .error (.invalidEnvelope msg))
  | .ok encoded => s.appendDurable sum now topic e.key encoded

/-! ## Restoring -/

/-- What `main` does with one record of the file; `none` when the broker refuses it. -/
def restoreRecord (b : Broker (List UInt8)) (r : Wal.Record) : Option (Broker (List UInt8)) :=
  let topic := Utf8.ofBytes r.topic
  if 0 ≤ r.partition then
    let q := b.publishToPartition topic r.partition.toInt r.payload
    q.2.map fun _ => q.1
  else if r.key ≠ [] then
    let q := b.publishWithKey topic (Utf8.ofBytes r.key) r.payload
    q.2.map fun _ => q.1
  else some (b.publish topic r.payload).1

/-- The broker after the replay; `none` when the process stops with a fatal error. -/
def restore (sum : List UInt8 → UInt32) (opts : Wal.ReplayOptions) (capacity : ℕ)
    (file : List UInt8) : Option (Broker (List UInt8)) :=
  let r := Wal.replay sum opts file
  match r.2 with
  | some _ => none
  | none => r.1.foldlM restoreRecord (Broker.new capacity)

/-! ## What they do to a topic -/

/-- What an append to a topic can do, for a key that is not empty. -/
inductive Server.Appends (sum : List UInt8 → UInt32) (s : Server) (topic key : String)
    (encoded : List UInt8) (view : ℕ → List (List UInt8)) :
    Server × Except PublishError (ℤ × ℕ) → Prop
  | refused (b : Broker (List UInt8)) (err : PublishError) (shows : b.Shows topic view) :
      Appends sum s topic key encoded view ({ s with broker := b }, .error err)
  | stored (b : Broker (List UInt8)) (r : Wal.Record) (answer : ℤ × ℕ) (fits : Wal.Fits r)
      (topic_eq : r.topic = stringBytes topic)
      (partition_eq : r.partition = Int32.ofNat (keyPartition defaultTopicPartitions key))
      (payload_eq : r.payload = encoded)
      (shows : b.Shows topic (Function.update view (keyPartition defaultTopicPartitions key)
        (view (keyPartition defaultTopicPartitions key) ++ [encoded]))) :
      Appends sum s topic key encoded view (⟨s.wal ++ Wal.encode sum r, b⟩, .ok answer)

/-- **An append either leaves the file alone or adds one record for the partition of the
key.** -/
theorem Server.appendDurable_spec (sum : List UInt8 → UInt32) (now : Time) {s : Server}
    {topic key : String} {view : ℕ → List (List UInt8)} (h : s.broker.Shows topic view)
    (hkey : key ≠ "") (encoded : List UInt8) :
    Server.Appends sum s topic key encoded view (s.appendDurable sum now topic key encoded) := by
  obtain ⟨hroute, -, hshows⟩ := h.routeKey_of_ne hkey
  have hlt : keyPartition defaultTopicPartitions key < defaultTopicPartitions :=
    keyPartition_lt (by decide) key
  obtain ⟨hoff, -, hpub⟩ := hshows.publishToPartition hlt encoded
  simp only [Server.appendDurable, hroute, hoff]
  split
  · exact .refused _ _ hshows
  · rename_i bs hbs
    obtain ⟨hfits, rfl⟩ := Wal.appendRecord_eq_ok hbs
    refine .stored _ _ _ hfits ?_ ?_ ?_ hpub
    all_goals
      unfold Wal.Record.stamped
      split <;> rfl

/-- A partition number survives its way through the record. -/
theorem int32_ofNat_partition : ∀ p < defaultTopicPartitions,
    (0 ≤ Int32.ofNat p ∧ ¬ Int32.ofNat p < -1) ∧ (Int32.ofNat p).toInt = p ∧
      ∀ q < defaultTopicPartitions, Int32.ofNat p = Int32.ofNat q → p = q := by
  decide

/-- An envelope whose text, topic and key fit a record is published. -/
theorem Server.publishEnvelope_ok (sum : List UInt8 → UInt32) (now : Time) {s : Server}
    {topic : String} {view : ℕ → List (List UInt8)} (h : s.broker.Shows topic view) {e : Event}
    {bs : List UInt8} (hbs : e.marshal now = .ok bs) (hkey : e.key ≠ "")
    (htopic : stringBytes topic ≠ []) (htopicLen : (stringBytes topic).length ≤ 0xFFFF)
    (hkeyLen : (stringBytes e.key).length ≤ 0xFFFF) (hlen : bs.length ≤ Wal.maxPayloadSize) :
    ∃ answer, (s.publishEnvelope sum now topic e).2 = .ok answer := by
  obtain ⟨hroute, -, hshows⟩ := h.routeKey_of_ne hkey
  have hlt : keyPartition defaultTopicPartitions e.key < defaultTopicPartitions :=
    keyPartition_lt (by decide) e.key
  obtain ⟨hoff, -, -⟩ := hshows.publishToPartition hlt bs
  have hpart := (int32_ofNat_partition _ hlt).1
  have hrecord := Wal.appendRecord_of_fits sum (unixNano now)
    (r := ⟨unixNano now, stringBytes topic, stringBytes e.key,
      Int32.ofNat (keyPartition defaultTopicPartitions e.key), bs⟩)
    ⟨htopicLen, hkeyLen, hlen⟩ htopic hpart.2
  refine ⟨((view (keyPartition defaultTopicPartitions e.key)).length,
    keyPartition defaultTopicPartitions e.key), ?_⟩
  simp only [Server.publishEnvelope, hbs, Server.appendDurable, hroute, hrecord, hoff]

/-- **An append that succeeds puts its payload at the end of the partition of the key**, and leaves
every other topic alone. -/
theorem Server.appendDurable_eq_ok {sum : List UInt8 → UInt32} {now : Time} {s : Server}
    {view : String → ℕ → List (List UInt8)} (h : s.broker.ShowsAll view) {topic key : String}
    (hkey : key ≠ "") {encoded : List UInt8} {offset : ℤ} {p : ℕ}
    (hok : (s.appendDurable sum now topic key encoded).2 = .ok (offset, p)) :
    p = keyPartition defaultTopicPartitions key ∧ offset = (view topic p).length ∧
      (s.appendDurable sum now topic key encoded).1.broker.capacity = s.broker.capacity ∧
      (s.appendDurable sum now topic key encoded).1.broker.ShowsAll
        (Function.update view topic
          (Function.update (view topic) p (view topic p ++ [encoded]))) := by
  obtain ⟨-, hcap, hshows⟩ := h.routeKey topic key
  obtain ⟨hroute, -, -⟩ := (h topic).routeKey_of_ne hkey
  have hlt : keyPartition defaultTopicPartitions key < defaultTopicPartitions :=
    keyPartition_lt (by decide) key
  obtain ⟨hoff, hcap', hpub⟩ := hshows.publishToPartition topic hlt encoded
  simp only [Server.appendDurable, hroute, hoff] at hok ⊢
  split at hok
  · cases hok
  · cases hok
    exact ⟨rfl, rfl, hcap'.trans hcap, hpub⟩

/-- A record of the topic for one of its partitions. -/
structure RecordOf (topic : String) (r : Wal.Record) : Prop where
  fits : Wal.Fits r
  topic_eq : r.topic = stringBytes topic
  partition_eq : ∃ p < defaultTopicPartitions, r.partition = Int32.ofNat p

/-- A record that a handler of this server writes. -/
def Routed (r : Wal.Record) : Prop := ∃ topic, RecordOf topic r

/-- The partition of a topic that a record is for. -/
def slot (r : Wal.Record) : List UInt8 × Int32 := (r.topic, r.partition)

/-- The payloads of the records for partition `p` of a topic. -/
def payloads (rs : List Wal.Record) (topic : String) (p : ℕ) : List (List UInt8) :=
  (rs.filter fun r => slot r = (stringBytes topic, Int32.ofNat p)).map Wal.Record.payload

@[simp] theorem ofBytes_stringBytes (topic : String) :
    Utf8.ofBytes (stringBytes topic) = topic := by
  rw [stringBytes, Utf8.ofBytes_toByteArray]

/-- Another record at the end. -/
theorem payloads_concat (rs : List Wal.Record) {r : Wal.Record} {topic : String}
    (htopic : r.topic = stringBytes topic) {p : ℕ} (hp : p < defaultTopicPartitions)
    (hpart : r.partition = Int32.ofNat p) (t : String) {q : ℕ} (hq : q < defaultTopicPartitions) :
    payloads (rs ++ [r]) t q = Function.update (payloads rs) topic
      (Function.update (payloads rs topic) p (payloads rs topic p ++ [r.payload])) t q := by
  by_cases ht : t = topic
  · subst ht
    rw [Function.update_self]
    by_cases hqp : q = p
    · subst hqp
      simp [payloads, slot, htopic, hpart]
    · have hne : Int32.ofNat p ≠ Int32.ofNat q :=
        fun heq => hqp ((int32_ofNat_partition p hp).2.2 q hq heq).symm
      simp [payloads, slot, hpart, hne, Function.update_of_ne hqp]
  · have hne : stringBytes topic ≠ stringBytes t := by
      intro heq
      have hofBytes := congrArg Utf8.ofBytes heq
      rw [ofBytes_stringBytes, ofBytes_stringBytes] at hofBytes
      exact ht hofBytes.symm
    simp [payloads, slot, htopic, hne, Function.update_of_ne ht]

/-- A record is restored to the end of its partition. -/
theorem restoreRecord_showsAll {b : Broker (List UInt8)} {rs : List Wal.Record}
    (h : b.ShowsAll (payloads rs)) {r : Wal.Record} (hr : Routed r) :
    ∃ b', restoreRecord b r = some b' ∧ b'.capacity = b.capacity ∧
      b'.ShowsAll (payloads (rs ++ [r])) := by
  obtain ⟨topic, -, htopic, p, hp, hpart⟩ := hr
  obtain ⟨⟨hnonneg, -⟩, hint, -⟩ := int32_ofNat_partition p hp
  obtain ⟨hoff, hcap, hpub⟩ := h.publishToPartition topic hp r.payload
  refine ⟨_, ?_, hcap, hpub.congr fun t q hq => (payloads_concat rs htopic hp hpart t hq).symm⟩
  simp only [restoreRecord, htopic, ofBytes_stringBytes, hpart, hnonneg, if_true, hint, hoff,
    Option.map_some]

theorem foldlM_restoreRecord (capacity : ℕ) (rs : List Wal.Record) (hrs : ∀ r ∈ rs, Routed r) :
    ∃ b, rs.foldlM restoreRecord (Broker.new capacity) = some b ∧ b.capacity = capacity ∧
      b.ShowsAll (payloads rs) := by
  induction rs using List.reverseRecOn with
  | nil => exact ⟨_, rfl, rfl, Broker.showsAll_new capacity⟩
  | append_singleton rs r ih =>
    obtain ⟨b, hb, hcap, hshows⟩ := ih fun r' hr' => hrs r' (List.mem_append_left _ hr')
    obtain ⟨b', hb', hcap', hshows'⟩ := restoreRecord_showsAll hshows (hrs r (by simp))
    exact ⟨b', by simp [List.foldlM_append, hb, hb'], hcap'.trans hcap, hshows'⟩

/-- **The restored broker shows, in every partition of every topic, the records of the file in
order.** -/
theorem restore_showsAll (sum : List UInt8 → UInt32) (opts : Wal.ReplayOptions) (capacity : ℕ)
    {rs : List Wal.Record} (hrs : ∀ r ∈ rs, Routed r) :
    ∃ b, restore sum opts capacity (encodeAll (Wal.encode sum) rs) = some b ∧
      b.capacity = capacity ∧ b.ShowsAll (payloads rs) := by
  have hfits : ∀ r ∈ rs, Wal.Fits r := by
    intro r hr
    obtain ⟨topic, htopic⟩ := hrs r hr
    exact htopic.fits
  obtain ⟨b, hb, hcap, hshows⟩ := foldlM_restoreRecord capacity rs hrs
  refine ⟨b, ?_, hcap, hshows⟩
  simp only [restore, Wal.replay_encodeAll sum opts hfits]
  exact hb

end AgentBus.Grpcapi
