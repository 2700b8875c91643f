import AgentBus.Cluster.Subscribe

/-!
# Calls of `Append` that fail

What a call of `Append` that returns an error leaves behind
(`internal/cluster/shardwal/shardwal.go`).  A record is counted before it is flushed and synced, and
nothing takes it back: after a sync that failed the record of the call is counted, and a replay
delivers it (`failed_sync_delivers`).

When no flush and no sync fails, a call fails only before its record is counted, because the record
is too large or the buffered writer has failed; then every record is that of one call that has not
failed (`failed_append_leaves_no_trace`).  Bytes of a record whose write failed may be in the file
all the same.  A replay stops at them, but when the shard is reopened the next record is written
behind them; so they must not be there, and the file must end with a whole record when it is
reopened.

## Main definitions

* `ShardStore`, `Job`, `stores` — a shard with its file, the calls and the subscriptions.
* `syncsSucceed` — the condition on the calls to the system.
* `Opened` — the records of a file that is reopened again and again.
* `NoTrace` — every record is that of a call that has not failed.
-/

namespace AgentBus.Cluster

open Bytes Framing Pool

/-- A shard with its file. -/
structure ShardStore where
  log : LogFile
  /-- The record whose write has failed, and how many of its bytes are in the file behind the
  others. -/
  torn : Option (Payload × ℕ)
  deriving DecidableEq, Repr

/-- A call of `Append`, or a subscription. -/
inductive Job where
  | append (c : Caller)
  | subscribe (t : Subscriber)
  deriving DecidableEq, Repr

/-- How a step goes on. -/
inductive JobInput where
  /-- A step of `Append`; `own` bytes of a record whose write fails reach the file. -/
  | append (d : Disk) (own : ℕ)
  | subscribe (input : Input)
  deriving DecidableEq, Repr

/-- What a step leaves of its own record when the write fails; never all of it. -/
def Appending.leaves (s : Shard) (d : Disk) (own : ℕ) : Appending → Option (Payload × ℕ)
  | .writing payload =>
    if payload.length ≤ maxPayloadSize ∧ s.broken = false ∧ d.write.isOk = false ∧ 0 < own then
      some (payload, min own (7 + payload.length))
    else none
  | _ => none

variable (sum : List UInt8 → UInt32)

namespace ShardStore

/-- `Open` on a file of these records. -/
def opened (records : List Payload) : ShardStore := ⟨LogFile.opened sum records, none⟩

/-- What a reader sees: the torn record is one that is not in the file to its end. -/
def view (s : ShardStore) : LogFile :=
  match s.torn with
  | none => s.log
  | some (payload, n) =>
    ⟨{ s.log.shard with records := s.log.shard.records ++ [payload] }, s.log.size + n⟩

/-- The bytes of the file. -/
def file (s : ShardStore) : List UInt8 := s.view.contents sum

/-- One step of a call of `Append`.  Bytes of a record whose write fails come behind those of all
the others. -/
def append (s : ShardStore) (c : Caller) (d : Disk) (own : ℕ) : Option (ShardStore × Caller) :=
  (c.state.step s.log.shard d).map fun r =>
    match c.state.leaves s.log.shard d own with
    | none => (⟨⟨r.1, max s.log.size (flushedBytes sum r.1)⟩, s.torn⟩, ⟨c.payload, r.2⟩)
    | some torn =>
      (⟨⟨{ r.1 with flushed := r.1.tail },
          (encodeAll (encodeRecord sum) r.1.records).length⟩, some torn⟩, ⟨c.payload, r.2⟩)

end ShardStore

/-- One step of a job. -/
def Job.step (s : ShardStore) : Job → JobInput → Option (ShardStore × Job)
  | .append c, .append d own => (s.append sum c d own).map fun r => (r.1, .append r.2)
  | .subscribe t, .subscribe input => (t.step sum s.view input).map fun t' => (s, .subscribe t')
  | _, _ => none

/-- The program.  The environment lets bytes through to the file, as a full buffer does. -/
def stores : Program ShardStore Job Start JobInput ℕ where
  entry
    | .append payload => .append ⟨payload, .writing payload⟩
    | .subscribe fromOffset => .subscribe (.new fromOffset)
  thread := Job.step sum
  env s n := some { s with log := { s.log with
    size := min (s.log.size + n) (encodeAll (encodeRecord sum) s.log.shard.records).length } }

/-- No flush and no sync fails, and a write that fails leaves nothing of its record. -/
def syncsSucceed : Guard ShardStore Job JobInput ℕ where
  thread s t input :=
    match t, input with
    | .append c, .append d own => d.flush.isOk = true ∧ d.fsync.isOk = true ∧
        ¬ c.state.FlushesBroken s.log.shard ∧ (d.write.isOk = false → own = 0)
    | _, _ => True
  env _ _ := True

instance (s : ShardStore) (t : Job) (input : JobInput) :
    Decidable (syncsSucceed.thread s t input) := by
  unfold syncsSucceed
  dsimp only
  split <;> infer_instance

instance (s : ShardStore) (n : ℕ) : Decidable (syncsSucceed.env s n) :=
  inferInstanceAs (Decidable True)

/-- The calls of `Append` in a run. -/
def callers (w : World ShardStore Job) : List Caller :=
  w.threads.filterMap fun
    | .append c => some c
    | .subscribe _ => none

/-- The records of a file that is reopened again and again, each time behind a whole record, and the
calls of the lives before. -/
inductive Opened (first : List Payload) : List Payload → List Caller → Prop
  | first : Opened first first []
  | reopen {records ps : List Payload} {past : List Caller} {w : World ShardStore Job}
      (h : Opened first records past)
      (hreach : (stores sum).Reach syncsSucceed (ShardStore.opened sum records) w)
      (hwhole : w.shared.file sum = encodeAll (encodeRecord sum) ps)
      (hsizes : ∀ p ∈ ps, p.length ≤ maxPayloadSize) : Opened first ps (past ++ callers w)

/-- On a shard opened with these records, every other record is that of one call, which has not
failed, and nothing else is delivered. -/
structure NoTrace (records : List Payload) (w : World ShardStore Job) : Prop where
  /-- The records the shard was opened with stay. -/
  initial : records <+: w.shared.log.shard.records
  /-- A record that `Tail` counts beyond them is that of exactly one call, which holds its offset; a
  call that has failed holds none. -/
  counted : ∀ off, records.length ≤ off → off < w.shared.log.shard.tail →
    ∃! i : ℕ, ∃ c : Caller, w.threads[i]? = some (.append c) ∧ c.state.offset = some off ∧
      w.shared.log.shard.records[off]? = some c.payload
  /-- What `Replay` delivers is counted. -/
  replayed : ∀ fromOffset, ∀ r ∈ (replayFrom sum fromOffset 0 (w.shared.file sum)).1,
    w.shared.log.shard.records[r.1]? = some r.2
  /-- What `Subscribe` delivers is counted. -/
  received : ∀ t, .subscribe t ∈ w.threads → ∀ r ∈ t.received ++ t.queue,
    w.shared.log.shard.records[r.1]? = some r.2

/-! ## One step of a call -/

theorem Appending.leaves_eq_none {s : Shard} {d : Disk} {own : ℕ} (a : Appending)
    (hown : d.write.isOk = false → own = 0) : a.leaves s d own = none := by
  unfold leaves
  split
  · refine if_neg fun hall => ?_
    have hzero := hown hall.2.2.1
    omega
  · rfl

/-! ## The invariant -/

/-- The offset a job has been given. -/
def Job.offset : Job → Option ℕ
  | .append c => c.state.offset
  | .subscribe _ => none

/-- What is known of a job on a shard opened with `n` records. -/
def Job.Sound (n : ℕ) (s : ShardStore) : Job → Prop
  | .append c => c.state.Valid s.log.shard c.payload ∧
      (∀ off, c.state.offset = some off → n ≤ off) ∧ ¬ c.state.Failing
  | .subscribe t => t.Sound sum s.log.shard.records

/-- What is known of the shard. -/
structure ShardStore.Sound (records : List Payload) (s : ShardStore) : Prop where
  whole : s.torn = none
  valid : s.log.shard.Valid
  syncErr : s.log.shard.syncErr = none
  sizes : ∀ p ∈ s.log.shard.records, p.length ≤ maxPayloadSize
  initial : records <+: s.log.shard.records

variable {sum}

variable {s : ShardStore} {off : ℕ} {records : List Payload} {w : World ShardStore Job}

/-- A step of a call. -/
theorem Job.step_append {s' : ShardStore} {c : Caller} {t' : Job} {input : JobInput}
    (hguard : syncsSucceed.thread s (.append c) input)
    (hstep : Job.step sum s (.append c) input = some (s', t')) :
    ∃ d shard a', c.state.step s.log.shard d = some (shard, a') ∧ d.flush.isOk = true ∧
      d.fsync.isOk = true ∧ ¬ c.state.FlushesBroken s.log.shard ∧
      s' = ⟨⟨shard, max s.log.size (flushedBytes sum shard)⟩, s.torn⟩ ∧
      t' = .append ⟨c.payload, a'⟩ := by
  cases input with
  | subscribe input => cases hstep
  | append d own =>
    obtain ⟨hflush, hfsync, hbroken, hown⟩ := hguard
    obtain ⟨⟨s₁, c'⟩, happend, heq⟩ := Option.map_eq_some_iff.mp hstep
    cases heq
    obtain ⟨⟨shard, a'⟩, ha, heq⟩ := Option.map_eq_some_iff.mp happend
    rw [Appending.leaves_eq_none _ hown] at heq
    cases heq
    exact ⟨d, shard, a', ha, hflush, hfsync, hbroken, rfl, rfl⟩

/-- What is known of a job survives when the log grows. -/
theorem Job.Sound.grow {n : ℕ} {s' : ShardStore} {t : Job} (h : t.Sound sum n s)
    (hg : s.log.shard.Grows s'.log.shard) : t.Sound sum n s' := by
  cases t with
  | append c => exact ⟨hg.appending h.1, h.2⟩
  | subscribe t =>
    obtain ⟨tl, htl⟩ := hg.records
    simp only [Job.Sound, ← htl]
    exact Subscriber.Sound.grow h

/-- An offset that has been given out is below the tail. -/
theorem Job.Sound.offset_lt {n : ℕ} {t : Job} (h : t.Sound sum n s) (hoff : t.offset = some off) :
    off < s.log.shard.tail := by
  cases t with
  | append c => exact (List.getElem?_eq_some_iff.mp (h.1.getElem?_offset hoff)).1
  | subscribe t => cases hoff

/-- **The invariant of the pool.** -/
theorem stores_sound (hrecords : ∀ p ∈ records, p.length ≤ maxPayloadSize)
    (h : (stores sum).Reach syncsSucceed (ShardStore.opened sum records) w) :
    Holds (ShardStore.Sound records) (fun s t => t.Sound sum records.length s)
      (fun t u => ∀ off off', t.offset = some off → u.offset = some off' → off ≠ off') w := by
  refine Program.Reach.local_invariant ?_ ?_ ?_ ?_ ?_ h
  · exact fun t u htu off off' hoff hoff' => (htu off' off hoff' hoff).symm
  · exact ⟨rfl, Shard.valid_opened records, rfl, hrecords, List.prefix_refl _⟩
  · intro s r hs
    cases r with
    | append payload =>
      exact ⟨⟨rfl, by rintro _ ⟨⟩, fun h => h⟩, fun u _ => by rintro _ _ ⟨⟩⟩
    | subscribe fromOffset =>
      exact ⟨Subscriber.sound_new _ fromOffset, fun u _ => by rintro _ _ ⟨⟩⟩
  · intro s t input s' t' hs ht hguard hstep
    cases t with
    | append c =>
      obtain ⟨d, shard, a', ha, hflush, hfsync, hbroken, rfl, rfl⟩ :=
        Job.step_append hguard hstep
      have hkeeps := Appending.step_keeps hs.syncErr ht.2.2 hflush hfsync hbroken ha
      obtain ⟨hv, hg, hvalid⟩ := Appending.step_spec hs.valid ht.1 ha
      refine ⟨⟨⟨hs.whole, hv, hkeeps.syncErr, (Appending.step_records ha).1.sizes hs.sizes,
        hs.initial.trans hg.records⟩, hvalid, ?_, hkeeps.noFailure⟩,
        fun u hu hapart => ⟨hu.grow hg, ?_⟩⟩
      · intro off hoff
        rcases hkeeps.offset_cases hoff with hold | rfl
        · exact ht.2.1 off hold
        · exact hs.initial.length_le
      · intro off off' hoff hoff'
        rcases hkeeps.offset_cases hoff with hold | rfl
        · exact hapart off off' hold hoff'
        · exact Nat.ne_of_gt (hu.offset_lt hoff')
    | subscribe t =>
      cases input with
      | append d own => cases hstep
      | subscribe input =>
        obtain ⟨t₁, ht₁, heq⟩ := Option.map_eq_some_iff.mp hstep
        cases heq
        rw [ShardStore.view, hs.whole] at ht₁
        exact ⟨⟨hs, Subscriber.Sound.step hs.sizes ht ht₁⟩, fun u hu hapart => ⟨hu, hapart⟩⟩
  · intro s n s' hs _ henv
    cases henv
    exact ⟨⟨hs.whole, hs.valid, hs.syncErr, hs.sizes, hs.initial⟩,
      fun u hu => hu.grow (.refl s.log.shard)⟩

/-- Every offset from the first on has been given to a call that still holds it. -/
theorem stores_dense (hrecords : ∀ p ∈ records, p.length ≤ maxPayloadSize)
    (h : (stores sum).Reach syncsSucceed (ShardStore.opened sum records) w) (off : ℕ)
    (hoff : records.length ≤ off ∧ off < w.shared.log.shard.tail) :
    ∃ t ∈ w.threads, t.offset = some off := by
  refine Program.Reach.served (fun s off => records.length ≤ off ∧ off < s.log.shard.tail)
    (fun t off => t.offset = some off) (fun w hw => stores_sound hrecords hw) ?_ ?_ ?_ h off hoff
  · rintro off ⟨hle, hlt⟩
    exact absurd hlt (not_lt.mpr hle)
  · rintro s t input s' t' off hs ht hguard hstep ⟨hle, hlt⟩
    cases t with
    | append c =>
      obtain ⟨d, shard, a', ha, hflush, hfsync, hbroken, rfl, rfl⟩ :=
        Job.step_append hguard hstep
      have hkeeps := Appending.step_keeps hs.syncErr ht.2.2 hflush hfsync hbroken ha
      exact (hkeeps.counted hlt).imp_right fun hold => ⟨⟨hle, hold.1⟩, hold.2⟩
    | subscribe t =>
      cases input with
      | append d own => cases hstep
      | subscribe input =>
        obtain ⟨t₁, -, heq⟩ := Option.map_eq_some_iff.mp hstep
        cases heq
        exact .inr ⟨⟨hle, hlt⟩, by rintro ⟨⟩⟩
  · intro s n s' off hs _ henv howed
    cases henv
    exact howed

/-! ## Replay, and reopening -/

/-- What a replay of a part of a file delivers are its first records. -/
theorem prefix_of_scan_take (sum : List UInt8 → UInt32) {ps : List Payload}
    (h : ∀ p ∈ ps, p.length ≤ maxPayloadSize) (n : ℕ) :
    ((walk sum).scan ((encodeAll (encodeRecord sum) ps).take n)).1 <+: ps := by
  have hscan := scan_cut sum h n []
  rw [List.append_nil, List.append_nil] at hscan
  have hnone : ((walk sum).scan
      (fragment (encodeRecord sum) (cut (encodeRecord sum) ps n).2)).1 = [] := by
    cases hcut : (cut (encodeRecord sum) ps n).2 with
    | none => exact congrArg Prod.fst (Reader.scan_of_stop rfl)
    | some torn =>
      obtain ⟨p, m⟩ := torn
      obtain ⟨hmem, hpos, hlt⟩ := cut_torn hcut
      have hstop := (nextRecord_torn_iff sum _).mpr (torn_take sum (h p hmem) hpos hlt)
      exact congrArg Prod.fst (Reader.scan_of_stop hstop)
  rw [hscan, hnone, List.append_nil]
  exact prefix_of_cut ..

section File

variable {records : List Payload} {s : ShardStore} (hs : s.Sound records)

include hs

/-- What `Replay` delivers are records of the log. -/
theorem ShardStore.Sound.replayed (fromOffset : ℕ) :
    ∀ r ∈ (replayFrom sum fromOffset 0 (s.file sum)).1,
      s.log.shard.records[r.1]? = some r.2 := by
  intro r hr
  rw [replayFrom_eq] at hr
  obtain ⟨i, hi⟩ := List.getElem?_of_mem (List.mem_filter.mp hr).1
  rw [getElem?_numbered, Nat.zero_add] at hi
  obtain ⟨p, hp, rfl⟩ := Option.map_eq_some_iff.mp hi
  rw [ShardStore.file, ShardStore.view, hs.whole] at hp
  obtain ⟨tl, htl⟩ := prefix_of_scan_take sum hs.sizes s.log.size
  rw [← htl]
  exact getElem?_grow hp

/-- A file that ends with a whole record holds the first records of the log. -/
theorem ShardStore.Sound.prefix_of_whole {ps : List Payload}
    (hwhole : s.file sum = encodeAll (encodeRecord sum) ps)
    (hsizes : ∀ p ∈ ps, p.length ≤ maxPayloadSize) : ps <+: s.log.shard.records := by
  have hscan := prefix_of_scan_take sum hs.sizes s.log.size
  rw [ShardStore.file, ShardStore.view, hs.whole, LogFile.contents] at hwhole
  rwa [hwhole, scan_encodeAll sum hsizes] at hscan

end File

/-- A record was in the first file, or is that of a call of a life before, which had its offset. -/
def Origin (first : List Payload) (past : List Caller) (off : ℕ) (p : Payload) : Prop :=
  first[off]? = some p ∨ ∃ c ∈ past, c.state.offset = some off ∧ c.payload = p

variable {first : List Payload} {past : List Caller}

theorem Opened.sizes (hfirst : ∀ p ∈ first, p.length ≤ maxPayloadSize)
    (h : Opened sum first records past) : ∀ p ∈ records, p.length ≤ maxPayloadSize := by
  cases h with
  | first => exact hfirst
  | reopen h hreach hwhole hsizes => exact hsizes

/-- A record of the log is one the shard was opened with, or that of a call. -/
theorem getElem?_records (hrecords : ∀ p ∈ records, p.length ≤ maxPayloadSize)
    (h : (stores sum).Reach syncsSucceed (ShardStore.opened sum records) w) {p : Payload}
    (hp : w.shared.log.shard.records[off]? = some p) :
    records[off]? = some p ∨ ∃ c ∈ callers w, c.state.offset = some off ∧ c.payload = p := by
  have hw := stores_sound hrecords h
  by_cases hoff : off < records.length
  · obtain ⟨tl, htl⟩ := hw.shared.initial
    rw [← htl, List.getElem?_append_left hoff] at hp
    exact .inl hp
  · obtain ⟨t, ht, hserve⟩ := stores_dense hrecords h off
      ⟨not_lt.mp hoff, (List.getElem?_eq_some_iff.mp hp).1⟩
    have hsound := hw.of_mem ht
    cases t with
    | subscribe t => cases hserve
    | append c =>
      refine .inr ⟨c, List.mem_filterMap.mpr ⟨_, ht, rfl⟩, hserve, ?_⟩
      exact Option.some.inj ((hsound.1.getElem?_offset hserve).symm.trans hp)

theorem Opened.origin (hfirst : ∀ p ∈ first, p.length ≤ maxPayloadSize)
    (h : Opened sum first records past) {p : Payload} (hp : records[off]? = some p) :
    Origin first past off p := by
  induction h with
  | first => exact .inl hp
  | @reopen records ps past w h hreach hwhole hsizes ih =>
    have hrecords := h.sizes hfirst
    have hs := (stores_sound hrecords hreach).shared
    obtain ⟨tl, htl⟩ := hs.prefix_of_whole hwhole hsizes
    rcases getElem?_records hrecords hreach (htl ▸ getElem?_grow hp) with hp | ⟨c, hc, hcall⟩
    · exact (ih hp).imp_right fun ⟨c, hc, hcall⟩ => ⟨c, List.mem_append_left _ hc, hcall⟩
    · exact .inr ⟨c, List.mem_append_right _ hc, hcall⟩

/-- **A failed append leaves no trace** where no flush and no sync fails, a write that fails leaves
nothing of its record, and the shard is reopened behind whole records.  A record that is counted,
replayed or received was in the first file, or is that of a call that has not failed, in this life
of the shard or in one before. -/
theorem failed_append_leaves_no_trace (sum : List UInt8 → UInt32) (first : List Payload)
    (hfirst : ∀ p ∈ first, p.length ≤ maxPayloadSize) (records : List Payload) (past : List Caller)
    (hopened : Opened sum first records past) (w : World ShardStore Job)
    (h : (stores sum).Reach syncsSucceed (ShardStore.opened sum records) w) :
    NoTrace sum records w ∧ ∀ off p, records[off]? = some p → Origin first past off p := by
  have hrecords := hopened.sizes hfirst
  have hw := stores_sound hrecords h
  refine ⟨⟨hw.shared.initial, fun off hle hlt => ?_, hw.shared.replayed, fun t ht r hr => ?_⟩,
    fun off p => hopened.origin hfirst⟩
  · obtain ⟨t, ht, hserve⟩ := stores_dense hrecords h off ⟨hle, hlt⟩
    obtain ⟨i, hi⟩ := List.getElem?_of_mem ht
    have hsound := hw.each i t hi
    cases t with
    | subscribe t => cases hserve
    | append c =>
      refine ⟨i, ⟨c, hi, hserve, hsound.1.getElem?_offset hserve⟩, ?_⟩
      rintro j ⟨c', hj, hserve', -⟩
      by_contra hne
      exact hw.pair j i _ _ hne hj hi off off hserve' hserve rfl
  · have hsound : t.Sound sum w.shared.log.shard.records := hw.of_mem ht
    obtain ⟨j, hj⟩ := List.getElem?_of_mem hr
    obtain ⟨hoff, hrec⟩ := hsound.out j r hj
    rwa [hoff]

/-- A call of `Append` returns, and the write of another fails. -/
def oneFails : List (Act Start JobInput ℕ) :=
  [.spawn (.append [2]), .run 0 (.append .healthy 0), .run 0 (.append .healthy 0),
    .run 0 (.append .healthy 0), .spawn (.append [3]),
    .run 1 (.append ⟨.error 0, .ok 0, .ok 0⟩ 0)]

/-- The shard is reopened after the failure, and another write fails. -/
theorem failed_append_reopened :
    ∃ w past, Opened Wal.crc32c [[1]] [[1], [2]] past ∧
      past = [⟨[2], .returned 1⟩, ⟨[3], .failed .io⟩] ∧
      (stores Wal.crc32c).Reach syncsSucceed (ShardStore.opened Wal.crc32c [[1], [2]]) w ∧
      w.threads = [.append ⟨[2], .returned 2⟩, .append ⟨[3], .failed .io⟩] ∧
      w.shared.log.shard.records = [[1], [2], [2]] ∧ NoTrace Wal.crc32c [[1], [2]] w ∧
      ∀ off p, [[1], [2]][off]? = some p → Origin [[1]] past off p := by
  have hfirst : ((stores Wal.crc32c).execWithin syncsSucceed
      ⟨ShardStore.opened Wal.crc32c [[1]], []⟩ oneFails).map
        (fun w => (w.shared.file Wal.crc32c, callers w)) =
      some (encodeAll (encodeRecord Wal.crc32c) [[1], [2]],
        [⟨[2], .returned 1⟩, ⟨[3], .failed .io⟩]) := by
    decide +kernel
  have hagain : ((stores Wal.crc32c).execWithin syncsSucceed
      ⟨ShardStore.opened Wal.crc32c [[1], [2]], []⟩ oneFails).map
        (fun w => (w.threads, w.shared.log.shard.records)) =
      some ([.append ⟨[2], .returned 2⟩, .append ⟨[3], .failed .io⟩], [[1], [2], [2]]) := by
    decide +kernel
  obtain ⟨w₁, hw₁, hwhole⟩ := Program.exists_reach_within hfirst
  obtain ⟨w₂, hreach, heq⟩ := Program.exists_reach_within hagain
  have hopened : Opened Wal.crc32c [[1]] [[1], [2]] (callers w₁) :=
    .reopen .first hw₁ (congrArg Prod.fst hwhole) (by simp [maxPayloadSize])
  exact ⟨w₂, _, hopened, congrArg Prod.snd hwhole, hreach, congrArg Prod.fst heq,
    congrArg Prod.snd heq, failed_append_leaves_no_trace Wal.crc32c [[1]] (by simp [maxPayloadSize])
      _ _ hopened w₂ hreach⟩

/-- The sync of a call of `Append` fails, and a subscription reads the file. -/
def failedSync : List (Act Start JobInput ℕ) :=
  [.spawn (.append [1]), .run 0 (.append .healthy 0), .run 0 (.append ⟨.ok 0, .ok 0, .error 0⟩ 0),
    .run 0 (.append .healthy 0), .spawn (.subscribe 0), .run 1 (.subscribe .go),
    .run 1 (.subscribe .go), .run 1 (.subscribe .go), .run 1 (.subscribe .receive)]

/-- **A failed append leaves a trace.**  The sync of the only call fails and the call returns the
error, but its record is counted, replayed and received, and counted again when the shard is
reopened. -/
theorem failed_sync_delivers :
    ∃ w t, (stores Wal.crc32c).Reach Guard.all (ShardStore.opened Wal.crc32c []) w ∧
      w.threads = [.append ⟨[1], .failed .io⟩, .subscribe t] ∧ w.shared.log.shard.tail = 1 ∧
      replay Wal.crc32c (w.shared.file Wal.crc32c) = ([(0, [1])], none) ∧
      t.received = [(0, [1])] ∧
      Handle.openFile Wal.crc32c (w.shared.file Wal.crc32c) =
        .ok ⟨1, w.shared.file Wal.crc32c⟩ := by
  have hrun : ((stores Wal.crc32c).exec ⟨ShardStore.opened Wal.crc32c [], []⟩ failedSync).map
      (fun w => (w.threads, w.shared.log.shard.tail, w.shared.file Wal.crc32c)) =
      some ([.append ⟨[1], .failed .io⟩, .subscribe ⟨0, 1, .header ⟨none, 0, 1, 9⟩, false, [],
        [(0, [1])], [(0, 0)]⟩], 1, encodeAll (encodeRecord Wal.crc32c) [[1]]) := by
    decide +kernel
  have hsize : ∀ p ∈ ([[1]] : List Payload), p.length ≤ maxPayloadSize := by
    simp [maxPayloadSize]
  obtain ⟨w, hw, heq⟩ := Program.exists_reach hrun
  obtain ⟨hthreads, htail, hfile⟩ := by simpa only [Prod.mk.injEq] using heq
  refine ⟨w, _, hw, hthreads, htail, ?_, rfl, ?_⟩
  · rw [replay_eq, hfile, scan_encodeAll Wal.crc32c hsize]
    rfl
  · rw [Handle.openFile, hfile, recoverTail_encodeAll Wal.crc32c hsize]
    rfl

end AgentBus.Cluster
