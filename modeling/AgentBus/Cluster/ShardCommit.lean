import AgentBus.Cluster.Rounds
import AgentBus.Cluster.ShardFile
import AgentBus.Lib.Pool

/-!
# Group commit of a shard

Any number of callers of `Append` on one shard whose disk does not fail.  Offsets are given out
under the lock, before the record is on disk; a caller returns when a round has covered its
generation.  `append_returns_durable` says what a caller may rely on: its offset is its own, its
record is in the file there and durable, the offsets given out are all those from the first on,
and `synced` only moves forward, over durable records.

## Main definitions

* `Caller`, `appends` — the callers of `Append` as a pool of threads.
* `healthyDisk` — no write, flush or sync fails.
* `Caller.Sound` — what every step keeps.
-/

namespace AgentBus.Cluster

open GroupCommit Pool

/-- A call of `Append`. -/
structure Caller where
  payload : Payload
  state : Appending
  deriving DecidableEq, Repr

/-- The callers of `Append` on one shard. -/
def appends : Program Shard Caller Payload Disk Empty where
  entry payload := ⟨payload, .writing payload⟩
  thread s t d := (t.state.step s d).map fun r => (r.1, ⟨t.payload, r.2⟩)
  env _ e := e.elim

/-- No write, flush or sync fails. -/
def healthyDisk : Guard Shard Caller Disk Empty where
  thread _ _ d := d.write.isOk = true ∧ d.flush.isOk = true ∧ d.fsync.isOk = true
  env _ _ := True

/-- A shard on a disk that has not failed, opened on a file of `n` records. -/
structure Shard.Healthy (n : ℕ) (s : Shard) : Prop where
  valid : s.Valid
  gens : s.gens.Valid
  opened : n ≤ s.synced
  sizes : ∀ p ∈ s.records, p.length ≤ maxPayloadSize
  syncErr : s.syncErr = none
  broken : s.broken = false

/-- What is known of a call: its record is at its offset, it is where the rounds allow it to be, and
its offset is a new one. -/
structure Caller.Sound (n : ℕ) (s : Shard) (t : Caller) : Prop where
  valid : t.state.Valid s t.payload
  rounds : t.state.Sound s
  fresh : ∀ off, t.state.offset = some off → n ≤ off
  noFailure : ¬ t.state.Failing

/-- What is known of two calls. -/
structure Caller.Apart (t u : Caller) : Prop where
  rounds : t.state.role.Compatible u.state.role
  offsets : ∀ off off', t.state.offset = some off → u.state.offset = some off' → off ≠ off'

/-! ## What a step can do -/

variable {n off : ℕ} {s : Shard} {t : Caller}

/-- **What a step of `Append` does** on a disk that does not fail. -/
theorem Caller.Sound.step {s' : Shard} {d : Disk} {a' : Appending} (hs : s.Healthy n)
    (ht : t.Sound n s) (hd : healthyDisk.thread s t d) (hstep : t.state.step s d = some (s', a')) :
    s'.Healthy n ∧ Advances s t.state s' a' ∧ Appending.Keeps s d t.state s' a' := by
  obtain ⟨hwrite, hflush, hfsync⟩ := hd
  have hworks : ¬ t.state.FlushesBroken s := by
    unfold Appending.FlushesBroken
    split <;> simp [hs.broken]
  have hadv := Appending.step_rounds hs.valid hs.gens ht.valid ht.rounds hstep
  have hkeeps := Appending.step_keeps hs.syncErr ht.noFailure hflush hfsync hworks hstep
  obtain ⟨hv, -, -⟩ := Appending.step_spec hs.valid ht.valid hstep
  exact ⟨⟨hv, (hadv.own hs.gens ht.rounds).1, hs.opened.trans hadv.forward,
    (Appending.step_records hstep).1.sizes hs.sizes, hkeeps.syncErr,
    (hkeeps.broken hwrite).trans hs.broken⟩, hadv, hkeeps⟩

/-- The record at an offset that has been given out is that of the call. -/
theorem Appending.Valid.getElem?_offset {payload : Payload} {a : Appending} (h : a.Valid s payload)
    (hoff : a.offset = some off) : s.records[off]? = some payload := by
  cases a with
  | committing off' c =>
    cases hoff
    exact h.1
  | returned off' =>
    cases hoff
    exact h
  | writing payload => cases hoff
  | failed err => cases hoff

theorem Caller.Sound.offset_lt (ht : t.Sound n s) (hoff : t.state.offset = some off) :
    off < s.tail :=
  (List.getElem?_eq_some_iff.mp (ht.valid.getElem?_offset hoff)).1

/-- What is known of another call survives the step. -/
theorem Caller.Sound.beside {s' : Shard} {u : Caller} {d : Disk} {a' : Appending} (hs : s.Healthy n)
    (ht : t.Sound n s) (hadv : Advances s t.state s' a')
    (hkeeps : Appending.Keeps s d t.state s' a') (hg : s.Grows s') (hu : u.Sound n s)
    (hr : t.Apart u) : u.Sound n s' ∧ Caller.Apart ⟨t.payload, a'⟩ u := by
  obtain ⟨hrounds, hcompat⟩ := hadv.beside hs.gens ht.rounds hu.rounds hr.rounds
  refine ⟨⟨hg.appending hu.valid, hrounds, hu.fresh, hu.noFailure⟩, hcompat, ?_⟩
  intro off off' hoff hoff'
  rcases hkeeps.offset_cases hoff with hold | rfl
  · exact hr.offsets off off' hold hoff'
  · exact Nat.ne_of_gt (hu.offset_lt hoff')

/-- **The invariant of the pool.** -/
theorem appends_sound {records : List Payload} (hrecords : ∀ p ∈ records, p.length ≤ maxPayloadSize)
    {w : World Shard Caller}
    (h : appends.Reach healthyDisk (Shard.opened records) w) :
    Holds (fun s => s.Healthy records.length) (fun s t => t.Sound records.length s)
      Caller.Apart w := by
  refine Program.Reach.local_invariant ?_ ?_ ?_ ?_ ?_ h
  · intro t u htu
    exact ⟨htu.rounds.symm, fun off off' hoff hoff' => (htu.offsets off' off hoff' hoff).symm⟩
  · exact ⟨Shard.valid_opened records, Nat.zero_lt_one, le_refl _, hrecords, rfl, rfl⟩
  · intro s payload _
    refine ⟨⟨rfl, ⟨trivial, ?_, ?_⟩, ?_, fun h => h⟩, fun u _ => ⟨?_, ?_⟩⟩
    · rintro _ _ _ _ ⟨⟩
    · rintro _ ⟨⟩
    · rintro _ ⟨⟩
    · exact .outside _
    · rintro _ _ ⟨⟩
  · intro s t d s' t' hs ht hd hstep
    obtain ⟨⟨s₁, a'⟩, ha', heq⟩ := Option.map_eq_some_iff.mp hstep
    cases heq
    obtain ⟨hs', hadv, hkeeps⟩ := Caller.Sound.step hs ht hd ha'
    obtain ⟨-, hg, hvalid⟩ := Appending.step_spec hs.valid ht.valid ha'
    refine ⟨⟨hs', hvalid, (hadv.own hs.gens ht.rounds).2, ?_, hkeeps.noFailure⟩,
      fun u hu hr => ht.beside hs hadv hkeeps hg hu hr⟩
    intro off hoff
    rcases hkeeps.offset_cases hoff with hold | rfl
    · exact ht.fresh off hold
    · exact hs.opened.trans (hs.valid.synced.trans (hs.valid.durable.trans hs.valid.flushed))
  · intro s e
    exact e.elim

/-- Every offset from the first on has been given to a call. -/
theorem offsets_dense {records : List Payload}
    (hrecords : ∀ p ∈ records, p.length ≤ maxPayloadSize) {w : World Shard Caller}
    (h : appends.Reach healthyDisk (Shard.opened records) w) (off : ℕ)
    (hoff : records.length ≤ off ∧ off < w.shared.tail) :
    ∃ t ∈ w.threads, t.state.offset = some off := by
  refine Program.Reach.served (fun s off => records.length ≤ off ∧ off < s.tail)
    (fun t off => t.state.offset = some off) (fun w hw => appends_sound hrecords hw) ?_ ?_ ?_ h off
    hoff
  · rintro off ⟨hle, hlt⟩
    exact absurd hlt (not_lt.mpr hle)
  · rintro s t d s' t' off hs ht hd hstep ⟨hle, hlt⟩
    obtain ⟨⟨s₁, a'⟩, ha', heq⟩ := Option.map_eq_some_iff.mp hstep
    cases heq
    obtain ⟨-, -, hkeeps⟩ := Caller.Sound.step hs ht hd ha'
    exact (hkeeps.counted hlt).imp_right fun hold => ⟨⟨hle, hold.1⟩, hold.2⟩
  · intro s e
    exact e.elim

/-- What a group commit owes its callers, on a shard that was opened with `n` records. -/
structure Committed (sum : List UInt8 → UInt32) (n : ℕ) (w : World Shard Caller) : Prop where
  /-- No offset is returned twice. -/
  distinct : ∀ (i j : ℕ) t u off off', i ≠ j → w.threads[i]? = some t → w.threads[j]? = some u →
    t.state = .returned off → u.state = .returned off' → off ≠ off'
  /-- Offsets are given out from `n` on, without a gap. -/
  dense : ∀ off, (n ≤ off ∧ off < w.shared.tail) ↔ ∃ t ∈ w.threads, t.state.offset = some off
  /-- The record at the offset a call returned has the payload of the call, and is durable. -/
  written : ∀ t ∈ w.threads, ∀ off, t.state = .returned off →
    (replay sum (Framing.encodeAll (encodeRecord sum) w.shared.file)).1[off]? =
      some (off, t.payload) ∧ off < w.shared.durable
  /-- What is synced has been appended, is in the file, and is durable. -/
  synced : w.shared.synced ≤ w.shared.tail ∧ w.shared.synced ≤ w.shared.file.length ∧
    w.shared.synced ≤ w.shared.durable
  /-- What is synced stays so. -/
  forward : ∀ a w', healthyDisk.Allows w a → appends.step w a = some w' →
    w.shared.synced ≤ w'.shared.synced

/-- The records in the file are what a replay of its bytes delivers. -/
theorem Shard.Healthy.getElem?_replay (sum : List UInt8 → UInt32) (h : s.Healthy n)
    {payload : Payload} (hrec : s.records[off]? = some payload) (hlt : off < s.flushed) :
    (replay sum (Framing.encodeAll (encodeRecord sum) s.file)).1[off]? = some (off, payload) := by
  have hsizes : ∀ p ∈ s.file, p.length ≤ maxPayloadSize :=
    fun p hp => h.sizes p (List.mem_of_mem_take hp)
  have hfile : s.file[off]? = some payload := by
    rw [Shard.file, List.getElem?_take, if_pos hlt, hrec]
  rw [replay_eq, scan_encodeAll sum hsizes, getElem?_numbered, hfile, Nat.zero_add]
  rfl

/-- **Group commit of a shard.**  On a shard opened on a file of whole valid records, with any
number of callers and no failing disk, every world reached keeps what is owed. -/
theorem append_returns_durable (sum : List UInt8 → UInt32) (records : List Payload)
    (hrecords : ∀ p ∈ records, p.length ≤ maxPayloadSize) (w : World Shard Caller)
    (h : appends.Reach healthyDisk (Shard.opened records) w) :
    Committed sum records.length w := by
  have hw := appends_sound hrecords h
  have heach : ∀ t ∈ w.threads, t.Sound records.length w.shared := fun t ht => hw.of_mem ht
  have hv := hw.shared.valid
  constructor
  · intro i j t u off off' hij ht hu hoff hoff'
    exact (hw.pair i j t u hij ht hu).offsets off off' (by rw [hoff]; rfl) (by rw [hoff']; rfl)
  · intro off
    refine ⟨offsets_dense hrecords h off, ?_⟩
    rintro ⟨t, ht, hoff⟩
    exact ⟨(heach t ht).fresh off hoff, (heach t ht).offset_lt hoff⟩
  · intro t ht off hoff
    have hdurable := ((heach t ht).rounds.returned off hoff).trans_le hv.synced
    have hrec := (heach t ht).valid
    rw [hoff] at hrec
    exact ⟨hw.shared.getElem?_replay sum hrec (lt_of_lt_of_le hdurable hv.durable), hdurable⟩
  · have hflushed := hv.flushed
    have hdurable := hv.durable
    have hsynced := hv.synced
    simp only [Shard.file, Shard.tail, List.length_take] at hflushed ⊢
    omega
  · intro a w' hok hstep
    cases a with
    | spawn payload => cases hstep; exact le_refl _
    | run i d =>
      obtain ⟨t, s', t', hi, hrun, rfl⟩ := Program.step_run hstep
      obtain ⟨⟨s₁, a'⟩, ha', heq⟩ := Option.map_eq_some_iff.mp hrun
      cases heq
      exact (Caller.Sound.step hw.shared (hw.each i t hi) (hok t hi) ha').2.1.forward
    | env e => exact e.elim

/-- Two callers on a shard of one record: the second appends while the first syncs, and then syncs
for itself. -/
def twoAppends : List (Act Payload Disk Empty) :=
  [.spawn [1], .spawn [2], .run 0 .healthy, .run 1 .healthy, .run 0 .healthy, .run 0 .healthy,
    .run 1 .healthy, .run 1 .healthy, .run 1 .healthy]

instance (s : Shard) (t : Caller) (d : Disk) : Decidable (healthyDisk.thread s t d) :=
  inferInstanceAs (Decidable (_ ∧ _ ∧ _))

instance (s : Shard) (e : Empty) : Decidable (healthyDisk.env s e) :=
  inferInstanceAs (Decidable True)

/-- Both return, with offsets 1 and 2. -/
theorem twoAppends_committed :
    ∃ w, appends.Reach healthyDisk (Shard.opened [[0]]) w ∧
      w.threads = [⟨[1], .returned 1⟩, ⟨[2], .returned 2⟩] ∧ Committed Wal.crc32c 1 w := by
  have hrun : (appends.execWithin healthyDisk ⟨Shard.opened [[0]], []⟩ twoAppends).map
      (fun w => w.threads) = some [⟨[1], .returned 1⟩, ⟨[2], .returned 2⟩] := by
    decide +kernel
  obtain ⟨w, hreach, heq⟩ := Program.exists_reach_within hrun
  exact ⟨w, hreach, heq,
    append_returns_durable Wal.crc32c [[0]] (by simp [maxPayloadSize]) w hreach⟩

end AgentBus.Cluster
