import AgentBus.Lib.Bufio
import AgentBus.Lib.GroupCommit
import AgentBus.Lib.Pool
import AgentBus.Lib.Rfc3339
import AgentBus.Wal.Record

/-!
# Group commit of the main write-ahead log

`internal/wal/wal.go`: any number of callers of `AppendRecord` on one open log.  A call writes its
record through a buffered writer, under the lock, and then takes part in a group commit.  The first
write, flush or sync that fails poisons the log.

A step is what a caller does under the lock, or one `fsync`.  What the system answers in a step is
given by a `System`.  Four fields of `Log` are not in the source: the length of the file when it was
opened, how much of the file a successful `fsync` has covered, the records whose writing has begun,
in the order their calls took the lock, and whether any call to the system has failed.  Two fields
of `Call` are not in the source either: where its record is among those begun and in the file, and
whether a call to the system had failed before it took the lock.  A log is never closed here.

A round that ends well clears the error of the log without looking at `fatal`.  If a write has
failed during its `fsync`, the log is then poisoned without an error, and every later call returns
nil without writing anything (`append_nil_after_failure`).  In the runs in which no round finds the
log poisoned when its `fsync` has succeeded, the log keeps its promises (`append_nil_durable`).

## Main definitions

* `Log`, `Call`, `System` — the log, its callers and the answers of the system.
* `Log.commit`, `Call.step`, `appenders` — the program.
* `roundGuard` — the condition.
* `Promises` — what a log owes its callers.
-/

namespace AgentBus.Wal

open Bufio Framing GroupCommit Pool

/-- `SyncMode`. -/
inductive SyncMode where
  | none
  | always
  | interval
  deriving DecidableEq, Repr

/-- An error of the operating system, by the call that met it. -/
inductive IoError where
  | write
  | flush
  | fsync
  deriving DecidableEq, Repr

/-- The errors of `AppendRecord`. -/
inductive AppendError where
  | refused (e : Error)
  | io (e : IoError)
  deriving DecidableEq, Repr

/-- `Log`. -/
structure Log where
  w : Writer
  syncMode : SyncMode
  syncInterval : Duration
  lastSync : Time
  pendingGen : ℕ
  syncedGen : ℕ
  syncing : Bool
  syncErr : Option IoError
  fatal : Bool
  /-- The length of the file when it was opened. -/
  base : ℕ
  /-- How much of the file a successful `fsync` has covered. -/
  durable : ℕ
  /-- The records whose writing has begun. -/
  begun : List Record
  /-- A write, a flush or an `fsync` has failed. -/
  hurt : Bool
  deriving DecidableEq, Repr

/-- The size of the buffer of a log. -/
def bufferSize : ℕ := 2 ^ 20

/-- `OpenWithOptions`, on a file with these bytes. -/
def Log.opened (size : ℕ) (mode : SyncMode) (interval : Duration) (now : Time)
    (file : List UInt8) : Log where
  w := .new size file
  syncMode := mode
  syncInterval :=
    if mode = .interval ∧ interval ≤ 0 then 250 * Time.millisecond else interval
  lastSync := now
  pendingGen := 1
  syncedGen := 0
  syncing := false
  syncErr := none
  fatal := false
  base := file.length
  durable := file.length
  begun := []
  hurt := false

/-- `shouldSyncLocked`. -/
def Log.shouldSync (l : Log) (clock : Time) : Bool :=
  match l.syncMode with
  | .always => true
  | .interval => l.syncInterval ≤ clock - l.lastSync
  | .none => false

/-- `poisonLocked`. -/
def Log.poison (l : Log) (err : IoError) : Log :=
  { l with fatal := true, syncErr := some err, hurt := true }

/-- Where a caller of `AppendRecord` is. -/
inductive CallState where
  /-- Before the checks. -/
  | start
  /-- At the head of the loop of `groupCommitLocked`, or asleep in it. -/
  | waiting (gen : ℕ)
  /-- In `fsync`, for generation `syncingGen`, with `flushed` bytes in the file. -/
  | fsyncing (gen syncingGen flushed : ℕ)
  /-- The `fsync` has succeeded; the lock is to be taken again. -/
  | synced (gen syncingGen flushed : ℕ)
  /-- The `fsync` has failed; the lock is to be taken again. -/
  | failed (gen syncingGen flushed : ℕ)
  | returned (err : Option AppendError)
  deriving DecidableEq, Repr

/-- Where a record is: its index among those begun, and where it ends in the file. -/
structure Place where
  index : ℕ
  stop : ℕ
  deriving DecidableEq, Repr

/-- A call of `AppendRecord`. -/
structure Call where
  record : Record
  place : Option Place
  /-- A call to the system had failed before this call took the lock. -/
  late : Bool
  state : CallState
  deriving DecidableEq, Repr

def Call.returns (c : Call) (err : Option AppendError) : Call := { c with state := .returned err }

/-- What the system answers in a step: the time, in both forms, what happens to the writes of the
record and to the flush, and how much an `fsync` covers beyond what was flushed for it. -/
structure System where
  now : Int64
  clock : Time
  writes : List Fault
  flush : List Fault
  fsync : Option ℕ
  deriving DecidableEq, Repr

/-- A system in which nothing fails. -/
def System.healthy : System := ⟨1, 0, [], [], some 0⟩

/-- One round of the loop of `groupCommitLocked`, under the lock. -/
def Log.commit (l : Log) (c : Call) (gen : ℕ) (y : System) : Log × Call :=
  if l.fatal then (l, c.returns (l.syncErr.map .io))
  else if gen ≤ l.syncedGen then (l, c.returns (l.syncErr.map .io))
  else if l.syncing then (l, { c with state := .waiting gen })
  else
    let w := (l.w.flush y.flush).1
    if w.failed then (Log.poison { l with w := w } .flush, c.returns (some (.io .flush)))
    else
      ({ l with w := w, syncing := true, pendingGen := l.pendingGen + 1 },
        { c with state := .fsyncing gen l.pendingGen w.file.length })

/-- The writes of a record: header, topic, key, payload, checksum. -/
def chunks (sum : List UInt8 → UInt32) (r : Record) : List (List UInt8) :=
  [magic ++ header r, r.topic, r.key, r.payload, Bytes.be 4 (sum (header r ++ body r)).toNat]

/-- `AppendRecord` from the lock on: the record is written and committed. -/
def Log.append (sum : List UInt8 → UInt32) (l : Log) (c : Call) (y : System) : Log × Call :=
  let r := c.record.stamped y.now
  if l.fatal then (l, { c with late := l.hurt }.returns (l.syncErr.map .io))
  else
    let w := (l.w.writeAll (chunks sum r) y.writes).1
    let l' := { l with w := w, begun := l.begun ++ [r] }
    let stop := l.base + (encodeAll (encode sum) l'.begun).length
    let c' := { c with record := r, place := some ⟨l.begun.length, stop⟩, late := l.hurt }
    if w.failed then (l'.poison .write, c'.returns (some (.io .write)))
    else if l.shouldSync y.clock then l'.commit c' l'.pendingGen y
    else (l', c'.returns none)

/-- One step of a call. -/
def Call.step (sum : List UInt8 → UInt32) (l : Log) (c : Call) (y : System) :
    Option (Log × Call) :=
  match c.state with
  | .start =>
    match appendRecord sum y.now c.record with
    | .error e => some (l, c.returns (some (.refused e)))
    | .ok _ => some (l.append sum c y)
  | .waiting gen => some (l.commit c gen y)
  | .fsyncing gen syncingGen flushed =>
    match y.fsync with
    | some n =>
      some ({ l with durable := max l.durable (flushed + min n (l.w.file.length - flushed)) },
        { c with state := .synced gen syncingGen flushed })
    | none => some ({ l with hurt := true }, { c with state := .failed gen syncingGen flushed })
  | .synced gen syncingGen _ =>
    some (Log.commit
      { l with syncedGen := syncingGen, syncErr := none, lastSync := y.clock, syncing := false }
      c gen y)
  | .failed _ _ _ =>
    some ({ l.poison .fsync with syncing := false }, c.returns (some (.io .fsync)))
  | .returned _ => none

/-- The callers of `AppendRecord` on one log. -/
def appenders (sum : List UInt8 → UInt32) : Program Log Call Record System Empty where
  entry r := ⟨r, none, false, .start⟩
  thread l c y := c.step sum l y
  env _ e := e.elim

/-- No round whose `fsync` has succeeded finds the log poisoned. -/
def roundGuard : Guard Log Call System Empty where
  thread l c _ :=
    match c.state with
    | .synced _ _ _ => l.fatal = false
    | _ => True
  env _ _ := True

/-! ## What every step keeps -/

section Invariant

variable (sum : List UInt8 → UInt32) (file : List UInt8)

/-- Everything that was written to the log, on top of the file it was opened with. -/
def Log.written (l : Log) : List UInt8 := file ++ encodeAll (encode sum) l.begun

/-- The counters of the group commit. -/
def Log.gens (l : Log) : Gens :=
  ⟨l.pendingGen, l.syncedGen, l.syncing, (l.written sum file).length, l.durable⟩

/-- What a call is to the rounds of the group commit. -/
def Call.role (c : Call) : Role :=
  match c.place, c.state with
  | some p, .waiting gen => .member gen p.stop
  | some p, .fsyncing gen syncingGen flushed => .syncer gen p.stop syncingGen flushed
  | some p, .synced gen syncingGen flushed => .syncer gen p.stop syncingGen flushed
  | some p, .failed gen syncingGen flushed => .syncer gen p.stop syncingGen flushed
  | _, _ => .outside

/-- A log in working order, opened on `file`. -/
structure Log.Sound (l : Log) : Prop where
  gens : (l.gens sum file).Valid
  streams : l.w.Streams (l.written sum file)
  opened : file <+: l.w.file ∧ l.base = file.length
  durable : l.durable ≤ l.w.file.length
  mode : l.syncMode = .always
  writer : l.w.failed = true → l.fatal = true
  fatal : l.fatal = true → l.hurt = true ∧ l.syncErr ≠ none
  /-- Between a failed `fsync` and the poisoning of the log its round is still under way. -/
  hurt : l.hurt = true → l.fatal = true ∨ l.syncing = true

/-- Where the record of a call is. -/
def Place.Holds (l : Log) (r : Record) (p : Place) : Prop :=
  l.begun[p.index]? = some r ∧
    p.stop = l.base + (encodeAll (encode sum) (l.begun.take (p.index + 1))).length

/-- What is known of a call by where it is. -/
def CallState.Sound (l : Log) (late : Bool) (place : Option Place) : CallState → Prop
  | .start => late = false ∧ place = none
  | .waiting gen => place.isSome = true ∧ (late = true → l.syncedGen < gen)
  | .fsyncing _ _ flushed => place.isSome = true ∧ late = false ∧
      (l.hurt = true → l.fatal = true) ∧ flushed ≤ l.w.file.length
  | .synced _ _ flushed => place.isSome = true ∧ late = false ∧
      (l.hurt = true → l.fatal = true) ∧ flushed ≤ l.durable
  | .failed _ _ _ => place.isSome = true ∧ l.hurt = true
  | .returned none => late = false ∧ ∃ p, place = some p ∧ p.stop ≤ l.durable
  | .returned (some _) => True

/-- What is known of a call. -/
structure Call.Sound (l : Log) (c : Call) : Prop where
  place : ∀ p, c.place = some p → p.Holds sum l c.record
  rounds : (l.gens sum file).Allows c.role
  late : c.late = true → l.hurt = true
  state : c.state.Sound l c.late c.place

/-- What is known of two calls. -/
structure Call.Apart (c u : Call) : Prop where
  rounds : c.role.Compatible u.role
  places : ∀ p q, c.place = some p → u.place = some q → p.index ≠ q.index

/-- What every step lets grow. -/
structure Log.Grows (l l' : Log) : Prop where
  begun : l.begun <+: l'.begun
  base : l'.base = l.base
  file : l.w.file.length ≤ l'.w.file.length
  durable : l.durable ≤ l'.durable
  hurt : l.hurt = true → l'.hurt = true
  fatal : l.fatal = true → l'.fatal = true

/-- What a step of a call does. -/
structure Advances (l : Log) (c : Call) (l' : Log) (c' : Call) : Prop where
  log : l'.Sound sum file
  call : c'.Sound sum file l'
  rounds : Step (l.gens sum file) c.role (l'.gens sum file) c'.role
  grows : l.Grows l'
  /-- A call to the system that fails poisons the log at once, or is an `fsync`. -/
  failure : l'.hurt = true → l.hurt = true ∨ l'.fatal = true ∨
    ∃ gen pos round upTo, c.role = .syncer gen pos round upTo
  /-- A round does not end well once a call to the system has failed. -/
  synced : l.hurt = true → l'.syncedGen = l.syncedGen
  place : (l'.begun.length = l.begun.length ∧ c'.place = c.place) ∨
    (l'.begun.length = l.begun.length + 1 ∧ c.place = none ∧
      ∃ p, c'.place = some p ∧ p.index = l.begun.length)

variable {sum file} {l l' l'' : Log} {c c' c'' : Call}

theorem Log.Grows.refl (l : Log) : l.Grows l :=
  ⟨List.prefix_refl _, rfl, le_refl _, le_refl _, id, id⟩

theorem Log.Grows.trans (h : l.Grows l') (h' : l'.Grows l'') : l.Grows l'' :=
  ⟨h.begun.trans h'.begun, h'.base.trans h.base, h.file.trans h'.file, h.durable.trans h'.durable,
    h'.hurt ∘ h.hurt, h'.fatal ∘ h.fatal⟩

@[simp] theorem role_returns (c : Call) (err : Option AppendError) :
    (c.returns err).role = .outside := by
  cases hplace : c.place <;> simp [Call.role, Call.returns, hplace]

/-- The record of a call stays where it is. -/
theorem Place.Holds.grows {r : Record} {p : Place} (h : p.Holds sum l r) (hg : l.Grows l') :
    p.Holds sum l' r := by
  obtain ⟨tl, htl⟩ := hg.begun
  have hlt : p.index < l.begun.length := (List.getElem?_eq_some_iff.mp h.1).1
  refine ⟨?_, ?_⟩
  · rw [← htl, List.getElem?_append_left hlt, h.1]
  · rw [h.2, hg.base, ← htl, List.take_append_of_le_length hlt]

/-- Two steps, of which the second starts outside a round. -/
theorem Advances.trans (h : Advances sum file l c l' c') (h' : Advances sum file l' c' l'' c'')
    (hrole : ∀ gen pos round upTo, c'.role ≠ .syncer gen pos round upTo) :
    Advances sum file l c l'' c'' where
  log := h'.log
  call := h'.call
  rounds := h.rounds.trans h'.rounds
  grows := h.grows.trans h'.grows
  failure := by
    intro hhurt
    rcases h'.failure hhurt with hhurt | hfatal | ⟨gen, pos, round, upTo, hsyncer⟩
    · rcases h.failure hhurt with hhurt | hfatal | hsyncer
      · exact .inl hhurt
      · exact .inr (.inl (h'.grows.fatal hfatal))
      · exact .inr (.inr hsyncer)
    · exact .inr (.inl hfatal)
    · exact absurd hsyncer (hrole gen pos round upTo)
  synced := fun hhurt => (h'.synced (h.grows.hurt hhurt)).trans (h.synced hhurt)
  place := by
    rcases h.place with ⟨hlen, heq⟩ | ⟨hlen, hnone, p, hp, hidx⟩ <;>
      rcases h'.place with ⟨hlen', heq'⟩ | ⟨hlen', hnone', p', hp', hidx'⟩
    · exact .inl ⟨hlen'.trans hlen, heq'.trans heq⟩
    · exact .inr ⟨by rw [hlen', hlen], heq ▸ hnone', p', hp', hidx'.trans hlen⟩
    · exact .inr ⟨hlen'.trans hlen, hnone, p, heq'.trans hp, hidx⟩
    · rw [hp] at hnone'
      cases hnone'

/-- A step that leaves the log alone. -/
theorem Advances.still (hl : l.Sound sum file) (hc : c'.Sound sum file l)
    (rounds : Step (l.gens sum file) c.role (l.gens sum file) c'.role)
    (hplace : c'.place = c.place) : Advances sum file l c l c' :=
  ⟨hl, hc, rounds, .refl l, .inl, fun _ => rfl, .inl ⟨rfl, hplace⟩⟩

theorem holds_of_place {p : Place} (hp : c.place = some p) (hplace : p.Holds sum l c.record) :
    ∀ q, c.place = some q → q.Holds sum l c.record := by
  intro q hq
  rw [hp] at hq
  cases hq
  exact hplace

/-- A step that poisons the log and returns the error, after it may have written a record. -/
theorem Log.Sound.poison (hl : l.Sound sum file) (hc : (l.gens sum file).Allows c.role)
    {w : Writer} {begun : List Record} {syncing : Bool}
    (hbegun : l.begun <+: begun) (hfile : l.w.file <+: w.file)
    (hstreams : w.Streams (Log.written sum file { l with begun := begun }))
    (hrounds : Step (l.gens sum file) c.role
      (Log.gens sum file { l with w := w, begun := begun, syncing := syncing }) .outside)
    (hplaces : ∀ q, c'.place = some q → q.Holds sum { l with begun := begun } c'.record)
    (hplace : (begun.length = l.begun.length ∧ c'.place = c.place) ∨
      (begun.length = l.begun.length + 1 ∧ c.place = none ∧
        ∃ p, c'.place = some p ∧ p.index = l.begun.length)) (err : IoError) :
    Advances sum file l c
      (Log.poison { l with w := w, begun := begun, syncing := syncing } err)
      (c'.returns (some (.io err))) where
  log := ⟨(hrounds.own hl.gens hc).1, hstreams, ⟨hl.opened.1.trans hfile, hl.opened.2⟩,
    hl.durable.trans hfile.length_le, hl.mode, fun _ => rfl, fun _ => ⟨rfl, by rintro ⟨⟩⟩,
    fun _ => .inl rfl⟩
  call := ⟨hplaces, by rw [role_returns]; trivial, fun _ => rfl, trivial⟩
  rounds := by
    rw [role_returns]
    exact hrounds
  grows := ⟨hbegun, rfl, hfile.length_le, le_refl _, fun _ => rfl, fun _ => rfl⟩
  failure := fun _ => .inr (.inl rfl)
  synced := fun _ => rfl
  place := hplace

/-- A round of a log that is neither poisoned nor syncing starts an `fsync`, or fails to flush. -/
theorem Log.Sound.startRound (hl : l.Sound sum file) (hfatal : l.fatal = false)
    (hidle : l.syncing = false) {gen : ℕ} {p : Place} (hp : c.place = some p)
    (hplace : p.Holds sum l c.record) (hmember : (l.gens sum file).Member gen p.stop)
    (hlate : c.late = false) (fs : List Fault) :
    ((l.w.flush fs).1.failed = true →
      Advances sum file l { c with state := .waiting gen }
        (Log.poison { l with w := (l.w.flush fs).1 } .flush) (c.returns (some (.io .flush)))) ∧
    ((l.w.flush fs).1.failed = false →
      Advances sum file l { c with state := .waiting gen }
        { l with w := (l.w.flush fs).1, syncing := true, pendingGen := l.pendingGen + 1 }
        { c with state := .fsyncing gen l.pendingGen (l.w.flush fs).1.file.length }) := by
  have hstreams := hl.streams.flush fs
  have hprefix := Writer.file_flush l.w fs
  have hopened : file <+: (l.w.flush fs).1.file ∧ l.base = file.length :=
    ⟨hl.opened.1.trans hprefix, hl.opened.2⟩
  have hdurable : l.durable ≤ (l.w.flush fs).1.file.length :=
    hl.durable.trans hprefix.length_le
  have hplaces := holds_of_place hp hplace
  have hrole : ({ c with state := .waiting gen } : Call).role = .member gen p.stop := by
    simp [Call.role, hp]
  have hunhurt : l.hurt = false := by
    by_contra hnot
    rcases hl.hurt (Bool.eq_true_of_not_eq_false hnot) with h | h
    · rw [hfatal] at h
      cases h
    · rw [hidle] at h
      cases h
  refine ⟨fun _ => ?_, fun hok => ?_⟩
  · refine hl.poison (c := { c with state := .waiting gen }) ?_ (List.prefix_refl _) hprefix
      hstreams (.leave _ _) hplaces (.inl ⟨rfl, rfl⟩) .flush
    rw [hrole]
    exact hmember
  · -- The buffer is empty: what was written so far is what the `fsync` will cover.
    have hall : (l.w.flush fs).1.file.length = (l.written sum file).length := by
      rw [← hstreams.buf hok, Writer.buf_flush hok, List.append_nil]
    have hrounds : Step (l.gens sum file) (.member gen p.stop)
        { l.gens sum file with pending := l.pendingGen + 1, syncing := true }
        (.syncer gen p.stop l.pendingGen (l.written sum file).length) :=
      .start hidle
    have hrole' : ({ c with state := .fsyncing gen l.pendingGen (l.w.flush fs).1.file.length } :
        Call).role = .syncer gen p.stop l.pendingGen (l.written sum file).length := by
      simp [Call.role, hp, hall]
    obtain ⟨hgens, hsyncer⟩ := hrounds.own hl.gens hmember
    exact
      { log := ⟨hgens, hstreams, hopened, hdurable, hl.mode,
          fun h => absurd (h.symm.trans hok) (by decide), hl.fatal, fun _ => .inr rfl⟩
        call := ⟨hplaces, by rw [hrole']; exact hsyncer,
          fun h => absurd (h.symm.trans hlate) (by decide),
          by simp [hp], hlate, fun h => absurd (h.symm.trans hunhurt) (by decide), le_refl _⟩
        rounds := by
          rw [hrole, hrole']
          exact hrounds
        grows := ⟨List.prefix_refl _, rfl, hprefix.length_le, le_refl _, id, id⟩
        failure := .inl
        synced := fun _ => rfl
        place := .inl ⟨rfl, rfl⟩ }

/-- **A round of the group commit**, for a call that has written its record. -/
theorem Log.Sound.commit (hl : l.Sound sum file) {gen : ℕ} {p : Place} (hp : c.place = some p)
    (hplace : p.Holds sum l c.record) (hmember : (l.gens sum file).Member gen p.stop)
    (hhurt : c.late = true → l.hurt = true) (hlate : c.late = true → l.syncedGen < gen)
    (y : System) :
    Advances sum file l { c with state := .waiting gen } (l.commit c gen y).1
      (l.commit c gen y).2 := by
  have hplaces := holds_of_place hp hplace
  have hrole : ({ c with state := .waiting gen } : Call).role = .member gen p.stop := by
    simp [Call.role, hp]
  have hreturn : ∀ err, CallState.Sound l c.late c.place (.returned err) →
      Advances sum file l { c with state := .waiting gen } l (c.returns err) := by
    intro err herr
    refine .still hl ⟨hplaces, ?_, hhurt, herr⟩ ?_ rfl
    · rw [role_returns]
      trivial
    · rw [role_returns]
      exact .leave _ _
  unfold Log.commit
  by_cases hfatal : l.fatal = true
  · -- The log is poisoned, and says so.
    rw [if_pos hfatal]
    obtain ⟨err, herr⟩ := Option.ne_none_iff_exists'.mp (hl.fatal hfatal).2
    rw [herr]
    exact hreturn _ trivial
  rw [if_neg hfatal]
  by_cases hgen : gen ≤ l.syncedGen
  · -- The generation is synced, and so is the record.
    rw [if_pos hgen]
    refine hreturn _ ?_
    cases l.syncErr with
    | some err => trivial
    | none =>
      refine ⟨Bool.eq_false_iff.mpr fun h => ?_, p, hp, hmember.onDisk hgen⟩
      exact absurd (hlate h) (not_lt.mpr hgen)
  rw [if_neg hgen]
  by_cases hsyncing : l.syncing = true
  · -- Another caller syncs.
    rw [if_pos hsyncing]
    exact .still hl ⟨hplaces, by rw [hrole]; exact hmember, hhurt, by simp [hp], hlate⟩ (.refl _ _)
      rfl
  rw [if_neg hsyncing]
  have hnotlate : c.late = false := by
    refine Bool.eq_false_iff.mpr fun h => ?_
    rcases hl.hurt (hhurt h) with h | h
    · exact hfatal h
    · exact hsyncing h
  have hround := hl.startRound (Bool.eq_false_iff.mpr hfatal) (Bool.eq_false_iff.mpr hsyncing) hp
    hplace hmember hnotlate y.flush
  by_cases hfailed : (l.w.flush y.flush).1.failed = true
  · simp only [hfailed, if_true]
    exact hround.1 hfailed
  · simp only [hfailed, Bool.false_eq_true, if_false]
    exact hround.2 (Bool.eq_false_iff.mpr hfailed)

@[simp] theorem flatten_chunks (sum : List UInt8 → UInt32) (r : Record) :
    (chunks sum r).flatten = encode sum r := by
  simp [chunks, encode, body]

theorem written_append (l : Log) (r : Record) (w : Writer) :
    Log.written sum file { l with w := w, begun := l.begun ++ [r] } =
      l.written sum file ++ encode sum r := by
  simp [Log.written, encodeAll]

/-- **What `AppendRecord` does under the lock.** -/
theorem Log.Sound.append (hl : l.Sound sum file) (hplace : c.place = none) (y : System) :
    Advances sum file l c (l.append sum c y).1 (l.append sum c y).2 := by
  have hrole : c.role = .outside := by simp [Call.role, hplace]
  have hnone : ∀ q, c.place = some q → q.Holds sum l c.record := by
    intro q hq
    rw [hplace] at hq
    cases hq
  unfold Log.append
  by_cases hfatal : l.fatal = true
  · rw [if_pos hfatal]
    obtain ⟨err, herr⟩ := Option.ne_none_iff_exists'.mp (hl.fatal hfatal).2
    refine .still hl ⟨hnone, by rw [role_returns]; trivial, id, by rw [herr]; trivial⟩ ?_ rfl
    rw [role_returns]
    exact .leave _ _
  rw [if_neg hfatal]
  simp only
  set r := c.record.stamped y.now with hr
  set w := (l.w.writeAll (chunks sum r) y.writes).1 with hw
  set l' : Log := { l with w := w, begun := l.begun ++ [r] } with hl'
  set c' : Call := { c with
    record := r
    place := some ⟨l.begun.length, l.base + (encodeAll (encode sum) l'.begun).length⟩
    late := l.hurt } with hc'
  have hwritten : l'.written sum file = l.written sum file ++ encode sum r := written_append l r w
  have hstreams : w.Streams (l'.written sum file) := by
    rw [hwritten, ← flatten_chunks]
    exact hl.streams.writeAll _ _
  have hgrow : (l.written sum file).length ≤ (l'.written sum file).length :=
    hwritten ▸ (List.prefix_append _ _).length_le
  have hprefix : l.w.file <+: w.file := Writer.file_writeAll _ _ _
  have hbegun : l.begun <+: l'.begun := List.prefix_append _ _
  have hlen : l'.begun.length = l.begun.length + 1 := by simp [hl']
  have hopened : file <+: w.file ∧ l'.base = file.length :=
    ⟨hl.opened.1.trans hprefix, hl.opened.2⟩
  have hdurable : l'.durable ≤ w.file.length := hl.durable.trans hprefix.length_le
  have hstop : l.base + (encodeAll (encode sum) l'.begun).length =
      (l'.written sum file).length := by
    rw [Log.written, List.length_append, hl.opened.2]
  have hplace' : Place.Holds sum l' r
      ⟨l.begun.length, l.base + (encodeAll (encode sum) l'.begun).length⟩ := by
    refine ⟨by simp [hl'], ?_⟩
    rw [List.take_of_length_le (le_of_eq hlen)]
  have hplaces : ∀ q, c'.place = some q → q.Holds sum l' c'.record := by
    rintro q ⟨⟩
    exact hplace'
  by_cases hfailed : w.failed = true
  · rw [if_pos hfailed]
    refine hl.poison (by rw [hrole]; trivial) hbegun hprefix hstreams ?_ hplaces
      (.inr ⟨hlen, hplace, _, rfl, rfl⟩) .write
    rw [hrole]
    exact .grow hgrow (le_refl _)
  rw [if_neg hfailed, if_pos (by rw [Log.shouldSync, hl.mode])]
  have hrounds : Step (l.gens sum file) .outside (l'.gens sum file)
      (.member l.pendingGen (l'.written sum file).length) :=
    Step.trans (.grow hgrow (le_refl _)) (.enter (l'.gens sum file))
  have hrole' : ({ c' with state := .waiting l'.pendingGen } : Call).role =
      .member l.pendingGen (l'.written sum file).length := by
    simp only [Call.role, hc', hstop]
    rfl
  obtain ⟨hgens, hmember⟩ := hrounds.own hl.gens trivial
  have hsound : l'.Sound sum file :=
    ⟨hgens, hstreams, hopened, hdurable, hl.mode, fun h => absurd h hfailed, hl.fatal, hl.hurt⟩
  have hwrite : Advances sum file l c l' { c' with state := .waiting l'.pendingGen } :=
    { log := hsound
      call := ⟨hplaces, by rw [hrole']; exact hmember, id, rfl, fun _ => hgens⟩
      rounds := by
        rw [hrole, hrole']
        exact hrounds
      grows := ⟨hbegun, rfl, hprefix.length_le, le_refl _, id, id⟩
      failure := .inl
      synced := fun _ => rfl
      place := .inr ⟨hlen, hplace, _, rfl, rfl⟩ }
  refine hwrite.trans (hsound.commit rfl hplace' (hstop ▸ hmember) id (fun _ => hgens) y) ?_
  rw [hrole']
  rintro _ _ _ _ ⟨⟩

/-- The `fsync` of a round returns. -/
theorem Call.Sound.fsync {record : Record} {p : Place} {gen syncingGen flushed : ℕ} {y : System}
    (hl : l.Sound sum file)
    (hc : Call.Sound sum file l ⟨record, some p, false, .fsyncing gen syncingGen flushed⟩)
    (hstep : Call.step sum l ⟨record, some p, false, .fsyncing gen syncingGen flushed⟩ y =
      some (l', c')) :
    Advances sum file l ⟨record, some p, false, .fsyncing gen syncingGen flushed⟩ l' c' := by
  obtain ⟨-, -, hhurt, hflushed⟩ := hc.state
  have hsyncing : l.syncing = true := hc.rounds.running
  have hdurable := hl.durable
  cases hfsync : y.fsync with
  | some n =>
    simp only [Call.step, hfsync, Option.some.injEq] at hstep
    cases hstep
    have hrounds : Step (l.gens sum file) (.syncer gen p.stop syncingGen flushed)
        { l.gens sum file with
          tail := (l.written sum file).length
          durable := max l.durable (flushed + min n (l.w.file.length - flushed)) }
        (.syncer gen p.stop syncingGen flushed) :=
      .grow (le_refl _) (le_max_left _ _)
    exact
      { log := ⟨hl.gens, hl.streams, hl.opened, by simp only; omega, hl.mode, hl.writer,
          hl.fatal, hl.hurt⟩
        call := ⟨hc.place, (hrounds.own hl.gens hc.rounds).2, hc.late, rfl, rfl, hhurt,
          by simp only; omega⟩
        rounds := hrounds
        grows := ⟨List.prefix_refl _, rfl, le_refl _, le_max_left _ _, id, id⟩
        failure := .inl
        synced := fun _ => rfl
        place := .inl ⟨rfl, rfl⟩ }
  | none =>
    simp only [Call.step, hfsync, Option.some.injEq] at hstep
    cases hstep
    exact
      { log := ⟨hl.gens, hl.streams, hl.opened, hl.durable, hl.mode, hl.writer,
          fun h => ⟨rfl, (hl.fatal h).2⟩, fun _ => .inr hsyncing⟩
        call := ⟨hc.place, hc.rounds, fun _ => rfl, rfl, rfl⟩
        rounds := .refl _ _
        grows := ⟨List.prefix_refl _, rfl, le_refl _, le_refl _, fun _ => rfl, id⟩
        failure := fun _ => .inr (.inr ⟨_, _, _, _, rfl⟩)
        synced := fun _ => rfl
        place := .inl ⟨rfl, rfl⟩ }

/-- A round whose `fsync` has succeeded ends, and its caller goes around the loop again. -/
theorem Call.Sound.finish {record : Record} {p : Place} {gen syncingGen flushed : ℕ}
    (hl : l.Sound sum file)
    (hc : Call.Sound sum file l ⟨record, some p, false, .synced gen syncingGen flushed⟩)
    (hfatal : l.fatal = false) (y : System) :
    Advances sum file l ⟨record, some p, false, .synced gen syncingGen flushed⟩
      (Log.commit { l with
        syncedGen := syncingGen, syncErr := none, lastSync := y.clock, syncing := false }
        ⟨record, some p, false, .synced gen syncingGen flushed⟩ gen y).1
      (Log.commit { l with
        syncedGen := syncingGen, syncErr := none, lastSync := y.clock, syncing := false }
        ⟨record, some p, false, .synced gen syncingGen flushed⟩ gen y).2 := by
  obtain ⟨-, -, hhurt, hflushed⟩ := hc.state
  have hunhurt : l.hurt = false :=
    Bool.eq_false_iff.mpr fun h => absurd ((hhurt h).symm.trans hfatal) (by decide)
  have hrounds : Step (l.gens sum file) (.syncer gen p.stop syncingGen flushed)
      { l.gens sum file with synced := syncingGen, syncing := false } (.member gen p.stop) :=
    .finish hflushed
  obtain ⟨hgens, hmember⟩ := hrounds.own hl.gens hc.rounds
  have hsound : Log.Sound sum file { l with
      syncedGen := syncingGen, syncErr := none, lastSync := y.clock, syncing := false } :=
    ⟨hgens, hl.streams, hl.opened, hl.durable, hl.mode, hl.writer,
      fun h => absurd (h.symm.trans hfatal) (by decide),
      fun h => absurd (h.symm.trans hunhurt) (by decide)⟩
  have hfinish : Advances sum file l ⟨record, some p, false, .synced gen syncingGen flushed⟩
      { l with syncedGen := syncingGen, syncErr := none, lastSync := y.clock, syncing := false }
      ⟨record, some p, false, .waiting gen⟩ :=
    { log := hsound
      call := ⟨hc.place, hmember, hc.late, rfl, by rintro ⟨⟩⟩
      rounds := hrounds
      grows := ⟨List.prefix_refl _, rfl, le_refl _, le_refl _, id, id⟩
      failure := .inl
      synced := fun h => absurd (h.symm.trans hunhurt) (by decide)
      place := .inl ⟨rfl, rfl⟩ }
  exact hfinish.trans (hsound.commit rfl (hc.place p rfl) hmember hc.late (by rintro ⟨⟩) y)
    (by rintro _ _ _ _ ⟨⟩)

/-- **What a step of a call does.** -/
theorem Call.Sound.step (hl : l.Sound sum file) (hc : c.Sound sum file l) {y : System}
    (hguard : roundGuard.thread l c y) (hstep : c.step sum l y = some (l', c')) :
    Advances sum file l c l' c' := by
  obtain ⟨record, place, late, state⟩ := c
  cases state with
  | start =>
    obtain ⟨rfl, rfl⟩ : late = false ∧ place = none := hc.state
    simp only [Call.step] at hstep
    split at hstep
    · cases hstep
      exact .still hl ⟨hc.place, trivial, hc.late, trivial⟩ (.refl _ _) rfl
    · have heq := Option.some.inj hstep
      have hadv := hl.append (c := ⟨record, none, false, .start⟩) rfl y
      rwa [heq] at hadv
  | waiting gen =>
    obtain ⟨hsome, hlate⟩ : place.isSome = true ∧ (late = true → l.syncedGen < gen) := hc.state
    obtain ⟨p, rfl⟩ := Option.isSome_iff_exists.mp hsome
    have heq := Option.some.inj hstep
    have hadv := hl.commit (c := ⟨record, some p, late, .waiting gen⟩) rfl (hc.place p rfl)
      hc.rounds hc.late hlate y
    rwa [heq] at hadv
  | fsyncing gen syncingGen flushed =>
    obtain ⟨hsome, rfl, -⟩ : place.isSome = true ∧ late = false ∧ _ := hc.state
    obtain ⟨p, rfl⟩ := Option.isSome_iff_exists.mp hsome
    exact hc.fsync hl hstep
  | synced gen syncingGen flushed =>
    obtain ⟨hsome, rfl, -⟩ : place.isSome = true ∧ late = false ∧ _ := hc.state
    obtain ⟨p, rfl⟩ := Option.isSome_iff_exists.mp hsome
    have heq := Option.some.inj hstep
    have hadv := hc.finish hl hguard y
    rwa [heq] at hadv
  | failed gen syncingGen flushed =>
    obtain ⟨p, rfl⟩ := Option.isSome_iff_exists.mp hc.state.1
    cases hstep
    exact hl.poison hc.rounds (List.prefix_refl _) (List.prefix_refl _) hl.streams .abandon
      hc.place (.inl ⟨rfl, rfl⟩) .fsync
  | returned err => cases hstep

/-- **What is known of another call survives the step.** -/
theorem Advances.other {u : Call} (hl : l.Sound sum file) (hc : c.Sound sum file l)
    (h : Advances sum file l c l' c') (hu : u.Sound sum file l) (hcu : c.Apart u) :
    u.Sound sum file l' ∧ c'.Apart u := by
  obtain ⟨hrounds, hcompat⟩ := h.rounds.others _ hl.gens hc.rounds hu.rounds hcu.rounds
  have hplace : ∀ q, u.place = some q → q.Holds sum l' u.record :=
    fun q hq => (hu.place q hq).grows h.grows
  -- A failure that comes while `u` runs a round is not an `fsync` of another call.
  have hunhurt : ∀ gen pos round upTo, u.role = .syncer gen pos round upTo →
      (l.hurt = true → l.fatal = true) → l'.hurt = true → l'.fatal = true := by
    intro gen pos round upTo hrole hhurt hhurt'
    rcases h.failure hhurt' with h' | h' | ⟨gen', pos', round', upTo', hrole'⟩
    · exact h.grows.fatal (hhurt h')
    · exact h'
    · have hone := hcu.rounds
      rw [hrole, hrole'] at hone
      exact hone.elim
  refine ⟨⟨hplace, hrounds, fun hlate => h.grows.hurt (hu.late hlate), ?_⟩, hcompat, ?_⟩
  · have hstate := hu.state
    obtain ⟨record, place, late, state⟩ := u
    cases state with
    | start => exact hstate
    | waiting gen =>
      refine ⟨hstate.1, fun hlate => ?_⟩
      rw [h.synced (hu.late hlate)]
      exact hstate.2 hlate
    | fsyncing gen syncingGen flushed =>
      obtain ⟨hsome, hlate, hhurt, hflushed⟩ := hstate
      obtain ⟨p, rfl⟩ := Option.isSome_iff_exists.mp hsome
      exact ⟨rfl, hlate, hunhurt _ _ _ _ rfl hhurt, hflushed.trans h.grows.file⟩
    | synced gen syncingGen flushed =>
      obtain ⟨hsome, hlate, hhurt, hflushed⟩ := hstate
      obtain ⟨p, rfl⟩ := Option.isSome_iff_exists.mp hsome
      exact ⟨rfl, hlate, hunhurt _ _ _ _ rfl hhurt, hflushed.trans h.grows.durable⟩
    | failed gen syncingGen flushed => exact ⟨hstate.1, h.grows.hurt hstate.2⟩
    | returned err =>
      cases err with
      | some err => trivial
      | none =>
        obtain ⟨hlate, p, hp, hstop⟩ := hstate
        exact ⟨hlate, p, hp, hstop.trans h.grows.durable⟩
  · intro p q hp hq
    rcases h.place with ⟨-, heq⟩ | ⟨-, -, p', hp', hidx⟩
    · exact hcu.places p q (heq ▸ hp) hq
    · rw [hp] at hp'
      cases hp'
      rw [hidx]
      exact (Nat.ne_of_lt (List.getElem?_eq_some_iff.mp (hu.place q hq).1).1).symm

/-- **The invariant of the callers.** -/
theorem appenders_sound {size : ℕ} {interval : Duration} {now : Time} {w : World Log Call}
    (h : (appenders sum).Reach roundGuard (Log.opened size .always interval now file) w) :
    Holds (Log.Sound sum file) (Call.Sound sum file) Call.Apart w := by
  refine Program.Reach.local_invariant ?_ ?_ ?_ ?_ ?_ h
  · intro c u hcu
    exact ⟨hcu.rounds.symm, fun p q hp hq => (hcu.places q p hq hp).symm⟩
  · have hwritten : (Log.opened size .always interval now file).written sum file = file := by
      simp [Log.written, Log.opened]
    exact ⟨Nat.zero_lt_one, by rw [hwritten]; exact Writer.streams_new size file,
      ⟨List.prefix_refl _, rfl⟩, le_refl _, rfl, by rintro ⟨⟩, by rintro ⟨⟩, by rintro ⟨⟩⟩
  · intro l r _
    refine ⟨⟨by rintro _ ⟨⟩, trivial, by rintro ⟨⟩, rfl, rfl⟩, fun u _ => ⟨?_, by rintro _ _ ⟨⟩⟩⟩
    show Role.Compatible .outside u.role
    cases u.role <;> trivial
  · intro l c y l' c' hl hc hguard hstep
    have hadv := Call.Sound.step hl hc hguard hstep
    exact ⟨⟨hadv.log, hadv.call⟩, fun u hu hcu => hadv.other hl hc hu hcu⟩
  · intro _ e
    exact e.elim

/-- Every record begun is that of a call. -/
theorem begun_owned {size : ℕ} {interval : Duration} {now : Time} {w : World Log Call}
    (h : (appenders sum).Reach roundGuard (Log.opened size .always interval now file) w) (i : ℕ)
    (hi : i < w.shared.begun.length) :
    ∃ c ∈ w.threads, ∃ p, c.place = some p ∧ p.index = i := by
  refine Program.Reach.served (fun l i => i < l.begun.length)
    (fun c i => ∃ p, c.place = some p ∧ p.index = i) (fun w hw => appenders_sound hw)
    ?_ ?_ ?_ h i hi
  · intro i hi
    exact absurd hi (Nat.not_lt_zero i)
  · intro l c y l' c' i hl hc hguard hstep hi
    rcases (Call.Sound.step hl hc hguard hstep).place with ⟨hlen, heq⟩ | ⟨hlen, hnone, p, hp, hidx⟩
    · rw [hlen] at hi
      by_cases hserve : ∃ p, c.place = some p ∧ p.index = i
      · exact .inl (heq ▸ hserve)
      · exact .inr ⟨hi, hserve⟩
    · rcases Nat.lt_succ_iff_lt_or_eq.mp (hlen ▸ hi) with hlt | rfl
      · refine .inr ⟨hlt, ?_⟩
        rw [hnone]
        rintro ⟨_, ⟨⟩, _⟩
      · exact .inl ⟨p, hp, hidx⟩
  · intro _ e
    exact e.elim

end Invariant

/-! ## What a log owes its callers -/

/-- What a log that was opened on `file` owes its callers. -/
structure Promises (sum : List UInt8 → UInt32) (file : List UInt8) (w : World Log Call) : Prop where
  /-- When a call has returned nil, its record and all before it are durable. -/
  durable : ∀ c ∈ w.threads, c.state = .returned none → ∃ p, c.place = some p ∧
    w.shared.begun[p.index]? = some c.record ∧
    file ++ encodeAll (encode sum) (w.shared.begun.take (p.index + 1)) <+:
      w.shared.w.file.take w.shared.durable
  /-- The file is what it was, followed by the records begun, up to some point. -/
  whole : file <+: w.shared.w.file ∧
    w.shared.w.file <+: file ++ encodeAll (encode sum) w.shared.begun
  /-- Until a write fails, what is not in the file is in the buffer. -/
  kept : w.shared.w.failed = false →
    w.shared.w.file ++ w.shared.w.buf = file ++ encodeAll (encode sum) w.shared.begun
  /-- Every record begun is that of one call. -/
  owned : ∀ i < w.shared.begun.length, ∃ c ∈ w.threads, ∃ p, c.place = some p ∧ p.index = i
  /-- No two calls have the same record. -/
  distinct : ∀ (i j : ℕ) c u p q, i ≠ j → w.threads[i]? = some c → w.threads[j]? = some u →
    c.place = some p → u.place = some q → p.index ≠ q.index
  /-- No call that took the lock after a failure returns nil. -/
  poisoned : ∀ c ∈ w.threads, c.state = .returned none → c.late = false

/-- **Group commit of the log.**  On a log opened with `SyncAlways`, with any number of callers and
any failures, every world reached by runs in which no round whose `fsync` has succeeded finds the
log poisoned keeps what is owed. -/
theorem append_nil_durable (sum : List UInt8 → UInt32) (size : ℕ) (interval : Duration) (now : Time)
    (file : List UInt8) (w : World Log Call)
    (h : (appenders sum).Reach roundGuard (Log.opened size .always interval now file) w) :
    Promises sum file w := by
  have hw := appenders_sound h
  have hl := hw.shared
  have heach : ∀ c ∈ w.threads, c.Sound sum file w.shared := fun c hc => hw.of_mem hc
  have hreturned : ∀ c ∈ w.threads, c.state = .returned none →
      c.late = false ∧ ∃ p, c.place = some p ∧ p.stop ≤ w.shared.durable := by
    intro c hc hstate
    have hsound := (heach c hc).state
    rwa [hstate] at hsound
  constructor
  · intro c hc hstate
    obtain ⟨-, p, hp, hstop⟩ := hreturned c hc hstate
    obtain ⟨hrec, heq⟩ := (heach c hc).place p hp
    refine ⟨p, hp, hrec, ?_⟩
    -- Both are beginnings of what was written, and the durable one is the longer.
    have hrecords : file ++ encodeAll (encode sum) (w.shared.begun.take (p.index + 1)) <+:
        w.shared.written sum file := by
      refine (List.prefix_append_right_inj _).mpr
        ⟨encodeAll (encode sum) (w.shared.begun.drop (p.index + 1)), ?_⟩
      rw [encodeAll, encodeAll, ← List.flatMap_append, List.take_append_drop]
      rfl
    have hfile : w.shared.w.file.take w.shared.durable <+: w.shared.written sum file :=
      (List.take_prefix _ _).trans hl.streams.file
    refine List.prefix_of_prefix_length_le hrecords hfile ?_
    rw [List.length_append, List.length_take, min_eq_left hl.durable, ← hl.opened.2, ← heq]
    exact hstop
  · exact ⟨hl.opened.1, hl.streams.file⟩
  · exact hl.streams.buf
  · exact begun_owned h
  · intro i j c u p q hij hc hu
    exact (hw.pair i j c u hij hc hu).places p q
  · intro c hc hstate
    exact (hreturned c hc hstate).1

/-- Three callers: the third's flush fails, after the first has synced for the first two. -/
def threeAppends : List (Act Record System Empty) :=
  [.spawn ⟨7, [97], [], 0, [1]⟩, .spawn ⟨0, [97], [], 0, [2]⟩, .run 0 .healthy, .run 0 .healthy,
    .run 1 .healthy, .run 0 .healthy, .run 1 .healthy, .run 1 .healthy, .run 1 .healthy,
    .spawn ⟨0, [97], [], 0, [3]⟩, .run 2 { System.healthy with flush := [.after 5] }]

instance (l : Log) (c : Call) (y : System) : Decidable (roundGuard.thread l c y) := by
  unfold roundGuard
  dsimp only
  split <;> infer_instance

instance (l : Log) (e : Empty) : Decidable (roundGuard.env l e) :=
  inferInstanceAs (Decidable True)

/-- The first two return nil, the third the error. -/
theorem threeAppends_promises :
    ∃ w, (appenders crc32c).Reach roundGuard (Log.opened bufferSize .always 0 0 []) w ∧
      w.threads.map Call.state = [.returned none, .returned none, .returned (some (.io .flush))] ∧
      Promises crc32c [] w := by
  have hrun : ((appenders crc32c).execWithin roundGuard ⟨Log.opened bufferSize .always 0 0 [], []⟩
      threeAppends).map (fun w => w.threads.map Call.state) =
      some [.returned none, .returned none, .returned (some (.io .flush))] := by
    decide +kernel
  obtain ⟨w, hreach, heq⟩ := Program.exists_reach_within hrun
  exact ⟨w, hreach, heq, append_nil_durable crc32c bufferSize 0 0 [] w hreach⟩

/-- The writes to the file fail. -/
def overflow : System := { System.healthy with writes := [.after 0] }

/-- A record as long as the buffer poisons the log when the writes to the file fail. -/
theorem append_overflow (sum : List UInt8 → UInt32) {l : Log} (hfatal : l.fatal = false)
    (hw : l.w.failed = false ∧ l.w.buf = [] ∧ l.w.size = bufferSize) {c : Call}
    (hc : c.record.payload.length = bufferSize) :
    (l.append sum c overflow).1.fatal = true ∧ (l.append sum c overflow).1.hurt = true := by
  obtain ⟨hok, hbuf, hsize⟩ := hw
  have hpayload : (c.record.stamped overflow.now).payload = c.record.payload := by
    unfold Record.stamped
    split <;> rfl
  have hlong : l.w.size < l.w.buf.length +
      (chunks sum (c.record.stamped overflow.now)).flatten.length := by
    rw [flatten_chunks, hsize, hbuf]
    simp only [encode, body, magic, List.length_append, List.length_cons, List.length_nil, hpayload,
      hc]
    omega
  have hfailed := Writer.failed_writeAll hok (by simp [hbuf]) hlong 0 []
  have hwrites : overflow.writes = [.after 0] := rfl
  simp [Log.append, hfatal, hwrites, hfailed, Log.poison]

/-- **An append that returns nil without writing.**  The first caller is in `fsync` while the second
writes a record that does not fit the buffer.  The write fails, the `fsync` does not, and the end of
its round clears the error: the third caller returns nil, and its record is nowhere. -/
theorem append_nil_after_failure :
    ∃ w, (appenders crc32c).Reach Guard.all (Log.opened bufferSize .always 0 0 []) w ∧
      ∃ c ∈ w.threads, c.state = .returned none ∧ c.late = true ∧ c.place = none := by
  have hfirst : ((appenders crc32c).exec ⟨Log.opened bufferSize .always 0 0 [], []⟩
      [.spawn ⟨7, [97], [], 0, [1]⟩, .run 0 .healthy, .run 0 .healthy]).map (fun w =>
        (w.shared.fatal, w.shared.w.failed, w.shared.w.buf, w.shared.w.size,
          w.threads.map Call.state)) = some (false, false, [], bufferSize, [.synced 1 1 30]) := by
    decide +kernel
  obtain ⟨⟨l, ts⟩, hexec, hfacts⟩ := Option.map_eq_some_iff.mp hfirst
  simp only [Prod.mk.injEq] at hfacts
  obtain ⟨hfatal, hfailed, hbuf, hsize, hstates⟩ := hfacts
  obtain ⟨a, rfl, ha⟩ := List.map_eq_singleton_iff.mp hstates
  have hreach := Program.Reach.init.exec _ hexec
  -- The second caller poisons the log.
  obtain ⟨payload, hlen⟩ : ∃ payload : List UInt8, payload.length = bufferSize :=
    ⟨List.replicate bufferSize 0, List.length_replicate⟩
  have hok : appendRecord crc32c overflow.now ⟨7, [97], [], 0, payload⟩ =
      .ok (encode crc32c (Record.stamped overflow.now ⟨7, [97], [], 0, payload⟩)) := by
    rw [appendRecord, if_neg (by simp), if_neg (show ¬ (0 : Int32) < -1 by decide),
      if_neg (by simp), if_neg (by simp), if_neg (by rw [hlen]; decide)]
  obtain ⟨hfatal₂, hhurt₂⟩ := append_overflow crc32c hfatal ⟨hfailed, hbuf, hsize⟩
    (c := ⟨⟨7, [97], [], 0, payload⟩, none, false, .start⟩) hlen
  generalize hb : l.append crc32c ⟨⟨7, [97], [], 0, payload⟩, none, false, .start⟩ overflow = r
    at hfatal₂ hhurt₂
  have hsecond : (appenders crc32c).step
      ⟨l, [a, ⟨⟨7, [97], [], 0, payload⟩, none, false, .start⟩]⟩ (.run 1 overflow) =
      some ⟨r.1, [a, r.2]⟩ := by
    simp [Program.step, appenders, Call.step, hok, hb]
  have hreach := hreach.step (.spawn (⟨7, [97], [], 0, payload⟩ : Record)) (Guard.all_allows _ _)
    rfl
  have hreach := hreach.step _ (Guard.all_allows _ _) hsecond
  -- The first clears the error.
  have hround : (appenders crc32c).step ⟨r.1, [a, r.2]⟩ (.run 0 .healthy) =
      some ⟨{ r.1 with syncedGen := 1, syncErr := none, lastSync := 0, syncing := false },
        [a.returns none, r.2]⟩ := by
    simp [Program.step, appenders, Call.step, ha, Log.commit, hfatal₂, System.healthy]
  have hreach := hreach.step _ (Guard.all_allows _ _) hround
  -- The third returns at once.
  have hthird : (appenders crc32c).step
      ⟨{ r.1 with syncedGen := 1, syncErr := none, lastSync := 0, syncing := false },
        [a.returns none, r.2, ⟨⟨0, [97], [], 0, [2]⟩, none, false, .start⟩]⟩ (.run 2 .healthy) =
      some ⟨{ r.1 with syncedGen := 1, syncErr := none, lastSync := 0, syncing := false },
        [a.returns none, r.2, ⟨⟨0, [97], [], 0, [2]⟩, none, true, .returned none⟩]⟩ := by
    simp [Program.step, appenders, Call.step, appendRecord, maxPayloadSize, Log.append, hfatal₂,
      hhurt₂, Call.returns]
  have hspawn := hreach.step (.spawn (⟨0, [97], [], 0, [2]⟩ : Record)) (Guard.all_allows _ _) rfl
  refine ⟨_, hspawn.step _ (Guard.all_allows _ _) hthird,
    ⟨⟨0, [97], [], 0, [2]⟩, none, true, .returned none⟩, ?_, rfl, rfl, rfl⟩
  exact .tail _ (.tail _ (.head _))

end AgentBus.Wal
