import AgentBus.Lib.Serial
import AgentBus.Workflow.AttemptBound
import AgentBus.Workflow.History
import AgentBus.Workflow.Indexes
import AgentBus.Workflow.Poller

/-!
# The coordinator on a single node, one call at a time

The coordinator publishes through the server of its own process: what the coordinator takes
as a choice, whether a publish succeeds, is decided there by the checks of the envelope and
of the write-ahead log.  Calls follow one another; the clock may move between any two steps.

Along such a run the store is the fold of the log, the log is what the file records, and a
key is started at most once (`Sound`).

## Main definitions

* `System`, `system`, `System.call`, `System.run` — the runs.
* `Carries`, `Recorded` — what the file records.
* `Sound` — the invariant between the steps of a call.
-/

namespace AgentBus.Workflow

open AgentStream Broker Framing Grpcapi Pool

/-- The coordinator and the server it publishes through. -/
structure System where
  state : State
  server : Server

/-- A fresh process over an empty file. -/
def System.init (c : Config) : System := ⟨State.init c, ⟨[], Broker.new c.capacity⟩⟩

/-- What happens next: the call takes a step, or the clock moves. -/
abbrev Turn := Choice ⊕ Time

section
variable (sum : List UInt8 → UInt32) (c : Config)

/-- A call publishes its envelope; `append` of the source. -/
def System.publish (σ : System) (f : Frame) (stamp : Time) : System × Thread :=
  let r := σ.server.publishEnvelope sum σ.state.clock topic (f.event c stamp)
  match r.2 with
  | .ok _ =>
    (⟨{ σ.state with log := σ.state.log ++ [f.event c stamp] }, r.1⟩, .folding f stamp)
  | .error _ => (⟨σ.state, r.1⟩, f.onError)

/-- One step of a call. -/
def System.step (σ : System) : Thread → Choice → Option (System × Thread)
  | .publishing f stamp, .go => some (σ.publish sum c f stamp)
  | .publishing _ _, _ => none
  | t, l => (t.step c σ.state l).map fun r => (⟨r.1, σ.server⟩, r.2)

/-- The calls as threads; the environment is the clock. -/
def system : Program System Thread Request Choice Time where
  entry := .start
  thread := System.step sum c
  env σ now :=
    if σ.state.clock ≤ now then some ⟨{ σ.state with clock := now }, σ.server⟩ else none

/-- A call from its start to its return. -/
def System.call (σ : System) (r : Request) (us : List Turn) : Option System :=
  (system sum c).call Thread.finished σ r us

/-- A sequence of calls. -/
def System.run (σ : System) (calls : List (Request × List Turn)) : Option System :=
  (system sum c).serial Thread.finished σ calls

end

/-! ## What the file records -/

/-- The record `r` of the file carries the event `e`. -/
structure Carries (e : Event) (r : Wal.Record) : Prop where
  record : RecordOf topic r
  partition : r.partition = Int32.ofNat (keyPartition defaultTopicPartitions e.key)
  payload : parseEvent r.payload = some e

/-- The file of a server records the events of a log. -/
structure Recorded (sum : List UInt8 → UInt32) (s : Server) (log : List Event) : Prop where
  file : ∃ rs, s.wal = encodeAll (Wal.encode sum) rs ∧ List.Forall₂ Carries log rs
  broker : ∃ view, s.broker.Shows topic view

theorem recorded_init (sum : List UInt8 → UInt32) (c : Config) :
    Recorded sum (System.init c).server [] :=
  ⟨⟨[], rfl, .nil⟩, ⟨_, Broker.shows_new c.capacity topic⟩⟩

variable {e : Event} {c : Config} {x : Execution} {f : Frame} {m : Store}

/-- What publishing an envelope can do: nothing, or record it. -/
theorem Recorded.publishEnvelope {sum : List UInt8 → UInt32} {s : Server} {log : List Event}
    (h : Recorded sum s log) (hcomplete : e.Complete) (now : Time) :
    (∃ err, (s.publishEnvelope sum now topic e).2 = .error err ∧
        Recorded sum (s.publishEnvelope sum now topic e).1 log) ∨
      (∃ answer, (s.publishEnvelope sum now topic e).2 = .ok answer ∧ e.validate = .ok () ∧
        Recorded sum (s.publishEnvelope sum now topic e).1 (log ++ [e])) := by
  obtain ⟨⟨rs, hfile, hcarry⟩, view, hshows⟩ := h
  unfold Server.publishEnvelope
  cases hbs : e.marshal now with
  | error msg => exact .inl ⟨_, rfl, ⟨rs, hfile, hcarry⟩, view, hshows⟩
  | ok encoded =>
    obtain ⟨hvalid, hparse⟩ := parseEvent_marshal hcomplete hbs
    have hkey : e.key ≠ "" := sessionKey_ne _ _ _
    have hspec := Server.appendDurable_spec sum now hshows hkey encoded
    dsimp only
    generalize s.appendDurable sum now topic e.key encoded = r at hspec
    cases hspec with
    | refused b err shows' => exact .inl ⟨err, rfl, ⟨rs, hfile, hcarry⟩, view, shows'⟩
    | stored b r answer fits topic_eq partition_eq payload_eq shows' =>
      refine .inr ⟨answer, rfl, hvalid, ⟨rs ++ [r], ?_, ?_⟩, _, shows'⟩
      · simp [hfile, encodeAll]
      · have hlt := keyPartition_lt (by decide : 0 < defaultTopicPartitions) e.key
        refine List.rel_append hcarry
          (.cons ⟨⟨fits, topic_eq, _, hlt, partition_eq⟩, partition_eq, ?_⟩ .nil)
        rw [payload_eq, hparse]

/-! ## The invariant -/

/-- The attempts of an execution are counted in 64 bits, with room for the next lease. -/
structure Ranged (x : Execution) : Prop where
  bounded : Bounded x
  nonneg : 0 ≤ x.attempt
  lt : x.maxAttempts < 2 ^ 63

/-- A copy that still agrees with the store on how often the execution was leased. -/
def Current (m : Store) (x : Execution) : Prop :=
  ∃ y, m.find? x.key = some y ∧ y.attempt = x.attempt ∧ y.maxAttempts = x.maxAttempts

/-- A 64-bit attempt. -/
def InRange (n : ℤ) : Prop := 0 ≤ n ∧ n < 2 ^ 63

/-- What holds of a call in the middle of appending an event. -/
def Frame.Holds (m : Store) : Frame → Prop
  | .submit spec => m.find? (sessionKey spec.tenant spec.project spec.workflowID) = none
  | .grant _ _ attempt => InRange attempt
  | .heartbeat a => InRange a.attempt
  | .complete a => InRange a.attempt
  | .fail a x => a.attempt = x.attempt ∧ Current m x
  | .verdict a x => a.attempt = x.attempt ∧ Current m x
  | .sweep x rest _ => ∀ y ∈ x :: rest, Current m y

/-- What holds of a call between two of its steps. -/
def Thread.Holds (m : Store) : Thread → Prop
  | .granting _ x => m.find? x.key = some x ∧ x.status = .pending
  | .preparing f => f.Holds m
  | .publishing f _ => f.Holds m
  | .folding f _ => f.Holds m
  | .sweeping rest _ => ∀ y ∈ rest, Current m y
  | _ => True

/-- The invariant between the steps of a call: executions sit under their keys and count
their attempts in 64 bits, the store is the fold of the log up to an event about to be
folded, and no key is started twice. -/
structure Sound (c : Config) (s : State) (t : Thread) : Prop where
  retain : s.store.retainTerminal ≤ 0
  keyed : ∀ k x, s.store.find? k = some x → x.key = k
  ranged : ∀ k x, s.store.find? k = some x → Ranged x
  view : ∃ done, s.log = done ++ (t.folding? c).toList ∧
    ∀ k, (s.store.find? k).map Execution.folded = history k done
  once : s.log.Pairwise fun e e' => Starts e → Starts e' → e.key ≠ e'.key
  thread : t.Holds s.store

theorem sound_init (hret : c.retainTerminal ≤ 0) (r : Request) :
    Sound c (State.init c) (.start r) := by
  have hnone : ∀ k, (State.init c).store.find? k = none := fun k => rfl
  refine ⟨hret, ?_, ?_, ⟨[], rfl, ?_⟩, .nil, trivial⟩
  · intro k x hx
    rw [hnone] at hx
    cases hx
  · intro k x hx
    rw [hnone] at hx
    cases hx
  · intro k
    rw [hnone]
    rfl

/-! ## Attempts -/

theorem Ranged.inRange (h : Ranged x) : InRange x.attempt :=
  ⟨h.nonneg, Int.lt_of_le_of_lt h.bounded.le h.lt⟩

/-- There is room for the next lease of a pending execution. -/
theorem Ranged.inRange_succ (h : Ranged x) (hp : x.status = .pending) : InRange (x.attempt + 1) :=
  ⟨Int.add_nonneg h.nonneg (by decide),
    Int.lt_of_le_of_lt (Int.add_one_le_of_lt (h.bounded.pending hp)) h.lt⟩

/-- A submit of the coordinator starts an execution whose attempts fit. -/
theorem ranged_newExecution {stamp : Time} {ref : ℕ} {nx : Execution} (hty : f.type = .submitted)
    (h : newExecution ref (f.event c stamp) = some nx) : Ranged nx := by
  have hbounded := f.submitFits c stamp (by simp [hty]) ref nx h
  obtain ⟨spec, rfl⟩ := Frame.eq_submit_of_type hty
  have hread : SubmitPayload.unmarshal ((Frame.submit spec).event c stamp).payload =
      some (spec.payload c) := payload_unmarshal c spec
  simp only [newExecution, hread, Option.bind_eq_bind, Option.bind_some] at h
  split at h
  · cases h
  · cases h
    refine ⟨hbounded, le_refl (0 : ℤ), ?_⟩
    have hmax := c.maxAttempts_lt
    have hspec := spec.maxAttempts_lt
    simp only [Execution.record, SubmitSpec.payload]
    split <;> assumption

theorem Ranged.folds {x' : Execution} (h : Execution.Folds x e x')
    (hfits : eventType e = some .retry → x.attempt < x.maxAttempts) (hx : Ranged x) :
    Ranged x' := by
  refine ⟨hx.bounded.folds h hfits, ?_, ?_⟩
  · have hnonneg := hx.nonneg
    cases h with
    | leased p ty payload status attempt =>
      simp only [Execution.lease, Execution.record]
      omega
    | _ => exact hnonneg
  · have hlt := hx.lt
    cases h <;> exact hlt

/-- An event other than a lease leaves the attempts of every copy as they are. -/
theorem Current.apply (hret : m.retainTerminal ≤ 0) (h : Current m x)
    (hty : eventType e ≠ some .leased) : Current (m.apply e).1 x := by
  obtain ⟨y, hy, hatt, hmax⟩ := h
  unfold Current
  rw [Store.find?_apply hret, hy]
  by_cases hk : x.key = e.key
  · rw [if_pos hk, foldKey]
    cases hap : y.apply e with
    | none => exact ⟨y, rfl, hatt, hmax⟩
    | some y' =>
      refine ⟨y', rfl, ?_⟩
      cases Execution.apply_eq_some_iff.mp hap with
      | leased p ty payload status attempt => exact absurd ty hty
      | _ => exact ⟨hatt, hmax⟩
  · rw [if_neg hk]
    exact ⟨y, rfl, hatt, hmax⟩

/-- A retry is only decided on while there is an attempt left. -/
theorem Frame.Holds.retry_fits (h : f.Holds m) (hty : f.type = .retry)
    (hx : m.find? f.key = some x) : x.attempt < x.maxAttempts := by
  cases f with
  | verdict a y =>
    obtain ⟨ha, z, hz, hatt, hmax⟩ := h
    have hverdict : (a.verdict y).1 = .retry := hty
    rw [Frame.key, hz] at hx
    cases hx
    unfold FailCall.verdict at hverdict
    split at hverdict
    · rename_i hlt
      rw [hatt, hmax, ← ha]
      exact hlt.2
    · cases hverdict
  | sweep y rest n =>
    obtain ⟨z, hz, hatt, hmax⟩ := h y (by simp)
    have hverdict : (sweepVerdict y).1 = .retry := hty
    rw [Frame.key, hz] at hx
    cases hx
    unfold sweepVerdict at hverdict
    split at hverdict
    · rename_i hlt
      rw [hatt, hmax]
      exact hlt
    · cases hverdict
  | _ => cases hty

/-- The attempt an envelope carries is a 64-bit integer. -/
theorem Frame.Holds.inRange (h : f.Holds m) (hranged : ∀ k x, m.find? k = some x → Ranged x)
    (stamp : Time) : InRange (f.event c stamp).attempt := by
  have hcurrent : ∀ {x}, Current m x → InRange x.attempt := by
    intro x hx
    obtain ⟨y, hy, hatt, -⟩ := hx
    rw [← hatt]
    exact (hranged _ y hy).inRange
  cases f with
  | submit spec => exact ⟨le_refl (0 : ℤ), by simp [Frame.event, newEnvelope]⟩
  | grant b x attempt => exact h
  | heartbeat a => exact h
  | complete a => exact h
  | fail a x =>
    change InRange a.attempt
    rw [h.1]
    exact hcurrent h.2
  | verdict a x => exact hcurrent h.2
  | sweep x rest n => exact hcurrent (h x (by simp))

/-! ## The invariant along a call -/

section
variable {c : Config} {s s' : State} {t t' : Thread} {l : Choice} (h : Sound c s t)
include h

/-- A copy taken from the store is current. -/
theorem Sound.current {k : String} {x : Execution} (hx : s.store.find? k = some x) :
    Current s.store x := by
  have hk := h.keyed k x hx
  subst hk
  exact ⟨x, hx, rfl, rfl⟩

/-- A pointer just handed out shows the execution it was made from. -/
theorem Sound.deref {b : Batch} {x : Execution} (ht : t = .granting b x) :
    s.store.deref x = x ∧ InRange (x.attempt + 1) := by
  subst ht
  obtain ⟨hx, hp⟩ := h.thread
  exact ⟨Store.deref_of_find? hx rfl, (h.ranged _ x hx).inRange_succ hp⟩

/-- What holds after a step that leaves the shared state alone. -/
theorem Sound.quiet (hq : Quiet c s t l t') : t'.Holds s.store := by
  have hthread := h.thread
  cases hq with
  | submit spec absent => exact absent
  | heartbeat a =>
    refine heartbeatStart_ind s a (fun _ => trivial) ?_
    rintro x ⟨hx, -, hattempt, -⟩
    change InRange a.attempt
    rw [← hattempt]
    exact (h.ranged _ x hx).inRange
  | fail a =>
    refine failStart_ind s a (fun _ => trivial) ?_
    rintro x ⟨hx, -, hattempt, -⟩
    exact ⟨hattempt.symm, h.current hx⟩
  | read b x =>
    obtain ⟨hderef, hrange⟩ := h.deref rfl
    change InRange ((s.store.deref x).attempt + 1)
    rwa [hderef]
  | stamp f => exact hthread
  | error f stamp =>
    cases f with
    | sweep x rest n => exact fun y hy => hthread y (by simp [hy])
    | _ => trivial
  | reclaim x rest n => exact hthread
  | _ => trivial

/-- What holds after a fold. -/
theorem Sound.onFolded {f : Frame} {stamp : Time} (ht : t = .folding f stamp) :
    f.onFolded.Holds (s.store.apply (f.event c stamp)).1 := by
  subst ht
  have hthread : f.Holds s.store := h.thread
  cases f with
  | fail a x => exact ⟨hthread.1, hthread.2.apply h.retain (by simp [Frame.type])⟩
  | sweep x rest n =>
    intro y hy
    refine (hthread y (by simp [hy])).apply h.retain ?_
    rw [Frame.eventType_event]
    rcases Frame.sweepVerdict_eq x with hv | hv <;> simp [Frame.type, hv]
  | _ => trivial

/-- **What holds of the call after each of its steps.** -/
theorem Sound.holds (hs : Steps c s t l s' t') : t'.Holds s'.store := by
  cases hs with
  | quiet t t' l hq => exact h.quiet hq
  | begin a r hb =>
    cases hb with
    | refused duplicate => trivial
    | fenced x present live current leased free =>
      change InRange a.attempt
      rw [← current]
      exact (h.ranged _ x present).inRange
  | reserve b r hr =>
    cases hr with
    | nothing stale =>
      rcases b.onReserve_cases none with ⟨x, hx, -⟩ | hx | hx
      · cases hx
      · rw [hx]; trivial
      · rw [hx]; trivial
    | found pre rest k x split stale present pending free =>
      have hk := h.keyed k x present
      subst hk
      exact ⟨Store.find?_put_self _ _ _, pending⟩
  | wait b => trivial
  | publish f stamp valid => exact h.thread
  | fold f stamp => exact h.onFolded rfl
  | unreserve b x => trivial
  | abort a => trivial
  | expire now order perm =>
    intro y hy
    obtain ⟨k, -, hk⟩ := List.mem_filterMap.mp hy
    exact h.current (Option.filter_eq_some_iff.mp hk).1

/-- No key is started twice: a submit is published while its key is unknown. -/
theorem Sound.once_publish {f : Frame} {stamp : Time} (ht : t = .publishing f stamp) :
    (s.log ++ [f.event c stamp]).Pairwise fun e e' => Starts e → Starts e' → e.key ≠ e'.key := by
  subst ht
  refine List.pairwise_append.mpr ⟨h.once, List.pairwise_singleton .., ?_⟩
  intro e he e' he' hstart hstart' hkey
  rw [List.mem_singleton] at he'
  subst he'
  obtain ⟨done, hlog, hview⟩ := h.view
  replace hlog : s.log = done := by simpa [Thread.folding?] using hlog
  obtain ⟨spec, rfl⟩ := Frame.eq_submit_of_type (f := f) (by simpa using hstart'.1)
  have habsent : s.store.find? (Frame.submit spec).key = none := h.thread
  have hnone := hview (Frame.submit spec).key
  rw [habsent, Option.map_none, eq_comm, history_eq_none_iff] at hnone
  exact hnone e (hlog ▸ he) (by simpa using hkey) hstart

/-- The store stays the fold of the log. -/
theorem Sound.view_steps (hs : Steps c s t l s' t') :
    ∃ done, s'.log = done ++ (t'.folding? c).toList ∧
      ∀ k, (s'.store.find? k).map Execution.folded = history k done := by
  obtain ⟨done, hlog, hview⟩ := h.view
  rcases hs.log_cases with ⟨hsame, hnext⟩ | ⟨f, stamp, rfl, rfl, rfl⟩
  · refine ⟨done ++ (t.folding? c).toList, by rw [hsame, hlog, hnext]; simp, ?_⟩
    intro k
    cases ht : t.folding? c with
    | none =>
      rw [Option.toList_none, List.append_nil, hs.folded_find? ht]
      exact hview k
    | some e =>
      cases hs with
      | fold f stamp =>
        cases ht
        dsimp only
        rw [Store.view_apply h.retain, hview, Option.toList_some, history_concat]
      | quiet t t' l hq => cases hq <;> cases ht
      | _ => cases ht
  · exact ⟨done, by simpa [Thread.folding?] using hlog, hview⟩

/-- **Every step of a call keeps the invariant.** -/
theorem Sound.steps (hs : Steps c s t l s' t') : Sound c s' t' := by
  refine ⟨?_, ?_, ?_, ?_, ?_, h.holds hs⟩
  · rw [hs.retainTerminal]
    exact h.retain
  · refine hs.forall_find? (P := fun k x => x.key = k) (fun _ _ _ _ hx => hx) ?_ ?_ h.keyed
    · intro f stamp ref nx _ _ hnx
      rw [(Store.newExecution_spec hnx).1, Frame.key_event]
    · intro f stamp x x' _ _ hfolds hx
      exact (Store.sameWork_of_folds hfolds).key.trans hx
  · refine hs.forall_find? (P := fun _ x => Ranged x) ?_ ?_ ?_ h.ranged
    · intro k x r g hx
      exact ⟨⟨hx.bounded.le, hx.bounded.pending⟩, hx.nonneg, hx.lt⟩
    · intro f stamp ref nx _ hty hnx
      exact ranged_newExecution hty hnx
    · intro f stamp x x' ht hx hfolds hrx
      subst ht
      have hthread : f.Holds s.store := h.thread
      exact hrx.folds hfolds fun ty => hthread.retry_fits (by simpa using ty) hx
  · exact h.view_steps hs
  · rcases hs.log_cases with ⟨hlog, -⟩ | ⟨f, stamp, ht, -, rfl⟩
    · rw [hlog]
      exact h.once
    · exact h.once_publish ht

/-- A call that has returned leaves nothing to be folded. -/
theorem Sound.settle (hfin : t.finished = true) :
    (∀ r, Sound c s (.start r)) ∧
      ∀ k, (s.store.find? k).map Execution.folded = history k s.log := by
  have hnone : t.folding? c = none := by
    cases t <;> first | rfl | cases hfin
  obtain ⟨done, hlog, hview⟩ := h.view
  rw [hnone, Option.toList_none, List.append_nil] at hlog
  subst hlog
  exact ⟨fun r => ⟨h.retain, h.keyed, h.ranged, ⟨_, by simp [Thread.folding?], hview⟩, h.once,
    trivial⟩, hview⟩

end

/-! ## The invariant along a run -/

theorem format_ne (t : Time) : t.format ≠ "" := by
  intro h
  have hlen := congrArg String.length h
  simp [Time.format] at hlen

/-- The envelopes of the coordinator leave nothing to fill in. -/
theorem Frame.complete_event {stamp : Time} (h : InRange (f.event c stamp).attempt) :
    (f.event c stamp).Complete := by
  have hge : -2 ^ 63 ≤ (f.event c stamp).attempt := by
    have := h.1
    omega
  refine ⟨?_, ?_, ?_, hge, h.2⟩
  · cases f <;> simp [Frame.event, reasonEvent, newEnvelope]
  · cases f <;> exact format_ne stamp
  · cases f <;> rfl

/-- The invariant of the system between the steps of a call. -/
structure System.Sound (sum : List UInt8 → UInt32) (c : Config) (σ : System) (t : Thread) :
    Prop where
  state : Workflow.Sound c σ.state t
  recorded : Recorded sum σ.server σ.state.log

section
variable {sum : List UInt8 → UInt32} {c : Config}

variable {σ σ' : System}

/-- The coordinator is refined: what the server decides is one of the choices. -/
theorem System.Sound.publish {f : Frame} {stamp : Time} (h : σ.Sound sum c (.publishing f stamp)) :
    (σ.publish sum c f stamp).1.Sound sum c (σ.publish sum c f stamp).2 := by
  have hholds : f.Holds σ.state.store := h.state.thread
  have hcomplete := Frame.complete_event (hholds.inRange (c := c) h.state.ranged stamp)
  unfold System.publish
  rcases h.recorded.publishEnvelope hcomplete σ.state.clock with
    ⟨err, herr, hrec⟩ | ⟨answer, hok, hvalid, hrec⟩
  · simp only [herr]
    generalize (σ.server.publishEnvelope sum σ.state.clock topic (f.event c stamp)).1 = server at *
    exact ⟨h.state.steps (.quiet _ _ _ (.error f stamp)), hrec⟩
  · simp only [hok]
    generalize (σ.server.publishEnvelope sum σ.state.clock topic (f.event c stamp)).1 = server at *
    exact ⟨h.state.steps (.publish f stamp hvalid), hrec⟩

/-- **Every step keeps the invariant.** -/
theorem System.Sound.step {t t' : Thread} {l : Choice} (h : σ.Sound sum c t)
    (hl : σ.step sum c t l = some (σ', t')) : σ'.Sound sum c t' := by
  unfold System.step at hl
  split at hl
  · have hpub := h.publish
    rw [Option.some.inj hl] at hpub
    exact hpub
  · cases hl
  · rename_i hother _
    obtain ⟨⟨s₁, t₁⟩, hstep, heq⟩ := Option.map_eq_some_iff.mp hl
    cases heq
    have hsteps := Thread.step_spec hstep
    refine ⟨h.state.steps hsteps, ?_⟩
    rcases hsteps.log_cases with ⟨hlog, -⟩ | ⟨f, stamp, ht, -⟩
    · dsimp only
      rw [hlog]
      exact h.recorded
    · exact absurd ht (hother f stamp)

/-- The clock moves. -/
theorem System.Sound.tick {t : Thread} {now : Time} (h : σ.Sound sum c t)
    (henv : (system sum c).env σ now = some σ') : σ'.Sound sum c t := by
  obtain ⟨-, heq⟩ := Option.ite_none_right_eq_some.mp henv
  cases heq
  have hs := h.state
  exact ⟨⟨hs.retain, hs.keyed, hs.ranged, hs.view, hs.once, hs.thread⟩, h.recorded⟩

/-- Between two calls the store is the fold of the log. -/
structure System.Settled (sum : List UInt8 → UInt32) (c : Config) (σ : System) : Prop where
  sound : ∀ r, σ.Sound sum c (.start r)
  view : ∀ k, (σ.state.store.find? k).map Execution.folded = history k σ.state.log

theorem System.settled_init (sum : List UInt8 → UInt32) (hret : c.retainTerminal ≤ 0) :
    (System.init c).Settled sum c :=
  ⟨fun r => ⟨sound_init hret r, recorded_init sum c⟩, fun _ => rfl⟩

/-- **After any sequence of calls** the store is the fold of the log, and the file records
the log. -/
theorem System.Settled.run {calls : List (Request × List Turn)} (h : σ.Settled sum c)
    (hσ : σ.run sum c calls = some σ') : σ'.Settled sum c := by
  refine Program.serial_invariant (I := fun σ t => System.Sound sum c σ t)
    (J := System.Settled sum c) (fun σ r hs => hs.sound r) (fun _ _ _ _ _ hs hl => hs.step hl)
    (fun _ _ _ _ hs henv => hs.tick henv) ?_ h hσ
  intro σ t hs hfin
  obtain ⟨hstart, hview⟩ := hs.state.settle hfin
  exact ⟨fun r => ⟨hstart r, hs.recorded⟩, hview⟩

end
end AgentBus.Workflow
