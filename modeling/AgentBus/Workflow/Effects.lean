import AgentBus.Workflow.Store
import Mathlib.Data.List.Induction

/-!
# The events that take effect

Which events of a history take effect can be told from the history alone.  `effective` goes through
the events of one key and keeps those that do: a submit if it is the first, a lease that carries the
next number when the execution waits for one, and so on (`Takes`).  What an execution is at is then
said by the events that took effect before: the last one other than a heartbeat is its `phase`, and
as many attempts were made as there are `leases`.

`Tracks` connects this with the store: the execution under a key shows what the effective events of
the key say, however the events of other keys lie between them and whatever the run-time flags are.

## Main definitions

* `phase`, `leases`, `holder` — what a list of effective events says.
* `Takes`, `effective` — the events that take effect.
* `Records`, `Tracks` — an execution that shows them.
-/

namespace AgentBus.Workflow

open AgentStream

namespace Effects

/-! ## Histories -/

/-- The payload is one of the event's kind, and names a task if it is a submit. -/
def readable (e : Event) : Bool :=
  match eventType e with
  | some .submitted => (SubmitPayload.unmarshal e.payload).any fun p => p.taskType ≠ ""
  | some .leased | some .heartbeat => (LeasePayload.unmarshal e.payload).isSome
  | some .completed => (CompletePayload.unmarshal e.payload).isSome
  | some .failed => (FailPayload.unmarshal e.payload).isSome
  | some .retry | some .dead => (ReasonPayload.unmarshal e.payload).isSome
  | none => false

/-- The worker of a lease or a heartbeat. -/
def worker? (e : Event) : Option String := (LeasePayload.unmarshal e.payload).map (·.workerID)

/-- The kind of the last event other than a heartbeat. -/
def phase (taken : List Event) : Option EventType :=
  (taken.filterMap eventType).reverse.find? (· ≠ .heartbeat)

/-- The number of leases. -/
def leases (taken : List Event) : ℤ := taken.countP fun e => eventType e = some .leased

/-- The worker of the last lease. -/
def holder (taken : List Event) : Option String :=
  (taken.filter fun e => eventType e = some .leased).getLast?.bind worker?

/-- The time of the last event. -/
def lastTime (taken : List Event) : Option Time := taken.getLast?.map eventTime

/-- A submit took effect and nothing that ends it. -/
def Live (taken : List Event) : Prop :=
  phase taken ≠ none ∧ phase taken ≠ some .completed ∧ phase taken ≠ some .dead

instance (taken : List Event) : Decidable (Live taken) := inferInstanceAs (Decidable (_ ∧ _ ∧ _))

/-- An attempt was leased and not taken back. -/
def Open (taken : List Event) : Prop := phase taken = some .leased ∨ phase taken = some .failed

instance (taken : List Event) : Decidable (Open taken) := inferInstanceAs (Decidable (_ ∨ _))

/-- The event takes effect after those that did before. -/
def Takes (taken : List Event) (e : Event) : Prop :=
  readable e = true ∧
    match eventType e with
    | some .submitted => taken = []
    | some .leased =>
      (phase taken = some .submitted ∨ phase taken = some .retry) ∧
        e.attempt = leases taken + 1
    | some .heartbeat =>
      phase taken = some .leased ∧ e.attempt = leases taken ∧ worker? e = holder taken
    | some .completed => Live taken ∧ e.attempt = leases taken ∧ e.attempt ≠ 0
    | some .failed => phase taken = some .leased ∧ e.attempt = leases taken
    | some .retry => Open taken
    | some .dead => Live taken
    | none => False

instance (taken : List Event) (e : Event) : Decidable (Takes taken e) := by
  unfold Takes
  split <;> infer_instance

/-- One more event is delivered. -/
def take (taken : List Event) (e : Event) : List Event :=
  if Takes taken e then taken ++ [e] else taken

/-- The events of a key that take effect. -/
def effective (k : String) (es : List Event) : List Event :=
  (es.filter fun e => e.key = k).foldl take []

theorem effective_concat (k : String) (es : List Event) (e : Event) :
    effective k (es ++ [e]) =
      if e.key = k then take (effective k es) e else effective k es := by
  rw [effective, effective, List.filter_append, List.foldl_append]
  by_cases hk : e.key = k <;> simp [hk]

section
variable {taken : List Event} {e : Event}

@[simp] theorem phase_concat {ty : EventType} (h : eventType e = some ty) (hne : ty ≠ .heartbeat) :
    phase (taken ++ [e]) = some ty := by
  simp [phase, h, hne]

theorem phase_concat_heartbeat (h : eventType e = some .heartbeat) :
    phase (taken ++ [e]) = phase taken := by
  simp [phase, h]

theorem phase_ne_heartbeat (taken : List Event) : phase taken ≠ some .heartbeat := by
  intro h
  have := List.find?_some h
  simp at this

theorem leases_concat_leased (h : eventType e = some .leased) :
    leases (taken ++ [e]) = leases taken + 1 := by
  simp [leases, h]

@[simp] theorem leases_concat (h : eventType e ≠ some .leased) :
    leases (taken ++ [e]) = leases taken := by
  simp [leases, h]

theorem holder_concat_leased (h : eventType e = some .leased) :
    holder (taken ++ [e]) = worker? e := by
  simp [holder, h]

@[simp] theorem holder_concat (h : eventType e ≠ some .leased) :
    holder (taken ++ [e]) = holder taken := by
  simp [holder, h]

@[simp] theorem lastTime_concat : lastTime (taken ++ [e]) = some (eventTime e) := by
  simp [lastTime]

end

/-! ## What took effect once -/

/-- The execution has ended. -/
def Over (taken : List Event) : Prop := phase taken = some .completed ∨ phase taken = some .dead

/-- What an event leaves behind: its attempt is used up, or the execution has ended.  A retry and a
heartbeat leave nothing. -/
def Settled (taken : List Event) (e : Event) : Prop :=
  match eventType e with
  | some .submitted => taken ≠ []
  | some .leased => e.attempt ≤ leases taken
  | some .failed =>
    e.attempt < leases taken ∨ e.attempt = leases taken ∧ phase taken ≠ some .leased
  | some .completed | some .dead => Over taken
  | _ => True

section
variable {taken : List Event} {d e : Event}

theorem Over.not_takes (h : Over taken) : ¬ Takes taken e := by
  rintro ⟨-, htakes⟩
  have hphase : phase taken ≠ none := by rcases h with h | h <;> simp [h]
  split at htakes
  · subst htakes
    exact hphase rfl
  all_goals rcases h with h | h <;> simp_all [Live, Open]

/-- What is settled stays so. -/
theorem Settled.take (h : Settled taken e) (hd : Takes taken d) : Settled (taken ++ [d]) e := by
  have hleases : leases taken ≤ leases (taken ++ [d]) := by
    by_cases hty : eventType d = some .leased
    · rw [leases_concat_leased hty]
      omega
    · exact Int.le_of_eq (leases_concat hty).symm
  unfold Settled at h ⊢
  split at h <;> rename_i hkind
  · simp
  · omega
  · by_cases hty : eventType d = some .leased
    · rw [leases_concat_leased hty]
      omega
    · rw [leases_concat hty]
      refine h.imp_right fun hleft => ⟨hleft.1, ?_⟩
      cases hd' : eventType d with
      | none => simpa [phase, hd'] using hleft.2
      | some ty =>
        by_cases hbeat : ty = .heartbeat
        · rw [phase_concat_heartbeat (hbeat ▸ hd')]
          exact hleft.2
        · rw [phase_concat hd' hbeat]
          exact hd' ▸ hty
  · exact absurd hd h.not_takes
  · exact absurd hd h.not_takes
  · trivial

theorem Takes.settled (h : Takes taken e) : Settled (taken ++ [e]) e := by
  obtain ⟨-, h⟩ := h
  unfold Settled
  split <;> rename_i hty
  · simp
  · simp only [hty] at h
    rw [leases_concat_leased hty]
    omega
  · simp only [hty] at h
    rw [leases_concat (by simp [hty]), phase_concat hty (by simp)]
    exact .inr ⟨h.2, by simp⟩
  · exact .inl (phase_concat hty (by simp))
  · exact .inr (phase_concat hty (by simp))
  · trivial

/-- Only a retry and a heartbeat may take effect a second time. -/
theorem Settled.not_takes (h : Settled taken e) (hretry : eventType e ≠ some .retry)
    (hbeat : eventType e ≠ some .heartbeat) : ¬ Takes taken e := by
  rintro ⟨-, htakes⟩
  unfold Settled at h
  split at h
  case h_6 => grind
  all_goals
    rename_i hty
    simp only [hty] at htakes
  · exact h htakes
  · have := htakes.2
    omega
  · rcases h with h | h
    · have := htakes.2
      omega
    · exact h.2 htakes.1
  · exact h.elim htakes.1.2.1 htakes.1.2.2
  · exact h.elim htakes.2.1 htakes.2.2

end

variable {k : String} {es : List Event} {e : Event}

/-- A rule for effective events: it holds of them if each holds when it takes effect. -/
theorem effective_ind {P : List Event → Prop} (nil : P [])
    (take : ∀ taken e, e.key = k → Takes taken e → P taken → P (taken ++ [e])) (es : List Event) :
    P (effective k es) := by
  induction es using List.reverseRecOn with
  | nil => exact nil
  | append_singleton es e ih =>
    rw [effective_concat, Effects.take]
    split
    · split
      · exact take _ e ‹_› ‹_› ih
      · exact ih
    · exact ih

/-- **What took effect is settled** ever after. -/
theorem settled_effective (k : String) (es : List Event) :
    ∀ e ∈ effective k es, Settled (effective k es) e := by
  refine effective_ind (P := fun taken => ∀ e ∈ taken, Settled taken e) (by simp) ?_ es
  intro taken d _ htakes ih e he
  rcases List.mem_append.mp he with he | he
  · exact (ih e he).take htakes
  · rw [List.mem_singleton.mp he]
    exact htakes.settled

theorem readable_of_mem_effective (he : e ∈ effective k es) : readable e = true := by
  refine effective_ind (P := fun taken => ∀ e ∈ taken, readable e = true) (by simp) ?_ es e he
  intro taken d _ htakes ih e he
  rcases List.mem_append.mp he with he | he
  · exact ih e he
  · rw [List.mem_singleton.mp he]
    exact htakes.1

theorem eventType_of_takes_nil (h : Takes [] e) : eventType e = some .submitted := by
  obtain ⟨-, h⟩ := h
  split at h <;> simp_all [phase, Live, Open]

/-- The first event that takes effect is a submit. -/
theorem exists_submitted_of_effective (k : String) (es : List Event) (h : effective k es ≠ []) :
    ∃ d ∈ effective k es, eventType d = some .submitted := by
  refine effective_ind (P := fun taken => taken ≠ [] → ∃ d ∈ taken, eventType d = some .submitted)
    (by simp) ?_ es h
  intro taken d _ htakes ih _
  by_cases hnil : taken = []
  · subst hnil
    exact ⟨d, by simp, eventType_of_takes_nil htakes⟩
  · obtain ⟨e, he, hty⟩ := ih hnil
    exact ⟨e, List.mem_append_left _ he, hty⟩

theorem mem_of_mem_effective (he : e ∈ effective k es) : e ∈ es ∧ e.key = k := by
  induction es using List.reverseRecOn with
  | nil => cases he
  | append_singleton es d ih =>
    rw [effective_concat, take] at he
    have hbefore (he : e ∈ effective k es) := (ih he).imp_left (List.mem_append_left [d])
    split_ifs at he with hkey htakes
    · rcases List.mem_append.mp he with he | he
      · exact hbefore he
      · rw [List.mem_singleton.mp he]
        exact ⟨by simp, hkey⟩
    · exact hbefore he
    · exact hbefore he

/-- A submit of the key takes effect, unless one has before. -/
theorem effective_ne_nil (he : e ∈ es) (hty : eventType e = some .submitted)
    (hread : readable e = true) : effective e.key es ≠ [] := by
  induction es using List.reverseRecOn with
  | nil => cases he
  | append_singleton es d ih =>
    rw [effective_concat]
    split
    · rw [take]
      split
      · simp
      · rename_i hno
        rcases List.mem_append.mp he with he | he
        · exact ih he
        · rw [← List.mem_singleton.mp he] at hno
          exact fun hnil => hno ⟨hread, by simp [hty, hnil]⟩
    · rename_i hkey
      rcases List.mem_append.mp he with he | he
      · exact ih he
      · exact absurd (by rw [List.mem_singleton.mp he]) hkey

/-- A submit without a rival takes effect. -/
theorem mem_effective_of_sole (he : e ∈ es) (hty : eventType e = some .submitted)
    (hread : readable e = true)
    (hsole : ∀ d ∈ es, d.key = e.key → eventType d = some .submitted → d = e) :
    e ∈ effective e.key es := by
  obtain ⟨d, hd, hsubmit⟩ := exists_submitted_of_effective e.key es (effective_ne_nil he hty hread)
  obtain ⟨hmem, hkey⟩ := mem_of_mem_effective hd
  rwa [hsole d hmem hkey hsubmit] at hd

/-! ## What an execution shows -/

/-- The status after an event of a kind. -/
def EventType.status : EventType → Status
  | .submitted | .retry => .pending
  | .leased | .heartbeat => .running
  | .failed => .retrying
  | .completed => .completed
  | .dead => .failed

/-- The execution shows what the effective events say. -/
structure Records (taken : List Event) (x : Execution) : Prop where
  status : (phase taken).map EventType.status = some x.status
  attempt : x.attempt = leases taken
  worker : x.status = .running → holder taken = some x.workerID
  updated : x.status = .running → lastTime taken = some x.updatedAt
  deadline : x.status = .running → x.leaseDeadline = x.updatedAt + x.leaseTTL

/-- A key without an execution has no effective events, and one with an execution shows them. -/
def Tracks (taken : List Event) : Option Execution → Prop
  | none => taken = []
  | some x => Records taken x

section
variable {taken : List Event} {e : Event} {x x' : Execution}

theorem Records.phase_iff (h : Records taken x) :
    (x.status = .running ↔ phase taken = some .leased) ∧
      (x.status = .pending ↔ phase taken = some .submitted ∨ phase taken = some .retry) ∧
      (x.status = .retrying ↔ phase taken = some .failed) ∧
      (x.terminal = false ↔ Live taken) ∧ taken ≠ [] := by
  obtain ⟨ty, hty, hs⟩ := Option.map_eq_some_iff.mp h.status
  have hne : taken ≠ [] := by
    rintro rfl
    cases hty
  have hbeat := phase_ne_heartbeat taken
  cases ty <;> simp_all [EventType.status, Execution.terminal, Live, ← hs]

/-- **An event takes effect exactly if the execution accepts it.** -/
theorem Records.takes_iff (h : Records taken x) : Takes taken e ↔ ∃ x', Execution.Folds x e x' := by
  obtain ⟨hrunning, hpending, hretrying, hlive, hne⟩ := h.phase_iff
  constructor
  · rintro ⟨hread, htakes⟩
    unfold readable at hread
    split at htakes <;> rename_i hty <;> simp only [hty] at hread
    · exact absurd htakes hne
    · obtain ⟨p, hp⟩ := Option.isSome_iff_exists.mp hread
      exact ⟨_, .leased p hty hp (hpending.mpr htakes.1) (h.attempt ▸ htakes.2)⟩
    · obtain ⟨p, hp⟩ := Option.isSome_iff_exists.mp hread
      have hstatus := hrunning.mpr htakes.1
      have hworker := htakes.2.2.trans (h.worker hstatus)
      rw [worker?, hp, Option.map_some, Option.some.injEq] at hworker
      exact ⟨_, .heartbeat p hty hp hstatus (h.attempt ▸ htakes.2.1) hworker⟩
    · obtain ⟨p, hp⟩ := Option.isSome_iff_exists.mp hread
      exact ⟨_, .completed p hty hp (hlive.mpr htakes.1) (h.attempt ▸ htakes.2.1) htakes.2.2⟩
    · obtain ⟨p, hp⟩ := Option.isSome_iff_exists.mp hread
      exact ⟨_, .failed p hty hp (hrunning.mpr htakes.1) (h.attempt ▸ htakes.2)⟩
    · obtain ⟨p, hp⟩ := Option.isSome_iff_exists.mp hread
      exact ⟨_, .retry p hty hp (htakes.imp hrunning.mpr hretrying.mpr)⟩
    · obtain ⟨p, hp⟩ := Option.isSome_iff_exists.mp hread
      exact ⟨_, .dead p hty hp (hlive.mpr htakes)⟩
    · exact htakes.elim
  · rintro ⟨x', hfolds⟩
    cases hfolds with
    | leased p ty payload status attempt =>
      simp [Takes, readable, ty, payload, hpending.mp status, attempt, h.attempt]
    | heartbeat p ty payload status attempt worker =>
      simp [Takes, readable, worker?, ty, payload, hrunning.mp status, attempt, h.attempt,
        h.worker status, worker]
    | completed p ty payload live attempt leased =>
      have hleased : leases taken ≠ 0 := h.attempt ▸ attempt ▸ leased
      simp [Takes, readable, ty, payload, hlive.mp live, attempt, h.attempt, hleased]
    | failed p ty payload status attempt =>
      simp [Takes, readable, ty, payload, hrunning.mp status, attempt, h.attempt]
    | retry p ty payload status =>
      simp [Takes, readable, ty, payload, Open, status.imp hrunning.mp hretrying.mp]
    | dead p ty payload live => simp [Takes, readable, ty, payload, hlive.mp live]

/-- After an event of another kind no attempt runs. -/
theorem records_of_stopped {ty : EventType} (hty : eventType e = some ty)
    (hkind : ty ≠ .heartbeat ∧ ty ≠ .leased) (hstatus : x.status = EventType.status ty)
    (hstopped : x.status ≠ .running) (hattempt : x.attempt = leases taken) :
    Records (taken ++ [e]) x where
  status := by rw [phase_concat hty hkind.1, hstatus, Option.map_some]
  attempt := by rw [leases_concat (by simp [hty, hkind.2]), hattempt]
  worker := fun hs => absurd hs hstopped
  updated := fun hs => absurd hs hstopped
  deadline := fun hs => absurd hs hstopped

/-- An event that is accepted is one more effective event. -/
theorem Records.folds (h : Records taken x) (hfolds : Execution.Folds x e x') :
    Records (taken ++ [e]) x' := by
  cases hfolds with
  | leased p ty payload status attempt =>
    refine ⟨by rw [phase_concat ty (by simp)]; rfl, ?_, fun _ => ?_, fun _ => lastTime_concat,
      fun _ => rfl⟩
    · rw [leases_concat_leased ty, ← h.attempt, ← attempt]
      rfl
    · rw [holder_concat_leased ty, worker?, payload]
      rfl
  | heartbeat p ty payload status attempt worker =>
    refine ⟨by rw [phase_concat_heartbeat ty]; exact h.status, ?_, fun hs => ?_,
      fun _ => lastTime_concat, fun _ => rfl⟩
    · rw [leases_concat (by simp [ty])]
      exact h.attempt
    · rw [holder_concat (by simp [ty])]
      exact h.worker hs
  | completed p ty => exact records_of_stopped ty (by simp) rfl Status.noConfusion h.attempt
  | failed p ty => exact records_of_stopped ty (by simp) rfl Status.noConfusion h.attempt
  | retry p ty => exact records_of_stopped ty (by simp) rfl Status.noConfusion h.attempt
  | dead p ty => exact records_of_stopped ty (by simp) rfl Status.noConfusion h.attempt

/-- **A key gets an execution** with the first submit that takes effect. -/
theorem takes_nil_iff (ref : ℕ) : Takes [] e ↔ ∃ x, foldKey ref none e = some x := by
  by_cases hty : eventType e = some .submitted
  · have hread : readable e = true ↔ newExecution ref e ≠ none := by
      simp [readable, hty, newExecution_eq_none_iff, Option.any_eq_true]
    rw [foldKey, if_pos hty, ← Option.ne_none_iff_exists', ← hread]
    simp [Takes, hty]
  · have hno : ¬ Takes [] e := fun htakes => hty (eventType_of_takes_nil htakes)
    simp [hno, foldKey, hty]

theorem records_of_foldKey {ref : ℕ} (h : foldKey ref none e = some x) : Records [e] x := by
  rw [foldKey, Option.ite_none_right_eq_some] at h
  obtain ⟨hty, h⟩ := h
  obtain ⟨p, hp, hx⟩ := Option.bind_eq_some_iff.mp h
  split at hx <;> cases hx
  rw [← List.nil_append [e]]
  exact records_of_stopped hty (by simp) rfl Status.noConfusion rfl

/-- **The fold of an event of its own key** adds it to the effective events if it takes effect. -/
theorem Tracks.foldKey {o : Option Execution} (h : Tracks taken o) (ref : ℕ) (e : Event) :
    Tracks (take taken e) (foldKey ref o e) := by
  cases o with
  | none =>
    subst h
    have hiff := takes_nil_iff (e := e) ref
    cases hx : Workflow.foldKey ref none e with
    | none => simp [take, hiff, hx, Tracks]
    | some x =>
      rw [take, if_pos (hiff.mpr ⟨x, hx⟩)]
      exact records_of_foldKey hx
  | some x =>
    have hiff := Records.takes_iff (e := e) h
    rw [Workflow.foldKey]
    cases hap : x.apply e with
    | none =>
      have hno : ¬ Takes taken e := by
        rw [hiff]
        rintro ⟨x', hx'⟩
        rw [Execution.apply_eq_some_iff.mpr hx'] at hap
        cases hap
      rw [take, if_neg hno]
      exact h
    | some x' =>
      have hx' := Execution.apply_eq_some_iff.mp hap
      rw [take, if_pos (hiff.mpr ⟨x', hx'⟩)]
      exact Records.folds h hx'

end

/-- The run-time flags do not matter. -/
theorem Tracks.congr {taken : List Event} {o o' : Option Execution} (h : Tracks taken o)
    (heq : o'.map Execution.folded = o.map Execution.folded) : Tracks taken o' := by
  cases o with
  | none =>
    rw [Option.map_none, Option.map_eq_none_iff] at heq
    rw [heq]
    exact h
  | some x =>
    obtain ⟨y, rfl, hy⟩ := Option.map_eq_some_iff.mp heq
    have hrecords : Records taken x.folded :=
      ⟨h.status, h.attempt, h.worker, h.updated, h.deadline⟩
    rw [← hy] at hrecords
    exact ⟨hrecords.status, hrecords.attempt, hrecords.worker, hrecords.updated,
      hrecords.deadline⟩

end Effects

namespace Store

open Effects

/-- **`Apply` answers whether the event takes effect.** -/
theorem apply_snd_iff {s : Store} {taken : List Event} {e : Event}
    (h : Tracks taken (s.find? e.key)) : (s.apply e).2 = true ↔ Takes taken e := by
  have hspec := apply_spec s e
  generalize s.apply e = r at hspec
  cases hspec with
  | ignored refused unusable =>
    refine iff_of_false (by simp) ?_
    cases hx : s.find? e.key with
    | none =>
      rw [hx] at h
      rw [show taken = [] from h, takes_nil_iff s.refs, unusable hx]
      simp
    | some x =>
      rw [hx] at h
      rw [Records.takes_iff h]
      rintro ⟨x', hx'⟩
      have hnone := refused x hx
      rw [Execution.apply_eq_some_iff.mpr hx'] at hnone
      cases hnone
  | tracked nx ty absent valid =>
    rw [absent] at h
    rw [show taken = [] from h, takes_nil_iff s.refs]
    exact iff_of_true rfl ⟨nx, by rw [foldKey, if_pos ty, valid]⟩
  | folded x x' present changed =>
    rw [present] at h
    exact iff_of_true rfl ((Records.takes_iff h).mpr
      ⟨x', Execution.apply_eq_some_iff.mp changed⟩)

/-- One more event is folded into a store without retention. -/
theorem tracks_apply {s : Store} (hretain : s.retainTerminal ≤ 0) {es : List Event}
    (h : ∀ k, Tracks (effective k es) (s.find? k)) (e : Event) (k : String) :
    Tracks (effective k (es ++ [e])) ((s.apply e).1.find? k) := by
  rw [effective_concat, find?_apply hretain]
  by_cases hk : e.key = k
  · rw [if_pos hk, if_pos hk.symm]
    exact (h k).foldKey s.refs e
  · rw [if_neg hk, if_neg (Ne.symm hk)]
    exact h k

/-- **A store shows the effective events of every key.** -/
theorem tracks_applyAll (es : List Event) (k : String) :
    Tracks (effective k es) (((Store.empty 0).applyAll es).find? k) := by
  induction es using List.reverseRecOn generalizing k with
  | nil => exact rfl
  | append_singleton es e ih =>
    rw [applyAll_append]
    exact tracks_apply (by simp [empty]) ih e k

end Store

end AgentBus.Workflow
