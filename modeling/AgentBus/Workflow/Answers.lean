import AgentBus.Lib.Ledger
import AgentBus.Workflow.Fencing

/-!
# Whether positive answers are true

`LeaseBatch`, `Heartbeat` and `Fail` check an execution, publish an event and fold it, and they do
not look at what the fold reported.  They answer positively as soon as the event is published.  The
answer is true when nothing else changed the execution in between: from its check to its fold a
call has a claim on the execution, and in the runs of this module no event of another call, apart
from heartbeats, is accepted by an execution while somebody has a claim on it.

Each call keeps a record of the events it has folded, with the answer of `Apply`.

## Main definitions

* `answering` — the coordinator, whose calls record what they fold.
* `Thread.claim?`, `Undisturbed` — the claims, and the runs that respect them.
* `Response.Backed` — the record of a call contains what its answer says.
-/

namespace AgentBus.Workflow

open AgentStream Pool

/-- The event a step folds, and whether `Apply` reports a change. -/
def noteFold (c : Config) (s : State) (t : Thread) : List (Event × Bool) :=
  (t.folding? c).toList.map fun e => (e, (s.store.apply e).2)

/-- The coordinator, whose calls record what they fold. -/
def answering (c : Config) : Program State (Thread × List (Event × Bool)) Request Choice EnvStep :=
  (coordinator c).noted (noteFold c)

/-! ## Claims -/

/-- The frames whose call reports on the event. -/
def Frame.vouched : Frame → Bool
  | .grant _ _ _ | .heartbeat _ | .fail _ _ | .verdict _ _ => true
  | .submit _ | .complete _ | .sweep _ _ _ => false

/-- The key of the execution on which a call has a claim: from its check to its last fold. -/
def Thread.claim? : Thread → Option String
  | .granting _ x => some x.key
  | .preparing f | .publishing f _ | .folding f _ => if f.vouched then some f.key else none
  | _ => none

/-- Calls only; the poller is not one. -/
def callsOnly : Guard State (Thread × List (Event × Bool)) Choice EnvStep where
  thread _ _ _ := True
  env _ e := e ≠ .poll

/-- While a call has a claim on an execution, the execution accepts no event of another call, apart
from heartbeats. -/
def Undisturbed (c : Config) (s : State) (t : Thread × List (Event × Bool)) (_ : Choice)
    (u : Thread × List (Event × Bool)) : Prop :=
  ∀ e ∈ t.1.folding? c, ∀ k ∈ u.1.claim?, e.key = k → (s.store.apply e).2 = true →
    eventType e = some .heartbeat

instance (s : State) (t : Thread × List (Event × Bool)) (l : Choice) :
    Decidable (callsOnly.thread s t l) :=
  inferInstanceAs (Decidable True)

instance (s : State) (e : EnvStep) : Decidable (callsOnly.env s e) :=
  inferInstanceAs (Decidable (e ≠ .poll))

instance (c : Config) (s : State) (t : Thread × List (Event × Bool)) (l : Choice)
    (u : Thread × List (Event × Bool)) : Decidable (Undisturbed c s t l u) :=
  inferInstanceAs (Decidable (∀ e ∈ t.1.folding? c, ∀ k ∈ u.1.claim?, e.key = k →
    (s.store.apply e).2 = true → eventType e = some .heartbeat))

/-- What a call has checked of the execution. -/
def Frame.Expects (y : Execution) : Frame → Prop
  | .grant _ _ n => y.status = .pending ∧ n = y.attempt + 1
  | .heartbeat a => y.status = .running ∧ a.attempt = y.attempt ∧ a.workerID = y.workerID
  | .fail a x => y.status = .running ∧ a.attempt = y.attempt ∧ x.key = a.key
  | .verdict _ _ => y.status = .retrying
  | .submit _ | .complete _ | .sweep _ _ _ => True

/-- What a claim is good for. -/
def Thread.Claims (m : Store) : Thread → Prop
  | .granting _ x => ∃ y, m.find? x.key = some y ∧ y.ref = x.ref ∧ y.status = .pending
  | .preparing f | .publishing f _ | .folding f _ =>
    f.vouched = true → ∃ y, m.find? f.key = some y ∧ f.Expects y
  | _ => True

/-! ## Records -/

/-- The record has the wf.leased event of the lease, and it was accepted. -/
def Lease.Backed (c : Config) (notes : List (Event × Bool)) (lease : Lease) : Prop :=
  ∃ b x n stamp, ((Frame.grant b x n).event c stamp, true) ∈ notes ∧ (x.key, n) = lease.token

/-- The record has the event a positive answer speaks of, and it was accepted. -/
def Response.Backed (c : Config) (notes : List (Event × Bool)) (r : Request) : Response → Prop
  | .leaseBatch leases _ => ∀ lease ∈ leases, lease.Backed c notes
  | .heartbeat valid _ _ => valid = true →
      ∃ a stamp, r = .heartbeat a ∧ ((Frame.heartbeat a).event c stamp, true) ∈ notes
  | .fail accepted _ _ => accepted = true →
      ∃ a x stamp, r = .fail a ∧ ((Frame.fail a x).event c stamp, true) ∈ notes
  | .submit _ _ | .complete _ _ _ | .sweepExpired _ => True

/-- The record has what a call has relied on when it appends an event. -/
def Frame.Backed (c : Config) (notes : List (Event × Bool)) : Frame → Prop
  | .grant b _ _ => ∀ lease ∈ b.out, lease.Backed c notes
  | .verdict a x => ∃ stamp, ((Frame.fail a x).event c stamp, true) ∈ notes
  | _ => True

/-- The record has what a call has relied on so far. -/
def Thread.Backed (c : Config) (notes : List (Event × Bool)) : Thread → Prop
  | .leasing b | .idle b | .waiting b _ | .granting b _ | .unreserving b _ =>
    ∀ lease ∈ b.out, lease.Backed c notes
  | .preparing f | .publishing f _ | .folding f _ => f.Backed c notes
  | .granted b x n => (∀ lease ∈ b.out, lease.Backed c notes) ∧
      ∃ b' stamp, ((Frame.grant b' x n).event c stamp, true) ∈ notes
  | .extended a => ∃ stamp, ((Frame.heartbeat a).event c stamp, true) ∈ notes
  | .done r answer => answer.Backed c notes r
  | _ => True

/-- The calls whose answers speak of events. -/
def Request.vouched : Request → Bool
  | .leaseBatch _ | .heartbeat _ | .fail _ => true
  | .submit _ | .complete _ | .sweepExpired => false

/-- The same for a call in flight. -/
def Thread.vouched : Thread → Bool
  | .start r | .done r _ => r.vouched
  | .preparing f | .publishing f _ | .folding f _ => f.vouched
  | .aborting _ | .expiring _ | .sweeping _ _ => false
  | _ => true

/-! ## Folds -/

variable {m : Store} {f : Frame}

/-- `Apply` reports a change when the execution accepts the event. -/
theorem Store.apply_snd {e : Event} {x x' : Execution} (hx : m.find? e.key = some x)
    (h : Execution.Folds x e x') : (m.apply e).2 = true := by
  have hs := apply_spec m e
  generalize m.apply e = r at hs
  cases hs with
  | ignored refused unusable =>
    rw [← Execution.apply_eq_some_iff, refused x hx] at h
    cases h
  | tracked nx ty absent valid => rfl
  | folded y y' present changed => rfl

/-- A failed attempt waits for the decision. -/
theorem Store.find?_apply_failed {e : Event} {x : Execution} {p : FailPayload}
    (hx : m.find? e.key = some x) (ty : eventType e = some .failed)
    (payload : FailPayload.unmarshal e.payload = some p) (status : x.status = .running)
    (attempt : e.attempt = x.attempt) :
    ∃ y, (m.apply e).1.find? e.key = some y ∧ y.status = .retrying := by
  rcases find?_apply_of_folds hx (.failed p ty payload status attempt) with hy | ⟨-, hterm⟩
  · exact ⟨_, hy, rfl⟩
  · cases hterm

/-- What a call expects is not a finished execution. -/
theorem Frame.Expects.live {y : Execution} (h : f.Expects y) (hv : f.vouched = true) :
    y.terminal = false := by
  cases f with
  | grant b x n => simp [Execution.terminal, h.1]
  | heartbeat a => simp [Execution.terminal, h.1]
  | fail a x => simp [Execution.terminal, h.1]
  | verdict a x =>
    have hs : y.status = .retrying := h
    simp [Execution.terminal, hs]
  | submit | complete | sweep => cases hv

/-- An execution that is as the call has checked it accepts the event of the call. -/
theorem Frame.Expects.folds (c : Config) {y : Execution} (h : f.Expects y) (hv : f.vouched = true)
    (stamp : Time) : ∃ y', Execution.Folds y (f.event c stamp) y' := by
  cases f with
  | grant b x n =>
    exact ⟨_, .leased _ (Frame.eventType_event ..) (LeasePayload.unmarshal_marshal _) h.1 h.2⟩
  | heartbeat a =>
    exact ⟨_, .heartbeat _ (Frame.eventType_event ..) (LeasePayload.unmarshal_marshal _) h.1 h.2.1
      h.2.2⟩
  | fail a x =>
    exact ⟨_, .failed _ (Frame.eventType_event ..) (FailPayload.unmarshal_marshal _) h.1 h.2.1⟩
  | verdict a x =>
    have hpayload : ReasonPayload.unmarshal ((Frame.verdict a x).event c stamp).payload =
        some ⟨(a.verdict x).2⟩ := ReasonPayload.unmarshal_marshal _
    rcases Frame.verdict_eq a x with hty | hty
    · exact ⟨_, .retry _ (by simp [Frame.type, hty]) hpayload (.inr h)⟩
    · exact ⟨_, .dead _ (by simp [Frame.type, hty]) hpayload (Frame.Expects.live h hv)⟩
  | submit | complete | sweep => cases hv

/-- A call that still has its claim has its event accepted. -/
theorem Thread.Claims.accepted {c : Config} {stamp : Time} (h : Thread.Claims m (.folding f stamp))
    (hv : f.vouched = true) : (m.apply (f.event c stamp)).2 = true := by
  obtain ⟨y, hy, hexp⟩ := h hv
  obtain ⟨y', hfolds⟩ := hexp.folds c hv stamp
  exact Store.apply_snd (by rwa [Frame.key_event]) hfolds

section Steps

variable {c : Config} {s s' : State} {t t' : Thread} {l : Choice}

/-- The parts of an execution a call checks. -/
structure SameClaim (y y' : Execution) : Prop where
  ref : y'.ref = y.ref
  status : y'.status = y.status
  attempt : y'.attempt = y.attempt
  workerID : y'.workerID = y.workerID

theorem Frame.Expects.same {f : Frame} {y y' : Execution} (h : f.Expects y)
    (hsame : SameClaim y y') : f.Expects y' := by
  obtain ⟨-, hstatus, hattempt, hworker⟩ := hsame
  cases f with
  | grant b x n => exact ⟨hstatus.trans h.1, hattempt ▸ h.2⟩
  | heartbeat a => exact ⟨hstatus.trans h.1, hattempt ▸ h.2.1, hworker ▸ h.2.2⟩
  | fail a x => exact ⟨hstatus.trans h.1, hattempt ▸ h.2.1, h.2.2⟩
  | verdict a x => exact hstatus.trans h
  | submit | complete | sweep => trivial

/-- A step that does not disturb leaves a live execution as it was checked. -/
theorem Steps.sameClaim (h : Steps c s t l s' t') {k : String} {y : Execution}
    (hy : s.store.find? k = some y) (hlive : y.terminal = false)
    (hcalm : ∀ e ∈ t.folding? c, e.key = k → (s.store.apply e).2 = true →
      eventType e = some .heartbeat) :
    ∃ y', s'.store.find? k = some y' ∧ SameClaim y y' := by
  rcases h.find?_of_live hy hlive with ⟨y', hy', heq⟩ | ⟨f, stamp, y', rfl, rfl, rfl, hfolds, hy'⟩
  · have href : y'.unflagged.ref = y.unflagged.ref := congrArg Execution.ref heq
    have hstatus : y'.unflagged.status = y.unflagged.status := congrArg Execution.status heq
    have hattempt : y'.unflagged.attempt = y.unflagged.attempt := congrArg Execution.attempt heq
    have hworker : y'.unflagged.workerID = y.unflagged.workerID := congrArg Execution.workerID heq
    exact ⟨y', hy', href, hstatus, hattempt, hworker⟩
  · have hbeat : eventType (f.event c stamp) = some .heartbeat :=
      hcalm _ rfl (Frame.key_event ..) (Store.apply_snd (by rwa [Frame.key_event]) hfolds)
    have hsame : SameClaim y y' := by
      cases hfolds with
      | heartbeat p ty payload status attempt worker => exact ⟨rfl, rfl, rfl, rfl⟩
      | leased p ty | completed p ty | failed p ty | retry p ty | dead p ty =>
        rw [hbeat] at ty
        cases ty
    rcases hy' with hy' | ⟨-, hterm⟩
    · exact ⟨y', hy', hsame⟩
    · have hlive' : y'.terminal = false := by
        rw [← hlive]
        simp only [Execution.terminal, hsame.status]
      rw [hlive'] at hterm
      cases hterm

/-- The claims of the calls that do not move. -/
theorem Thread.Claims.other (h : Steps c s t l s' t') {u : Thread} (hu : u.Claims s.store)
    (hcalm : ∀ e ∈ t.folding? c, ∀ k ∈ u.claim?, e.key = k → (s.store.apply e).2 = true →
      eventType e = some .heartbeat) : u.Claims s'.store := by
  have hframe : ∀ f : Frame, (f.vouched = true → u.claim? = some f.key) →
      (f.vouched = true → ∃ y, s.store.find? f.key = some y ∧ f.Expects y) →
      f.vouched = true → ∃ y, s'.store.find? f.key = some y ∧ f.Expects y := by
    intro f hclaim hf hv
    obtain ⟨y, hy, hexp⟩ := hf hv
    obtain ⟨y', hy', hsame⟩ := h.sameClaim hy (hexp.live hv) fun e he =>
      hcalm e he f.key (hclaim hv)
    exact ⟨y', hy', hexp.same hsame⟩
  cases u with
  | granting b x =>
    obtain ⟨y, hy, href, hstatus⟩ := hu
    obtain ⟨y', hy', hsame⟩ := h.sameClaim hy (by simp [Execution.terminal, hstatus]) fun e he =>
      hcalm e he x.key rfl
    exact ⟨y', hy', hsame.ref.trans href, hsame.status.trans hstatus⟩
  | preparing f => exact hframe f (fun hv => if_pos hv) hu
  | publishing f stamp => exact hframe f (fun hv => if_pos hv) hu
  | folding f stamp => exact hframe f (fun hv => if_pos hv) hu
  | _ => trivial

/-- The claim of the call that moves. -/
theorem Thread.Claims.self (h : Steps c s t l s' t') (hs : s.store.Indexed)
    (ht : t.Claims s.store) : t'.Claims s'.store := by
  cases h with
  | quiet t t' l h =>
    cases h with
    | heartbeat a =>
      refine heartbeatStart_ind s a (fun _ => trivial) ?_
      rintro x ⟨hx, hrun, hatt, hworker⟩ -
      exact ⟨x, hx, hrun, hatt.symm, hworker.symm⟩
    | fail a =>
      refine failStart_ind s a (fun _ => trivial) ?_
      rintro x ⟨hx, hrun, hatt, -⟩ -
      exact ⟨x, hx, hrun, hatt.symm, hs.keyed _ x hx⟩
    | read b x =>
      -- The reserved execution is still the one in the store, so its attempt is read.
      obtain ⟨y, hy, href, hstatus⟩ := ht
      refine fun _ => ⟨y, hy, hstatus, ?_⟩
      rw [Store.deref_of_find? hy href]
    | stamp f => exact ht
    | error f stamp => cases f <;> trivial
    | submit spec absent => exact fun hv => nomatch hv
    | reclaim x rest n => exact fun hv => nomatch hv
    | _ => trivial
  | begin a r h =>
    split
    · exact fun hv => nomatch hv
    · trivial
  | reserve b r h =>
    cases h with
    | nothing stale =>
      rcases b.onReserve_cases none with ⟨x, hx, -⟩ | heq | heq
      · cases hx
      · rw [heq]
        trivial
      · rw [heq]
        trivial
    | found pre rest k x split stale present pending free =>
      have hkey : x.key = k := hs.keyed k x present
      refine ⟨{ x with reserved := true }, ?_, rfl, pending⟩
      subst hkey
      exact Store.find?_put_self ..
  | publish f stamp valid => exact ht
  | fold f stamp =>
    cases f with
    | fail a x =>
      intro _
      obtain ⟨y, hy, hstatus, hattempt, hkey⟩ := ht rfl
      obtain ⟨z, hz, hretrying⟩ :=
        Store.find?_apply_failed (e := (Frame.fail a x).event c stamp) hy
          (Frame.eventType_event ..) (FailPayload.unmarshal_marshal _) hstatus hattempt
      rw [Frame.key_event] at hz
      exact ⟨z, (congrArg _ hkey).trans hz, hretrying⟩
    | submit | grant | heartbeat | complete | verdict | sweep => trivial
  | wait | unreserve | abort | expire => trivial

/-! ## What the record shows -/

theorem Steps.vouched (h : Steps c s t l s' t') : t'.vouched = t.vouched := by
  cases h with
  | quiet t t' l h =>
    cases h with
    | heartbeat a => exact heartbeatStart_ind s a (fun _ => rfl) fun _ _ => rfl
    | fail a => exact failStart_ind s a (fun _ => rfl) fun _ _ => rfl
    | error f stamp => cases f <;> rfl
    | _ => rfl
  | begin a r h => split <;> rfl
  | reserve b r h =>
    rcases b.onReserve_cases r.2 with ⟨x, -, heq⟩ | heq | heq <;> rw [heq] <;> rfl
  | fold f stamp => cases f <;> rfl
  | wait | publish | unreserve | abort | expire => rfl

variable {notes notes' : List (Event × Bool)}

theorem Lease.Backed.mono {lease : Lease} (h : lease.Backed c notes) (hsub : notes ⊆ notes') :
    lease.Backed c notes' := by
  obtain ⟨b, x, n, stamp, hmem, htoken⟩ := h
  exact ⟨b, x, n, stamp, hsub hmem, htoken⟩

theorem Response.Backed.mono {r : Request} {answer : Response} (h : answer.Backed c notes r)
    (hsub : notes ⊆ notes') : answer.Backed c notes' r := by
  cases answer with
  | leaseBatch leases err => exact fun lease hl => (h lease hl).mono hsub
  | heartbeat valid deadline err =>
    intro hvalid
    obtain ⟨a, stamp, hr, hmem⟩ := h hvalid
    exact ⟨a, stamp, hr, hsub hmem⟩
  | fail accepted willRetry err =>
    intro haccepted
    obtain ⟨a, x, stamp, hr, hmem⟩ := h haccepted
    exact ⟨a, x, stamp, hr, hsub hmem⟩
  | submit | complete | sweepExpired => trivial

/-- A longer record shows as much. -/
theorem Thread.Backed.mono (h : t.Backed c notes) (hsub : notes ⊆ notes') : t.Backed c notes' := by
  have hout : ∀ b : Batch, (∀ lease ∈ b.out, lease.Backed c notes) →
      ∀ lease ∈ b.out, lease.Backed c notes' := fun b hb lease hl => (hb lease hl).mono hsub
  have hframe : ∀ f : Frame, f.Backed c notes → f.Backed c notes' := by
    intro f hf
    cases f with
    | grant b x n => exact hout b hf
    | verdict a x =>
      obtain ⟨stamp, hmem⟩ := hf
      exact ⟨stamp, hsub hmem⟩
    | submit | heartbeat | complete | fail | sweep => trivial
  cases t with
  | leasing b => exact hout b h
  | idle b => exact hout b h
  | waiting b ch => exact hout b h
  | granting b x => exact hout b h
  | unreserving b x => exact hout b h
  | preparing f => exact hframe f h
  | publishing f stamp => exact hframe f h
  | folding f stamp => exact hframe f h
  | granted b x n =>
    obtain ⟨hb, b', stamp, hmem⟩ := h
    exact ⟨hout b hb, b', stamp, hsub hmem⟩
  | extended a =>
    obtain ⟨stamp, hmem⟩ := h
    exact ⟨stamp, hsub hmem⟩
  | done r answer => exact Response.Backed.mono h hsub
  | start | aborting | expiring | sweeping => trivial

/-- The record of the call that moves, with what it folds. -/
theorem Thread.Backed.self (h : Steps c s t l s' t') (hclaims : t.Claims s.store)
    (ht : t.Backed c notes) : t'.Backed c (notes ++ noteFold c s t) := by
  cases h with
  | quiet t t' l h =>
    refine Thread.Backed.mono ?_ (List.subset_append_left notes _)
    cases h with
    | lease call => exact fun lease hl => nomatch hl
    | heartbeat a => exact heartbeatStart_ind s a (fun _ => nofun) fun _ _ => trivial
    | fail a => exact failStart_ind s a (fun _ => nofun) fun _ _ => trivial
    | full b => exact ht
    | late b => exact fun lease hl => nomatch hl
    | woken b ch closed => exact ht
    | timeout b ch => exact fun lease hl => nomatch hl
    | cancel b ch => exact fun lease hl => nomatch hl
    | read b x => exact ht
    | stamp f => exact ht
    | error f stamp =>
      cases f with
      | verdict a x =>
        obtain ⟨stamp', hmem⟩ := ht
        exact fun _ => ⟨a, x, stamp', rfl, hmem⟩
      | grant b x n => exact ht
      | heartbeat a => exact fun hv => nomatch hv
      | fail a x => exact fun hv => nomatch hv
      | submit | complete | sweep => trivial
    | granted b x n =>
      obtain ⟨hb, b', stamp, hmem⟩ := ht
      intro lease hl
      rcases List.mem_append.mp hl with hl | hl
      · exact hb lease hl
      · rw [List.mem_singleton] at hl
        subst hl
        exact ⟨b', x, n, stamp, hmem, rfl⟩
    | extended a =>
      obtain ⟨stamp, hmem⟩ := ht
      exact fun _ => ⟨a, stamp, rfl, hmem⟩
    | known | submit | sweep | swept | reclaim => trivial
  | begin a r h => split <;> trivial
  | reserve b r h =>
    refine Thread.Backed.mono ?_ (List.subset_append_left notes _)
    rcases b.onReserve_cases r.2 with ⟨x, -, heq⟩ | heq | heq <;> rw [heq] <;> exact ht
  | wait b => exact ht.mono (List.subset_append_left notes _)
  | publish f stamp valid =>
    exact Thread.Backed.mono (t := .folding f stamp) ht (List.subset_append_left notes _)
  | fold f stamp =>
    have hnote : f.vouched = true →
        (f.event c stamp, true) ∈ notes ++ noteFold c s (.folding f stamp) := by
      intro hv
      refine List.mem_append_right _ ?_
      rw [← hclaims.accepted (c := c) hv]
      exact List.mem_singleton_self _
    cases f with
    | grant b x n =>
      exact ⟨Thread.Backed.mono (t := .leasing b) ht (List.subset_append_left notes _), b,
        stamp, hnote rfl⟩
    | heartbeat a => exact ⟨stamp, hnote rfl⟩
    | fail a x => exact ⟨stamp, hnote rfl⟩
    | verdict a x =>
      obtain ⟨stamp', hmem⟩ := ht
      exact fun _ => ⟨a, x, stamp', rfl, List.mem_append_left _ hmem⟩
    | submit | complete | sweep => trivial
  | unreserve b x =>
    refine Thread.Backed.mono (t := .done _ _) ?_ (List.subset_append_left notes _)
    split
    · exact fun lease hl => nomatch hl
    · exact ht
  | abort | expire => trivial

/-- A call that reports on its events has had them all accepted. -/
def Vouches (t : Thread) (notes : List (Event × Bool)) : Prop :=
  t.vouched = true → ∀ p ∈ notes, p.2 = true

theorem Vouches.self (h : Steps c s t l s' t') (hclaims : t.Claims s.store) (ht : Vouches t notes) :
    Vouches t' (notes ++ noteFold c s t) := by
  intro hv p hp
  rw [h.vouched] at hv
  rcases List.mem_append.mp hp with hp | hp
  · exact ht hv p hp
  · cases t with
    | folding f stamp =>
      rw [List.mem_singleton.mp hp]
      exact hclaims.accepted hv
    | _ => cases hp

end Steps

/-! ## Whole runs -/

theorem answers_holds {c : Config} {w : World State (Thread × List (Event × Bool))}
    (h : (answering c).Runs (callsOnly.Beside (Undisturbed c)) ⟨State.init c, []⟩ w) :
    Holds (fun s => s.store.Indexed)
      (fun s t => t.1.Claims s.store ∧ t.1.Backed c t.2 ∧ Vouches t.1 t.2)
      (fun _ _ => True) w := by
  refine Program.Runs.local_invariant (I := fun s : State => s.store.Indexed)
    (fun _ _ _ => trivial) (holds_idle (Store.indexed_empty _)) ?_ ?_ ?_ h
  · intro s r _
    exact ⟨⟨trivial, trivial, fun _ p hp => nomatch hp⟩, fun _ _ => trivial⟩
  · intro s t l s' t' hs ht _ hstep
    obtain ⟨hclaims, hbacked, hvouches⟩ := ht
    obtain ⟨⟨s₁, t₁⟩, hthread, heq⟩ := Option.map_eq_some_iff.mp hstep
    cases heq
    have hsteps := coordinator_steps hthread
    refine ⟨⟨hsteps.indexed hs, Thread.Claims.self hsteps hs hclaims,
      Thread.Backed.self hsteps hclaims hbacked, Vouches.self hsteps hclaims hvouches⟩, ?_⟩
    intro u hu _ hcalm
    exact ⟨⟨Thread.Claims.other hsteps hu.1 hcalm, hu.2⟩, trivial⟩
  · intro s e s' hs hg hstep
    obtain ⟨now, -, rfl⟩ := (environment_spec hstep).tick_of_ne hg
    exact ⟨hs, fun u hu => hu⟩

/-- **Positive answers are true**, in the runs in which no other event is accepted by an execution
between a call's check and its fold.  Every event a `LeaseBatch`, a `Heartbeat` or a `Fail` has
folded was accepted; and for every lease it returned, for a valid heartbeat and for an accepted
failure the event it speaks of is among them. -/
theorem positive_answers_true (c : Config) {w : World State (Thread × List (Event × Bool))}
    (h : (answering c).Runs (callsOnly.Beside (Undisturbed c)) ⟨State.init c, []⟩ w)
    {r : Request} {answer : Response} {notes : List (Event × Bool)}
    (hdone : (.done r answer, notes) ∈ w.threads) :
    answer.Backed c notes r ∧ (r.vouched = true → ∀ p ∈ notes, p.2 = true) := by
  obtain ⟨-, hbacked, hvouches⟩ := (answers_holds h).of_mem hdone
  exact ⟨hbacked, hvouches⟩

/-! ## Answers that are not true -/

/-- Whether a worker is told that it holds, has extended or has failed an attempt. -/
def Response.positive : Response → Bool
  | .leaseBatch leases _ => !leases.isEmpty
  | .heartbeat valid _ _ => valid
  | .fail accepted _ _ => accepted
  | .submit _ _ | .complete _ _ _ | .sweepExpired _ => false

/-- The calls with a positive answer and an event that was refused. -/
def misled (w : World State (Thread × List (Event × Bool))) : List Request :=
  w.threads.filterMap fun t =>
    match t.1 with
    | .done r answer => if answer.positive && t.2.any fun p => !p.2 then some r else none
    | _ => none

/-- The completion of the first attempt comes between the check and the fold of a heartbeat. -/
def lateBeat : List (Act Request Choice EnvStep) :=
  firstAttempt 3 ++ arrive 2 1 (.heartbeat firstHolder) ++
    arrive 3 4 (.complete ⟨firstHolder, []⟩) ++ goOn 2 4

/-- It comes between the check and the fold of a failure. -/
def lateFailure : List (Act Request Choice EnvStep) :=
  firstAttempt 3 ++ arrive 2 1 (.fail ⟨firstHolder, "boom", true⟩) ++
    arrive 3 4 (.complete ⟨firstHolder, []⟩) ++ goOn 2 6

/-- The first lease expires and the execution is reserved for a second one, when the completion of
the first attempt is accepted. -/
def lateGrant : List (Act Request Choice EnvStep) :=
  firstExpired ++ goOn 2 5 ++ arrive 3 2 (.leaseBatch ⟨"build", "w2", 1, 0⟩) ++
    arrive 4 4 (.complete ⟨firstHolder, []⟩) ++ goOn 3 6

theorem positive_answers_refused :
    (∃ w, (answering .default).Reach Guard.all (State.init .default) w ∧
      misled w = [.heartbeat firstHolder]) ∧
    (∃ w, (answering .default).Reach Guard.all (State.init .default) w ∧
      misled w = [.fail ⟨firstHolder, "boom", true⟩]) ∧
    ∃ w, (answering .default).Reach Guard.all (State.init .default) w ∧
      misled w = [.leaseBatch ⟨"build", "w2", 1, 0⟩] := by
  have hbeat : ((answering .default).exec ⟨State.init .default, []⟩ lateBeat).map misled =
      some [.heartbeat firstHolder] := by
    decide +kernel
  have hfail : ((answering .default).exec ⟨State.init .default, []⟩ lateFailure).map misled =
      some [.fail ⟨firstHolder, "boom", true⟩] := by
    decide +kernel
  have hgrant : ((answering .default).exec ⟨State.init .default, []⟩ lateGrant).map misled =
      some [.leaseBatch ⟨"build", "w2", 1, 0⟩] := by
    decide +kernel
  obtain ⟨w₁, hw₁, hmisled₁⟩ := Program.exists_reach hbeat
  obtain ⟨w₂, hw₂, hmisled₂⟩ := Program.exists_reach hfail
  obtain ⟨w₃, hw₃, hmisled₃⟩ := Program.exists_reach hgrant
  exact ⟨⟨w₁, hw₁, hmisled₁⟩,
    ⟨w₂, hw₂, hmisled₂⟩, w₃, hw₃, hmisled₃⟩

/-- A heartbeat and a failure of the first attempt, one after the other, with a second execution
submitted meanwhile. -/
def calmCalls : List (Act Request Choice EnvStep) :=
  firstAttempt 3 ++ arrive 2 1 (.heartbeat firstHolder) ++
    arrive 3 4 (.submit (.plain "v" "build")) ++ goOn 2 4 ++
    arrive 4 7 (.fail ⟨firstHolder, "boom", true⟩)

theorem positive_answers_true_calm :
    ∃ w notes, (answering .default).Runs (callsOnly.Beside (Undisturbed .default))
        ⟨State.init .default, []⟩ w ∧
      (Thread.done (.fail ⟨firstHolder, "boom", true⟩) (.fail true true none),
        notes) ∈ w.threads ∧
      (Response.fail true true none).Backed .default notes
        (.fail ⟨firstHolder, "boom", true⟩) ∧
      ((Request.fail ⟨firstHolder, "boom", true⟩).vouched = true →
        ∀ p ∈ notes, p.2 = true) := by
  have hrun : ((answering .default).execIf (callsOnly.Beside (Undisturbed .default))
      ⟨State.init .default, []⟩ calmCalls).map (fun w => w.threads.any fun t =>
        t.1 = .done (.fail ⟨firstHolder, "boom", true⟩) (.fail true true none)) =
      some true := by
    decide +kernel
  obtain ⟨w, hw, hany⟩ := Option.map_eq_some_iff.mp hrun
  obtain ⟨⟨t, notes⟩, hmem, ht⟩ := List.any_eq_true.mp hany
  have hdone := of_decide_eq_true ht
  subst hdone
  have hruns := Program.Runs.refl.execIf _ hw
  exact ⟨w, notes, hruns, hmem, positive_answers_true .default hruns hmem⟩

end AgentBus.Workflow
