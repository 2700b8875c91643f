import AgentBus.AgentStream.Codec
import AgentBus.Workflow.Effects

/-!
# Redelivering a workflow event

The coordinator folds an event when it appends it, and the poller folds it again when
it reads it back, possibly much later.  This module says for which histories the second fold changes
nothing (`Store.redelivery_noop_iff`), in terms of the events that took effect.

An event that took effect is settled by its attempt, for all kinds but two.  A wf.retry carries its
attempt without it being compared, so it takes a later lease away (`staleRetry_takes_lease`); and an
old wf.heartbeat of the running attempt moves the deadline of a newer one back.  An event that had
no effect when it was delivered first may also have one later.

## Main definitions

* `Spent` — the condition on the history.
-/

namespace AgentBus.Workflow

open AgentStream Effects

/-- The condition on the effective events of a key under which one more delivery of `e` is without
effect. -/
structure Spent (taken : List Event) (e : Event) : Prop where
  /-- A retry that took effect finds no attempt to take back. -/
  retry : e ∈ taken → eventType e = some .retry → ¬ Open taken
  /-- A heartbeat of the running attempt is as late as the last event. -/
  heartbeat : eventType e = some .heartbeat → Takes taken e → lastTime taken = some (eventTime e)
  /-- What had no effect so far still has none. -/
  late : e ∉ taken → eventType e ≠ some .submitted → eventType e ≠ some .heartbeat →
    ¬ Takes taken e

namespace Execution

/-- A recorded transition always shows in the folded fields. -/
theorem folded_ne_of_length {x y : Execution}
    (h : y.transitions.length = x.transitions.length + 1) : y.folded ≠ x.folded := by
  intro heq
  have hlen := congrArg (fun z => z.transitions.length) heq
  simp only [folded] at hlen
  omega

/-- An accepted event shows in the folded fields, unless it is a heartbeat that repeats the last
event's time. -/
theorem Folds.folded_eq_iff {x x' : Execution} {e : Event} (h : Folds x e x')
    {taken : List Event} (hx : Records taken x) :
    x'.folded = x.folded ↔
      eventType e = some .heartbeat ∧ lastTime taken = some (eventTime e) := by
  cases h with
  | heartbeat p ty payload status attempt worker =>
    have hdeadline := hx.deadline status
    rw [hx.updated status, Option.some.injEq, and_iff_right ty]
    constructor
    · intro heq
      exact (congrArg Execution.updatedAt heq).symm
    · intro heq
      rw [extend, ← heq, ← hdeadline]
  | _ =>
    refine iff_of_false (folded_ne_of_length ?_) (by simp_all)
    simp [lease, complete, fail, requeue, kill, record]

end Execution

namespace Store

/-- One more delivery of an event leaves the folded fields alone, unless it takes effect and is not
a heartbeat as late as the last event. -/
theorem view_apply_eq_iff (es : List Event) (e : Event) :
    (∀ k, ((((Store.empty 0).applyAll es).apply e).1.find? k).map Execution.folded =
        (((Store.empty 0).applyAll es).find? k).map Execution.folded) ↔
      (Takes (effective e.key es) e →
        eventType e = some .heartbeat ∧ lastTime (effective e.key es) = some (eventTime e)) := by
  have htracks := tracks_applyAll es e.key
  generalize hs : (Store.empty 0).applyAll es = s at htracks
  have hretain : s.retainTerminal ≤ 0 := by simp [← hs, empty]
  have hkey : (∀ k, ((s.apply e).1.find? k).map Execution.folded =
      (s.find? k).map Execution.folded) ↔
      (foldKey s.refs (s.find? e.key) e).map Execution.folded =
        (s.find? e.key).map Execution.folded := by
    constructor
    · intro h
      have hown := h e.key
      rwa [find?_apply hretain, if_pos rfl] at hown
    · intro h k
      rw [find?_apply hretain]
      by_cases hk : k = e.key
      · rw [if_pos hk, hk, h]
      · rw [if_neg hk]
  rw [hkey]
  cases hx : s.find? e.key with
  | none =>
    rw [hx] at htracks
    rw [show effective e.key es = [] from htracks, takes_nil_iff s.refs]
    cases hnew : foldKey s.refs none e with
    | none => simp
    | some y => simp [lastTime]
  | some x =>
    rw [hx] at htracks
    have hrecords : Records (effective e.key es) x := htracks
    rw [hrecords.takes_iff, foldKey, Option.map_some, Option.map_some, Option.some.injEq]
    cases hap : x.apply e with
    | some x' =>
      have hfolds := Execution.apply_eq_some_iff.mp hap
      rw [Option.getD_some, hfolds.folded_eq_iff hrecords]
      exact ⟨fun h _ => h, fun h => h ⟨x', hfolds⟩⟩
    | none =>
      refine iff_of_true rfl ?_
      rintro ⟨x', hx'⟩
      rw [Execution.apply_eq_some_iff.mpr hx'] at hap
      cases hap

/-- **When a redelivery is a no-op.**  After any history, folding one of its events once more leaves
every execution's folded fields unchanged if and only if the event is spent: in terms of the events
of its key that took effect, a retry that is among them finds no open attempt, a heartbeat of the
running attempt is as late as the last of them, and an event that is not among them does not take
effect now either. -/
theorem redelivery_noop_iff (es : List Event) (e : Event) (he : e ∈ es) :
    (∀ k, ((((Store.empty 0).applyAll es).apply e).1.find? k).map Execution.folded =
        (((Store.empty 0).applyAll es).find? k).map Execution.folded) ↔
      Spent (effective e.key es) e := by
  rw [view_apply_eq_iff]
  constructor
  · intro h
    refine ⟨fun hmem hty hopen => ?_, fun _ htakes => (h htakes).2, fun _ _ hne htakes =>
      hne (h htakes).1⟩
    have hbeat := (h ⟨readable_of_mem_effective hmem, by simpa [hty] using hopen⟩).1
    simp [hty] at hbeat
  · intro h htakes
    by_cases hbeat : eventType e = some .heartbeat
    · exact ⟨hbeat, h.heartbeat hbeat htakes⟩
    · exfalso
      by_cases hmem : e ∈ effective e.key es
      · -- what took effect is settled, if it is not a retry
        by_cases hretry : eventType e = some .retry
        · exact h.retry hmem hretry (by simpa [hretry] using htakes.2)
        · exact (settled_effective e.key es e hmem).not_takes hretry hbeat htakes
      · by_cases hty : eventType e = some .submitted
        · exact effective_ne_nil he hty htakes.1 (by simpa [hty] using htakes.2)
        · exact h.late hmem hty hbeat htakes

end Store

/-! ## A retry that takes a later lease away -/

/-- The first lease. -/
def firstLease : Event :=
  newEnvelope .leased "acme" "p" "w" "w1" 1 (LeasePayload.marshal ⟨"w1"⟩) (1 * Time.second)

/-- The retry of the first attempt. -/
def staleRetry : Event :=
  newEnvelope .retry "acme" "p" "w" coordinatorAgentID 1
    (ReasonPayload.marshal ⟨reasonAttemptFailed⟩) (3 * Time.second)

/-- Two attempts are allowed; the first fails and is retried, the second is running. -/
def retriedHistory : List Event :=
  [newEnvelope .submitted "acme" "p" "w" coordinatorAgentID 0
      (SubmitPayload.marshal ⟨"build", [], 2, 30000⟩) 0,
    firstLease,
    newEnvelope .failed "acme" "p" "w" "w1" 1 (FailPayload.marshal ⟨"w1", "boom", true⟩)
      (2 * Time.second),
    staleRetry,
    newEnvelope .leased "acme" "p" "w" "w2" 2 (LeasePayload.marshal ⟨"w2"⟩) (4 * Time.second)]

/-- The second attempt runs under `w2`; the redelivered retry makes it pending again. -/
theorem staleRetry_takes_lease :
    staleRetry ∈ retriedHistory ∧
      (((Store.empty 0).applyAll retriedHistory).find? staleRetry.key).map
          (fun x => (x.status, x.attempt, x.workerID)) = some (.running, 2, "w2") ∧
      ((((Store.empty 0).applyAll retriedHistory).apply staleRetry).1.find? staleRetry.key).map
          (fun x => (x.status, x.attempt, x.workerID)) = some (.pending, 2, "") := by
  refine ⟨by simp [retriedHistory], ?_, ?_⟩ <;> decide +kernel

/-- The first lease, redelivered while the second runs, is settled: it took effect. -/
theorem firstLease_redelivery_noop :
    firstLease ∈ retriedHistory ∧ firstLease ∈ effective firstLease.key retriedHistory ∧
      ∀ k, ((((Store.empty 0).applyAll retriedHistory).apply firstLease).1.find? k).map
          Execution.folded =
        (((Store.empty 0).applyAll retriedHistory).find? k).map Execution.folded := by
  have hmem : firstLease ∈ retriedHistory := by simp [retriedHistory]
  have htook : firstLease ∈ effective firstLease.key retriedHistory := by decide +kernel
  refine ⟨hmem, htook, (Store.redelivery_noop_iff retriedHistory firstLease hmem).mpr ?_⟩
  exact ⟨by simp [firstLease], by simp [firstLease], fun hno => absurd htook hno⟩

end AgentBus.Workflow
