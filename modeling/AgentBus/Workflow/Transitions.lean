import AgentBus.Workflow.State

/-!
# The recorded history of an execution

`Execution.record` appends a transition for every event that changes an execution, heartbeats
apart.  Events come in any order, with any attempt and any number of times; what is recorded still
reads as a history: a submit, the leases numbered from one, and an end with nothing behind it.

The length is bounded by the attempts.  An attempt adds at most three entries, its lease, its
failure and its retry, so the bound for a live execution depends on how far the current attempt has
come (`Status.room`).

## Main definitions

* `Execution.foldAll` — events folded one after the other.
* `Transition.Ends`, `Status.room`, `Execution.Recorded` — the invariant.

## Main results

* `Recorded.append` — one more entry.
* `Recorded.folds`, `Recorded.foldAll` — one event, and any number of them.
-/

namespace AgentBus.Workflow

open AgentStream

/-- Events are folded one after the other; those that change nothing are passed over. -/
def Execution.foldAll (x : Execution) (es : List Event) : Execution :=
  es.foldl (fun x e => (x.apply e).getD x) x

/-- The entry is one of the two that end an execution. -/
def Transition.Ends (t : Transition) : Prop := t.eventType = .completed ∨ t.eventType = .dead

instance Transition.decidableEnds (t : Transition) : Decidable t.Ends :=
  inferInstanceAs (Decidable (t.eventType = .completed ∨ t.eventType = .dead))

/-- How many entries an execution may have beyond three for each attempt. -/
def Status.room : Status → ℤ
  | .pending => 1
  | .running => -1
  | .retrying => 0
  | .completed => 2
  | .failed => 2

theorem Status.room_le (s : Status) : s.room ≤ 2 := by cases s <;> decide

theorem Execution.room_le_of_live {x : Execution} (h : x.terminal = false) :
    x.status.room ≤ 1 := by
  revert h
  unfold Execution.terminal
  cases x.status <;> decide

/-- The attempts of the leases among the entries. -/
def leasedAttempts (ts : List Transition) : List ℤ :=
  (ts.filter fun t => t.eventType = .leased).map Transition.attempt

/-- What the entries of an execution say about it. -/
structure Execution.Recorded (x : Execution) : Prop where
  first : x.transitions.head?.map Transition.eventType = some .submitted
  once : x.transitions.countP (fun t => t.eventType = .submitted) = 1
  leases : leasedAttempts x.transitions = (List.range' 1 x.attempt.toNat).map Nat.cast
  attempt : 0 ≤ x.attempt
  live : x.terminal = false → ∀ t ∈ x.transitions, ¬ t.Ends
  ended : ∀ t ∈ x.transitions.dropLast, ¬ t.Ends
  last : x.transitions.getLast?.map Transition.status = some x.status
  bound : (x.transitions.length : ℤ) ≤ 3 * x.attempt + x.status.room

namespace Execution

/-- A new execution has its submit. -/
theorem recorded_newExecution {ref : ℕ} {e : Event} {x : Execution}
    (h : newExecution ref e = some x) : x.Recorded := by
  obtain ⟨p, -, h⟩ := Option.bind_eq_some_iff.mp h
  split at h <;> cases h
  constructor <;> simp [record, leasedAttempts, Status.room, Transition.Ends]

namespace Recorded

variable {x x' : Execution}

/-- **One more entry** for a live execution.  It is not a submit; it has the new status; a lease has
the next attempt and nothing else moves the attempt; an end ends the execution. -/
theorem append (h : x.Recorded) (t : Transition) (ty : EventType) (kind : t.eventType = ty)
    (entry : x'.transitions = x.transitions ++ [t]) (alive : x.terminal = false)
    (notSubmit : ty ≠ .submitted) (status : t.status = x'.status)
    (attempt : x'.attempt = if ty = .leased then x.attempt + 1 else x.attempt)
    (number : ty = .leased → t.attempt = x.attempt + 1)
    (ends : ty = .completed ∨ ty = .dead → x'.terminal = true)
    (room : 3 * x.attempt + x.status.room + 1 ≤ 3 * x'.attempt + x'.status.room) :
    x'.Recorded := by
  subst kind
  have hpos := h.attempt
  have hsome : x.transitions ≠ [] := by
    intro hnil
    have hfirst := h.first
    simp [hnil] at hfirst
  constructor
  · rw [entry, List.head?_append_of_ne_nil _ hsome]
    exact h.first
  · rw [entry, List.countP_append, h.once]
    simp [notSubmit]
  · rw [entry, leasedAttempts, List.filter_append, List.map_append, ← leasedAttempts, h.leases,
      attempt]
    by_cases hlease : t.eventType = .leased
    · have hnat : (x.attempt + 1).toNat = x.attempt.toNat + 1 := by omega
      have hlast : ((1 + x.attempt.toNat : ℕ) : ℤ) = x.attempt + 1 := by omega
      rw [if_pos hlease, hnat, List.range'_concat]
      simp [hlease, number hlease, hlast]
    · simp [hlease]
  · rw [attempt]
    split <;> omega
  · rw [entry]
    intro hlive u hu
    rcases List.mem_append.mp hu with hold | hnew
    · exact h.live alive u hold
    · rw [List.mem_singleton.mp hnew]
      intro hends
      rw [ends hends] at hlive
      cases hlive
  · rw [entry, List.dropLast_concat]
    exact h.live alive
  · rw [entry, List.getLast?_concat, Option.map_some, status]
  · rw [entry, List.length_append, List.length_singleton]
    have hbound := h.bound
    push_cast
    omega

/-- **One event.** -/
theorem folds (h : x.Recorded) {e : Event} (hfold : Folds x e x') : x'.Recorded := by
  have alive := hfold.live
  have hroom := room_le_of_live alive
  cases hfold with
  | leased p ty payload status attempt =>
    refine h.append _ .leased rfl rfl alive (by decide) rfl attempt (fun _ => attempt)
      (by simp) ?_
    simp only [Execution.lease, record, attempt, status, Status.room]
    omega
  | heartbeat p ty payload status attempt worker => exact { h with }
  | completed p ty payload live attempt leased =>
    refine h.append _ .completed rfl rfl alive (by decide) rfl rfl (by simp) (fun _ => rfl) ?_
    change 3 * x.attempt + x.status.room + 1 ≤ 3 * x.attempt + 2
    omega
  | failed p ty payload status attempt =>
    refine h.append _ .failed rfl rfl alive (by decide) rfl rfl (by simp) (by simp) ?_
    simp only [Execution.fail, record, status, Status.room]
    omega
  | retry p ty payload status =>
    refine h.append _ .retry rfl rfl alive (by decide) rfl rfl (by simp) (by simp) ?_
    rcases status with hs | hs <;> simp only [Execution.requeue, record, hs, Status.room] <;>
      omega
  | dead p ty payload live =>
    refine h.append _ .dead rfl rfl alive (by decide) rfl rfl (by simp) (fun _ => rfl) ?_
    change 3 * x.attempt + x.status.room + 1 ≤ 3 * x.attempt + 2
    omega

/-- **Any events, in any order.** -/
theorem foldAll (h : x.Recorded) (es : List Event) : (x.foldAll es).Recorded := by
  induction es generalizing x with
  | nil => exact h
  | cons e es ih =>
    rw [Execution.foldAll, List.foldl_cons]
    cases he : x.apply e with
    | none => exact ih h
    | some x' => exact ih (h.folds (apply_eq_some_iff.mp he))

/-- Nothing follows an end. -/
theorem ends_last (h : x.Recorded) {i : ℕ} {t : Transition} (ht : x.transitions[i]? = some t)
    (hends : t.Ends) : i + 1 = x.transitions.length := by
  have hlt := (List.getElem?_eq_some_iff.mp ht).1
  by_contra hne
  refine h.ended t (List.mem_of_getElem? (i := i) ?_) hends
  rw [List.getElem?_dropLast, if_pos (by omega), ht]

/-- There is at most one end. -/
theorem countP_ends_le (h : x.Recorded) : x.transitions.countP (fun t => t.Ends) ≤ 1 := by
  cases hts : x.transitions.getLast? with
  | none =>
    rw [List.getLast?_eq_none_iff.mp hts]
    exact Nat.zero_le 1
  | some t =>
    obtain ⟨ts, hts⟩ := List.getLast?_eq_some_iff.mp hts
    have hnone : ts.countP (fun t => t.Ends) = 0 := by
      rw [List.countP_eq_zero]
      intro u hu
      have hlive := h.ended u
      rw [hts, List.dropLast_concat] at hlive
      simpa using hlive hu
    rw [hts, List.countP_append, hnone, Nat.zero_add]
    exact List.countP_le_length

end Recorded

/-- A terminal execution stays as it is. -/
@[simp] theorem foldAll_of_terminal {x : Execution} (h : x.terminal = true) (es : List Event) :
    x.foldAll es = x := by
  induction es with
  | nil => rfl
  | cons e es ih =>
    have hnone : x.apply e = none := by
      cases he : x.apply e with
      | none => rfl
      | some x' =>
        rw [(apply_eq_some_iff.mp he).live] at h
        cases h
    rw [foldAll, List.foldl_cons, hnone]
    exact ih

theorem foldAll_append (x : Execution) (es fs : List Event) :
    x.foldAll (es ++ fs) = (x.foldAll es).foldAll fs :=
  List.foldl_append

end Execution

/-- **The history is well formed.**  Whatever events are folded into a submitted execution, its
entries start with the only submit, number the leases from one to the attempt, and have at most one
end, at the end; the last entry has the status; nothing changes a terminal execution; and there are
at most three entries an attempt and two more. -/
theorem transitions_well_formed {ref : ℕ} {e₀ : Event} {x₀ : Execution}
    (hnew : newExecution ref e₀ = some x₀) (es : List Event) :
    let x := x₀.foldAll es
    (x.transitions.head?.map Transition.eventType = some .submitted ∧
      x.transitions.countP (fun t => t.eventType = .submitted) = 1) ∧
    (∃ n : ℕ, x.attempt = n ∧
      (x.transitions.filter fun t => t.eventType = .leased).map Transition.attempt =
        (List.range' 1 n).map Nat.cast) ∧
    (x.transitions.countP (fun t => t.eventType = .completed ∨ t.eventType = .dead) ≤ 1 ∧
      ∀ i t, x.transitions[i]? = some t → t.eventType = .completed ∨ t.eventType = .dead →
        i + 1 = x.transitions.length) ∧
    x.transitions.getLast?.map Transition.status = some x.status ∧
    (x.status = .completed ∨ x.status = .failed → ∀ fs, x₀.foldAll (es ++ fs) = x) ∧
    (x.transitions.length : ℤ) ≤ 3 * x.attempt + 2 := by
  have h := (Execution.recorded_newExecution hnew).foldAll es
  intro x
  refine ⟨⟨h.first, h.once⟩, ⟨x.attempt.toNat, (Int.toNat_of_nonneg h.attempt).symm, h.leases⟩,
    ⟨h.countP_ends_le, fun i t ht hends => h.ends_last ht hends⟩, h.last, ?_, ?_⟩
  · intro hterminal fs
    rw [Execution.foldAll_append]
    exact Execution.foldAll_of_terminal (Execution.terminal_iff.mpr hterminal) fs
  · exact Int.le_trans h.bound (Int.add_le_add_left x.status.room_le _)

/-- A build that is leased, leased again under the same attempt, completed, and declared dead. -/
theorem transitions_well_formed_late_death :
    ∃ x₀, newExecution 0 (newEnvelope .submitted "acme" "p" "w" coordinatorAgentID 0
        (SubmitPayload.marshal ⟨"build", [], 2, 30000⟩) 0) = some x₀ ∧
      let es :=
        [newEnvelope .leased "acme" "p" "w" "w1" 1 (LeasePayload.marshal ⟨"w1"⟩) 1,
          newEnvelope .leased "acme" "p" "w" "w2" 1 (LeasePayload.marshal ⟨"w2"⟩) 2,
          newEnvelope .completed "acme" "p" "w" "w1" 1 (CompletePayload.marshal ⟨"w1", []⟩) 3,
          newEnvelope .dead "acme" "p" "w" coordinatorAgentID 1
            (ReasonPayload.marshal ⟨reasonLeaseExpired⟩) 4]
      (x₀.foldAll es).transitions.countP
          (fun t => t.eventType = .completed ∨ t.eventType = .dead) ≤ 1 ∧
        ((x₀.foldAll es).transitions.length : ℤ) ≤ 3 * (x₀.foldAll es).attempt + 2 := by
  obtain ⟨x₀, hnew⟩ : ∃ x₀, newExecution 0 (newEnvelope .submitted "acme" "p" "w"
      coordinatorAgentID 0 (SubmitPayload.marshal ⟨"build", [], 2, 30000⟩) 0) = some x₀ := ⟨_, rfl⟩
  obtain ⟨-, -, ⟨hends, -⟩, -, -, hlength⟩ := transitions_well_formed hnew _
  exact ⟨x₀, hnew, hends, hlength⟩

end AgentBus.Workflow
