import Mathlib.Data.List.Basic

/-!
# Buffered channels

A channel buffers up to `capacity` values and can be closed once.  A send does not wait: it reports
whether there was a place.  Sending on a closed channel and closing a closed channel are the two
panics, and both are `none` here.

What was received stays on record, so that `sent` is everything that was ever accepted, in order: a
send appends to it and nothing else changes it.

## Main definitions

* `Channel`, `Channel.make` — a channel.
* `Channel.trySend`, `Channel.close`, `Channel.receive` — its operations.
* `Channel.sent` — what was accepted.
-/

namespace AgentBus

variable {α : Type*}

/-- A channel, with what was received from it. -/
structure Channel (α : Type*) where
  capacity : ℕ
  received : List α
  buffer : List α
  closed : Bool
  bounded : buffer.length ≤ capacity

namespace Channel

/-- A new channel. -/
def make (capacity : ℕ) : Channel α := ⟨capacity, [], [], false, Nat.zero_le _⟩

/-- Everything that was sent, in order. -/
def sent (c : Channel α) : List α := c.received ++ c.buffer

/-- A send that does not wait, and whether there was a place; `none` is a panic. -/
def trySend (c : Channel α) (x : α) : Option (Channel α × Bool) :=
  if c.closed then none
  else if h : c.buffer.length < c.capacity then
    some (⟨c.capacity, c.received, c.buffer ++ [x], false,
      by rw [List.length_append]; exact h⟩, true)
  else some (c, false)

/-- Close the channel; `none` is a panic. -/
def close (c : Channel α) : Option (Channel α) :=
  if c.closed then none else some { c with closed := true }

/-- Take the next value; `none` if there is none. -/
def receive (c : Channel α) : Option (α × Channel α) :=
  match c.buffer, c.bounded with
  | [], _ => none
  | x :: xs, h => some (x, ⟨c.capacity, c.received ++ [x], xs, c.closed, Nat.le_of_succ_le h⟩)

@[simp] theorem sent_make (capacity : ℕ) : (make capacity : Channel α).sent = [] := rfl

/-! ## What the operations do -/

variable {c c' : Channel α} {x : α}

theorem trySend_eq_none_iff : c.trySend x = none ↔ c.closed = true := by
  unfold trySend
  split
  · rename_i h
    simp [h]
  · rename_i h
    split <;> simp [h]

/-- A send that finds a place. -/
theorem trySend_eq_true (h : c.trySend x = some (c', true)) :
    c.closed = false ∧ c.buffer.length < c.capacity ∧ c'.closed = false ∧
      c'.capacity = c.capacity ∧ c'.buffer = c.buffer ++ [x] ∧ c'.sent = c.sent ++ [x] := by
  unfold trySend at h
  split at h
  · cases h
  · rename_i hopen
    split at h
    · rename_i hroom
      cases h
      exact ⟨Bool.eq_false_iff.mpr hopen, hroom, rfl, rfl, rfl, (List.append_assoc ..).symm⟩
    · cases h

/-- A send that finds none. -/
theorem trySend_eq_false (h : c.trySend x = some (c', false)) :
    c.closed = false ∧ c.capacity ≤ c.buffer.length := by
  unfold trySend at h
  split at h
  · cases h
  · rename_i hopen
    split at h
    · cases h
    · rename_i hfull
      exact ⟨Bool.eq_false_iff.mpr hopen, Nat.not_lt.mp hfull⟩

theorem close_eq_none_iff : c.close = none ↔ c.closed = true := by
  unfold close
  split
  · rename_i h
    simp [h]
  · rename_i h
    simp [h]

/-- A close keeps what is buffered. -/
theorem close_eq_some (h : c.close = some c') :
    c.closed = false ∧ c' = { c with closed := true } := by
  unfold close at h
  split at h
  · cases h
  · rename_i hopen
    exact ⟨Bool.eq_false_iff.mpr hopen, (Option.some.inj h).symm⟩

/-- A receive takes the first value of the buffer. -/
theorem receive_eq_some (h : c.receive = some (x, c')) :
    c'.closed = c.closed ∧ c'.capacity = c.capacity ∧ c.buffer = x :: c'.buffer ∧
      c'.sent = c.sent := by
  obtain ⟨capacity, received, buffer, closed, bounded⟩ := c
  cases buffer with
  | nil => cases h
  | cons y ys =>
    cases h
    exact ⟨rfl, rfl, rfl, List.append_assoc ..⟩

end Channel

end AgentBus
