import Mathlib.Data.Nat.Notation
import Mathlib.Order.Nat

/-!
# Group commit by generations

Callers append to a log and wait until what they appended is on disk.  One of them at a time
runs a round for all: it takes the current generation, flushes what has been appended, lets
others go on appending in the next generation, syncs, and then declares its generation synced.
A caller whose generation is synced returns.

Positions count whatever the log is made of, bytes or records.  What makes the protocol right is
an invariant of each caller in view of the counters (`Gens.Allows`) and a compatibility of any two
callers (`Role.Compatible`); a `Step` keeps both.  The steps of a concrete log are composed from
the ones here by `Step.trans`.

## Main definitions

* `Gens` — the counters.
* `Role` — what a caller is to the rounds.
* `Step` — a step of one caller that keeps the invariant, with a theorem for each kind of step.
-/

namespace AgentBus.GroupCommit

/-- The counters of a log with group commit. -/
structure Gens where
  /-- The generation of what is appended now. -/
  pending : ℕ
  /-- The last generation a round has covered. -/
  synced : ℕ
  /-- A round is under way. -/
  syncing : Bool
  /-- The end of what has been appended. -/
  tail : ℕ
  /-- The end of what is on disk. -/
  durable : ℕ

/-- What a caller is to the rounds. -/
inductive Role where
  /-- Not yet, or no longer, part of one. -/
  | outside
  /-- Has appended up to `pos`, in generation `gen`. -/
  | member (gen pos : ℕ)
  /-- Has done so, and runs the round of generation `round`, which has flushed up to `upTo`. -/
  | syncer (gen pos round upTo : ℕ)

namespace Gens

/-- The generation of what is appended now is not synced. -/
def Valid (g : Gens) : Prop := g.synced < g.pending

/-- What is known of a caller that appended up to `pos` in generation `gen`. -/
structure Member (g : Gens) (gen pos : ℕ) : Prop where
  started : gen ≤ g.pending
  appended : pos ≤ g.tail
  onDisk : gen ≤ g.synced → pos ≤ g.durable

/-- What is known of a caller that runs the round of generation `round`. -/
structure Syncer (g : Gens) (gen pos round upTo : ℕ) : Prop extends Member g gen pos where
  running : g.syncing = true
  before : round < g.pending
  covers : gen ≤ round ∧ pos ≤ upTo

/-- What is known of a caller. -/
def Allows (g : Gens) : Role → Prop
  | .outside => True
  | .member gen pos => g.Member gen pos
  | .syncer gen pos round upTo => g.Syncer gen pos round upTo

end Gens

/-- What is known of two callers: one round at a time, and a round covers what was appended in its
generation or before. -/
def Role.Compatible : Role → Role → Prop
  | .syncer _ _ _ _, .syncer _ _ _ _ => False
  | .syncer _ _ round upTo, .member gen pos => gen ≤ round → pos ≤ upTo
  | .member gen pos, .syncer _ _ round upTo => gen ≤ round → pos ≤ upTo
  | _, _ => True

theorem Role.Compatible.symm {r u : Role} (h : r.Compatible u) : u.Compatible r := by
  cases r <;> cases u <;> exact h

theorem Role.Compatible.outside (u : Role) : Role.outside.Compatible u := by
  cases u <;> trivial

/-- A step of a caller keeps what is known of it, of the others, and of it with the others. -/
structure Step (g : Gens) (r : Role) (g' : Gens) (r' : Role) : Prop where
  own : g.Valid → g.Allows r → g'.Valid ∧ g'.Allows r'
  others : ∀ u, g.Valid → g.Allows r → g.Allows u → r.Compatible u →
    g'.Allows u ∧ r'.Compatible u

namespace Step

variable {g g' g'' : Gens} {r r' r'' : Role} {gen pos round upTo : ℕ}

theorem refl (g : Gens) (r : Role) : Step g r g r :=
  ⟨fun hg hr => ⟨hg, hr⟩, fun _ _ _ hu hc => ⟨hu, hc⟩⟩

theorem trans (h : Step g r g' r') (h' : Step g' r' g'' r'') : Step g r g'' r'' := by
  refine ⟨?_, ?_⟩
  · intro hg hr
    obtain ⟨hg', hr'⟩ := h.own hg hr
    exact h'.own hg' hr'
  · intro u hg hr hu hc
    obtain ⟨hg', hr'⟩ := h.own hg hr
    obtain ⟨hu', hc'⟩ := h.others u hg hr hu hc
    exact h'.others u hg' hr' hu' hc'

/-- A caller that leaves. -/
theorem leave (g : Gens) (r : Role) : Step g r g .outside := by
  refine ⟨fun hg _ => ⟨hg, trivial⟩, ?_⟩
  exact fun u _ _ hu _ => ⟨hu, .outside u⟩

/-- What is known of a caller survives the growth of the log. -/
theorem allows_grow {u : Role} {tail durable : ℕ} (htail : g.tail ≤ tail)
    (hdurable : g.durable ≤ durable) (hu : g.Allows u) :
    ({ g with tail := tail, durable := durable } : Gens).Allows u := by
  have hmember : ∀ {gen pos}, g.Member gen pos →
      ({ g with tail := tail, durable := durable } : Gens).Member gen pos :=
    fun h => ⟨h.started, h.appended.trans htail, fun hgen => (h.onDisk hgen).trans hdurable⟩
  cases u with
  | outside => trivial
  | member gen pos => exact hmember hu
  | syncer gen pos round upTo => exact ⟨hmember hu.toMember, hu.running, hu.before, hu.covers⟩

/-- The log grows, in memory or on disk. -/
theorem grow {tail durable : ℕ} (htail : g.tail ≤ tail) (hdurable : g.durable ≤ durable) :
    Step g r { g with tail := tail, durable := durable } r :=
  ⟨fun hg hr => ⟨hg, allows_grow htail hdurable hr⟩,
    fun _ _ _ hu hc => ⟨allows_grow htail hdurable hu, hc⟩⟩

/-- A caller has appended up to the tail. -/
theorem enter (g : Gens) : Step g .outside g (.member g.pending g.tail) := by
  refine ⟨?_, ?_⟩
  · intro hg _
    refine ⟨hg, le_refl _, le_refl _, fun h => ?_⟩
    exact absurd (lt_of_lt_of_le hg h) (lt_irrefl _)
  · intro u hg _ hu _
    refine ⟨hu, ?_⟩
    cases u with
    | syncer gen' pos' round' upTo' =>
      intro h
      exact absurd (lt_of_le_of_lt h hu.before) (lt_irrefl _)
    | _ => trivial

/-- A caller starts a round: it has flushed all there is, and the next generation begins. -/
theorem start (hidle : g.syncing = false) :
    Step g (.member gen pos) { g with pending := g.pending + 1, syncing := true }
      (.syncer gen pos g.pending g.tail) := by
  refine ⟨?_, ?_⟩
  · intro hg hr
    exact ⟨Nat.lt_succ_of_lt hg, ⟨hr.started.trans (Nat.le_succ _), hr.appended, hr.onDisk⟩, rfl,
      Nat.lt_succ_self _, hr.started, hr.appended⟩
  · intro u _ _ hu _
    cases u with
    | outside => exact ⟨trivial, trivial⟩
    | member gen' pos' =>
      exact ⟨⟨hu.started.trans (Nat.le_succ _), hu.appended, hu.onDisk⟩, fun _ => hu.appended⟩
    | syncer gen' pos' round' upTo' =>
      have hsyncing := hu.running
      rw [hidle] at hsyncing
      cases hsyncing

/-- A round ends well: its generation is synced. -/
theorem finish (hdurable : upTo ≤ g.durable) :
    Step g (.syncer gen pos round upTo) { g with synced := round, syncing := false }
      (.member gen pos) := by
  refine ⟨?_, ?_⟩
  · intro _ hr
    exact ⟨hr.before, hr.started, hr.appended, fun _ => hr.covers.2.trans hdurable⟩
  · intro u _ _ hu hc
    cases u with
    | outside => exact ⟨trivial, trivial⟩
    | member gen' pos' => exact ⟨⟨hu.started, hu.appended, fun h => (hc h).trans hdurable⟩, trivial⟩
    | syncer gen' pos' round' upTo' => exact hc.elim

/-- A round fails. -/
theorem abandon :
    Step g (.syncer gen pos round upTo) { g with syncing := false } .outside := by
  refine ⟨fun hg _ => ⟨hg, trivial⟩, ?_⟩
  intro u _ _ hu hc
  cases u with
  | outside => exact ⟨trivial, trivial⟩
  | member gen' pos' => exact ⟨⟨hu.started, hu.appended, hu.onDisk⟩, trivial⟩
  | syncer gen' pos' round' upTo' => exact hc.elim

end Step

end AgentBus.GroupCommit
