import AgentBus.Controlplane.RunStates
import AgentBus.Lib.Machine
import AgentBus.Lib.Maps

/-!
# The gauges that a sweep publishes

`Sweep` marks the agents that were not seen for a while offline and sets the gauges of the metrics
sink: the number of agents that are not offline, and the number of sessions for each status.  The
statuses are those of `CountByStatus`, which has no entry for a status without sessions, so the
gauge of a status that has lost its last session keeps its old value (`gauge_not_reset`).

After a sweep the gauges are exact if and only if every status that had sessions at an earlier sweep
still has some (`gauges_exact_iff`).

## Main definitions

* `Registry.sweepStale`, `Registry.activeCount`, `SessionStore.countByStatus` — the source.
* `Gauges`, `Monitored.sweep` — the sink, and what a sweep tells it.
-/

namespace AgentBus.Controlplane

open AgentStream Maps

/-- `SweepStale`. -/
def Registry.sweepStale (now : Time) (r : Registry) : Registry :=
  let cutoff := now - r.ttl
  { r with
    agents := mapValues
      (fun a =>
        if a.status ≠ .offline ∧ a.lastSeen < cutoff then { a with status := .offline } else a)
      r.agents }

/-- `ActiveCount`. -/
def Registry.activeCount (r : Registry) : ℕ :=
  r.agents.entries.foldl (fun n e => if e.2.status ≠ .offline then n + 1 else n) 0

/-- `CountByStatus`. -/
def SessionStore.countByStatus (s : SessionStore) : AList fun _ : RunStatus => ℕ :=
  tally (fun e => e.2.status) s.sessions.entries

/-- The last values of the gauges, where there are any. -/
structure Gauges where
  activeAgents : Option ℕ
  sessions : RunStatus → Option ℕ

/-- A control plane with a metrics sink. -/
structure Monitored where
  cp : ControlPlane
  gauges : Gauges

/-- `Sweep`. -/
def Monitored.sweep (now : Time) (m : Monitored) : Monitored :=
  let cp := { m.cp with reg := m.cp.reg.sweepStale now }
  { cp
    gauges :=
      { activeAgents := some cp.reg.activeCount
        sessions := overlay cp.sessions.countByStatus m.gauges.sessions } }

/-- The calls of a control plane. -/
inductive PlaneCall where
  | ingest (now : Time) (e : Event)
  | sweep (now : Time)

def Monitored.call (m : Monitored) : PlaneCall → Monitored
  | .ingest now e => { m with cp := m.cp.ingest now e }
  | .sweep now => m.sweep now

/-- Calls one after the other, from a new control plane and a sink without values. -/
def monitored (opts : List Setting) (calls : List PlaneCall) : Monitored :=
  calls.foldl Monitored.call ⟨ControlPlane.newWith opts, ⟨none, fun _ => none⟩⟩

/-- The number of sessions in a status. -/
def SessionStore.inStatus (s : SessionStore) (status : RunStatus) : ℕ :=
  s.sessions.entries.countP fun e => e.2.status = status

/-- The number of agents that are not offline. -/
def Registry.online (r : Registry) : ℕ := r.agents.entries.countP fun e => e.2.status ≠ .offline

/-! ## One sweep -/

theorem Registry.activeCount_eq (r : Registry) : r.activeCount = r.online := by
  have hloop (es : List (Sigma fun _ : String => AgentInfo)) (n : ℕ) :
      es.foldl (fun n e => if e.2.status ≠ .offline then n + 1 else n) n =
        n + es.countP fun e => e.2.status ≠ .offline := by
    induction es generalizing n with
    | nil => rfl
    | cons e es ih =>
      rw [List.foldl_cons, ih, List.countP_cons]
      by_cases h : e.2.status = .offline
      · simp [h]
      · simp [h]
        omega
  rw [activeCount, hloop, Nat.zero_add]
  rfl

/-- The gauge of a status is set if there is a session in it. -/
@[simp] theorem Monitored.sessions_sweep (now : Time) (m : Monitored) (status : RunStatus) :
    (m.sweep now).gauges.sessions status =
      if 0 < m.cp.sessions.inStatus status then some (m.cp.sessions.inStatus status)
      else m.gauges.sessions status := by
  simp only [sweep, overlay_apply, SessionStore.countByStatus, lookup_tally]
  change Option.or (if 0 < m.cp.sessions.inStatus status then _ else _) _ = _
  split <;> rfl

/-! ## All calls -/

/-- A status had sessions at a sweep. -/
def SweptWith (opts : List Setting) (calls : List PlaneCall) (status : RunStatus) : Prop :=
  ∃ before now after, calls = before ++ .sweep now :: after ∧
    0 < (monitored opts before).cp.sessions.inStatus status

theorem monitored_concat (opts : List Setting) (calls : List PlaneCall) (c : PlaneCall) :
    monitored opts (calls ++ [c]) = (monitored opts calls).call c := by
  simp [monitored]

theorem sweptWith_concat {opts : List Setting} {calls : List PlaneCall} {c : PlaneCall}
    {status : RunStatus} :
    SweptWith opts (calls ++ [c]) status ↔
      SweptWith opts calls status ∨
        (∃ now, c = .sweep now) ∧ 0 < (monitored opts calls).cp.sessions.inStatus status := by
  constructor
  · rintro ⟨before, now, after, heq, hpos⟩
    rcases Machine.concat_eq_append_cons_iff.mp heq with ⟨rfl, rfl, -⟩ | ⟨rest, -, hcalls⟩
    · exact .inr ⟨⟨now, rfl⟩, hpos⟩
    · exact .inl ⟨before, now, rest, hcalls, hpos⟩
  · rintro (⟨before, now, after, rfl, hpos⟩ | ⟨⟨now, rfl⟩, hpos⟩)
    · exact ⟨before, now, after ++ [c], by simp, hpos⟩
    · exact ⟨calls, now, [], rfl, hpos⟩

/-- **A gauge has a value exactly if its status had sessions at a sweep**, and never zero. -/
theorem gauges_monitored (opts : List Setting) (calls : List PlaneCall) (status : RunStatus) :
    ((monitored opts calls).gauges.sessions status = none ↔ ¬ SweptWith opts calls status) ∧
      ∀ n, (monitored opts calls).gauges.sessions status = some n → 0 < n := by
  induction calls using List.reverseRecOn with
  | nil => exact ⟨by simp [monitored, SweptWith], by simp [monitored]⟩
  | append_singleton calls c ih =>
    obtain ⟨hnone, hpos⟩ := ih
    rw [monitored_concat, sweptWith_concat]
    cases c with
    | ingest now e =>
      refine ⟨?_, hpos⟩
      simpa [Monitored.call] using hnone
    | sweep now =>
      simp only [Monitored.call, Monitored.sessions_sweep]
      split
      · rename_i hin
        exact ⟨by simp [hin], fun n hn => Option.some.inj hn ▸ hin⟩
      · rename_i hin
        exact ⟨by simp [hin, hnone], hpos⟩

/-- Right after a sweep the gauge of the agents is the number of those that are not offline, and
the gauges of the statuses are the numbers of their sessions exactly if every status that had
sessions at an earlier sweep has some now. -/
theorem gauges_exact_iff (opts : List Setting) (calls : List PlaneCall) (now : Time) :
    (monitored opts (calls ++ [.sweep now])).gauges.activeAgents =
        some (monitored opts (calls ++ [.sweep now])).cp.reg.online ∧
      ((∀ status, ((monitored opts (calls ++ [.sweep now])).gauges.sessions status).getD 0 =
          (monitored opts (calls ++ [.sweep now])).cp.sessions.inStatus status) ↔
        ∀ status, SweptWith opts calls status →
          0 < (monitored opts (calls ++ [.sweep now])).cp.sessions.inStatus status) := by
  rw [monitored_concat]
  have hsessions : ((monitored opts calls).call (.sweep now)).cp.sessions =
      (monitored opts calls).cp.sessions := rfl
  refine ⟨congrArg some (Registry.activeCount_eq _), ?_⟩
  rw [hsessions]
  refine forall_congr' fun status => ?_
  obtain ⟨hnone, hpos⟩ := gauges_monitored opts calls status
  rw [Monitored.call, Monitored.sessions_sweep]
  by_cases hin : 0 < (monitored opts calls).cp.sessions.inStatus status
  · simp [hin]
  · -- the gauge is as it was
    have hgauge : ((monitored opts calls).gauges.sessions status).getD 0 = 0 ↔
        (monitored opts calls).gauges.sessions status = none := by
      cases hold : (monitored opts calls).gauges.sessions status with
      | none => simp
      | some n => simpa using (hpos n hold).ne'
    rw [if_neg hin, Nat.eq_zero_of_not_pos hin, hgauge, hnone]
    simp

/-- A session runs and a sweep counts it; it completes, and after the next sweep the gauge of the
running sessions is still one. -/
theorem gauge_not_reset :
    (monitored [] [.ingest 1 (sessionEvent "note" "a"), .sweep 2,
        .ingest 3 (sessionEvent eventComplete "a"), .sweep 4]).gauges.sessions .running = some 1 ∧
      (monitored [] [.ingest 1 (sessionEvent "note" "a"), .sweep 2,
        .ingest 3 (sessionEvent eventComplete "a"), .sweep 4]).cp.sessions.inStatus .running =
          0 := by
  decide +kernel

end AgentBus.Controlplane
