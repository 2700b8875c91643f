import AgentBus.AgentStream.Polling
import AgentBus.Controlplane.ControlPlane

/-!
# Run states and the order of events

An event advances the state of its own session and touches no other, whatever it does to the
registry and the inboxes.  So the run states depend on the events of each session alone
(`runStates_order_irrelevant`), but for the time of the last event.  A control plane that restarts
and reads the topic partition by partition therefore comes to the run states it had.

## Main definitions

* `Setting`, `ControlPlane.newWith` — the options of `New`.
* `ControlPlane.ingestAll`, `rebuild` — ingesting a list of events, and a topic.
* `RunState.timeless`, `SameRuns` — run states up to the time of the last event.
* `stepSession` — what an event does to its session.
-/

namespace AgentBus.Controlplane

open AgentStream Broker

/-- The options of `New`. -/
inductive Setting where
  /-- `WithAgentTTL`. -/
  | agentTTL (ttl : ℤ)
  /-- `WithInboxSize`. -/
  | inboxSize (size : ℤ)
  /-- `WithEscalationAgent`. -/
  | escalationAgent (id : String)
  deriving DecidableEq, Repr

def Setting.apply (cp : ControlPlane) : Setting → ControlPlane
  | .agentTTL ttl => { cp with reg := ⟨∅, ttl⟩ }
  | .inboxSize size => { cp with inboxes := Inboxes.new size }
  | .escalationAgent id => { cp with escalationAgent := id }

/-- `New`. -/
def ControlPlane.newWith (opts : List Setting) : ControlPlane := opts.foldl Setting.apply .new

/-- Events are ingested one after the other, each at its time. -/
def ControlPlane.ingestAll (cp : ControlPlane) (es : List (Time × Event)) : ControlPlane :=
  es.foldl (fun cp e => cp.ingest e.1 e.2) cp

/-! ## The poller -/

/-- The batch of the poller. -/
def defaultPollBatch : ℕ := 256

/-- `Ingest` by the poller; the clock gives the time of each call. -/
def ingestNext (clock : ℕ → Time) (d : ControlPlane × ℕ) (e : Event) : ControlPlane × ℕ :=
  (d.1.ingest (clock d.2) e, d.2 + 1)

/-- `NewPoller`: the topic exists from now on, and every cursor starts at the beginning. -/
def newPoller (b : Broker (List UInt8)) (topic : String) : Broker (List UInt8) × List ℤ :=
  let b := b.ensureTopic topic 0
  (b, List.replicate (b.partitionCount topic) 0)

/-- `drainOnce`: a single pass over all partitions. -/
def drainOnce (clock : ℕ → Time) (topic : String) (b : Broker (List UInt8)) (cs : List ℤ)
    (d : ControlPlane × ℕ) : Option (List ℤ × (ControlPlane × ℕ) × ℕ) :=
  pollFrom topic defaultPollBatch (ingestNext clock) b 0 cs d

/-- The cursors and the control plane after `n` passes. -/
def drain (clock : ℕ → Time) (topic : String) (b : Broker (List UInt8)) (n : ℕ)
    (d : List ℤ × (ControlPlane × ℕ)) : Option (List ℤ × (ControlPlane × ℕ)) :=
  poll topic defaultPollBatch (ingestNext clock) b n d

/-- The control plane of a process that starts over a broker, after `n` passes of its poller. -/
def rebuild (clock : ℕ → Time) (opts : List Setting) (topic : String) (b : Broker (List UInt8))
    (n : ℕ) : Option ControlPlane := do
  let (b, cursors) := newPoller b topic
  let (_, cp, _) ← drain clock topic b n (cursors, ControlPlane.newWith opts, 0)
  some cp

/-! ## One session -/

/-- A run state without the time of its last event. -/
def RunState.timeless (rs : RunState) : RunState := { rs with lastEventAt := 0 }

/-- Two control planes hold the same runs, but for the times of their last events. -/
def SameRuns (cp cp' : ControlPlane) : Prop :=
  ∀ key, (cp.sessions.get key).map RunState.timeless = (cp'.sessions.get key).map RunState.timeless

/-- What `Escalate` does to a run. -/
def RunState.escalated (agent : String) (rs : RunState) : RunState :=
  { rs with pendingAgent := agent, status := .waiting }

/-- What `Ingest` does to the session of an event, times aside. -/
def stepSession (escalationAgent : String) (prev : Option RunState) (e : Event) :
    Option RunState :=
  let next :=
    if e.key = "//" then prev
    else
      some (((prev.getD ⟨e.key, e.agentID, "", 0, .running, 0⟩).pickup e.agentID).advance e
        (target e))
  if e.type = eventError ∧ escalationAgent ≠ "" ∧ escalationAgent ≠ e.agentID then
    next.map (RunState.escalated escalationAgent)
  else next

@[simp] theorem RunState.timeless_pickup (agentID : String) (rs : RunState) :
    (rs.pickup agentID).timeless = rs.timeless.pickup agentID := by
  unfold RunState.pickup RunState.timeless
  dsimp only
  split <;> rfl

@[simp] theorem RunState.timeless_advance (e : Event) (toAgent : String) (rs : RunState) :
    (rs.advance e toAgent).timeless = rs.timeless.advance e toAgent := by
  unfold RunState.advance RunState.timeless
  dsimp only
  split
  · split <;> rfl
  · split
    · rfl
    · split <;> rfl

theorem SessionStore.timeless_apply (now : Time) (s : SessionStore) (e : Event)
    (toAgent : String) :
    ((s.apply now e toAgent).get e.key).map RunState.timeless =
      if e.key = "//" then (s.get e.key).map RunState.timeless
      else
        some (((((s.get e.key).map RunState.timeless).getD
          ⟨e.key, e.agentID, "", 0, .running, 0⟩).pickup e.agentID).advance e toAgent) := by
  by_cases hkey : e.key = "//"
  · rw [if_pos hkey, SessionStore.apply, if_pos hkey]
  · rw [if_neg hkey, SessionStore.get_apply now s toAgent hkey, if_pos rfl, Option.map_some,
      RunState.timeless_advance, RunState.timeless_pickup, SessionStore.entry]
    cases hget : s.get e.key with
    | none => rw [show s.sessions.lookup e.key = none from hget]; rfl
    | some rs => rw [show s.sessions.lookup e.key = some rs from hget]; rfl

theorem SessionStore.timeless_escalate (now : Time) (s : SessionStore) (key agent : String) :
    ((s.escalate now key agent).get key).map RunState.timeless =
      ((s.get key).map RunState.timeless).map (RunState.escalated agent) := by
  unfold SessionStore.escalate SessionStore.get
  split
  · rename_i hget
    rw [hget]
    rfl
  · rename_i rs hget
    rw [AList.lookup_insert, hget]
    rfl

@[simp] theorem ControlPlane.escalationAgent_route (cp : ControlPlane) (e : Event) :
    (cp.route e).escalationAgent = cp.escalationAgent := by
  unfold ControlPlane.route
  split <;> rfl

@[simp] theorem ControlPlane.escalationAgent_ingest (now : Time) (cp : ControlPlane) (e : Event) :
    (cp.ingest now e).escalationAgent = cp.escalationAgent := by
  unfold ControlPlane.ingest
  dsimp only
  split
  · exact ControlPlane.escalationAgent_route _ e
  · exact ControlPlane.escalationAgent_route _ e

/-- **What an event does to its session.** -/
theorem ControlPlane.timeless_ingest (now : Time) (cp : ControlPlane) (e : Event) :
    ((cp.ingest now e).sessions.get e.key).map RunState.timeless =
      stepSession cp.escalationAgent ((cp.sessions.get e.key).map RunState.timeless) e := by
  unfold ControlPlane.ingest stepSession
  dsimp only
  generalize hcp : ControlPlane.route _ e = cp'
  have hs : cp'.sessions = cp.sessions.apply now e (target e) := by
    rw [← hcp, ControlPlane.sessions_route]
  have hagent : cp'.escalationAgent = cp.escalationAgent := by
    rw [← hcp, ControlPlane.escalationAgent_route]
  rw [hagent]
  split
  · rw [ControlPlane.escalate, hs, hagent, SessionStore.timeless_escalate,
      SessionStore.timeless_apply]
  · rw [hs, SessionStore.timeless_apply]

/-! ## Lists of events -/

/-- **The run of a session is the fold of its own events.** -/
theorem ControlPlane.timeless_ingestAll (es : List (Time × Event)) (cp : ControlPlane)
    (key : String) :
    ((cp.ingestAll es).sessions.get key).map RunState.timeless =
      ((es.map Prod.snd).filter fun e => e.key = key).foldl (stepSession cp.escalationAgent)
        ((cp.sessions.get key).map RunState.timeless) := by
  induction es generalizing cp with
  | nil => rfl
  | cons e es ih =>
    have htail := ih (cp.ingest e.1 e.2)
    rw [cp.escalationAgent_ingest] at htail
    rw [List.map_cons, List.filter_cons]
    refine htail.trans ?_
    by_cases hkey : e.2.key = key
    · subst hkey
      rw [if_pos (by simp), List.foldl_cons, cp.timeless_ingest]
    · rw [if_neg (by simpa using hkey), cp.get_ingest_of_ne e.1 (Ne.symm hkey)]

/-- Lists that agree key by key lead to the same runs. -/
theorem sameRuns_ingestAll (cp : ControlPlane) {es es' : List (Time × Event)}
    (h : ∀ k, ((es.map Prod.snd).filter fun e => e.key = k) =
      (es'.map Prod.snd).filter fun e => e.key = k) :
    SameRuns (cp.ingestAll es) (cp.ingestAll es') := by
  intro key
  rw [cp.timeless_ingestAll, cp.timeless_ingestAll, h]

/-- What the poller hands over is ingested, at some times. -/
theorem foldl_ingestNext (clock : ℕ → Time) (fs : List Event) (cp : ControlPlane) (k : ℕ) :
    ∃ es : List (Time × Event), es.map Prod.snd = fs ∧
      (fs.foldl (ingestNext clock) (cp, k)).1 = cp.ingestAll es := by
  induction fs generalizing cp k with
  | nil => exact ⟨[], rfl, rfl⟩
  | cons e fs ih =>
    obtain ⟨es, hes, heq⟩ := ih (cp.ingest (clock k) e) (k + 1)
    refine ⟨(clock k, e) :: es, by rw [List.map_cons, hes], ?_⟩
    rw [List.foldl_cons]
    exact heq

/-- **Run states depend on the order within each session only.**  For any options, two lists of
events that have the same events in the same order for every session lead a fresh control plane to
the same run states, whatever the times; and so does a restart that reads one of them from the
partitions of a topic. -/
theorem runStates_order_irrelevant (opts : List Setting) (es es' : List (Time × Event))
    (h : ∀ k, ((es.map Prod.snd).filter fun e => e.key = k) =
      (es'.map Prod.snd).filter fun e => e.key = k) :
    SameRuns ((ControlPlane.newWith opts).ingestAll es)
        ((ControlPlane.newWith opts).ingestAll es') ∧
      ∀ topic b n view clock, Reads topic defaultPollBatch b n view (es.map Prod.snd) →
        ∃ cp, rebuild clock opts topic b n = some cp ∧
          SameRuns cp ((ControlPlane.newWith opts).ingestAll es') := by
  refine ⟨sameRuns_ingestAll _ h, ?_⟩
  intro topic b n view clock hreads
  obtain ⟨hshown, hcap, hcount⟩ := hreads.shown.ensureTopic
  have hreads' : Reads topic defaultPollBatch (b.ensureTopic topic 0) n view (es.map Prod.snd) :=
    ⟨hshown, hreads.routed, by rw [hcap]; exact hreads.read⟩
  obtain ⟨cs, fs, hpoll, hfs⟩ :=
    hreads'.poll (ingestNext clock) (by decide) (ControlPlane.newWith opts, 0)
  obtain ⟨es'', hes'', heq⟩ := foldl_ingestNext clock fs (ControlPlane.newWith opts) 0
  refine ⟨(ControlPlane.newWith opts).ingestAll es'', ?_, sameRuns_ingestAll _ ?_⟩
  · simp only [rebuild, newPoller, hcount, drain, hpoll, Option.bind_eq_bind, Option.bind_some,
      ← heq]
  · intro k
    rw [hes'', hfs, h]

/-- An event of an agent in a session. -/
def sessionEvent (type session : String) : Event :=
  ⟨"1.0", type, "acme", "p", session, "planner", "", 0, "2026-01-01T00:00:00Z", some (.obj [])⟩

/-- One session fails, and another goes on. -/
def twoRuns : List (Time × Event) := [(1, sessionEvent "error" "a"), (2, sessionEvent "note" "b")]

/-- The failed run waits for the escalation agent, in either order of the events. -/
theorem runStates_order_irrelevant_two :
    (((ControlPlane.newWith [.escalationAgent "ops"]).ingestAll twoRuns).sessions.get
        (sessionKey "acme" "p" "a")).map RunState.timeless =
      some ⟨sessionKey "acme" "p" "a", "planner", "ops", 1, .waiting, 0⟩ ∧
    SameRuns ((ControlPlane.newWith [.escalationAgent "ops"]).ingestAll twoRuns)
      ((ControlPlane.newWith [.escalationAgent "ops"]).ingestAll twoRuns.reverse) ∧
    ∃ b view, Reads "agent-events" defaultPollBatch b 1 view (twoRuns.map Prod.snd) ∧
      ∃ cp, rebuild (fun _ => 0) [.escalationAgent "ops"] "agent-events" b 1 = some cp ∧
        SameRuns cp
          ((ControlPlane.newWith [.escalationAgent "ops"]).ingestAll twoRuns.reverse) := by
  have hsame : ∀ k, ((twoRuns.map Prod.snd).filter fun e => e.key = k) =
      (twoRuns.reverse.map Prod.snd).filter fun e => e.key = k :=
    filter_key_swap (by decide +kernel)
  have hcomplete : ∀ e ∈ twoRuns.map Prod.snd, e.Complete ∧ e.validate.isOk = true := by
    decide +kernel
  obtain ⟨b, view, hreads⟩ := exists_reads "agent-events" defaultPollBatch 4 1 hcomplete
    (by decide +kernel) (by decide +kernel)
  obtain ⟨hruns, hpoller⟩ :=
    runStates_order_irrelevant [.escalationAgent "ops"] twoRuns twoRuns.reverse hsame
  exact ⟨by decide +kernel, hruns, b, view, hreads, hpoller _ _ _ _ _ hreads⟩

end AgentBus.Controlplane
