import AgentBus.Controlplane.RunStates
import AgentBus.Lib.Machine

/-!
# What a waiting session waits for

A handoff or an escalation names the agent that a session waits for, and an error or the end of the
run takes the wait back.  Any other event of an agent that is not the pending one sets the session
running again while the handoff is still outstanding (`waiting_overwritten`).

As long as no such event comes while a session waits, it waits exactly if a handoff is outstanding
(`waiting_iff_outstanding`).

## Main definitions

* `Names`, `Ends`, `Plain` — what an event may do to the wait.
* `Outstanding` — the last agent that was named is not taken back.
-/

namespace AgentBus.Controlplane

open AgentStream

/-- The event names the agent that its session waits for. -/
def Names (escalationAgent : String) (e : Event) : Prop :=
  (e.type = eventHandoff ∧ target e ≠ "") ∨
    (e.type = eventError ∧ escalationAgent ≠ "" ∧ escalationAgent ≠ e.agentID)

/-- An error or the end of the run. -/
def Ends (e : Event) : Prop := e.type = eventError ∨ e.type = eventComplete

/-- An event of a type that is not interpreted. -/
def Plain (e : Event) : Prop :=
  e.type ≠ eventHandoff ∧ e.type ≠ eventError ∧ e.type ≠ eventComplete

instance (e : Event) : Decidable (Plain e) := inferInstanceAs (Decidable (_ ∧ _ ∧ _))

/-- An agent was named, and there was no error and no end of the run since the last time. -/
def Outstanding (escalationAgent : String) (es : List Event) : Prop :=
  ∃ before e after, es = before ++ e :: after ∧ Names escalationAgent e ∧
    ∀ e' ∈ after, ¬ Names escalationAgent e' ∧ ¬ Ends e'

theorem outstanding_concat {escalationAgent : String} {es : List Event} {e : Event} :
    Outstanding escalationAgent (es ++ [e]) ↔
      Names escalationAgent e ∨ ¬ Ends e ∧ Outstanding escalationAgent es := by
  constructor
  · rintro ⟨before, e', after, heq, hnames, hafter⟩
    rcases Machine.concat_eq_append_cons_iff.mp heq with ⟨-, rfl, -⟩ | ⟨rest, rfl, hes⟩
    · exact .inl hnames
    · exact .inr ⟨(hafter e (by simp)).2, before, e', rest, hes, hnames,
        fun e'' h => hafter e'' (by simp [h])⟩
  · rintro (hnames | ⟨hends, before, e', after, rfl, hnames, hafter⟩)
    · exact ⟨es, e, [], rfl, hnames, by simp⟩
    · by_cases hlast : Names escalationAgent e
      · exact ⟨before ++ e' :: after, e, [], rfl, hlast, by simp⟩
      · refine ⟨before, e', after ++ [e], by simp, hnames, fun e'' he'' => ?_⟩
        rcases List.mem_append.mp he'' with he'' | he''
        · exact hafter e'' he''
        · obtain rfl := List.mem_singleton.mp he''
          exact ⟨hlast, hends⟩

/-! ## One event -/

/-- What an event does to the run of its session. -/
def RunState.stepped (escalationAgent : String) (e : Event) (rs : RunState) : RunState :=
  let rs := (rs.pickup e.agentID).advance e (target e)
  if e.type = eventError ∧ escalationAgent ≠ "" ∧ escalationAgent ≠ e.agentID then
    rs.escalated escalationAgent
  else rs

theorem stepSession_eq (escalationAgent : String) (prev : Option RunState) {e : Event}
    (hkey : e.key ≠ "//") :
    stepSession escalationAgent prev e =
      some ((prev.getD ⟨e.key, e.agentID, "", 0, .running, 0⟩).stepped escalationAgent e) := by
  simp only [stepSession, RunState.stepped, if_neg hkey]
  split <;> rfl

namespace RunState

/-- The agent of the event is the one that the session waits for. -/
def Awaits (rs : RunState) (e : Event) : Prop := rs.pendingAgent ≠ "" ∧ e.agentID = rs.pendingAgent

variable {escalationAgent : String} {e : Event} {rs : RunState}

@[simp] theorem stepCount_pickup (agentID : String) :
    (rs.pickup agentID).stepCount = rs.stepCount := by
  unfold pickup
  split <;> rfl

@[simp] theorem stepCount_advance (toAgent : String) :
    (rs.advance e toAgent).stepCount = rs.stepCount + 1 := by
  unfold advance
  repeat' split
  all_goals rfl

/-- The switch gives a session its active agent only if it has none. -/
theorem activeAgent_advance (hactive : rs.activeAgent ≠ "") (toAgent : String) :
    (rs.advance e toAgent).activeAgent = rs.activeAgent := by
  unfold advance
  repeat' split
  all_goals rfl

/-- An escalation changes the pending agent and the status only. -/
theorem stepped_frame :
    (rs.stepped escalationAgent e).stepCount =
        ((rs.pickup e.agentID).advance e (target e)).stepCount ∧
      (rs.stepped escalationAgent e).activeAgent =
        ((rs.pickup e.agentID).advance e (target e)).activeAgent := by
  unfold stepped
  dsimp only
  split <;> exact ⟨rfl, rfl⟩

@[simp] theorem stepCount_stepped :
    (rs.stepped escalationAgent e).stepCount = rs.stepCount + 1 := by
  simp [stepped_frame.1]

/-- An event that names an agent leaves the session waiting for it. -/
theorem stepped_of_names (rs : RunState) (h : Names escalationAgent e) :
    (rs.stepped escalationAgent e).status = .waiting ∧
      (rs.stepped escalationAgent e).pendingAgent ≠ "" := by
  unfold stepped
  dsimp only
  rcases h with ⟨htype, htarget⟩ | hescalates
  · have herror : ¬ e.type = eventError := by rw [htype]; decide
    rw [if_neg fun hc => herror hc.1, advance, if_pos htype, if_pos htarget]
    exact ⟨rfl, htarget⟩
  · rw [if_pos hescalates]
    exact ⟨rfl, hescalates.2.1⟩

theorem stepped_eq (h : ¬ Names escalationAgent e) :
    rs.stepped escalationAgent e = (rs.pickup e.agentID).advance e (target e) :=
  if_neg fun hc => h (.inr hc)

theorem target_eq_of_not_names (h : ¬ Names escalationAgent e) : target e = "" := by
  by_contra htarget
  by_cases htype : e.type = eventHandoff
  · exact h (.inl ⟨htype, htarget⟩)
  · exact htarget (if_neg htype)

@[simp] theorem pickup_of_awaits (h : rs.Awaits e) :
    rs.pickup e.agentID =
      { rs with activeAgent := e.agentID, pendingAgent := "", status := .running } :=
  if_pos h

@[simp] theorem pickup_of_not_awaits (h : ¬ rs.Awaits e) : rs.pickup e.agentID = rs := if_neg h

/-- Without a target, the switch leaves the pending agent. -/
@[simp] theorem pendingAgent_advance : (rs.advance e "").pendingAgent = rs.pendingAgent := by
  unfold advance
  repeat' split
  all_goals first | rfl | contradiction

/-- Without a target, it leaves no session waiting that did not wait. -/
theorem status_advance (h : rs.status ≠ .waiting ∨ e.type ≠ eventHandoff) :
    (rs.advance e "").status ≠ .waiting := by
  unfold advance
  split
  · exact h.resolve_right (not_not.mpr ‹_›)
  · split
    · exact nofun
    · split
      · exact nofun
      · dsimp only
        split
        · exact nofun
        · rename_i hended
          intro hwaiting
          simp [hwaiting] at hended

/-- Any event of the pending agent that names none ends the wait. -/
theorem stepped_of_awaits (h : ¬ Names escalationAgent e) (hawaits : rs.Awaits e) :
    (rs.stepped escalationAgent e).status ≠ .waiting ∧
      (rs.stepped escalationAgent e).pendingAgent = "" := by
  rw [stepped_eq h, target_eq_of_not_names h, pendingAgent_advance, pickup_of_awaits hawaits]
  exact ⟨status_advance (.inl nofun), rfl⟩

/-- An event of another agent that names none leaves the pending one. -/
theorem pendingAgent_stepped (h : ¬ Names escalationAgent e) (hawaits : ¬ rs.Awaits e) :
    (rs.stepped escalationAgent e).pendingAgent = rs.pendingAgent := by
  rw [stepped_eq h, target_eq_of_not_names h, pendingAgent_advance, pickup_of_not_awaits hawaits]

/-- A handoff of another agent without a target leaves the status. -/
theorem status_stepped_handoff (h : ¬ Names escalationAgent e) (hawaits : ¬ rs.Awaits e)
    (htype : e.type = eventHandoff) : (rs.stepped escalationAgent e).status = rs.status := by
  rw [stepped_eq h, target_eq_of_not_names h, pickup_of_not_awaits hawaits, advance, if_pos htype]
  rfl

/-- No other event leaves a session waiting. -/
theorem status_stepped (h : ¬ Names escalationAgent e) (htype : e.type ≠ eventHandoff) :
    (rs.stepped escalationAgent e).status ≠ .waiting := by
  rw [stepped_eq h, target_eq_of_not_names h]
  exact status_advance (.inr htype)

theorem activeAgent_stepped (hactive : rs.activeAgent ≠ "") (hawaits : ¬ rs.Awaits e) :
    (rs.stepped escalationAgent e).activeAgent = rs.activeAgent := by
  rw [stepped_frame.2, pickup_of_not_awaits hawaits, activeAgent_advance hactive]

theorem activeAgent_stepped_ne (hactive : rs.activeAgent ≠ "") (hagent : e.agentID ≠ "") :
    (rs.stepped escalationAgent e).activeAgent ≠ "" := by
  by_cases hawaits : rs.Awaits e
  · rw [stepped_frame.2, pickup_of_awaits hawaits, activeAgent_advance hagent]
    exact hagent
  · rwa [activeAgent_stepped hactive hawaits]

/-- What the run of a session says of its events. -/
structure Tracks (escalationAgent : String) (es : List Event) (rs : RunState) : Prop where
  waiting : rs.status = .waiting ↔ rs.pendingAgent ≠ "" ∧ Outstanding escalationAgent es
  steps : rs.stepCount = es.length
  active : rs.activeAgent ≠ ""

theorem tracks_timeless {es : List Event} :
    rs.timeless.Tracks escalationAgent es ↔ rs.Tracks escalationAgent es :=
  ⟨fun h => ⟨h.waiting, h.steps, h.active⟩, fun h => ⟨h.waiting, h.steps, h.active⟩⟩

theorem tracks_new (escalationAgent key : String) {agent : String} (hagent : agent ≠ "") :
    Tracks escalationAgent [] ⟨key, agent, "", 0, .running, 0⟩ :=
  ⟨by simp, rfl, hagent⟩

/-- **An event is tracked**, unless it is a plain one of another agent while the session waits. -/
theorem Tracks.stepped {es : List Event} (h : rs.Tracks escalationAgent es)
    (hagent : e.agentID ≠ "")
    (hplain : Plain e → rs.status = .waiting → e.agentID = rs.pendingAgent) :
    (rs.stepped escalationAgent e).Tracks escalationAgent (es ++ [e]) := by
  refine ⟨?_, by simp [h.steps], activeAgent_stepped_ne h.active hagent⟩
  rw [outstanding_concat]
  by_cases hnames : Names escalationAgent e
  · obtain ⟨hstatus, hpending⟩ := stepped_of_names rs hnames
    exact iff_of_true hstatus ⟨hpending, .inl hnames⟩
  by_cases hawaits : rs.Awaits e
  · obtain ⟨hstatus, hpending⟩ := stepped_of_awaits hnames hawaits
    exact iff_of_false hstatus fun hc => hc.1 hpending
  rw [pendingAgent_stepped hnames hawaits]
  by_cases htype : e.type = eventHandoff
  · have hends : ¬ Ends e := by
      rintro (h | h) <;> rw [htype] at h <;> revert h <;> decide
    rw [status_stepped_handoff hnames hawaits htype, h.waiting]
    simp [hnames, hends]
  · refine iff_of_false (status_stepped hnames htype) ?_
    rintro ⟨hpending, hnames' | ⟨hends, hout⟩⟩
    · exact hnames hnames'
    · -- the session waited, so the event is of the pending agent
      have hother : Plain e := ⟨htype, fun h => hends (.inl h), fun h => hends (.inr h)⟩
      exact hawaits ⟨hpending, hplain hother (h.waiting.mpr ⟨hpending, hout⟩)⟩

/-- The pending agent is cleared by an event of it only. -/
theorem awaits_of_cleared (hpending : rs.pendingAgent ≠ "")
    (hcleared : (rs.stepped escalationAgent e).pendingAgent = "") : rs.Awaits e := by
  by_contra hawaits
  by_cases hnames : Names escalationAgent e
  · exact (stepped_of_names rs hnames).2 hcleared
  · exact hpending ((pendingAgent_stepped hnames hawaits).symm.trans hcleared)

end RunState

/-! ## All events -/

namespace ControlPlane

theorem ingestAll_concat (cp : ControlPlane) (es : List (Time × Event)) (e : Time × Event) :
    cp.ingestAll (es ++ [e]) = (cp.ingestAll es).ingest e.1 e.2 := by
  simp [ingestAll]

@[simp] theorem escalationAgent_ingestAll (cp : ControlPlane) (es : List (Time × Event)) :
    (cp.ingestAll es).escalationAgent = cp.escalationAgent := by
  induction es using List.reverseRecOn with
  | nil => rfl
  | append_singleton es e ih => rw [ingestAll_concat, escalationAgent_ingest, ih]

@[simp] theorem get_newWith (opts : List Setting) (key : String) :
    (newWith opts).sessions.get key = none := by
  have hsessions : (newWith opts).sessions = ControlPlane.new.sessions := by
    induction opts using List.reverseRecOn with
    | nil => rfl
    | append_singleton opts o ih =>
      rw [newWith, List.foldl_append]
      cases o <;> exact ih
  rw [hsessions]
  rfl

/-- An event of no session is not applied. -/
@[simp] theorem get_ingestAll_unkeyed (opts : List Setting) (es : List (Time × Event)) :
    ((newWith opts).ingestAll es).sessions.get "//" = none := by
  induction es using List.reverseRecOn with
  | nil => exact get_newWith opts "//"
  | append_singleton es e ih =>
    rw [ingestAll_concat]
    by_cases hkey : e.2.key = "//"
    · have hrun := ((newWith opts).ingestAll es).timeless_ingest e.1 e.2
      rw [hkey, ih] at hrun
      simpa [stepSession, hkey] using hrun
    · rw [get_ingest_of_ne e.1 _ (Ne.symm hkey), ih]

/-- What an event of a session makes of its run. -/
theorem timeless_ingest_stepped (cp : ControlPlane) (now : Time) {e : Event} (hkey : e.key ≠ "//")
    {rs' : RunState} (hrs' : (cp.ingest now e).sessions.get e.key = some rs') :
    rs'.timeless =
      (((cp.sessions.get e.key).map RunState.timeless).getD
        ⟨e.key, e.agentID, "", 0, .running, 0⟩).stepped cp.escalationAgent e := by
  have hrun := cp.timeless_ingest now e
  rw [hrs', stepSession_eq _ _ hkey] at hrun
  exact Option.some.inj hrun

end ControlPlane

/-- The events of a session. -/
def eventsOf (key : String) (es : List (Time × Event)) : List Event :=
  (es.map Prod.snd).filter fun e => e.key = key

/-- No plain event of an agent that is not the pending one comes while the session waits. -/
def Undisturbed (opts : List Setting) (key : String) (es : List (Time × Event)) : Prop :=
  ∀ before e after, es = before ++ e :: after → e.2.key = key → Plain e.2 →
    ∀ rs, ((ControlPlane.newWith opts).ingestAll before).sessions.get key = some rs →
      rs.status = .waiting → e.2.agentID = rs.pendingAgent

theorem undisturbed_iff {opts : List Setting} {key : String} {es : List (Time × Event)} :
    Undisturbed opts key es ↔ ∀ i (hi : i < es.length), es[i].2.key = key → Plain es[i].2 →
      ∀ rs ∈ ((ControlPlane.newWith opts).ingestAll (es.take i)).sessions.get key,
        rs.status = .waiting → es[i].2.agentID = rs.pendingAgent := by
  constructor
  · exact fun h i hi => h (es.take i) es[i] (es.drop (i + 1)) (by simp)
  · rintro h before e after rfl hkey hplain rs hrs
    have hi := h before.length (by simp)
    simp only [List.getElem_append_right le_rfl, Nat.sub_self, List.getElem_cons_zero,
      List.take_left'] at hi
    exact hi hkey hplain rs hrs

instance (opts : List Setting) (key : String) (es : List (Time × Event)) :
    Decidable (Undisturbed opts key es) :=
  decidable_of_iff _ undisturbed_iff.symm

/-- **The run of a session says what its events were.** -/
theorem tracks_ingestAll (opts : List Setting) {key : String} (hkey : key ≠ "//")
    (es : List (Time × Event)) (hagents : ∀ e ∈ es, e.2.key = key → e.2.agentID ≠ "")
    (h : Undisturbed opts key es) :
    (((ControlPlane.newWith opts).ingestAll es).sessions.get key = none → eventsOf key es = []) ∧
      ∀ rs, ((ControlPlane.newWith opts).ingestAll es).sessions.get key = some rs →
        rs.Tracks (ControlPlane.newWith opts).escalationAgent (eventsOf key es) := by
  induction es using List.reverseRecOn with
  | nil =>
    refine ⟨fun _ => rfl, fun rs hrs => ?_⟩
    cases (ControlPlane.get_newWith opts key).symm.trans hrs
  | append_singleton es e ih =>
    obtain ⟨hnone, hsome⟩ := ih (fun e' he' => hagents e' (by simp [he']))
      fun before e' after heq => h before e' (after ++ [e]) (by simp [heq])
    rw [ControlPlane.ingestAll_concat]
    by_cases hother : e.2.key = key
    · subst hother
      set cp := (ControlPlane.newWith opts).ingestAll es with hcp
      have hevents : eventsOf e.2.key (es ++ [e]) = eventsOf e.2.key es ++ [e.2] := by
        simp [eventsOf]
      have hagent := hagents e (by simp) rfl
      rw [hevents]
      constructor
      · intro habsent
        have hpresent := cp.isSome_get_ingest e.1 hkey
        rw [habsent] at hpresent
        cases hpresent
      · intro rs' hrs'
        have hrun := cp.timeless_ingest_stepped e.1 hkey hrs'
        rw [hcp, ControlPlane.escalationAgent_ingestAll, ← hcp] at hrun
        refine RunState.tracks_timeless.mp (hrun ▸ ?_)
        cases hget : cp.sessions.get e.2.key with
        | none =>
          rw [hnone hget]
          exact (RunState.tracks_new _ _ hagent).stepped hagent
            fun _ hwaiting => nomatch hwaiting
        | some rs =>
          exact (RunState.tracks_timeless.mpr (hsome rs hget)).stepped hagent
            fun hplain => h es e [] rfl rfl hplain rs hget
    · have hevents : eventsOf key (es ++ [e]) = eventsOf key es := by
        simp [eventsOf, hother]
      rw [hevents, ControlPlane.get_ingest_of_ne e.1 _ (Ne.symm hother)]
      exact ⟨hnone, hsome⟩

/-- As long as no plain event of another agent comes while a session waits, and agents have names, a
session is waiting exactly if its pending agent is not empty and there was no error and no end of
the run since that agent was named; the pending agent is cleared and the active one changed by an
event of the pending one only; and the steps are the events. -/
theorem waiting_iff_outstanding (opts : List Setting) (es : List (Time × Event)) (key : String)
    (hagents : ∀ e ∈ es, e.2.key = key → e.2.agentID ≠ "") (h : Undisturbed opts key es)
    (rs : RunState)
    (hrs : ((ControlPlane.newWith opts).ingestAll es).sessions.get key = some rs) :
    (rs.status = .waiting ↔ rs.pendingAgent ≠ "" ∧
        Outstanding (ControlPlane.newWith opts).escalationAgent (eventsOf key es)) ∧
      rs.stepCount = (eventsOf key es).length ∧
      ∀ now e rs',
        (((ControlPlane.newWith opts).ingestAll es).ingest now e).sessions.get key = some rs' →
          (rs.pendingAgent ≠ "" → rs'.pendingAgent = "" →
            e.key = key ∧ e.agentID = rs.pendingAgent) ∧
          (rs'.activeAgent ≠ rs.activeAgent →
            e.key = key ∧ rs.pendingAgent ≠ "" ∧ e.agentID = rs.pendingAgent) := by
  have hkey : key ≠ "//" := by
    rintro rfl
    cases (ControlPlane.get_ingestAll_unkeyed opts es).symm.trans hrs
  have htracks := (tracks_ingestAll opts hkey es hagents h).2 rs hrs
  refine ⟨htracks.waiting, htracks.steps, fun now e rs' hrs' => ?_⟩
  by_cases hother : e.key = key
  · subst hother
    have hrun := ControlPlane.timeless_ingest_stepped _ now hkey hrs'
    rw [hrs, Option.map_some, Option.getD_some] at hrun
    constructor
    · intro hpending hcleared
      have hstepped := (congrArg RunState.pendingAgent hrun).symm.trans hcleared
      have hawaits : rs.timeless.Awaits e := RunState.awaits_of_cleared hpending hstepped
      exact ⟨rfl, hawaits.2⟩
    · intro hactive
      have hawaits : rs.timeless.Awaits e := by
        by_contra hawaits
        exact hactive ((congrArg RunState.activeAgent hrun).trans
          (RunState.activeAgent_stepped htracks.active hawaits))
      exact ⟨rfl, hawaits⟩
  · rw [ControlPlane.get_ingest_of_ne now _ (Ne.symm hother), hrs] at hrs'
    obtain rfl := Option.some.inj hrs'
    exact ⟨fun hpending hcleared => absurd hcleared hpending, fun hactive => absurd rfl hactive⟩

/-- A handoff of the planner. -/
def handoffTo (agent session : String) : Event :=
  { sessionEvent eventHandoff session with payload := some (.obj [("to_agent", .str agent)]) }

/-- The planner hands off to the coder, who takes over and hands off to the reviewer; another
session goes on meanwhile. -/
def twoHandoffs : List (Time × Event) :=
  [(1, handoffTo "coder" "a"), (2, sessionEvent "note" "b"),
    (3, { sessionEvent "note" "a" with agentID := "coder" }),
    (4, { handoffTo "reviewer" "a" with agentID := "coder" })]

theorem waiting_iff_outstanding_handoffs :
    ∃ rs, ((ControlPlane.newWith []).ingestAll twoHandoffs).sessions.get
        (sessionKey "acme" "p" "a") = some rs ∧
      rs.status = .waiting ∧ rs.pendingAgent = "reviewer" ∧
      (rs.status = .waiting ↔ rs.pendingAgent ≠ "" ∧
        Outstanding (ControlPlane.newWith []).escalationAgent
          (eventsOf (sessionKey "acme" "p" "a") twoHandoffs)) ∧
      rs.stepCount = (eventsOf (sessionKey "acme" "p" "a") twoHandoffs).length := by
  have hrun : (((ControlPlane.newWith []).ingestAll twoHandoffs).sessions.get
      (sessionKey "acme" "p" "a")).map (fun rs => (rs.status, rs.pendingAgent)) =
        some (.waiting, "reviewer") := by
    decide +kernel
  obtain ⟨rs, hrs, heq⟩ := Option.map_eq_some_iff.mp hrun
  obtain ⟨hstatus, hpending⟩ := Prod.mk.injEq .. ▸ heq
  obtain ⟨hiff, hsteps, -⟩ := waiting_iff_outstanding [] twoHandoffs (sessionKey "acme" "p" "a")
    (by decide +kernel) (by decide +kernel) rs hrs
  exact ⟨rs, hrs, hstatus, hpending, hiff, hsteps⟩

/-- The planner hands off to the coder and then writes a note: the session is running, and the
handoff is still outstanding. -/
theorem waiting_overwritten :
    (((ControlPlane.newWith []).ingestAll
        [(1, handoffTo "coder" "a"), (2, sessionEvent "note" "a")]).sessions.get
        (sessionKey "acme" "p" "a")).map (fun rs => (rs.status, rs.pendingAgent)) =
      some (.running, "coder") ∧
    Outstanding (ControlPlane.newWith []).escalationAgent
      (eventsOf (sessionKey "acme" "p" "a")
        [(1, handoffTo "coder" "a"), (2, sessionEvent "note" "a")]) := by
  refine ⟨by decide +kernel, [], handoffTo "coder" "a", [sessionEvent "note" "a"], ?_, ?_, ?_⟩
  · decide +kernel
  · exact .inl ⟨rfl, by decide +kernel⟩
  · intro e he
    obtain rfl := List.mem_singleton.mp he
    unfold Names Ends
    decide +kernel

end AgentBus.Controlplane
