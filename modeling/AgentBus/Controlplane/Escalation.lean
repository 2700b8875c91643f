import AgentBus.Controlplane.RunStates
import AgentBus.Lib.JsonVerbatim

/-!
# What an escalation says

`escalate` puts the id of the agent that failed between quotes and does not escape it, and
`ParseEvent` lets every id through that is not blank.  The payload says what it is meant to say
exactly if the id is verbatim (`faithful_iff`): any other id ends its string early, is decoded to
something else or leaves no JSON at all.

## Main definitions

* `Faithful` — the payload is an object of two members that names the agent.
-/

namespace AgentBus.Controlplane

open AgentStream Broker Json

/-- The payload is an object with the members `reason` and `from_agent` and no others, and it names
the agent. -/
def Faithful (payload : List UInt8) (agentID : String) : Prop :=
  ∃ ms, Json.parse (Utf8.decode payload) = some (.obj ms) ∧
    (ms.map Prod.fst).Perm ["reason", "from_agent"] ∧
    readField readString "from_agent" "" ms = some agentID

/-- The member that comes first. -/
def reasonMember : String × Json := ("reason", .str "terminal error")

/-- The payload, as a text: the id is spliced into it. -/
@[simp] theorem decode_escalationPayload (agentID : String) :
    Utf8.decode (escalationPayload agentID) =
      spliced [reasonMember] "from_agent" agentID.toList := by
  have hopen : "\x7b\"reason\":\"terminal error\",\"from_agent\":\"".toList =
      '{' :: (leading [reasonMember] ++ (quote "from_agent" ++ [':', '"'])) := by decide +kernel
  have hclose : "\"\x7d".toList = ['"', '}'] := rfl
  rw [escalationPayload, stringBytes, Utf8.toByteArray_eq_encode, Utf8.decode_encode,
    String.toList_append, String.toList_append, hopen, hclose, spliced, lastMember]
  simp only [List.append_assoc, List.cons_append, List.nil_append]

/-- **The payload is faithful exactly if the id is verbatim.** -/
theorem faithful_iff (agentID : String) :
    Faithful (escalationPayload agentID) agentID ↔ Verbatim agentID.toList := by
  unfold Faithful
  rw [decode_escalationPayload]
  constructor
  · rintro ⟨ms, hparse, hnames, hread⟩
    rw [← String.ofList_toList (s := agentID)] at hread
    exact verbatim_of_spliced hparse (by simpa using hnames.length_eq) hread
  · intro h
    have hreason : readField readString "from_agent" "" [reasonMember] = some "" := by
      decide +kernel
    refine ⟨_, parse_spliced [reasonMember] "from_agent" h, .refl _, ?_⟩
    rw [readField_concat hreason, String.ofList_toList]

/-! ## What the escalation agent gets -/

/-- An error of another agent reaches the escalation agent. -/
theorem ControlPlane.inboxes_ingest_of_error (now : Time) {cp : ControlPlane} {e : Event}
    (htype : e.type = eventError) (hagent : cp.escalationAgent ≠ "")
    (hother : cp.escalationAgent ≠ e.agentID) :
    (cp.ingest now e).inboxes = (cp.inboxes.deliver cp.escalationAgent
      ⟨e.key, eventEscalation, escalationPayload e.agentID⟩).1 := by
  have hhandoff : ¬ e.type = eventHandoff := by rw [htype]; decide
  simp only [ControlPlane.ingest, ControlPlane.route, hhandoff, false_and, if_false]
  rw [if_pos ⟨htype, hagent, hother⟩]
  rfl

/-- **When an escalation is faithful.**  An error event that is accepted, of an agent other than the
escalation agent, whose inbox is open and has a place: the inbox gets an escalation, and it is
faithful exactly if the agent's id has no quote, no backslash and no control character. -/
theorem escalation_faithful_iff {bytes : List UInt8} {e : Event}
    (hparse : parseEvent bytes = some e) (htype : e.type = eventError) (now : Time) (offset : ℤ)
    {cp : ControlPlane} (hagent : cp.escalationAgent ≠ "") (hother : cp.escalationAgent ≠ e.agentID)
    {q : List RoutedEvent} (hopen : cp.inboxes.boxes cp.escalationAgent = some q)
    (hroom : q.length < cp.inboxes.size) :
    ∃ re, (cp.message now ⟨offset, bytes⟩).inboxes.boxes cp.escalationAgent = some (q ++ [re]) ∧
      re.sessionKey = e.key ∧ re.type = eventEscalation ∧
      (Faithful re.payload e.agentID ↔ Verbatim e.agentID.toList) := by
  refine ⟨⟨e.key, eventEscalation, escalationPayload e.agentID⟩, ?_, rfl, rfl, faithful_iff _⟩
  rw [cp.message_of_parseEvent now hparse, ControlPlane.inboxes_ingest_of_error now htype hagent
    hother, (Inboxes.deliver_of_room hopen hroom _).2.2, Function.update_self]

/-- A failure of an agent. -/
def failureOf (agentID : String) : Event :=
  { sessionEvent eventError "a" with agentID := agentID }

/-- The escalation agent has opened its inbox. -/
def withOps : ControlPlane := (ControlPlane.newWith [.escalationAgent "ops"]).openInbox 0 "ops"

/-- The planner fails, and the escalation agent learns that it was the planner. -/
theorem escalation_faithful_planner :
    ∃ bytes, parseEvent bytes = some (failureOf "planner") ∧
      ∃ re, (withOps.message 1 ⟨0, bytes⟩).inboxes.boxes "ops" = some [re] ∧
        Faithful re.payload "planner" := by
  obtain ⟨bytes, hbytes⟩ : ∃ bytes, (failureOf "planner").marshal 0 = .ok bytes := ⟨_, rfl⟩
  have hparse := (parseEvent_marshal (by decide +kernel) hbytes).2
  have hopen : withOps.inboxes.boxes withOps.escalationAgent = some [] := rfl
  obtain ⟨re, hbox, -, -, hfaithful⟩ := escalation_faithful_iff hparse rfl 1 0
    (by decide) (by decide) hopen (by decide)
  exact ⟨bytes, hparse, re, hbox, hfaithful.mpr (by decide +kernel)⟩

/-- **An escalation that is no JSON.**  The agent `a"b` fails. -/
theorem escalation_not_faithful :
    ∃ bytes, parseEvent bytes = some (failureOf "a\"b") ∧
      ∃ re, (withOps.message 1 ⟨0, bytes⟩).inboxes.boxes "ops" = some [re] ∧
        Json.parse (Utf8.decode re.payload) = none ∧ ¬ Faithful re.payload "a\"b" := by
  obtain ⟨bytes, hbytes⟩ : ∃ bytes, (failureOf "a\"b").marshal 0 = .ok bytes := ⟨_, rfl⟩
  have hparse := (parseEvent_marshal (by decide +kernel) hbytes).2
  refine ⟨bytes, hparse, ⟨"acme/p/a", eventEscalation, escalationPayload "a\"b"⟩, ?_, ?_, ?_⟩
  · rw [ControlPlane.message_of_parseEvent 1 _ hparse]
    rfl
  · rw [decode_escalationPayload]
    decide +kernel
  · rw [faithful_iff]
    decide +kernel

end AgentBus.Controlplane
