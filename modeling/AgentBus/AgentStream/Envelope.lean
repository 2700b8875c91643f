import AgentBus.Lib.Json

/-!
# The agent event envelope

`internal/agentstream/envelope.go`: the message envelope every layer shares, the key
that keeps the events of one session together, and the checks an envelope passes
before it is published or after it is read.  Its JSON text is in
`AgentBus.AgentStream.Codec`.
-/

namespace AgentBus.AgentStream

/-- Raw JSON carried inside an envelope.  `none` stands for bytes that are not JSON
text, the empty slice among them. -/
abbrev RawMessage := Option Json

/-- `Event`: a standard message envelope for multi-agent streaming workloads. -/
structure Event where
  version : String
  type : String
  tenant : String
  project : String
  sessionID : String
  agentID : String
  step : String
  attempt : ℤ
  createdAt : String
  payload : RawMessage
  deriving Inhabited

/-- `unicode.IsSpace`. -/
def isSpace (c : Char) : Bool :=
  let n := c.toNat
  (9 ≤ n && n ≤ 13) || n = 0x20 || n = 0x85 || n = 0xA0 || n = 0x1680 ||
    (0x2000 ≤ n && n ≤ 0x200A) || n = 0x2028 || n = 0x2029 || n = 0x202F || n = 0x205F ||
    n = 0x3000

/-- `strings.TrimSpace`. -/
def trimSpace (s : String) : String :=
  String.ofList ((s.toList.dropWhile isSpace).reverse.dropWhile isSpace).reverse

/-- `SessionKey` keeps event ordering stable per tenant, project and session. -/
def sessionKey (tenant project sessionID : String) : String :=
  trimSpace tenant ++ "/" ++ trimSpace project ++ "/" ++ trimSpace sessionID

theorem sessionKey_ne (tenant project sessionID : String) :
    sessionKey tenant project sessionID ≠ "" := by
  intro h
  have hlen := congrArg String.length h
  simp [sessionKey] at hlen

/-- The key of a session whose tenant is not blank is not the key of the empty session. -/
theorem sessionKey_ne_slashes {tenant : String} (h : trimSpace tenant ≠ "")
    (project sessionID : String) : sessionKey tenant project sessionID ≠ "//" := by
  intro hkey
  have hlen := congrArg String.length hkey
  have hpos : (trimSpace tenant).length ≠ 0 := fun h0 => h (String.length_eq_zero_iff.mp h0)
  simp only [sessionKey, String.length_append] at hlen
  have htwo : "//".length = 2 := by decide
  have hone : "/".length = 1 := by decide
  omega

/-- The key of an event. -/
def Event.key (e : Event) : String := sessionKey e.tenant e.project e.sessionID

/-- `Event.Validate`, with the text of the error. -/
def Event.validate (e : Event) : Except String Unit :=
  if trimSpace e.type = "" then .error "event type is required"
  else if trimSpace e.tenant = "" then .error "tenant is required"
  else if trimSpace e.project = "" then .error "project is required"
  else if trimSpace e.sessionID = "" then .error "session_id is required"
  else if trimSpace e.agentID = "" then .error "agent_id is required"
  else .ok ()

/-- An event that passes the check has none of the required fields blank. -/
theorem Event.validate_eq_ok {e : Event} (h : e.validate = .ok ()) :
    trimSpace e.type ≠ "" ∧ trimSpace e.tenant ≠ "" ∧ trimSpace e.project ≠ "" ∧
      trimSpace e.sessionID ≠ "" ∧ trimSpace e.agentID ≠ "" := by
  unfold Event.validate at h
  split_ifs at h with htype htenant hproject hsession hagent
  exact ⟨htype, htenant, hproject, hsession, hagent⟩

/-- A field that is not blank is not empty. -/
theorem ne_empty_of_trimSpace {s : String} (h : trimSpace s ≠ "") : s ≠ "" := by
  rintro rfl
  exact h (by decide)

example : sessionKey " acme" "support-bot\t" "sess-42" = "acme/support-bot/sess-42" := by
  decide +kernel

end AgentBus.AgentStream
