import AgentBus.AgentStream.Envelope
import AgentBus.Lib.JsonText
import AgentBus.Lib.Rfc3339
import AgentBus.Lib.Utf8

/-!
# The bytes of an envelope

`Event.Marshal` and `ParseEvent` of `internal/agentstream/envelope.go`: an envelope is
published as the UTF-8 text of a JSON object, and whoever reads a topic takes a message
for an envelope if its bytes parse and the result passes the checks.

## Main definitions

* `Event.marshal`, `parseEvent` — writing and reading.
* `parseEvent_marshal` — an envelope that is complete is read back.
-/

namespace AgentBus.AgentStream

open Json

deriving instance DecidableEq for Event

/-- The envelope with the defaults `Marshal` fills in; the clock stands at `now`. -/
def Event.withDefaults (now : Time) (e : Event) : Event :=
  { e with
    version := if e.version = "" then "v1" else e.version
    createdAt := if e.createdAt = "" then now.format else e.createdAt
    payload := some (e.payload.getD (.obj [])) }

/-- The fields of an envelope in the order of the source; `step` and `attempt` are left
out when they are zero. -/
def Event.fields (e : Event) : List (String × Json) :=
  [("version", .str e.version), ("type", .str e.type), ("tenant", .str e.tenant),
    ("project", .str e.project), ("session_id", .str e.sessionID), ("agent_id", .str e.agentID)] ++
    (if e.step = "" then [] else [("step", .str e.step)]) ++
    (if e.attempt = 0 then [] else [("attempt", .num (Number.ofInt e.attempt))]) ++
    [("created_at", .str e.createdAt), ("payload", e.payload.getD .null)]

/-- `Event.Marshal`: the bytes, or the check that fails. -/
def Event.marshal (now : Time) (e : Event) : Except String (List UInt8) :=
  let out := e.withDefaults now
  match out.validate with
  | .error msg => .error msg
  | .ok _ => .ok (Utf8.encode (Json.print (.obj out.fields)))

/-- Read a raw member: it is kept whatever it is, `null` among it. -/
def readRaw (_old : RawMessage) (v : Json) : Option RawMessage := some (some v)

/-- The record an envelope's JSON value is read into. -/
def Event.ofJson (v : Json) : Option Event := do
  let ms ← v.members
  let version ← readField readString "version" "" ms
  let type ← readField readString "type" "" ms
  let tenant ← readField readString "tenant" "" ms
  let project ← readField readString "project" "" ms
  let sessionID ← readField readString "session_id" "" ms
  let agentID ← readField readString "agent_id" "" ms
  let step ← readField readString "step" "" ms
  let attempt ← readField readInt64 "attempt" 0 ms
  let createdAt ← readField readString "created_at" "" ms
  let payload ← readField readRaw "payload" none ms
  some ⟨version, type, tenant, project, sessionID, agentID, step, attempt, createdAt, payload⟩

/-- `ParseEvent`: the envelope in a payload, `none` when it is not one. -/
def parseEvent (payload : List UInt8) : Option Event := do
  let v ← Json.parse (Utf8.decode payload)
  let e ← Event.ofJson v
  match e.validate with
  | .ok _ => some e
  | .error _ => none

variable {bs : List UInt8} {e : Event}

/-- What is parsed is the record of a JSON text, and passes the checks. -/
theorem parseEvent_eq_some (h : parseEvent bs = some e) :
    ∃ v, Json.parse (Utf8.decode bs) = some v ∧ Event.ofJson v = some e ∧ e.validate = .ok () := by
  simp only [parseEvent, Option.bind_eq_bind, Option.bind_eq_some_iff] at h
  obtain ⟨v, hv, e', he', hvalid⟩ := h
  cases hcheck : e'.validate with
  | error msg =>
    rw [hcheck] at hvalid
    cases hvalid
  | ok u =>
    rw [hcheck] at hvalid
    cases hvalid
    exact ⟨v, hv, he', hcheck⟩

/-- The text of a value is not empty. -/
theorem encode_print_ne_nil (v : Json) : Utf8.encode (Json.print v) ≠ [] := by
  intro h
  have hparse : Json.parse (Utf8.decode (Utf8.encode (Json.print v))) = some v := by
    rw [Utf8.decode_encode, Json.parse_print]
  have hempty : Json.parse (Utf8.decode []) = none := by decide +kernel
  rw [h, hempty] at hparse
  cases hparse

/-! ## Reading back an envelope -/

namespace Event

/-- The names of an envelope's members, by which of the optional ones are written. -/
def names (step attempt : Bool) : List String :=
  ["version", "type", "tenant", "project", "session_id", "agent_id"] ++
    (if step then ["step"] else []) ++ (if attempt then ["attempt"] else []) ++
    ["created_at", "payload"]

theorem names_fields (e : Event) :
    (e.fields.map fun m => foldName m.1) =
      (names (decide (e.step ≠ "")) (decide (e.attempt ≠ 0))).map foldName := by
  by_cases hstep : e.step = "" <;> by_cases hattempt : e.attempt = 0 <;>
    simp only [fields, names, hstep, hattempt, ne_eq, not_true_eq_false, not_false_eq_true,
      decide_true, decide_false, Bool.false_eq_true, if_true, if_false, List.map_append,
      List.map_cons, List.map_nil]

/-- Each member of an envelope has a name of its own. -/
theorem nodup_names : ∀ step attempt, ((names step attempt).map foldName).Nodup := by
  decide +kernel

theorem step_notMem : ∀ attempt, foldName "step" ∉ (names false attempt).map foldName := by
  decide +kernel

theorem attempt_notMem : ∀ step, foldName "attempt" ∉ (names step false).map foldName := by
  decide +kernel

variable {e : Event}

/-- A member is read as what was written to it. -/
theorem readField_fields {α : Type} (read : α → Json → Option α) (zero : α) {name : String}
    {v : Json} (h : (name, v) ∈ e.fields) : readField read name zero e.fields = read zero v :=
  readField_of_mem read name zero h (e.names_fields ▸ nodup_names _ _)

/-- The text at place `i`, ahead of the optional members. -/
theorem text_fields (i : ℕ) {name text : String} (h : e.fields[i]? = some (name, .str text)) :
    readField readString name "" e.fields = some text :=
  readField_fields readString "" (List.mem_of_getElem? h)

@[simp] theorem step_fields (e : Event) :
    readField readString "step" "" e.fields = some e.step := by
  by_cases h : e.step = ""
  · rw [h]
    refine readField_of_notMem _ _ _ ?_
    rw [names_fields, h]
    exact step_notMem _
  · exact readField_fields (v := .str e.step) _ _ (by simp [fields, h])

theorem attempt_fields (hlo : -2 ^ 63 ≤ e.attempt) (hhi : e.attempt < 2 ^ 63) :
    readField readInt64 "attempt" 0 e.fields = some e.attempt := by
  by_cases h : e.attempt = 0
  · rw [h]
    refine readField_of_notMem _ _ _ ?_
    rw [names_fields, h]
    exact attempt_notMem _
  · rw [readField_fields (v := .num (Number.ofInt e.attempt)) _ _ (by simp [fields, h])]
    exact Number.toInt64?_ofInt hlo hhi

/-- The fields are read back from the members they were written to. -/
theorem ofJson_fields {p : Json} (hpayload : e.payload = some p) (hlo : -2 ^ 63 ≤ e.attempt)
    (hhi : e.attempt < 2 ^ 63) : ofJson (.obj e.fields) = some e := by
  have hversion : readField readString "version" "" e.fields = some e.version := text_fields 0 rfl
  have htype : readField readString "type" "" e.fields = some e.type := text_fields 1 rfl
  have htenant : readField readString "tenant" "" e.fields = some e.tenant := text_fields 2 rfl
  have hproject : readField readString "project" "" e.fields = some e.project := text_fields 3 rfl
  have hsession : readField readString "session_id" "" e.fields = some e.sessionID :=
    text_fields 4 rfl
  have hagent : readField readString "agent_id" "" e.fields = some e.agentID := text_fields 5 rfl
  -- The last two members stand behind the optional ones.
  have hcreated : readField readString "created_at" "" e.fields = some e.createdAt :=
    readField_fields readString "" (List.mem_append_right _ List.mem_cons_self)
  have hraw : readField readRaw "payload" none e.fields = some e.payload := by
    rw [hpayload, ← readRaw]
    refine readField_fields readRaw none (List.mem_append_right _ ?_)
    rw [hpayload]
    exact List.mem_cons_of_mem _ List.mem_cons_self
  have hmembers : members (.obj e.fields) = some e.fields := rfl
  rw [ofJson, hmembers]
  change (readField readString "version" "" e.fields >>= _) = _
  rw [hversion, htype, htenant, hproject, hsession, hagent, step_fields, attempt_fields hlo hhi,
    hcreated, hraw]
  rfl

/-- An envelope in which `Marshal` has nothing to fill in. -/
structure Complete (e : Event) : Prop where
  version : e.version ≠ ""
  createdAt : e.createdAt ≠ ""
  payload : e.payload.isSome = true
  /-- The attempt is a 64-bit integer. -/
  attempt_ge : -2 ^ 63 ≤ e.attempt
  attempt_lt : e.attempt < 2 ^ 63

instance (e : Event) : Decidable e.Complete :=
  decidable_of_iff (e.version ≠ "" ∧ e.createdAt ≠ "" ∧ e.payload.isSome = true ∧
      -2 ^ 63 ≤ e.attempt ∧ e.attempt < 2 ^ 63)
    ⟨fun ⟨hversion, hcreated, hpayload, hge, hlt⟩ => ⟨hversion, hcreated, hpayload, hge, hlt⟩,
      fun h => ⟨h.version, h.createdAt, h.payload, h.attempt_ge, h.attempt_lt⟩⟩

theorem Complete.withDefaults (h : e.Complete) (now : Time) : e.withDefaults now = e := by
  obtain ⟨p, hp⟩ := Option.isSome_iff_exists.mp h.payload
  have hpayload : some (e.payload.getD (.obj [])) = e.payload := by rw [hp]; rfl
  simp only [Event.withDefaults, h.version, h.createdAt, if_false, hpayload]

end Event

/-- **An envelope that is written is read back with the defaults filled in.** -/
theorem parseEvent_marshal_withDefaults (hlo : -2 ^ 63 ≤ e.attempt) (hhi : e.attempt < 2 ^ 63)
    {now : Time} (hbs : e.marshal now = .ok bs) :
    (e.withDefaults now).validate = .ok () ∧ parseEvent bs = some (e.withDefaults now) := by
  simp only [Event.marshal] at hbs
  cases hvalid : (e.withDefaults now).validate with
  | error msg => rw [hvalid] at hbs; cases hbs
  | ok u =>
    rw [hvalid] at hbs
    cases hbs
    refine ⟨rfl, ?_⟩
    have hjson := Event.ofJson_fields (e := e.withDefaults now) rfl hlo hhi
    simp only [parseEvent, Utf8.decode_encode, parse_print, hjson, hvalid, Option.bind_eq_bind,
      Option.bind_some]

/-- **A complete envelope that is written is read back.** -/
theorem parseEvent_marshal (h : e.Complete) {now : Time} (hbs : e.marshal now = .ok bs) :
    e.validate = .ok () ∧ parseEvent bs = some e := by
  have hback := parseEvent_marshal_withDefaults h.attempt_ge h.attempt_lt hbs
  rwa [h.withDefaults] at hback

end AgentBus.AgentStream
