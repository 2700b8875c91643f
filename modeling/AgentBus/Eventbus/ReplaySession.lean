import AgentBus.Eventbus.Client
import AgentBus.Grpcapi.Pagination

/-!
# Replaying a session

`ReplaySession` of `eventbus/replay.go`: the SDK pages through the partition of a session with a
filter and decodes what it gets, until it has enough events or the tail is reached.  The contents of
the partition are fixed while it does so.

A page without messages does not end the loop if the scan has got on, and a page with messages moves
the offset past them: a turn that goes on is further on and below the tail (`replayTurn_again`).  So
the loop ends after as many calls as there are offsets to go through, whatever the partition holds
(`replaySession_terminates`), and what is returned is what paging to the tail returns, decoded and
cut off at the bound (`replaySession_returns`).

The time stamp of a message is left out, as it is in `fetch`.

## Main definitions

* `ReplayOptions`, `Replayed` — what is asked for and what is returned.
* `collectPage`, `replayTurn`, `replayLoop` — the loop, by the number of calls.
* `replaySession` — `ReplaySession`.
-/

namespace AgentBus.Eventbus

open AgentStream Broker Grpcapi Json

/-! ## The loop -/

/-- `ReplayOptions`. -/
structure ReplayOptions where
  topic : String
  partitionCount : ℤ
  fromOffset : ℤ
  pageSize : ℤ
  maxEvents : ℤ
  deriving DecidableEq, Repr

/-- An event that was decoded, and where it was read. -/
structure ReplayedEvent extends DecodedEvent where
  topic : String
  partition : ℤ
  offset : ℤ
  deriving DecidableEq

/-- The errors of a replay. -/
inductive ReplayError where
  /-- The session is refused by the SDK. -/
  | invalid (msg : String)
  /-- `eventbus: replay fetch`: a call fails. -/
  | fetch (status : Status)
  /-- The server panics in a call. -/
  | crash
  deriving DecidableEq, Repr

/-- What a replay returns: an error comes with the events so far. -/
structure Replayed where
  events : List ReplayedEvent
  err : Option ReplayError
  deriving DecidableEq

/-- What stays the same in the loop. -/
structure Query where
  topic : String
  partition : ℤ
  filter : SessionFilter
  pageSize : ℤ
  maxEvents : ℤ
  deriving DecidableEq, Repr

/-- The request of a call. -/
def Query.request (q : Query) (offset : ℤ) : FetchRequest where
  topic := q.topic
  partition := q.partition
  fromOffset := offset
  maxCount := q.pageSize
  sessionFilter := some q.filter
  scanLimit := 0

/-- There is a bound on the number of events, and it is reached. -/
def Enough (maxEvents : ℤ) (out : List ReplayedEvent) : Prop :=
  0 < maxEvents ∧ maxEvents ≤ out.length

instance (maxEvents : ℤ) (out : List ReplayedEvent) : Decidable (Enough maxEvents out) :=
  inferInstanceAs (Decidable (_ ∧ _))

/-- The event in a message, if there is one. -/
def replayedEvent? (topic : String) (m : ConsumeMessage (List UInt8)) : Option ReplayedEvent :=
  (decodeEvent m.payload).map fun ev => ⟨ev, topic, m.partition, m.offset⟩

/-- The loop over the messages of a page, left when there are enough events; the flag says whether
there are. -/
def collectPage (topic : String) (maxEvents : ℤ) :
    List (ConsumeMessage (List UInt8)) → List ReplayedEvent → List ReplayedEvent × Bool
  | [], out => (out, false)
  | m :: ms, out =>
    match replayedEvent? topic m with
    | none => collectPage topic maxEvents ms out
    | some ev =>
      let out := out ++ [ev]
      if Enough maxEvents out then (out, true) else collectPage topic maxEvents ms out

/-- How a turn of the loop ends. -/
inductive Turn where
  | again (out : List ReplayedEvent) (offset : ℤ)
  | done (r : Replayed)
  deriving DecidableEq

/-- One turn of the loop, with one call of `Fetch`. -/
def replayTurn (peek : List UInt8 → Option EnvelopePeek) (b : Broker (List UInt8)) (q : Query)
    (out : List ReplayedEvent) (offset : ℤ) : Turn :=
  match fetch peek b (q.request offset) with
  | none => .done ⟨out, some .crash⟩
  | some (.error status) => .done ⟨out, some (.fetch status)⟩
  | some (.ok page) =>
    if page.messages.isEmpty then
      -- The scan may have used its budget without a match.
      if offset < page.nextOffset ∧ page.nextOffset < page.tail then .again out page.nextOffset
      else .done ⟨out, none⟩
    else
      match collectPage q.topic q.maxEvents page.messages out with
      | (out, true) => .done ⟨out, none⟩
      | (out, false) =>
        if page.tail ≤ page.nextOffset then .done ⟨out, none⟩ else .again out page.nextOffset

/-- The loop; `none` if `n` calls are not enough. -/
def replayLoop (peek : List UInt8 → Option EnvelopePeek) (b : Broker (List UInt8)) (q : Query) :
    ℕ → List ReplayedEvent → ℤ → Option Replayed
  | 0, _, _ => none
  | n + 1, out, offset =>
    match replayTurn peek b q out offset with
    | .again out offset => replayLoop peek b q n out offset
    | .done r => some r

/-- What a session and the options ask for. -/
def ReplayOptions.query (opts : ReplayOptions) (sess : SessionRef) (topic : String)
    (partition : ℕ) : Query where
  topic := topic
  partition := partition
  filter := ⟨sess.tenant, sess.project, sess.sessionID⟩
  pageSize := if opts.pageSize ≤ 0 then 256 else opts.pageSize
  maxEvents := opts.maxEvents

/-- The first offset. -/
def ReplayOptions.start (opts : ReplayOptions) : ℤ :=
  if opts.fromOffset < 0 then 0 else opts.fromOffset

/-- `ReplaySession`; `none` if `n` calls of `Fetch` are not enough. -/
def replaySession (peek : List UInt8 → Option EnvelopePeek) (b : Broker (List UInt8))
    (sess : SessionRef) (opts : ReplayOptions) (n : ℕ) : Option Replayed :=
  match resolveSessionRouting sess opts.topic opts.partitionCount with
  | .error msg => some ⟨[], some (.invalid msg)⟩
  | .ok (topic, partition) =>
    replayLoop peek b (opts.query sess topic partition) n [] opts.start

/-- `json.Unmarshal` of an `envelopePeek`. -/
def peekEnvelope (payload : List UInt8) : Option EnvelopePeek := do
  let v ← Json.parse (Utf8.decode payload)
  let ms ← v.members
  let tenant ← readField readString "tenant" "" ms
  let project ← readField readString "project" "" ms
  let sessionID ← readField readString "session_id" "" ms
  return ⟨tenant, project, sessionID⟩

/-! ## The loop ends -/

variable {peek : List UInt8 → Option EnvelopePeek} {b : Broker (List UInt8)} {q : Query}

/-- The tail that a call reports. -/
def Query.tail (q : Query) (b : Broker (List UInt8)) : ℤ :=
  ((b.topicPartitionInfo q.topic q.partition).getD (0, 0)).2

variable {out events : List ReplayedEvent} {offset maxEvents : ℤ}

/-- **A turn that goes on is further on, and below the tail.** -/
theorem replayTurn_again {out' : List ReplayedEvent} {offset' : ℤ}
    (h : replayTurn peek b q out offset = .again out' offset') :
    offset < offset' ∧ offset' < q.tail b := by
  unfold replayTurn at h
  split at h
  · cases h
  · cases h
  · rename_i page hpage
    obtain ⟨htail, hmoves⟩ : page.tail = q.tail b ∧
        (page.messages = [] ∧ page.nextOffset = offset ∨ offset < page.nextOffset) :=
      fetch_moves rfl hpage
    split at h
    · split at h
      · rename_i hon
        cases h
        exact ⟨hon.1, htail ▸ hon.2⟩
      · cases h
    · rename_i hsome
      have hlt : offset < page.nextOffset :=
        hmoves.resolve_left fun hstays => hsome (by rw [hstays.1]; rfl)
      split at h
      · cases h
      · split at h
        · cases h
        · rename_i hbelow
          cases h
          exact ⟨hlt, htail ▸ not_le.mp hbelow⟩

/-- Every call of the loop is answered. -/
def Answered (peek : List UInt8 → Option EnvelopePeek) (b : Broker (List UInt8)) (q : Query) :
    Prop :=
  ∀ offset, ∃ page, fetch peek b (q.request offset) = some (.ok page)

theorem err_of_answered (hanswered : Answered peek b q) {r : Replayed}
    (h : replayTurn peek b q out offset = .done r) : r.err = none := by
  obtain ⟨page, hpage⟩ := hanswered offset
  simp only [replayTurn, hpage] at h
  split at h
  · split at h <;> cases h
    rfl
  · split at h
    · cases h
      rfl
    · split at h <;> cases h
      rfl

/-- The loop ends after at most as many calls as there are offsets below the tail, and one. -/
theorem exists_replayLoop (peek : List UInt8 → Option EnvelopePeek) (b : Broker (List UInt8))
    (q : Query) (out : List ReplayedEvent) (offset : ℤ) :
    ∃ n r, replayLoop peek b q n out offset = some r ∧ n ≤ (q.tail b - offset).toNat + 1 ∧
      (Answered peek b q → r.err = none) := by
  induction hd : (q.tail b - offset).toNat using Nat.strong_induction_on
    generalizing out offset with
  | _ d ih =>
    cases hturn : replayTurn peek b q out offset with
    | done r =>
      refine ⟨1, r, ?_, by omega, fun hanswered => err_of_answered hanswered hturn⟩
      simp only [replayLoop, hturn]
    | again out' offset' =>
      obtain ⟨hlt, htail⟩ := replayTurn_again hturn
      obtain ⟨n, r, hloop, hn, herr⟩ := ih _ (by omega) out' offset' rfl
      refine ⟨n + 1, r, ?_, by omega, herr⟩
      simp only [replayLoop, hturn, hloop]

/-- A ring that messages were published to answers every call. -/
theorem answered_of_serves (peek : List UInt8 → Option EnvelopePeek) {t : Topic (List UInt8)}
    {ps : List (List UInt8)} (hserves : Serves b q.topic q.partition t) (ht : t.Represents ps) :
    Answered peek b q := by
  intro offset
  have hread : ∀ c, t.fetch c (pageSize (clampScanLimit (q.request offset).scanLimit)) ≠ none := by
    intro c
    rw [ht.fetch c (by omega)]
    exact Option.some_ne_none _
  obtain ⟨s, hs⟩ := exists_scanLoop hread (keeps peek q.filter)
    (clampMaxCount (q.request offset).maxCount) (clampScanLimit (q.request offset).scanLimit)
    t.tail (Scan.start offset)
  exact ⟨_, (fetch_filtered peek hserves rfl).trans (congrArg _ hs)⟩

/-- **A replay terminates.**  Whatever the partition holds and whatever matches: a turn that goes on
is further on and below the tail, and the replay returns after a number of calls that is bounded by
the offsets from the first one to the tail.  If the partition is a ring that messages were published
to, it returns without an error. -/
theorem replaySession_terminates (peek : List UInt8 → Option EnvelopePeek)
    (b : Broker (List UInt8)) (sess : SessionRef) (opts : ReplayOptions) :
    (∀ q out offset out' offset', replayTurn peek b q out offset = .again out' offset' →
      offset < offset' ∧ offset' < q.tail b) ∧
    ∃ n r, replaySession peek b sess opts n = some r ∧
      ∀ topic partition,
        resolveSessionRouting sess opts.topic opts.partitionCount = .ok (topic, partition) →
        n ≤ ((opts.query sess topic partition).tail b - opts.start).toNat + 1 ∧
          ∀ t ps, Serves b topic partition t → t.Represents ps → r.err = none := by
  refine ⟨fun q out offset out' offset' => replayTurn_again, ?_⟩
  cases hroute : resolveSessionRouting sess opts.topic opts.partitionCount with
  | error msg =>
    refine ⟨0, ⟨[], some (.invalid msg)⟩, ?_, by simp⟩
    simp only [replaySession, hroute]
  | ok route =>
    obtain ⟨topic, partition⟩ := route
    obtain ⟨n, r, hloop, hn, herr⟩ :=
      exists_replayLoop peek b (opts.query sess topic partition) [] opts.start
    refine ⟨n, r, by simp only [replaySession, hroute, hloop], ?_⟩
    intro topic' partition' heq
    cases heq
    exact ⟨hn, fun t ps hserves ht => herr (answered_of_serves peek hserves ht)⟩

/-- A partition with a message that no filter lets through. -/
def noiseBroker : Broker (List UInt8) :=
  ((Broker.new 4).publishToPartition defaultAgentTopic 1 []).1

/-- A replay that looks for a session in vain. -/
theorem replaySession_terminates_noise :
    ∃ n r, replaySession (fun _ => none) noiseBroker ⟨"acme", "p", "s1", "planner"⟩
        ⟨"", 0, -7, 0, 10⟩ n = some r ∧ n ≤ 2 ∧ r.err = none := by
  obtain ⟨n, r, hreplay, hends⟩ := (replaySession_terminates (fun _ => none) noiseBroker
    ⟨"acme", "p", "s1", "planner"⟩ ⟨"", 0, -7, 0, 10⟩).2
  obtain ⟨hn, herr⟩ := hends defaultAgentTopic 1 (by decide +kernel)
  have hserves : Serves noiseBroker defaultAgentTopic 1 ((newTopic 4).publishAll [[]]) :=
    ⟨by decide, by decide, _, rfl, rfl⟩
  exact ⟨n, r, hreplay, hn, herr _ [[]] hserves ((Topic.represents_newTopic 4).publishAll [[]])⟩

/-! ## What is returned -/

/-- The first events, if there is a bound on their number. -/
def capped (maxEvents : ℤ) (events : List ReplayedEvent) : List ReplayedEvent :=
  if 0 < maxEvents then events.take maxEvents.toNat else events

@[simp] theorem capped_eq_self (h : 0 < maxEvents → (events.length : ℤ) ≤ maxEvents) :
    capped maxEvents events = events := by
  unfold capped
  split
  · rename_i hpos
    have hle := h hpos
    exact List.take_of_length_le (by omega)
  · rfl

@[simp] theorem capped_of_not_enough (h : ¬ Enough maxEvents events) :
    capped maxEvents events = events :=
  capped_eq_self fun hpos => (not_le.mp fun hle => h ⟨hpos, hle⟩).le

theorem capped_append (h : Enough maxEvents events) (later : List ReplayedEvent) :
    capped maxEvents (events ++ later) = capped maxEvents events := by
  obtain ⟨hpos, hle⟩ := h
  rw [capped, capped, if_pos hpos, if_pos hpos, List.take_append_of_le_length (by omega)]

theorem Enough.append (h : Enough maxEvents events) (later : List ReplayedEvent) :
    Enough maxEvents (events ++ later) := by
  refine ⟨h.1, h.2.trans ?_⟩
  rw [List.length_append]
  omega

/-- What a page adds, and whether there are enough events then. -/
theorem collectPage_eq (topic : String) (ms : List (ConsumeMessage (List UInt8)))
    (hout : ¬ Enough maxEvents out) :
    collectPage topic maxEvents ms out =
      (capped maxEvents (out ++ ms.filterMap (replayedEvent? topic)),
        decide (Enough maxEvents (out ++ ms.filterMap (replayedEvent? topic)))) := by
  induction ms generalizing out with
  | nil => simp [collectPage, hout]
  | cons m ms ih =>
    rw [collectPage, List.filterMap_cons]
    cases hev : replayedEvent? topic m with
    | none => exact ih hout
    | some ev =>
      have hcons : out ++ ev :: ms.filterMap (replayedEvent? topic) =
          out ++ [ev] ++ ms.filterMap (replayedEvent? topic) := by simp
      simp only [hcons]
      split
      · -- the bound is reached with this event, and not passed
        rename_i henough
        have hself : capped maxEvents (out ++ [ev]) = out ++ [ev] := by
          refine capped_eq_self fun hpos => ?_
          have hlt := not_le.mp fun hle => hout ⟨hpos, hle⟩
          rw [List.length_append, List.length_singleton]
          omega
        rw [capped_append henough, hself, decide_eq_true (henough.append _)]
      · rename_i hmore
        exact ih hmore

/-- A turn on a page that moves on unless it is the last one. -/
theorem replayTurn_of_page {page : FetchResponse (List UInt8)}
    (hpage : fetch peek b (q.request offset) = some (.ok page))
    (hmoves : page.nextOffset < page.tail → offset < page.nextOffset)
    (hout : ¬ Enough q.maxEvents out)
    (hevents : events = out ++ page.messages.filterMap (replayedEvent? q.topic)) :
    replayTurn peek b q out offset =
      if Enough q.maxEvents events ∨ page.tail ≤ page.nextOffset then
        .done ⟨capped q.maxEvents events, none⟩
      else .again events page.nextOffset := by
  simp only [replayTurn, hpage]
  split
  · rename_i hnil
    rw [List.isEmpty_iff.mp hnil, List.filterMap_nil, List.append_nil] at hevents
    subst hevents
    by_cases hmore : page.nextOffset < page.tail
    · rw [if_pos ⟨hmoves hmore, hmore⟩, if_neg (not_or.mpr ⟨hout, not_le.mpr hmore⟩)]
    · rw [if_neg fun hon => hmore hon.2, if_pos (.inr (not_lt.mp hmore)),
        capped_of_not_enough hout]
  · rw [collectPage_eq q.topic page.messages hout, ← hevents]
    by_cases henough : Enough q.maxEvents events
    · simp only [decide_eq_true henough, if_pos (Or.inl henough)]
    · rw [decide_eq_false henough, capped_of_not_enough henough]
      simp only [henough, false_or]

/-- **A replay returns what paging to the tail returns**, decoded and cut off at the bound. -/
theorem replayLoop_of_paginate {n : ℕ} {ms : List (ConsumeMessage (List UInt8))}
    (h : paginate peek b n (q.request offset) = some ms) (hout : ¬ Enough q.maxEvents out) :
    ∃ m ≤ n, replayLoop peek b q m out offset =
      some ⟨capped q.maxEvents (out ++ ms.filterMap (replayedEvent? q.topic)), none⟩ := by
  induction n generalizing offset ms out with
  | zero => cases h
  | succ n ih =>
    have hends : paginate peek b (n + 1) (q.request offset) ≠ none := by
      rw [h]
      exact Option.some_ne_none _
    rw [paginate] at h
    split at h
    · rename_i page hpage
      have hmoves : page.nextOffset < page.tail → offset < page.nextOffset := by
        intro hmore
        obtain ⟨-, hmoves⟩ := fetch_moves (show _ = some q.filter from rfl) hpage
        rcases hmoves with ⟨-, hstays⟩ | hlt
        · exact absurd (paginate_stuck hpage hstays hmore _) hends
        · exact hlt
      have hturn := replayTurn_of_page hpage hmoves hout rfl
      split at h
      · rename_i hdone
        cases h
        rw [if_pos (.inr hdone)] at hturn
        exact ⟨1, by omega, by simp only [replayLoop, hturn]⟩
      · rename_i hmore
        obtain ⟨rest, hrest, rfl⟩ := Option.map_eq_some_iff.mp h
        rw [List.filterMap_append, ← List.append_assoc]
        by_cases henough : Enough q.maxEvents
            (out ++ page.messages.filterMap (replayedEvent? q.topic))
        · rw [if_pos (.inl henough)] at hturn
          exact ⟨1, by omega, by simp only [replayLoop, hturn, capped_append henough]⟩
        · rw [if_neg (not_or.mpr ⟨henough, hmore⟩)] at hturn
          obtain ⟨m, hm, hloop⟩ := ih hrest henough
          exact ⟨m + 1, by omega, by simp only [replayLoop, hturn, hloop]⟩
    · cases h

/-- **What a replay returns** is what paging to the tail with the filter of the session returns,
decoded and cut off at the bound, in no more calls; and paging through a ring that messages were
published to does reach the tail. -/
theorem replaySession_returns (peek : List UInt8 → Option EnvelopePeek) {b : Broker (List UInt8)}
    {sess : SessionRef} {opts : ReplayOptions} {topic : String} {partition : ℕ}
    (hroute : resolveSessionRouting sess opts.topic opts.partitionCount = .ok (topic, partition)) :
    (∀ n ms, paginate peek b n ((opts.query sess topic partition).request opts.start) = some ms →
      ∃ m ≤ n, replaySession peek b sess opts m =
        some ⟨capped opts.maxEvents (ms.filterMap (replayedEvent? topic)), none⟩) ∧
    ∀ cap ps, Serves b topic partition ((newTopic cap).publishAll ps) →
      ∃ n ms, paginate peek b n ((opts.query sess topic partition).request opts.start) =
        some ms := by
  constructor
  · intro n ms hpages
    have hnone : ¬ Enough opts.maxEvents [] := fun h => absurd (h.1.trans_le h.2) (lt_irrefl _)
    obtain ⟨m, hm, hloop⟩ :=
      replayLoop_of_paginate (q := opts.query sess topic partition) hpages hnone
    exact ⟨m, hm, by simp only [replaySession, hroute, hloop, List.nil_append]; rfl⟩
  · intro cap ps hserves
    by_cases hps : ps = []
    · subst hps
      have hstart : 0 ≤ opts.start := by
        unfold ReplayOptions.start
        split <;> omega
      exact ⟨1, [], paginate_done hserves rfl hstart⟩
    · obtain ⟨n, ms, hpages, -⟩ := paginate_yields peek
        ((opts.query sess topic partition).request opts.start) hserves rfl hps
      exact ⟨n, _, hpages⟩

/-- An event of session `s1`. -/
def sessionStep (type : String) : List UInt8 :=
  stringBytes ("\x7b\"type\":\"" ++ type ++
    "\",\"tenant\":\"acme\",\"project\":\"p\",\"session_id\":\"s1\"\x7d")

/-- Three events of the session, the first of which the ring has dropped. -/
def threeSteps : Broker (List UInt8) :=
  ["plan", "act", "done"].foldl (fun b type =>
    (b.publishToPartition defaultAgentTopic 1 (sessionStep type)).1) (Broker.new 2)

/-- A replay from the beginning in pages of one event finds the other two on two pages. -/
theorem replaySession_returns_two :
    let sess : SessionRef := ⟨"acme", "p", "s1", "planner"⟩
    let opts : ReplayOptions := ⟨"", 0, -7, 1, 10⟩
    (fetch peekEnvelope threeSteps
        ((opts.query sess defaultAgentTopic 1).request opts.start)).map (·.map (·.nextOffset)) =
        some (.ok 2) ∧
      ∃ n r, replaySession peekEnvelope threeSteps sess opts n = some r ∧
        r.events.map (fun ev => (ev.type, ev.offset)) = [("act", 1), ("done", 2)] ∧
        r.err = none := by
  intro sess opts
  have hroute : resolveSessionRouting sess opts.topic opts.partitionCount =
      .ok (defaultAgentTopic, 1) := by decide +kernel
  have hpages : paginate peekEnvelope threeSteps 2
      ((opts.query sess defaultAgentTopic 1).request opts.start) =
        some [⟨1, sessionStep "act", 1⟩, ⟨2, sessionStep "done", 1⟩] := by decide +kernel
  obtain ⟨n, -, hn⟩ := (replaySession_returns peekEnvelope hroute).1 2 _ hpages
  exact ⟨by decide +kernel, n, _, hn, by decide +kernel, rfl⟩

end AgentBus.Eventbus
