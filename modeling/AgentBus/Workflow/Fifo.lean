import AgentBus.Workflow.Fencing
import AgentBus.Workflow.Schedule
import AgentBus.Workflow.TaskTypes

/-!
# First come, first served

Executions become pending by a submit or by a retry, and are granted by `LeaseBatch`.  When calls
are made one at a time, every grant takes the execution of its task type that has been pending
longest.  What the queue holds besides, entries of executions that were completed while they waited,
does not matter.

When an execution became pending is read off the log (`PendingSince`), and so are the grants
(`grantsAt`).  The leases that calls return are the grants in the log (`Fifo.granted`); the pending
executions of the log in the order in which they became pending are those of `byTurn`
(`mem_byTurn`, `pairwise_byTurn`); and a grant is the first of them (`Served`).

## Main definitions

* `PendingSince` — how long an execution has been pending.
* `grantsAt`, `tokensOf` — the grants of a log, and the leases they publish.
* `Served` — every grant of a log is of the execution that is first in line.
* `Fifo` — the invariant between the steps of a call.
-/

namespace AgentBus.Workflow

open AgentStream Pool

/-- The execution under `k` has been pending, as one of the task type, since event `n`. -/
structure PendingSince (taskType : String) (es : List Event) (k : String) (n : ℕ) : Prop where
  lt : n < es.length
  before : pendingOf taskType (history k (es.take n)) = false
  since : ∀ j, n < j → j ≤ es.length → pendingOf taskType (history k (es.take j)) = true

/-- The positions of the leases in a log, for executions of a task type that were pending. -/
def grantsAt (taskType : String) (es : List Event) : List ℕ :=
  (List.range es.length).filter fun i => es[i]?.any fun e =>
    eventType e = some .leased && pendingOf taskType (history e.key (es.take i))

/-- The lease that the event at a position publishes. -/
def tokenAt (es : List Event) (i : ℕ) : Option (String × ℤ) := es[i]?.bind token?

/-- The leases that a call for the task type has returned. -/
def Thread.returnedFor (taskType : String) : Thread → List (String × ℤ)
  | .done (.leaseBatch call) (.leaseBatch leases _) =>
    if call.taskType = taskType then leases.map Lease.token else []
  | _ => []

/-- The leases that calls for the task type have returned, in order. -/
def returnedFor (taskType : String) (ts : List Thread) : List (String × ℤ) :=
  ts.flatMap (Thread.returnedFor taskType)

/-! ## Pending executions of a log -/

section Logs

variable {taskType : String} {es : List Event} {e : Event} {k : String} {n : ℕ}

theorem PendingSince.unique {n' : ℕ} (h : PendingSince taskType es k n)
    (h' : PendingSince taskType es k n') : n = n' := by
  rcases Nat.lt_trichotomy n n' with hlt | heq | hlt
  · have hpending := h.since n' hlt h'.lt.le
    rw [h'.before] at hpending
    cases hpending
  · exact heq
  · have hpending := h'.since n hlt h.lt.le
    rw [h.before] at hpending
    cases hpending

/-- Who is pending after one more event was so before, or became so by it. -/
theorem pendingSince_concat :
    PendingSince taskType (es ++ [e]) k n ↔
      pendingOf taskType (history k (es ++ [e])) = true ∧
        (PendingSince taskType es k n ∨
          (n = es.length ∧ pendingOf taskType (history k es) = false)) := by
  have htake : ∀ j ≤ es.length, (es ++ [e]).take j = es.take j := fun j hj =>
    List.take_append_of_le_length hj
  have hall : (es ++ [e]).take (es.length + 1) = es ++ [e] :=
    List.take_of_length_le (by simp)
  constructor
  · rintro ⟨hlt, hbefore, hsince⟩
    rw [List.length_append, List.length_singleton] at hlt hsince
    refine ⟨hall ▸ hsince _ hlt le_rfl, ?_⟩
    rw [htake n (by omega)] at hbefore
    by_cases hn : n < es.length
    · refine .inl ⟨hn, hbefore, ?_⟩
      intro j hj hle
      rw [← htake j hle]
      exact hsince j hj (by omega)
    · obtain rfl : n = es.length := by omega
      rw [List.take_length] at hbefore
      exact .inr ⟨rfl, hbefore⟩
  · rintro ⟨hpending, hold | ⟨rfl, hbefore⟩⟩
    · refine ⟨by simpa using Nat.lt_succ_of_lt hold.lt, ?_, ?_⟩
      · rw [htake n hold.lt.le]
        exact hold.before
      · intro j hj hle
        rw [List.length_append, List.length_singleton] at hle
        by_cases hj' : j ≤ es.length
        · rw [htake j hj']
          exact hold.since j hj hj'
        · obtain rfl : j = es.length + 1 := by omega
          rw [hall]
          exact hpending
    · refine ⟨by simp, ?_, ?_⟩
      · rw [htake _ le_rfl, List.take_length]
        exact hbefore
      · intro j hj hle
        rw [List.length_append, List.length_singleton] at hle
        obtain rfl : j = es.length + 1 := by omega
        rw [hall]
        exact hpending

/-- An event changes its own execution only. -/
@[simp] theorem history_concat_of_ne (h : e.key ≠ k) : history k (es ++ [e]) = history k es := by
  rw [history_concat, if_neg h]

theorem exists_pendingSince (h : pendingOf taskType (history k es) = true) :
    ∃ n, PendingSince taskType es k n := by
  induction es using List.reverseRecOn with
  | nil => cases h
  | append_singleton es e ih =>
    cases hold : pendingOf taskType (history k es) with
    | true =>
      obtain ⟨n, hn⟩ := ih hold
      exact ⟨n, pendingSince_concat.mpr ⟨h, .inl hn⟩⟩
    | false => exact ⟨_, pendingSince_concat.mpr ⟨h, .inr ⟨rfl, hold⟩⟩⟩

theorem PendingSince.pending (h : PendingSince taskType es k n) :
    pendingOf taskType (history k es) = true := by
  have hall := h.since es.length h.lt le_rfl
  rwa [List.take_length] at hall

/-- Who is still pending was so at every point since. -/
theorem PendingSince.earlier {i j : ℕ} (h : PendingSince taskType (es.take j) k n) (hn : n < i)
    (hij : i ≤ j) : PendingSince taskType (es.take i) k n := by
  obtain ⟨hlt, hbefore, hsince⟩ := h
  rw [List.length_take] at hlt hsince
  rw [List.take_take, min_eq_left (by omega)] at hbefore
  refine ⟨by rw [List.length_take]; omega, ?_, ?_⟩
  · rw [List.take_take, min_eq_left hn.le]
    exact hbefore
  · intro m hm hle
    rw [List.length_take] at hle
    have hpending := hsince m hm (by omega)
    rw [List.take_take, min_eq_left (by omega)] at hpending
    rw [List.take_take, min_eq_left (by omega)]
    exact hpending

/-- The event that made an execution pending is one of its own. -/
theorem PendingSince.key (h : PendingSince taskType es k n) : ∃ e, es[n]? = some e ∧ e.key = k := by
  have hlt := h.lt
  refine ⟨es[n], List.getElem?_eq_getElem hlt, ?_⟩
  by_contra hne
  have hpending := h.since (n + 1) (Nat.lt_succ_self n) hlt
  rw [List.take_add_one, List.getElem?_eq_getElem hlt, Option.toList_some,
    history_concat_of_ne hne, h.before] at hpending
  cases hpending

@[simp] theorem mem_lineUp {waits : Bool} {k k' : String} {l : List String} :
    k' ∈ lineUp waits k l ↔ if k' = k then waits = true else k' ∈ l := by
  unfold lineUp
  by_cases hk : k' = k <;> cases waits <;> by_cases hl : k ∈ l <;> simp [hk, hl]

/-- The line holds who is pending. -/
@[simp] theorem mem_byTurn : k ∈ byTurn taskType es ↔ pendingOf taskType (history k es) = true := by
  induction es using List.reverseRecOn with
  | nil => simp [byTurn, byTurnRev, history, pendingOf]
  | append_singleton es e ih =>
    rw [byTurn_concat, mem_lineUp]
    by_cases hk : k = e.key
    · rw [if_pos hk, hk]
    · rw [if_neg hk, ih, history_concat_of_ne (Ne.symm hk)]

/-- **The line is in the order in which executions became pending.** -/
theorem pairwise_byTurn (taskType : String) (es : List Event) :
    (byTurn taskType es).Pairwise fun k k' => ∀ n n', PendingSince taskType es k n →
      PendingSince taskType es k' n' → n < n' := by
  induction es using List.reverseRecOn with
  | nil => exact List.Pairwise.nil
  | append_singleton es e ih =>
    -- Who was in line has been pending for as long as before.
    have hold : ∀ k ∈ byTurn taskType es, ∀ n, PendingSince taskType (es ++ [e]) k n →
        PendingSince taskType es k n := by
      intro k hk n hn
      rcases (pendingSince_concat.mp hn).2 with h | ⟨-, hnot⟩
      · exact h
      · rw [mem_byTurn.mp hk] at hnot
        cases hnot
    have hline : (byTurn taskType es).Pairwise fun k k' => ∀ n n',
        PendingSince taskType (es ++ [e]) k n → PendingSince taskType (es ++ [e]) k' n' →
          n < n' := by
      refine ih.imp_of_mem ?_
      intro k k' hk hk' hlt n n' hn hn'
      exact hlt n n' (hold k hk n hn) (hold k' hk' n' hn')
    rw [byTurn_concat, lineUp]
    split
    · split
      · exact hline
      · rename_i hnew
        refine List.pairwise_append.mpr ⟨hline, List.pairwise_singleton _ _, ?_⟩
        intro k hk k' hk' n n' hn hn'
        rw [List.mem_singleton.mp hk'] at hn'
        rcases (pendingSince_concat.mp hn').2 with h | ⟨rfl, -⟩
        · exact absurd (mem_byTurn.mpr h.pending) hnew
        · exact (hold k hk n hn).lt
    · exact hline.filter _

/-- The first in line has been pending longest. -/
theorem first_of_head (h : (byTurn taskType es).head? = some k) :
    ∃ n, PendingSince taskType es k n ∧ ∀ k' n', PendingSince taskType es k' n' → n ≤ n' := by
  obtain ⟨rest, hline⟩ : ∃ rest, byTurn taskType es = k :: rest := by
    cases hline : byTurn taskType es with
    | nil => simp [hline] at h
    | cons k' rest =>
      rw [hline] at h
      cases h
      exact ⟨rest, rfl⟩
  have hk : k ∈ byTurn taskType es := by simp [hline]
  obtain ⟨n, hn⟩ := exists_pendingSince (mem_byTurn.mp hk)
  refine ⟨n, hn, ?_⟩
  intro k' n' hn'
  have hk' := mem_byTurn.mpr hn'.pending
  have hpairs := pairwise_byTurn taskType es
  rw [hline] at hk' hpairs
  rcases List.mem_cons.mp hk' with rfl | hrest
  · exact (hn.unique hn').le
  · exact ((List.pairwise_cons.mp hpairs).1 k' hrest n n' hn hn').le

/-! ## The grants of a log -/

@[simp] theorem mem_grantsAt {i : ℕ} :
    i ∈ grantsAt taskType es ↔ ∃ e, es[i]? = some e ∧ eventType e = some .leased ∧
      pendingOf taskType (history e.key (es.take i)) = true := by
  rw [grantsAt, List.mem_filter, List.mem_range]
  cases he : es[i]? with
  | none => simp
  | some e =>
    have hlt := (List.getElem?_eq_some_iff.mp he).1
    simp [hlt]

/-- The leases that the grants of a task type have published. -/
def tokensOf (taskType : String) (es : List Event) : List (String × ℤ) :=
  (grantsAt taskType es).filterMap (tokenAt es)

theorem tokensOf_concat (taskType : String) (es : List Event) (e : Event) :
    tokensOf taskType (es ++ [e]) = tokensOf taskType es ++
      if eventType e = some .leased ∧ pendingOf taskType (history e.key es) = true then
        [(e.key, e.attempt)] else [] := by
  have hgrants : grantsAt taskType (es ++ [e]) = grantsAt taskType es ++
      if eventType e = some .leased ∧ pendingOf taskType (history e.key es) = true then
        [es.length] else [] := by
    rw [grantsAt, List.length_append, List.length_singleton, List.range_succ, List.filter_append]
    congr 1
    · refine List.filter_congr ?_
      intro i hi
      have hlt := List.mem_range.mp hi
      rw [List.getElem?_append_left hlt, List.take_append_of_le_length hlt.le]
    · by_cases hgrant : eventType e = some .leased ∧
        pendingOf taskType (history e.key es) = true
      · simp [hgrant.1, hgrant.2]
      · rw [if_neg hgrant]
        simpa using hgrant
  rw [tokensOf, hgrants, List.filterMap_append]
  congr 1
  · refine List.filterMap_congr ?_
    intro i hi
    obtain ⟨e', he', -⟩ := mem_grantsAt.mp hi
    rw [tokenAt, tokenAt, List.getElem?_append_left (List.getElem?_eq_some_iff.mp he').1]
  · split
    · rename_i hgrant
      simp [tokenAt, token?, hgrant.1]
    · rfl

/-- Every grant of a log takes the first in line, who is then no longer pending. -/
def Served (es : List Event) : Prop :=
  ∀ taskType i e, es[i]? = some e → eventType e = some .leased →
    pendingOf taskType (history e.key (es.take i)) = true →
      (byTurn taskType (es.take i)).head? = some e.key ∧
        pendingOf taskType (history e.key (es.take (i + 1))) = false

theorem Served.concat (h : Served es)
    (hlast : ∀ taskType, eventType e = some .leased →
      pendingOf taskType (history e.key es) = true →
        (byTurn taskType es).head? = some e.key ∧
          pendingOf taskType (history e.key (es ++ [e])) = false) : Served (es ++ [e]) := by
  intro taskType i e' he' hty hpending
  rcases Pool.getElem?_append_singleton_cases he' with ⟨rfl, rfl⟩ | hold
  · rw [List.take_left] at hpending ⊢
    rw [List.take_of_length_le (by simp)]
    exact hlast taskType hty hpending
  · have hlt := (List.getElem?_eq_some_iff.mp hold).1
    rw [List.take_append_of_le_length hlt.le] at hpending ⊢
    rw [List.take_append_of_le_length hlt]
    exact h taskType i e' hold hty hpending

/-- **Grants come in the order in which their executions became pending.** -/
theorem Served.order (h : Served es) (taskType : String) :
    ∃ since : ℕ → ℕ,
      (∀ i ∈ grantsAt taskType es, ∃ e, es[i]? = some e ∧
        PendingSince taskType (es.take i) e.key (since i) ∧
        ∀ k n, PendingSince taskType (es.take i) k n → since i ≤ n) ∧
      ∀ i ∈ grantsAt taskType es, ∀ j ∈ grantsAt taskType es, i < j → since i < since j := by
  have hfirst : ∀ i, ∃ n, i ∈ grantsAt taskType es → ∃ e, es[i]? = some e ∧
      PendingSince taskType (es.take i) e.key n ∧
      (∀ k n', PendingSince taskType (es.take i) k n' → n ≤ n') ∧
      pendingOf taskType (history e.key (es.take (i + 1))) = false := by
    intro i
    by_cases hi : i ∈ grantsAt taskType es
    · obtain ⟨e, he, hty, hpending⟩ := mem_grantsAt.mp hi
      obtain ⟨hhead, hleft⟩ := h taskType i e he hty hpending
      obtain ⟨n, hn, hleast⟩ := first_of_head hhead
      exact ⟨n, fun _ => ⟨e, he, hn, hleast, hleft⟩⟩
    · exact ⟨0, fun hmem => absurd hmem hi⟩
  choose since hsince using hfirst
  refine ⟨since, ?_, ?_⟩
  · intro i hi
    obtain ⟨e, he, hn, hleast, -⟩ := hsince i hi
    exact ⟨e, he, hn, hleast⟩
  · intro i hi j hj hij
    obtain ⟨e, he, hn, hleast, hleft⟩ := hsince i hi
    obtain ⟨e', he', hn', -, -⟩ := hsince j hj
    by_cases hwaited : since j < i
    · -- The execution granted later was in line at the earlier grant already.
      have hearlier := hn'.earlier hwaited hij.le
      refine lt_of_le_of_ne (hleast _ _ hearlier) ?_
      intro heq
      rw [← heq] at hearlier hn'
      obtain ⟨d, hd, hkey⟩ := hn.key
      obtain ⟨d', hd', hkey'⟩ := hearlier.key
      obtain rfl : d = d' := Option.some.inj (hd.symm.trans hd')
      have hj' := (List.getElem?_eq_some_iff.mp he').1
      have hlt := hn.lt
      rw [List.length_take] at hlt
      have hpending := hn'.since (i + 1) (by omega) (by rw [List.length_take]; omega)
      rw [List.take_take, min_eq_left (by omega), ← hkey', hkey, hleft] at hpending
      cases hpending
    · have hlt := hn.lt
      rw [List.length_take] at hlt
      omega

end Logs

/-! ## The steps of a call -/

/-- The task type that a call of `LeaseBatch` asks for. -/
def Thread.asks : Thread → Option String
  | .leasing b | .idle b | .waiting b _ | .granting b _ | .unreserving b _ | .granted b _ _
  | .preparing (.grant b _ _) | .publishing (.grant b _ _) _ | .folding (.grant b _ _) _ =>
    some b.call.taskType
  | .done (.leaseBatch call) _ => some call.taskType
  | _ => none

/-- The leases that a call for the task type has published. -/
def Thread.leasesFor (taskType : String) (t : Thread) : List (String × ℤ) :=
  if t.asks = some taskType then t.leases else []

/-- A call waits only while it has nothing. -/
def Thread.EmptyHanded : Thread → Prop
  | .idle b | .waiting b _ => b.out = []
  | _ => True

/-- The invariant between the steps of a call, after others that have ended as `prior`. -/
structure Fifo (prior : List Thread) (s : State) (t : Thread) : Prop where
  typed : ∀ g ∈ t.grants, g.taskType = g.asked
  waits : t.EmptyHanded
  served : Served s.log
  granted : ∀ taskType, returnedFor taskType prior ++ t.leasesFor taskType =
    tokensOf taskType s.log

section Steps

variable {c : Config} {s s' : State} {t t' : Thread} {l : Choice}

theorem Batch.emptyHanded_onReserve (b : Batch) (o : Option Execution) :
    (b.onReserve o).EmptyHanded := by
  cases o with
  | some x => trivial
  | none =>
    dsimp only [Batch.onReserve]
    split
    · assumption
    · trivial

theorem Quiet.emptyHanded (h : Quiet c s t l t') : t'.EmptyHanded := by
  cases h with
  | heartbeat a => exact heartbeatStart_ind s a (fun _ => trivial) fun _ _ => trivial
  | fail a => exact failStart_ind s a (fun _ => trivial) fun _ _ => trivial
  | error f stamp => cases f <;> trivial
  | _ => trivial

theorem Steps.emptyHanded (h : Steps c s t l s' t') (ht : t.EmptyHanded) : t'.EmptyHanded := by
  cases h with
  | quiet t t' l h => exact h.emptyHanded
  | begin a r h => split <;> trivial
  | reserve b r h => exact b.emptyHanded_onReserve r.2
  | wait b => exact ht
  | fold f stamp => cases f <;> trivial
  | _ => trivial

theorem Quiet.leasesFor (h : Quiet c s t l t') (ht : t.EmptyHanded) (taskType : String) :
    t'.leasesFor taskType = t.leasesFor taskType := by
  cases h with
  | heartbeat a =>
    refine heartbeatStart_ind s a ?_ ?_ <;> intros <;> simp [Thread.leasesFor, Thread.leases]
  | fail a =>
    refine failStart_ind s a ?_ ?_ <;> intros <;> simp [Thread.leasesFor, Thread.leases]
  | lease call => simp [Thread.leasesFor, Thread.leases, Batch.tokens]
  | late b | timeout b ch | cancel b ch =>
    have hout : b.out = [] := ht
    simp [Thread.leasesFor, Thread.leases, Batch.tokens, hout]
  | granted b x attempt =>
    have htoken : (newLease s x attempt).token = (x.key, attempt) := rfl
    simp [Thread.leasesFor, Thread.asks, Thread.leases, Batch.tokens, htoken]
  | stamp f => cases f <;> rfl
  | error f stamp => cases f <;> rfl
  | _ => rfl

/-- Only the publish of a lease adds to what a call has leased. -/
theorem Steps.leasesFor (h : Steps c s t l s' t') (ht : t.EmptyHanded)
    (hfolding : t'.folding? c = none) (taskType : String) :
    t'.leasesFor taskType = t.leasesFor taskType := by
  cases h with
  | quiet t t' l h => exact h.leasesFor ht taskType
  | begin a r h => split <;> rfl
  | reserve b r h => rcases b.onReserve_cases r.2 with ⟨x, -, hx⟩ | hx | hx <;> rw [hx] <;> rfl
  | publish f stamp valid => cases hfolding
  | fold f stamp => cases f <;> rfl
  | unreserve b x =>
    by_cases hout : b.out = []
    · simp [hout, Thread.leasesFor, Thread.leases, Batch.tokens]
    · rw [if_neg hout]
      rfl
  | _ => rfl

/-- A lease is published for the execution that is in front, and is accepted. -/
theorem Running.serves {b : Batch} {x : Execution} {n : ℤ} {stamp : Time}
    (h : Running c s (.publishing (.grant b x n) stamp)) (taskType : String) :
    pendingOf taskType (history x.key s.log) = decide (x.taskType = taskType) ∧
      (x.taskType = taskType → (byTurn taskType s.log).head? = some x.key) ∧
      pendingOf taskType
        (history x.key (s.log ++ [(Frame.grant b x n).event c stamp])) = false := by
  obtain ⟨hx, hpending, -, hnext⟩ := h.ordered.held x (some n) rfl
  obtain ⟨done, hlog, hview⟩ := h.sound.view
  obtain rfl : s.log = done := hlog.trans (List.append_nil _)
  have hold : history x.key s.log = some x.folded := by rw [← hview, hx, Option.map_some]
  refine ⟨?_, ?_, ?_⟩
  · rw [← hview, pendingOf_folded, hx]
    simp [pendingOf, hpending]
  · intro hty
    rw [h.ordered.line s.log (List.append_nil _).symm taskType, Thread.front]
    simp [Thread.front?, hty]
  · have hfolds : Execution.Folds x.folded ((Frame.grant b x n).event c stamp)
        (x.folded.lease ((Frame.grant b x n).event c stamp) _) :=
      .leased _ (Frame.eventType_event ..) (LeasePayload.unmarshal_marshal _) hpending (hnext n rfl)
    have hkey : ((Frame.grant b x n).event c stamp).key = x.key := Frame.key_event ..
    rw [history_concat, if_pos hkey, hold, foldView, foldKey,
      Execution.apply_eq_some_iff.mpr hfolds]
    rfl

theorem Fifo.publish {prior : List Thread} {f : Frame} {stamp : Time}
    (hrun : Running c s (.publishing f stamp)) (h : Fifo prior s (.publishing f stamp)) :
    Fifo prior { s with log := s.log ++ [f.event c stamp] } (.folding f stamp) := by
  refine ⟨h.typed, trivial, ?_, ?_⟩
  · refine h.served.concat ?_
    intro taskType hty hpending
    rw [Frame.eventType_event, Option.some.injEq] at hty
    obtain ⟨b, x, n, rfl⟩ := Frame.eq_grant_of_type hty
    rw [Frame.key_event, Frame.key] at hpending ⊢
    obtain ⟨hof, hhead, hleft⟩ := hrun.serves taskType
    exact ⟨hhead (by simpa [hof] using hpending), hleft⟩
  · intro taskType
    dsimp only
    rw [tokensOf_concat, Frame.eventType_event, Frame.key_event, ← h.granted, List.append_assoc]
    congr 1
    by_cases hgrant : f.type = .leased
    · obtain ⟨b, x, n, rfl⟩ := Frame.eq_grant_of_type hgrant
      -- What the call leases is of the type it asked for.
      have hty : x.taskType = b.call.taskType :=
        h.typed ⟨b.call.taskType, x.key, x.taskType⟩ (List.mem_append_right _ (by simp))
      have hof := (hrun.serves taskType).1
      have hattempt : ((Frame.grant b x n).event c stamp).attempt = n := rfl
      by_cases hasked : b.call.taskType = taskType <;>
        simp [Thread.leasesFor, Thread.asks, Thread.leases, Frame.type, Frame.key, hof, hty, hasked,
          hattempt]
    · rw [if_neg (by simp [hgrant]), List.append_nil]
      cases f <;> first | rfl | exact absurd rfl hgrant

/-- **Every step of a call keeps to the order.** -/
theorem Fifo.steps {prior : List Thread} (hrun : Running c s t) (h : Fifo prior s t)
    (hstep : Steps c s t l s' t') : Fifo prior s' t' := by
  rcases hstep.log_cases with ⟨hlog, hfolding⟩ | ⟨f, stamp, rfl, rfl, rfl⟩
  · refine ⟨?_, hstep.emptyHanded h.waits, hlog ▸ h.served, ?_⟩
    · intro g hg
      rcases hstep.grants hg with hold | ⟨b, k, x, -, hk, hx, rfl⟩
      · exact h.typed g hold
      · obtain ⟨-, y, hy, hty⟩ := hrun.ordered.lined.entry _ k hk
        rw [hx] at hy
        cases hy
        exact hty
    · intro taskType
      rw [hlog, hstep.leasesFor h.waits hfolding]
      exact h.granted taskType
  · exact h.publish hrun

end Steps

/-! ## Whole runs -/

/-- Between two calls every grant was of the first in line, and every lease that was returned is a
grant. -/
structure Settled (prior : List Thread) (s : State) : Prop where
  served : Served s.log
  granted : ∀ taskType, returnedFor taskType prior = tokensOf taskType s.log

theorem Fifo.finish {prior : List Thread} {s : State} {t : Thread} (h : Fifo prior s t)
    (hfin : t.finished = true) : Settled (prior ++ [t]) s := by
  refine ⟨h.served, ?_⟩
  intro taskType
  have hlast : t.leasesFor taskType = t.returnedFor taskType := by
    cases t with
    | done r a =>
      cases r <;> cases a <;>
        simp [Thread.leasesFor, Thread.asks, Thread.leases, Thread.returnedFor]
    | _ => cases hfin
  rw [← h.granted, hlast]
  simp [returnedFor]

theorem settled_answers {c : Config} (hret : c.retainTerminal ≤ 0)
    {calls : List (Request × List (Choice ⊕ Time))} {s : State} {answers : List Thread}
    (h : (callsAlone c).answers Thread.finished (State.init c) calls = some (s, answers)) :
    Settled answers s := by
  refine (Program.answers_invariant (I := fun ts s t => Running c s t ∧ Fifo ts s t)
    (J := fun ts s => Tidy c s ∧ Settled ts s) ?_ ?_ ?_ ?_ ⟨tidy_init hret, ?_⟩ h).2
  · rintro ts s r ⟨htidy, hsettled⟩
    refine ⟨htidy.start r, nofun, trivial, hsettled.served, ?_⟩
    intro taskType
    rw [← hsettled.granted]
    exact List.append_nil _
  · rintro ts s t l s' t' ⟨hrun, hfifo⟩ hstep
    have hstep := Thread.step_spec hstep
    exact ⟨hrun.thread hstep, hfifo.steps hrun hstep⟩
  · rintro ts s t now s' ⟨hrun, hfifo⟩ henv
    obtain ⟨now', -, rfl⟩ := (environment_spec (c := c) (e := .tick now) henv).tick_of_ne nofun
    exact ⟨hrun.tick now', hfifo.typed, hfifo.waits, hfifo.served, hfifo.granted⟩
  · rintro ts s t ⟨hrun, hfifo⟩ hfin
    exact ⟨hrun.finish hfin, hfifo.finish hfin⟩
  · exact ⟨nofun, fun _ => rfl⟩

/-- **First come, first served.**  After any calls, made one at a time without terminal retention,
the leases that `LeaseBatch` has returned for a task type are, in order, the grants in the log.  A
grant takes the execution that has been pending longest of all that are pending then, and of two
grants the earlier one is of the execution that last became pending earlier. -/
theorem leases_first_come_first_served (c : Config) (hret : c.retainTerminal ≤ 0)
    (calls : List (Request × List (Choice ⊕ Time))) (s : State) (answers : List Thread)
    (h : (callsAlone c).answers Thread.finished (State.init c) calls = some (s, answers))
    (taskType : String) :
    returnedFor taskType answers = (grantsAt taskType s.log).filterMap (tokenAt s.log) ∧
      ∃ since : ℕ → ℕ,
        (∀ i ∈ grantsAt taskType s.log, ∃ e, s.log[i]? = some e ∧
          PendingSince taskType (s.log.take i) e.key (since i) ∧
          ∀ k n, PendingSince taskType (s.log.take i) k n → since i ≤ n) ∧
        ∀ i ∈ grantsAt taskType s.log, ∀ j ∈ grantsAt taskType s.log, i < j →
          since i < since j := by
  have hsettled := settled_answers hret h
  exact ⟨hsettled.granted taskType, hsettled.served.order taskType⟩

/-- After the retry two more executions are leased. -/
def leasedAfterRetry : List (Request × List (Choice ⊕ Time)) :=
  retriedFirst ++ [(Request.leaseBatch ⟨"build", "w1", 2, 0⟩, steps 14)]

theorem leases_first_come_first_served_retried :
    ∃ s answers, (callsAlone .default).answers Thread.finished (State.init .default)
        leasedAfterRetry = some (s, answers) ∧
      returnedFor "build" answers =
        [(sessionKey "acme" "p" "v", 1), (sessionKey "acme" "p" "w", 1),
          (sessionKey "acme" "p" "v", 2)] ∧
      grantsAt "build" s.log = [2, 5, 6] ∧
      returnedFor "build" answers = [2, 5, 6].filterMap (tokenAt s.log) ∧
      ∃ since : ℕ → ℕ, since 2 < since 5 ∧ since 5 < since 6 ∧
        ∀ i ∈ [2, 5, 6], ∃ e, s.log[i]? = some e ∧
          PendingSince "build" (s.log.take i) e.key (since i) := by
  have hrun : ((callsAlone .default).answers Thread.finished (State.init .default)
      leasedAfterRetry).map (fun p => (returnedFor "build" p.2, grantsAt "build" p.1.log)) =
      some ([(sessionKey "acme" "p" "v", 1), (sessionKey "acme" "p" "w", 1),
        (sessionKey "acme" "p" "v", 2)], [2, 5, 6]) := by
    decide +kernel
  obtain ⟨⟨s, answers⟩, hs, heq⟩ := Option.map_eq_some_iff.mp hrun
  rw [Prod.mk.injEq] at heq
  have horder := leases_first_come_first_served .default (by decide) leasedAfterRetry s answers hs
    "build"
  rw [heq.2] at horder
  obtain ⟨hleases, since, hfirst, hlt⟩ := horder
  refine ⟨s, answers, hs, heq.1, heq.2, hleases, since, ?_, ?_, ?_⟩
  · exact hlt 2 (by decide) 5 (by decide) (by decide)
  · exact hlt 5 (by decide) 6 (by decide) (by decide)
  · intro i hi
    obtain ⟨e, he, hsince, -⟩ := hfirst i hi
    exact ⟨e, he, hsince⟩

end AgentBus.Workflow
