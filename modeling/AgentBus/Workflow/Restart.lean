import AgentBus.Workflow.Order
import AgentBus.Workflow.Sequential

/-!
# Restarting the process

A process that starts replays the write-ahead log into fresh rings and only then lets the
poller read them, so the new store sees what the rings still hold and not what the file
holds.  An execution whose submit has left its ring is not rebuilt, since no later event
creates one; everything else is (`restart_rebuilds_iff`).

## Main definitions

* `restart` — the store of a restarted process after some passes of its poller.
* `evicted` — the events a ring has dropped.
* `Rebuilds` — the restarted process ends up with the executions the old one held.
-/

namespace AgentBus.Workflow

open AgentStream Broker Framing Grpcapi Pool

/-- The store of a process that starts over `file`, after `n` passes of the poller. -/
def restart (sum : List UInt8 → UInt32) (opts : Wal.ReplayOptions) (c : Config)
    (file : List UInt8) (n : ℕ) : Option Store := do
  let b ← restore sum opts c.capacity file
  let (b, cursors) := newPoller b
  let (_, s) ← drain b n (cursors, Store.empty c.retainTerminal)
  some s

/-- The events that a ring of `capacity` has dropped from partition `p` of a log. -/
def evicted (capacity : ℕ) (log : List Event) (p : ℕ) : List Event :=
  (ofPartition defaultTopicPartitions p log).take
    ((ofPartition defaultTopicPartitions p log).length - ringCapacity capacity)

/-- The restarted process, once its poller has made enough passes, holds exactly the
executions the old one held, folded field by folded field. -/
def Rebuilds (sum : List UInt8 → UInt32) (opts : Wal.ReplayOptions) (c : Config) (σ : System) :
    Prop :=
  ∃ N, ∀ n ≥ N, ∃ s, restart sum opts c σ.server.wal n = some s ∧
    ∀ k, (s.find? k).map Execution.folded = (σ.state.store.find? k).map Execution.folded

/-! ## What the new process reads -/

variable {log : List Event} {sum : List UInt8 → UInt32} {n : ℕ} {σ : System}

/-- The payloads in the file for a partition are the texts of the partition's events. -/
theorem map_parseEvent_payloads {rs : List Wal.Record} (h : List.Forall₂ Carries log rs) {p : ℕ}
    (hp : p < defaultTopicPartitions) :
    (payloads rs topic p).map parseEvent = (ofPartition defaultTopicPartitions p log).map some := by
  induction h with
  | nil => rfl
  | @cons e r log rs hcarry _ ih =>
    have hlt := keyPartition_lt (by decide : 0 < defaultTopicPartitions) e.key
    have hslot : slot r = (stringBytes topic, Int32.ofNat p) ↔
        keyPartition defaultTopicPartitions e.key = p := by
      rw [slot, Prod.mk.injEq, and_iff_right hcarry.record.topic_eq, hcarry.partition]
      exact ⟨(int32_ofNat_partition _ hlt).2.2 p hp, fun heq => by rw [heq]⟩
    rw [payloads, ofPartition] at ih ⊢
    by_cases hkey : keyPartition defaultTopicPartitions e.key = p
    · rw [List.filter_cons_of_pos (by simpa using hslot.mpr hkey),
        List.filter_cons_of_pos (by simpa using hkey)]
      simp only [List.map_cons, hcarry.payload, ih]
    · rw [List.filter_cons_of_neg (by simpa using hkey ∘ hslot.mp),
        List.filter_cons_of_neg (by simpa using hkey), ih]

theorem filterMap_of_map {ps : List (List UInt8)} {es : List Event}
    (h : ps.map parseEvent = es.map some) : ps.filterMap parseEvent = es := by
  have hid : ps.filterMap parseEvent = (ps.map parseEvent).filterMap id := by
    rw [List.filterMap_map, Function.id_comp]
  rw [hid, h, List.filterMap_map]
  simp

theorem filterMap_retained_take {ps : List (List UInt8)} {es : List Event}
    (h : ps.map parseEvent = es.map some) (cap k : ℕ) :
    ((retained cap ps).take k).filterMap parseEvent = (retained cap es).take k := by
  have hlen : ps.length = es.length := by simpa using congrArg List.length h
  apply filterMap_of_map
  rw [List.map_take, List.map_take, retained, retained, List.map_drop, List.map_drop, h, hlen]

theorem routed_of_carries {rs : List Wal.Record} (h : List.Forall₂ Carries log rs) :
    ∀ r ∈ rs, Routed r := by
  induction h with
  | nil => simp
  | cons hcarry _ ih => exact List.forall_mem_cons.mpr ⟨⟨topic, hcarry.record⟩, ih⟩

/-- **What a restarted process has folded** after `n` passes: of every partition the first
batches of what its ring holds of the log. -/
theorem restart_spec (opts : Wal.ReplayOptions) (c : Config) {s : Server} (h : Recorded sum s log)
    (n : ℕ) :
    ∃ es, restart sum opts c s.wal n = some ((Store.empty c.retainTerminal).applyAll es) ∧
      ∀ p < defaultTopicPartitions, ofPartition defaultTopicPartitions p es =
        (retained (ringCapacity c.capacity) (ofPartition defaultTopicPartitions p log)).take
          (defaultPollBatch * n) := by
  obtain ⟨rs, hfile, hcarry⟩ := h.file
  obtain ⟨b, hb, hcap, hshows⟩ := restore_showsAll sum opts c.capacity (routed_of_carries hcarry)
  obtain ⟨hshows, hcap', hcount⟩ := (hshows topic).ensureTopic
  have hroute : ∀ p < defaultTopicPartitions, ∀ e ∈ (payloads rs topic p).filterMap parseEvent,
      keyPartition defaultTopicPartitions e.key = p := by
    intro p hp e he
    rw [filterMap_of_map (map_parseEvent_payloads hcarry hp)] at he
    simpa using List.of_mem_filter he
  obtain ⟨cs, es, hdrain, hes⟩ := poll_spec (fun s e => (s.apply e).1) hshows
    (show 0 < defaultPollBatch by decide) hroute n (Store.empty c.retainTerminal)
  refine ⟨es, ?_, ?_⟩
  · simp only [restart, hfile, hb, newPoller, hcount, drain, hdrain, Option.bind_eq_bind,
      Option.bind_some]
    rfl
  · intro p hp
    rw [hes p hp, hcap', hcap, filterMap_retained_take (map_parseEvent_payloads hcarry hp)]

/-! ## Old and new state -/

/-- A partition of the log is what its ring has dropped and what it holds. -/
theorem evicted_append_retained (capacity : ℕ) (log : List Event) (p : ℕ) :
    evicted capacity log p ++
        retained (ringCapacity capacity) (ofPartition defaultTopicPartitions p log) =
      ofPartition defaultTopicPartitions p log :=
  List.take_append_drop _ _

/-- The folded fields of the restarted process, once all batches are read. -/
theorem restart_view (opts : Wal.ReplayOptions) {c : Config} (hret : c.retainTerminal ≤ 0)
    {s : Server} (h : Recorded sum s log) (hn : log.length ≤ n) :
    ∃ m, restart sum opts c s.wal n = some m ∧ ∀ k, (m.find? k).map Execution.folded =
      history k (retained (ringCapacity c.capacity)
        (ofPartition defaultTopicPartitions (keyPartition defaultTopicPartitions k) log)) := by
  obtain ⟨es, hes, hparts⟩ := restart_spec opts c h n
  refine ⟨_, hes, ?_⟩
  intro k
  have hlen : (retained (ringCapacity c.capacity)
      (ofPartition defaultTopicPartitions (keyPartition defaultTopicPartitions k) log)).length ≤
        defaultPollBatch * n := by
    have hfilter : (ofPartition defaultTopicPartitions
        (keyPartition defaultTopicPartitions k) log).length ≤ log.length :=
      List.length_filter_le ..
    simp only [retained, List.length_drop, defaultPollBatch]
    omega
  rw [Store.view_applyAll hret]
  change history k es = _
  rw [← history_ofPartition k es, hparts _ (keyPartition_lt (by decide) k),
    List.take_of_length_le hlen]

section
variable {sum : List UInt8 → UInt32} {opts : Wal.ReplayOptions} {c : Config} {σ : System}
  (hret : c.retainTerminal ≤ 0) (h : σ.Settled sum c)
include hret h

/-- A dropped submit is not made up for: its key was started once. -/
theorem Rebuilds.not_starts (hrebuilds : Rebuilds sum opts c σ) {p : ℕ} {e : Event}
    (he : e ∈ evicted c.capacity σ.state.log p) : ¬ Starts e := by
  intro hstart
  have hsound := h.sound .sweepExpired
  obtain ⟨N, hN⟩ := hrebuilds
  obtain ⟨m, hm, hview⟩ := hN (max N σ.state.log.length) (le_max_left ..)
  obtain ⟨m', hm', hview'⟩ := restart_view opts hret hsound.recorded (le_max_right N _)
  rw [hm] at hm'
  cases hm'
  -- The event is of this partition and of the log, so the old process has the execution.
  have hpart : e ∈ ofPartition defaultTopicPartitions p σ.state.log := List.mem_of_mem_take he
  obtain ⟨hlog, hkey⟩ := List.mem_filter.mp hpart
  rw [decide_eq_true_eq] at hkey
  subst hkey
  have hold : (history e.key σ.state.log).isSome = true :=
    (history_isSome_iff ..).mpr ⟨e, hlog, rfl, hstart⟩
  rw [← h.view, ← hview, hview', history_isSome_iff] at hold
  obtain ⟨e', he', hkey', hstart'⟩ := hold
  -- A second submit of the key would have to be in the ring.
  have honce := hsound.state.once.sublist (List.filter_sublist (l := σ.state.log)
    (p := fun d => keyPartition defaultTopicPartitions d.key =
      keyPartition defaultTopicPartitions e.key))
  change List.Pairwise _ (ofPartition defaultTopicPartitions _ σ.state.log) at honce
  rw [← evicted_append_retained c.capacity] at honce
  exact (List.pairwise_append.mp honce).2.2 e he e' he' hstart hstart' hkey'.symm

/-- What a ring has dropped without a submit among it had no effect. -/
theorem rebuilds_of_not_starts (hnot : ∀ p < defaultTopicPartitions,
    ∀ e ∈ evicted c.capacity σ.state.log p, ¬ Starts e) : Rebuilds sum opts c σ := by
  refine ⟨σ.state.log.length, ?_⟩
  intro n hn
  obtain ⟨m, hm, hview⟩ := restart_view opts hret (h.sound .sweepExpired).recorded hn
  refine ⟨m, hm, ?_⟩
  intro k
  have hlt := keyPartition_lt (by decide : 0 < defaultTopicPartitions) k
  have hnone : history k
      (evicted c.capacity σ.state.log (keyPartition defaultTopicPartitions k)) = none :=
    (history_eq_none_iff ..).mpr fun e he _ => hnot _ hlt e he
  have hsplit := history_append k
    (evicted c.capacity σ.state.log (keyPartition defaultTopicPartitions k))
    (retained (ringCapacity c.capacity)
      (ofPartition defaultTopicPartitions (keyPartition defaultTopicPartitions k) σ.state.log))
  rw [evicted_append_retained, history_ofPartition, hnone] at hsplit
  rw [hview, h.view, hsplit]
  rfl

end

/-- **When a restart rebuilds the state.**  After any sequence of calls, executed one after
the other with no terminal retention, the restarted process ends up with exactly the
executions of the old one if and only if no ring has dropped a submit that started one. -/
theorem restart_rebuilds_iff (sum : List UInt8 → UInt32) (opts : Wal.ReplayOptions) (c : Config)
    (hret : c.retainTerminal ≤ 0) (calls : List (Request × List Turn)) (σ : System)
    (hrun : (System.init c).run sum c calls = some σ) :
    Rebuilds sum opts c σ ↔
      ∀ p < defaultTopicPartitions, ∀ e ∈ evicted c.capacity σ.state.log p, ¬ Starts e := by
  have hsettled := (System.settled_init sum hret).run hrun
  constructor
  · intro hrebuilds p _ e he
    exact hrebuilds.not_starts hret hsettled he
  · exact rebuilds_of_not_starts hret hsettled

/-! ## An execution that is not rebuilt -/

/-- A call that runs through without the clock moving. -/
def straight (n : ℕ) : List Turn := List.replicate n (.inl .go)

/-- A heartbeat of a running execution, from its start to its return. -/
theorem System.call_heartbeat {c : Config} {a : AttemptCall} {x : Execution}
    (hx : σ.state.store.find? a.key = some x) (hrunning : x.status = .running)
    (hattempt : x.attempt = a.attempt) (hworker : x.workerID = a.workerID) {e : Event}
    (he : (Frame.heartbeat a).event c σ.state.clock = e) {answer : ℤ × ℕ}
    (hok : (σ.server.publishEnvelope sum σ.state.clock topic e).2 = .ok answer) :
    ∃ σ', σ.call sum c (.heartbeat a) (straight 5) = some σ' ∧
      σ'.state.clock = σ.state.clock ∧ σ'.state.log = σ.state.log ++ [e] ∧
      σ'.state.store = (σ.state.store.apply e).1 := by
  have hget : σ.state.store.get a.tenant a.project a.workflowID = some x := hx
  have hstart : heartbeatStart σ.state a = .preparing (.heartbeat a) := by
    simp [heartbeatStart, hget, hrunning, hattempt, hworker]
  -- The five steps, one after the other.
  have hstarted : σ.step sum c (.start (.heartbeat a)) .go =
      some (σ, .preparing (.heartbeat a)) := by
    rw [← hstart]
    rfl
  have hprepared : σ.step sum c (.preparing (.heartbeat a)) .go =
      some (σ, .publishing (.heartbeat a) σ.state.clock) := rfl
  have hpublished : σ.step sum c (.publishing (.heartbeat a) σ.state.clock) .go =
      some (⟨{ σ.state with log := σ.state.log ++ [e] },
        (σ.server.publishEnvelope sum σ.state.clock topic e).1⟩,
        .folding (.heartbeat a) σ.state.clock) := by
    simp only [System.step, System.publish, he, hok]
  have hfolded : ∀ τ : System, τ.step sum c (.folding (.heartbeat a) σ.state.clock) .go =
      some (⟨{ τ.state with store := (τ.state.store.apply e).1 }, τ.server⟩, .extended a) := by
    intro τ
    rw [← he]
    rfl
  have hextended : ∀ τ : System, ∃ answer, τ.step sum c (.extended a) .go =
      some (τ, .done (.heartbeat a) answer) := fun τ => ⟨_, rfl⟩
  obtain ⟨answer, hextended⟩ := hextended
    ⟨{ σ.state with store := (σ.state.store.apply e).1, log := σ.state.log ++ [e] },
      (σ.server.publishEnvelope sum σ.state.clock topic e).1⟩
  refine ⟨⟨{ σ.state with store := (σ.state.store.apply e).1, log := σ.state.log ++ [e] },
    (σ.server.publishEnvelope sum σ.state.clock topic e).1⟩, ?_, rfl, rfl, rfl⟩
  simp only [System.call, Program.call, Program.alone, system, straight, List.replicate,
    List.foldlM_cons, List.foldlM_nil, Option.bind_eq_bind, Option.bind_some, hstarted, hprepared,
    hpublished, hfolded, hextended, Option.pure_def, Thread.finished, if_true]

/-- The heartbeat of a sole worker, as long as the clock stands still. -/
def soleBeat : Event := (Frame.heartbeat firstHolder).event .default 0

/-- The execution is submitted and leased. -/
def firstCalls : List (Request × List Turn) :=
  [(.submit (.bounded "w" "build" 3), straight 4),
    (.leaseBatch ⟨"build", "w1", 1, 0⟩, straight 8)]

/-- The execution runs, and the log holds its submit, its lease and `n` heartbeats. -/
structure Beating (n : ℕ) (σ : System) : Prop where
  clock : σ.state.clock = 0
  log : (σ.state.log.map fun e => (e.key, decide (Starts e))) =
    (firstHolder.key, true) :: List.replicate (n + 1) (firstHolder.key, false)
  running : ∃ x, σ.state.store.find? firstHolder.key = some x ∧ x.status = .running ∧
    x.attempt = 1 ∧ x.workerID = "w1"

theorem beating_firstCalls :
    ∃ σ, (System.init .default).run Wal.crc32c .default firstCalls = some σ ∧ Beating 0 σ := by
  have hrun : ((System.init .default).run Wal.crc32c .default firstCalls).any (fun σ =>
      decide (σ.state.clock = 0) &&
      decide ((σ.state.log.map fun e => (e.key, decide (Starts e))) =
        (firstHolder.key, true) :: List.replicate 1 (firstHolder.key, false)) &&
      decide (((σ.state.store.find? firstHolder.key).map fun x =>
        (x.status, x.attempt, x.workerID)) = some (.running, 1, "w1"))) = true := by
    decide +kernel
  obtain ⟨σ, hσ, hall⟩ := (Option.any_eq_true _ _).mp hrun
  simp only [Bool.and_eq_true, decide_eq_true_eq] at hall
  obtain ⟨⟨hclock, hlog⟩, hfind⟩ := hall
  obtain ⟨x, hx, heq⟩ := Option.map_eq_some_iff.mp hfind
  simp only [Prod.mk.injEq] at heq
  exact ⟨σ, hσ, hclock, hlog, x, hx, heq⟩

/-- The text of the heartbeat fits a record. -/
theorem soleBeat_marshal : ∃ bs, soleBeat.marshal 0 = .ok bs ∧ bs.length ≤ Wal.maxPayloadSize := by
  have hlen : (soleBeat.marshal 0).toOption.any
      (fun bs => decide (bs.length ≤ Wal.maxPayloadSize)) = true := by
    decide +kernel
  obtain ⟨bs, hbs, hle⟩ := (Option.any_eq_true _ _).mp hlen
  refine ⟨bs, ?_, by simpa using hle⟩
  cases hm : soleBeat.marshal 0 with
  | error msg => rw [hm] at hbs; cases hbs
  | ok bs' => rw [hm] at hbs; cases hbs; rfl

theorem not_starts_soleBeat : ¬ Starts soleBeat := by
  intro h
  have hty : eventType soleBeat = some .heartbeat := eventType_newEnvelope ..
  rw [h.1] at hty
  cases hty

/-- The running execution takes the heartbeat. -/
theorem folds_soleBeat {x : Execution} (hrunning : x.status = .running) (hattempt : x.attempt = 1)
    (hworker : x.workerID = "w1") : Execution.Folds x soleBeat (x.extend soleBeat) :=
  .heartbeat ⟨"w1"⟩ (eventType_newEnvelope ..) (LeasePayload.unmarshal_marshal _) hrunning
    hattempt.symm hworker.symm

/-- One more heartbeat. -/
theorem Beating.call (h : Beating n σ) (hsettled : σ.Settled Wal.crc32c .default) :
    ∃ σ', σ.call Wal.crc32c .default (.heartbeat firstHolder) (straight 5) = some σ' ∧
      Beating (n + 1) σ' := by
  obtain ⟨x, hx, hrunning, hattempt, hworker⟩ := h.running
  have hsound := hsettled.sound .sweepExpired
  obtain ⟨view, hshows⟩ := hsound.recorded.broker
  obtain ⟨bs, hbs, hlen⟩ := soleBeat_marshal
  have hkey : soleBeat.key = firstHolder.key := Frame.key_event ..
  have hshort : (stringBytes soleBeat.key).length ≤ 0xFFFF := by decide +kernel
  obtain ⟨answer, hok⟩ := Server.publishEnvelope_ok Wal.crc32c 0 hshows hbs
    (sessionKey_ne _ _ _) (by decide +kernel) (by decide +kernel) hshort hlen
  rw [← h.clock] at hok
  obtain ⟨σ', hcall, hclock, hlog, hstore⟩ := System.call_heartbeat hx hrunning hattempt hworker
    (show (Frame.heartbeat firstHolder).event .default σ.state.clock = soleBeat by
      rw [h.clock]; rfl) hok
  refine ⟨σ', hcall, hclock.trans h.clock, ?_, x.extend soleBeat, ?_, hrunning, hattempt, hworker⟩
  · rw [hlog, List.map_append, h.log, List.map_singleton, hkey, decide_eq_false not_starts_soleBeat,
      List.cons_append, ← List.replicate_succ']
  · rw [hstore, Store.find?_apply hsound.state.retain, if_pos hkey.symm, hx, foldKey,
      Execution.apply_eq_some_iff.mpr (folds_soleBeat hrunning hattempt hworker), Option.getD_some]

/-- The first calls and any number of heartbeats. -/
theorem beating_calls (n : ℕ) :
    ∃ σ, (System.init .default).run Wal.crc32c .default
        (firstCalls ++ List.replicate n (.heartbeat firstHolder, straight 5)) = some σ ∧
      Beating n σ := by
  induction n with
  | zero =>
    rw [List.replicate_zero, List.append_nil]
    exact beating_firstCalls
  | succ n ih =>
    obtain ⟨σ, hσ, hbeating⟩ := ih
    have hsettled := (System.settled_init Wal.crc32c (by decide)).run hσ
    obtain ⟨σ', hcall, hnext⟩ := hbeating.call hsettled
    refine ⟨σ', ?_, hnext⟩
    rw [List.replicate_succ', ← List.append_assoc, System.run, Program.serial, List.foldlM_append]
    rw [System.run, Program.serial] at hσ
    rw [System.call] at hcall
    simp [hσ, hcall]

/-- The submit leaves its ring once the heartbeats fill it. -/
theorem Beating.evicted (h : Beating n σ) (capacity : ℕ) (hn : ringCapacity capacity < n + 2) :
    ∃ e ∈ evicted capacity σ.state.log (keyPartition defaultTopicPartitions firstHolder.key),
      Starts e := by
  have hlog := h.log
  have hkeys : ∀ e ∈ σ.state.log, e.key = firstHolder.key := by
    intro e he
    have hmem := List.mem_map_of_mem (f := fun e => (e.key, decide (Starts e))) he
    rw [hlog, List.mem_cons, List.mem_replicate] at hmem
    rcases hmem with hmem | ⟨-, hmem⟩ <;> exact (Prod.mk.inj hmem).1
  have hpart : ofPartition defaultTopicPartitions
      (keyPartition defaultTopicPartitions firstHolder.key) σ.state.log = σ.state.log := by
    refine List.filter_eq_self.mpr fun e he => ?_
    rw [hkeys e he, decide_eq_true_eq]
  have hlen : σ.state.log.length = n + 2 := by simpa using congrArg List.length hlog
  rw [Workflow.evicted, hpart]
  cases hl : σ.state.log with
  | nil => rw [hl] at hlen; cases hlen
  | cons e es =>
    refine ⟨e, ?_, ?_⟩
    · rw [hl] at hlen
      obtain ⟨m, hm⟩ := Nat.exists_eq_add_of_lt hn
      rw [hlen, show n + 2 - ringCapacity capacity = m + 1 by omega, List.take_succ_cons]
      exact List.mem_cons_self
    · rw [hl, List.map_cons, List.cons.injEq] at hlog
      simpa using congrArg Prod.snd hlog.1

/-- One execution is kept alive for longer than a ring has room for: the old process holds
it, and no restart of the process rebuilds it. -/
theorem restart_loses_execution :
    ∃ calls σ, (System.init .default).run Wal.crc32c .default calls = some σ ∧
      (σ.state.store.find? firstHolder.key).map Execution.status = some .running ∧
      ∀ opts, ¬ Rebuilds Wal.crc32c opts .default σ := by
  obtain ⟨σ, hσ, hbeating⟩ := beating_calls defaultCapacity
  have hsettled := (System.settled_init Wal.crc32c (by decide)).run hσ
  obtain ⟨x, hx, hrunning, -⟩ := hbeating.running
  obtain ⟨e, he, hstarts⟩ := hbeating.evicted Config.default.capacity (by decide)
  refine ⟨_, σ, hσ, ?_, ?_⟩
  · rw [hx, Option.map_some, hrunning]
  · intro opts hrebuilds
    exact hrebuilds.not_starts (by decide) hsettled he hstarts

/-- A restart right after the lease rebuilds the execution. -/
theorem restart_rebuilds_leased :
    ∃ σ, (System.init .default).run Wal.crc32c .default firstCalls = some σ ∧
      (σ.state.store.find? firstHolder.key).map Execution.status = some .running ∧
      Rebuilds Wal.crc32c ⟨true⟩ .default σ := by
  obtain ⟨σ, hσ, hbeating⟩ := beating_firstCalls
  obtain ⟨x, hx, hrunning, -⟩ := hbeating.running
  refine ⟨σ, hσ, ?_, ?_⟩
  · rw [hx, Option.map_some, hrunning]
  · refine (restart_rebuilds_iff Wal.crc32c ⟨true⟩ .default (by decide) firstCalls σ hσ).mpr ?_
    intro p _ e he
    have hlen : σ.state.log.length = 2 := by simpa using congrArg List.length hbeating.log
    have hle : (ofPartition defaultTopicPartitions p σ.state.log).length ≤ 2 :=
      hlen ▸ List.length_filter_le ..
    have hcap : 2 ≤ ringCapacity Config.default.capacity := by decide
    rw [Workflow.evicted, Nat.sub_eq_zero_of_le (hle.trans hcap), List.take_zero] at he
    cases he

end AgentBus.Workflow
