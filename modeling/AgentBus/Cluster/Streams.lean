import AgentBus.Cluster.Replication
import Mathlib.Data.List.Pairwise

/-!
# Replication streams in step

The streams of a cluster (`AgentBus.Cluster.Replication`), with any number of them to one follower
at a time, from any number of nodes that take themselves for the leader.  The handler of
`Server.Replicate` refuses a record beyond its tail, and acknowledges its tail minus one as an
unsigned number.

A stream starts at offset 0, sends one record after another, and sends the next one only when the
handler has the last: its position stays within the follower's log, whoever else appends there
(`replicate_in_step`).

## Main definitions

* `Cursor.next` — the position of a stream.
* `Handler.InStep`, `Thread.InStep` — it is within the follower's log.
-/

namespace AgentBus.Cluster

open Pool

/-- The offset the reader sends next. -/
def Cursor.next : Cursor → ℕ
  | .backfill next => next
  | .live next => next
  | .tailing next _ => next

/-- A step of the reader sends the next record or none. -/
theorem Cursor.next_step {s : Shard} {c c' : Cursor} {sent : Option (ℕ × Payload)}
    (hstep : c.step s = some (c', sent)) :
    (sent = none ∧ c'.next = c.next) ∨
      ∃ payload, sent = some (c.next, payload) ∧ c'.next = c.next + 1 := by
  cases c with
  | backfill next =>
    rw [Cursor.step] at hstep
    split at hstep
    · rename_i payload _
      cases hstep
      exact .inr ⟨payload, rfl, rfl⟩
    · cases hstep
      exact .inl ⟨rfl, rfl⟩
  | live next =>
    rw [Cursor.step] at hstep
    split at hstep
    · cases hstep
      exact .inl ⟨rfl, rfl⟩
    · cases hstep
  | tailing next currentTail =>
    rw [Cursor.step] at hstep
    split at hstep
    · split at hstep
      · rename_i payload _
        cases hstep
        exact .inr ⟨payload, rfl, rfl⟩
      · cases hstep
        exact .inl ⟨rfl, rfl⟩
    · cases hstep
      exact .inl ⟨rfl, rfl⟩

/-- What is known of a handler, by the position of the stream and the tail of its log. -/
def Handler.InStep (next tail : ℕ) : Handler → Prop
  | .receiving => next ≤ tail
  | .received off _ => next = off + 1 ∧ off ≤ tail
  -- Until it is appended the record may be the one just behind the log.
  | .appending _ (.writing _) => 1 ≤ next ∧ next ≤ tail + 1
  | .appending _ (.failed _) => True
  | .appending _ _ => 1 ≤ next ∧ next ≤ tail
  | .acking => 1 ≤ next ∧ next ≤ tail
  | .closed => True

theorem Handler.InStep.mono {next tail tail' : ℕ} {handler : Handler} (h : handler.InStep next tail)
    (hle : tail ≤ tail') : handler.InStep next tail' := by
  cases handler with
  | receiving => exact h.trans hle
  | received off payload => exact ⟨h.1, h.2.trans hle⟩
  | appending payload a =>
    cases a with
    | writing payload' => exact ⟨h.1, h.2.trans (Nat.succ_le_succ hle)⟩
    | committing off c => exact ⟨h.1, h.2.trans hle⟩
    | returned off => exact ⟨h.1, h.2.trans hle⟩
    | failed err => trivial
  | acking => exact ⟨h.1, h.2.trans hle⟩
  | closed => trivial

/-- A record that is not beyond the tail is skipped or appended, and its stream goes on. -/
theorem Handler.inStep_receive {next off tail : ℕ} (payload : Payload) (hnext : next = off + 1)
    (hoff : off ≤ tail) :
    (Handler.receive off payload tail).InStep next tail ∧
      Handler.receive off payload tail ≠ .closed := by
  unfold Handler.receive
  split
  · exact ⟨⟨by omega, by omega⟩, by simp⟩
  · rw [if_pos (by omega)]
    exact ⟨⟨by omega, by omega⟩, by simp⟩

/-- An append that has not failed has put its record into the log. -/
theorem Handler.inStep_append {s s' : Shard} {d : Disk} {a a' : Appending} {payload : Payload}
    {next : ℕ} (h : (Handler.appending payload a).InStep next s.tail)
    (hstep : a.step s d = some (s', a')) : (Handler.appending payload a').InStep next s'.tail := by
  obtain ⟨hwrote, hnot⟩ := Appending.step_records hstep
  have hend : ∀ {k : ℕ}, 1 ≤ next → next ≤ k → k ≤ s'.tail →
      (Handler.appending payload a').InStep next s'.tail := by
    intro k hpos hnext hk
    cases a' with
    | writing payload' => exact absurd rfl (hnot payload')
    | failed err => trivial
    | committing off c => exact ⟨hpos, hnext.trans hk⟩
    | returned off => exact ⟨hpos, hnext.trans hk⟩
  cases hwrote with
  | nothing hwaiting hrecords =>
    cases a with
    | writing payload' => exact absurd rfl (hwaiting payload')
    | committing off c => exact hend h.1 h.2 (congrArg List.length hrecords).ge
    | returned off => cases hstep
    | failed err => cases hstep
  | refused payload' err hwriting hfailed hrecords =>
    subst hfailed
    trivial
  | record payload' hwriting hsize hrecords =>
    subst hwriting
    refine hend h.1 h.2 ?_
    simp [Shard.tail, hrecords]

/-- What is known of a thread: its stream is within the follower's log, and the acknowledgements on
their way rise up to the follower's tail. -/
def Thread.InStep (s : State) : Thread → Prop
  | .session _ follower cursor handler acks =>
    handler.InStep cursor.next (s.shard follower).tail ∧ acks.Pairwise (· ≤ ·) ∧
      ∀ k ∈ acks, 1 ≤ k ∧ k ≤ (s.shard follower).tail
  | _ => True

theorem Shard.Grows.tail {s s' : Shard} (h : s.Grows s') : s.tail ≤ s'.tail := h.records.length_le

theorem State.Grows.inStep {s s' : State} (h : s.Grows s') {t : Thread} (ht : t.InStep s) :
    t.InStep s' := by
  cases t with
  | session leader follower cursor handler acks =>
    have htail := (h follower).tail
    exact ⟨ht.1.mono htail, ht.2.1, fun k hk => ⟨(ht.2.2 k hk).1, (ht.2.2 k hk).2.trans htail⟩⟩
  | _ => trivial

/-- A step of a thread keeps its stream in step. -/
theorem Thread.step_inStep {s s' : State} {t t' : Thread} {c : Choice} (hs : s.Valid)
    (hvalid : t.Valid s) (ht : t.InStep s) (hstep : t.step s c = some (s', t')) :
    t'.InStep s' := by
  have hgrows := (Thread.step_spec hs hvalid hstep).grows
  unfold Thread.step at hstep
  split at hstep
  case h_1 =>
    cases hstep
    split <;> trivial
  case h_2 =>
    obtain ⟨_, _, heq⟩ := Option.map_eq_some_iff.mp hstep
    cases heq
    trivial
  case h_10 =>
    obtain ⟨⟨cursor', sent⟩, _, heq⟩ := Option.map_eq_some_iff.mp hstep
    cases sent <;> cases heq <;> trivial
  case h_11 =>
    split at hstep <;> cases hstep
    exact ⟨Nat.zero_le _, .nil, by simp⟩
  case h_12 leader follower cursor acks =>
    obtain ⟨⟨cursor', sent⟩, hc, heq⟩ := Option.map_eq_some_iff.mp hstep
    have hnext : cursor.next ≤ (s.shard follower).tail := ht.1
    rcases Cursor.next_step hc with ⟨hsent, hcursor⟩ | ⟨payload, hsent, hcursor⟩
    · cases hsent
      cases heq
      exact ⟨hcursor ▸ hnext, ht.2⟩
    · cases hsent
      cases heq
      exact ⟨⟨hcursor, hnext⟩, ht.2⟩
  case h_13 leader follower cursor off payload acks =>
    cases hstep
    exact ⟨(Handler.inStep_receive payload ht.1.1 ht.1.2).1, ht.2⟩
  case h_14 leader follower cursor payload a acks d =>
    obtain ⟨⟨sh, a'⟩, ha, heq⟩ := Option.map_eq_some_iff.mp hstep
    cases heq
    have htail := (hgrows follower).tail
    have hself : (s.setShard follower sh).shard follower = sh := by
      simp [State.shard_setShard]
    refine ⟨?_, ht.2.1, fun k hk => ⟨(ht.2.2 k hk).1, (ht.2.2 k hk).2.trans htail⟩⟩
    rw [hself]
    exact Handler.inStep_append ht.1 ha
  case h_15 =>
    cases hstep
    exact ht
  case h_16 =>
    cases hstep
    exact ⟨trivial, ht.2⟩
  case h_17 leader follower cursor acks =>
    cases hstep
    obtain ⟨⟨hpos, hnext⟩, hsorted, hacks⟩ := ht
    refine ⟨hnext, List.pairwise_append.mpr ⟨hsorted, List.pairwise_singleton .., ?_⟩, ?_⟩
    · intro k hk k' hk'
      rw [List.mem_singleton.mp hk']
      exact (hacks k hk).2
    · intro k hk
      rcases List.mem_append.mp hk with hk | hk
      · exact hacks k hk
      · rw [List.mem_singleton.mp hk]
        exact ⟨hpos.trans hnext, le_refl _⟩
  case h_18 leader follower cursor handler k acks =>
    cases hstep
    refine hgrows.inStep (t := .session leader follower cursor handler acks) ⟨ht.1, ?_, ?_⟩
    · exact (List.pairwise_cons.mp ht.2.1).2
    · exact fun k' hk' => ht.2.2 k' (List.mem_cons_of_mem k hk')
  all_goals
    (try split at hstep) <;> cases hstep <;> trivial

/-- Every stream of a reachable world is in step. -/
theorem reach_inStep {files : String → List Payload} {w : World State Thread}
    (h : cluster.Reach Guard.all (.init files) w) {t : Thread} (ht : t ∈ w.threads) :
    t.InStep w.shared := by
  have hholds : Holds State.Valid (fun s t => t.Valid s ∧ t.InStep s) (fun _ _ => True) w := by
    refine h.local_invariant (fun _ _ _ => trivial) (State.valid_init files) ?_ ?_ ?_
    · intro s r _
      refine ⟨?_, fun _ _ => trivial⟩
      cases r <;> exact ⟨trivial, trivial⟩
    · intro s t c s' t' hs ht _ hstep
      have spec := Thread.step_spec hs ht.1 hstep
      refine ⟨⟨spec.valid, spec.thread, Thread.step_inStep hs ht.1 ht.2 hstep⟩, ?_⟩
      exact fun u hu _ => ⟨⟨spec.grows.thread hu.1, spec.grows.inStep hu.2⟩, trivial⟩
    · intro s e s' hs _ hstep
      cases hstep
      have hgrows := s.grows_setLeads e.node e.leads
      refine ⟨fun n => by simpa using hs n, ?_⟩
      exact fun u hu => ⟨hgrows.thread hu.1, hgrows.inStep hu.2⟩
  exact (hholds.of_mem ht).2

/-- **A stream never finds a gap**, whatever other streams, leaders and publishers append to the
follower's log, and however calls fail: a record that has arrived is not beyond the tail, and a
handler that waits for the next one has as many records as were sent.  The acknowledgements on
their way rise, and each is of at least one record. -/
theorem replicate_in_step (files : String → List Payload) (w : World State Thread)
    (h : cluster.Reach Guard.all (.init files) w) (leader follower : String) (cursor : Cursor)
    (handler : Handler) (acks : List ℕ)
    (hsession : .session leader follower cursor handler acks ∈ w.threads) :
    (∀ off payload, handler = .received off payload →
      Handler.receive off payload (w.shared.shard follower).tail ≠ .closed) ∧
    (handler = .receiving → cursor.next ≤ (w.shared.shard follower).tail) ∧
    acks.Pairwise (· ≤ ·) ∧ ∀ k ∈ acks, 1 ≤ k ∧ k ≤ (w.shared.shard follower).tail := by
  obtain ⟨hhandler, hacks⟩ := reach_inStep h hsession
  refine ⟨?_, ?_, hacks⟩
  · rintro off payload rfl
    exact (Handler.inStep_receive payload hhandler.1 hhandler.2).2
  · rintro rfl
    exact hhandler

/-- Two nodes stream their logs to `c`: a record of `a` is appended there after the first record of
`b` has arrived, which `c` then skips. -/
def twoLeaders : List (Act Request Choice EnvStep) :=
  [.env ⟨"a", true⟩, .env ⟨"b", true⟩, .spawn (.replicate "a" "c"), .spawn (.replicate "b" "c")] ++
    goOn 0 2 ++ goOn 1 2 ++ goOn 0 1 ++ appendOn 0 ++ goOn 0 2

theorem replicate_in_step_twoLeaders :
    ∃ w, cluster.Reach Guard.all (.init fun n => if n = "c" then [] else [[1]]) w ∧
      .session "b" "c" (.backfill 1) (.received 0 [1]) [] ∈ w.threads ∧
      (w.shared.shard "c").tail = 1 ∧
      Handler.receive 0 [1] (w.shared.shard "c").tail ≠ .closed := by
  have hrun : (cluster.exec ⟨.init fun n => if n = "c" then [] else [[1]], []⟩ twoLeaders).map
      (fun w => ((w.shared.shard "c").tail, w.threads)) =
        some (1, [.session "a" "c" (.backfill 1) .receiving [1],
          .session "b" "c" (.backfill 1) (.received 0 [1]) []]) := by decide
  obtain ⟨w, hreach, hw⟩ := Program.exists_reach hrun
  obtain ⟨htail, hthreads⟩ := Prod.mk.inj hw
  have hmem : .session "b" "c" (.backfill 1) (.received 0 [1]) [] ∈ w.threads := by
    rw [hthreads]
    simp
  exact ⟨w, hreach, hmem, htail, (replicate_in_step _ w hreach _ _ _ _ _ hmem).1 0 [1] rfl⟩

end AgentBus.Cluster
