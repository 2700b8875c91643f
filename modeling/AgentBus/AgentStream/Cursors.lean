import AgentBus.AgentStream.Polling

/-!
# Cursors over growing partitions

The passes of `AgentBus.AgentStream.Polling` read a broker that stands still.  Here publishers go
on while a poller runs: a publish can come between any two fetches, also inside a pass, and rings
drop their oldest messages meanwhile.

A cursor moves past a message in one of two ways: the message is in the batch, or the ring has
dropped it before the fetch and the batch starts behind it.

## Main definitions

* `Tailing`, `Act`, `Tailing.run` — publishers and a poller, in any interleaving.
* `Fetched` — what one fetch of a pass was given.
* `Follows` — what the fetches of one partition say about the offsets below its cursor.
* `Accounts` — the same for the whole poller, with what it handed over.

## Main results

* `run_accounts` — every run is accounted for.
* `run_pass` — the fetches of a pass that no publish interrupts are `pollFrom`.
-/

namespace AgentBus.AgentStream

open Broker

variable {σ : Type}

/-- One fetch of a pass: the partition, its cursor and its head at that time, and the messages
that were examined. -/
structure Fetched where
  part : ℕ
  cursor : ℤ
  head : ℕ
  messages : List (Message (List UInt8))

/-- The cursor that a fetch leaves. -/
def Fetched.next (f : Fetched) : ℤ :=
  (f.messages.getLast?.map fun m => m.offset + 1).getD f.cursor

/-- The messages of a partition that were examined, in order. -/
def examined (fs : List Fetched) (p : ℕ) : List (Message (List UInt8)) :=
  (fs.filter fun f => decide (f.part = p)).flatMap Fetched.messages

/-- A fetch moved the cursor past an offset that was no longer in the ring. -/
def Missed (fs : List Fetched) (p : ℕ) (o : ℤ) : Prop :=
  ∃ f ∈ fs, f.part = p ∧ f.cursor ≤ o ∧ o < f.head ∧ o < f.next

/-- A poller at work: its broker, its cursors, the partition it comes to next, its consumer, and
the fetches it has made. -/
structure Tailing (σ : Type) where
  broker : Broker (List UInt8)
  cursors : List ℤ
  part : ℕ
  state : σ
  fetches : List Fetched

/-- What happens around a poller. -/
inductive Act where
  /-- `PublishToPartition`, and so `Publish`. -/
  | publishToPartition (topic : String) (partition : ℤ) (payload : List UInt8)
  /-- `PublishWithKey`. -/
  | publishWithKey (topic key : String) (payload : List UInt8)
  /-- The poller comes to its next partition, or to the end of its pass. -/
  | fetch

section Runs

variable (topic : String) (size : ℕ) (ingest : σ → Event → σ)

/-- A round of the loop over partitions.  Behind the last one the next pass starts. -/
def Tailing.fetch (d : Tailing σ) : Option (Tailing σ) :=
  match d.cursors[d.part]? with
  | none => some { d with part := 0 }
  | some c => do
      let msgs ← d.broker.fetchPartition topic d.part c size
      let pass := msgs.foldl (Pass.message ingest) ⟨c, d.state, 0⟩
      let head := ((d.broker.partition? topic d.part).map Topic.head).getD 0
      some
        { d with
          cursors := d.cursors.set d.part pass.cursor
          part := d.part + 1
          state := pass.state
          fetches := d.fetches ++ [⟨d.part, c, head, msgs⟩] }

def Tailing.step (d : Tailing σ) : Act → Option (Tailing σ)
  | .publishToPartition t p payload =>
    some { d with broker := (d.broker.publishToPartition t p payload).1 }
  | .publishWithKey t key payload =>
    some { d with broker := (d.broker.publishWithKey t key payload).1 }
  | .fetch => d.fetch topic size ingest

def Tailing.run (d : Tailing σ) (as : List Act) : Option (Tailing σ) :=
  as.foldlM (Tailing.step topic size ingest) d

end Runs

/-- Offsets, batches and cursors of a poller that has run from the state `s`. -/
structure Accounts (ingest : σ → Event → σ) (s : σ) (d : Tailing σ) : Prop where
  increasing : ∀ p, (examined d.fetches p).Pairwise fun m m' => m.offset < m'.offset
  /-- An offset that a cursor is past was examined once, or was gone when the cursor moved. -/
  accounted : ∀ p c o, d.cursors[p]? = some c → 0 ≤ o → o < c →
    ((examined d.fetches p).map Message.offset).count o = 1 ∨
      ((examined d.fetches p).map Message.offset).count o = 0 ∧ Missed d.fetches p o
  /-- The consumer was given the examined messages that are envelopes, and nothing else. -/
  ingested : d.state = (((d.fetches.flatMap Fetched.messages).map Message.payload).filterMap
    parseEvent).foldl ingest s

/-! ## One partition -/

theorem examined_concat (fs : List Fetched) (f : Fetched) (p : ℕ) :
    examined (fs ++ [f]) p = examined fs p ++ if f.part = p then f.messages else [] := by
  by_cases h : f.part = p <;> simp [examined, h]

theorem Missed.concat {fs : List Fetched} {p : ℕ} {o : ℤ} (h : Missed fs p o) (f : Fetched) :
    Missed (fs ++ [f]) p o := by
  obtain ⟨g, hg, hrest⟩ := h
  exact ⟨g, List.mem_append_left _ hg, hrest⟩

/-- A message of the log lies in every stretch that covers its offset. -/
theorem exists_mem_stretch {α : Type} {ps : List α} {lo n : ℕ} {o : ℤ} (hlo : lo ≤ o)
    (hn : o < lo + n) (hlen : o < ps.length) :
    ∃ m ∈ ((Topic.log ps).drop lo).take n, m.offset = o := by
  obtain ⟨i, rfl⟩ := Int.eq_ofNat_of_zero_le (show 0 ≤ o by omega)
  have hi : i < ps.length := by omega
  refine ⟨⟨i, ps[i]⟩, List.mem_iff_getElem?.mpr ⟨i - lo, ?_⟩, rfl⟩
  rw [List.getElem?_take, if_pos (by omega), List.getElem?_drop, Nat.add_sub_cancel' (by omega),
    Topic.getElem?_log, List.getElem?_eq_getElem hi]
  rfl

/-- The fetches of partition `p`, its history and its cursor agree. -/
structure Follows (fs : List Fetched) (p : ℕ) (ps : List (List UInt8)) (c : ℤ) : Prop where
  nonneg : 0 ≤ c
  published : ∀ m ∈ examined fs p, m ∈ Topic.log ps
  below : ∀ m ∈ examined fs p, m.offset < c
  increasing : (examined fs p).Pairwise fun m m' => m.offset < m'.offset
  accounted : ∀ o, 0 ≤ o → o < c → (∃ m ∈ examined fs p, m.offset = o) ∨ Missed fs p o

namespace Follows

variable {fs : List Fetched} {p : ℕ} {ps : List (List UInt8)} {c : ℤ}

theorem start (p : ℕ) : Follows [] p [] 0 := by
  constructor <;> simp [examined]
  omega

theorem publish (h : Follows fs p ps c) (payload : List UInt8) :
    Follows fs p (ps ++ [payload]) c := by
  refine { h with published := fun m hm => ?_ }
  rw [Topic.log_concat]
  exact List.mem_append_left _ (h.published m hm)

theorem other (h : Follows fs p ps c) {f : Fetched} (hf : f.part ≠ p) :
    Follows (fs ++ [f]) p ps c := by
  have hsame : examined (fs ++ [f]) p = examined fs p := by simp [examined_concat, hf]
  constructor
  · exact h.nonneg
  · rw [hsame]
    exact h.published
  · rw [hsame]
    exact h.below
  · rw [hsame]
    exact h.increasing
  · rw [hsame]
    intro o h0 hc
    exact (h.accounted o h0 hc).imp id fun hmissed => hmissed.concat f

/-- **A batch goes on where the cursor stands**, or at the head when the ring has dropped
messages behind the cursor. -/
theorem fetch (h : Follows fs p ps c) (head size : ℕ) {f : Fetched}
    (hf : f = ⟨p, c, head, ((Topic.log ps).drop (max c head).toNat).take size⟩) :
    Follows (fs ++ [f]) p ps f.next := by
  have hc := h.nonneg
  obtain ⟨lo, hlo⟩ : ∃ lo : ℕ, max c head = lo :=
    Int.eq_ofNat_of_zero_le (hc.trans (le_max_left _ _))
  rw [hlo, Int.toNat_natCast] at hf
  have hexamined : examined (fs ++ [f]) p =
      examined fs p ++ ((Topic.log ps).drop lo).take size := by
    rw [examined_concat, hf, if_pos rfl]
  have hnext : f.next =
      if min size (ps.length - lo) = 0 then c else lo + (min size (ps.length - lo) : ℕ) := by
    rw [hf]
    exact next_offset_log ps lo size c
  -- The messages of the batch lie between the place it starts at and the new cursor.
  have hbatch : ∀ m ∈ ((Topic.log ps).drop lo).take size, lo ≤ m.offset ∧ m.offset < f.next := by
    intro m hm
    rw [List.take_eq_take_min, List.length_drop, Topic.length_log] at hm
    have hrange := Topic.offset_of_mem_drop_log hm
    rw [hnext]
    split <;> omega
  have hmove : c ≤ f.next := by
    rw [hnext]
    split <;> omega
  constructor
  · exact hc.trans hmove
  · rw [hexamined]
    intro m hm
    rcases List.mem_append.mp hm with hold | hnew
    · exact h.published m hold
    · exact List.mem_of_mem_drop (List.mem_of_mem_take hnew)
  · rw [hexamined]
    intro m hm
    rcases List.mem_append.mp hm with hold | hnew
    · exact (h.below m hold).trans_le hmove
    · exact (hbatch m hnew).2
  · rw [hexamined, List.pairwise_append]
    refine ⟨h.increasing, ((Topic.pairwise_log ps).drop).take, ?_⟩
    intro m hm m' hm'
    have hbelow := h.below m hm
    have hfrom := (hbatch m' hm').1
    omega
  · rw [hexamined]
    intro o h0 ho
    by_cases hold : o < c
    · rcases h.accounted o h0 hold with ⟨m, hm, hmo⟩ | hmissed
      · exact Or.inl ⟨m, List.mem_append_left _ hm, hmo⟩
      · exact Or.inr (hmissed.concat f)
    · by_cases hhead : o < head
      · refine Or.inr ⟨f, by simp, ?_⟩
        rw [hf] at ho ⊢
        exact ⟨rfl, not_lt.mp hold, hhead, ho⟩
      · rw [hnext] at ho
        split at ho
        · omega
        · have hlen : o < ps.length := by omega
          obtain ⟨m, hm, hmo⟩ : ∃ m ∈ ((Topic.log ps).drop lo).take size, m.offset = o :=
            exists_mem_stretch (by omega) (by omega) hlen
          exact Or.inl ⟨m, List.mem_append_right _ hm, hmo⟩

end Follows

/-! ## Whole runs -/

/-- The state of a poller that has run from the state `s`, over the histories of the topic. -/
structure Tailing.Sound (topic : String) (n : ℕ) (ingest : σ → Event → σ) (s : σ)
    (view : ℕ → List (List UInt8)) (d : Tailing σ) : Prop where
  holds : d.broker.Holds topic n view
  count : d.cursors.length = n
  follows : ∀ p c, d.cursors[p]? = some c → Follows d.fetches p (view p) c
  idle : ∀ p, n ≤ p → examined d.fetches p = []
  ingested : d.state = (((d.fetches.flatMap Fetched.messages).map Message.payload).filterMap
    parseEvent).foldl ingest s

namespace Tailing.Sound

variable {topic : String} {n : ℕ} {ingest : σ → Event → σ} {s : σ} {view : ℕ → List (List UInt8)}
  {d : Tailing σ}

theorem accounts (h : d.Sound topic n ingest s view) : Accounts ingest s d where
  increasing p := by
    by_cases hp : p < n
    · exact (h.follows p _ (List.getElem?_eq_getElem (h.count ▸ hp))).increasing
    · rw [h.idle p (not_lt.mp hp)]
      exact List.Pairwise.nil
  accounted p c o hc h0 ho := by
    have hp := h.follows p c hc
    have hnodup : ((examined d.fetches p).map Message.offset).Nodup :=
      List.pairwise_map.mpr (hp.increasing.imp fun hlt => hlt.ne)
    by_cases hex : o ∈ (examined d.fetches p).map Message.offset
    · exact Or.inl (List.count_eq_one_of_mem hnodup hex)
    · refine Or.inr ⟨List.count_eq_zero.mpr hex, ?_⟩
      exact (hp.accounted o h0 ho).resolve_left fun hm => hex (List.mem_map.mpr hm)
  ingested := h.ingested

/-- A publish makes one history longer, or none. -/
theorem publishToPartition (h : d.Sound topic n ingest s view) (t : String) (partition : ℤ)
    (payload : List UInt8) :
    ∃ view', { d with broker := (d.broker.publishToPartition t partition payload).1 }.Sound topic n
      ingest s view' := by
  by_cases ht : t = topic
  · subst ht
    by_cases hp : 0 ≤ partition ∧ partition < n
    · obtain ⟨p, rfl⟩ := Int.eq_ofNat_of_zero_le hp.1
      refine ⟨_, { h with
        holds := (h.holds.publishToPartition (by omega) payload).2.2
        follows := fun q c hc => ?_ }⟩
      by_cases hq : q = p
      · subst hq
        rw [Function.update_self]
        exact (h.follows q c hc).publish payload
      · rw [Function.update_of_ne hq]
        exact h.follows q c hc
    · exact ⟨view, { h with holds := (h.holds.publishToPartition_refused hp payload).2 }⟩
  · refine ⟨view, { h with holds := h.holds.frame (by simp) ?_ }⟩
    exact Broker.topics_publishToPartition_of_ne d.broker (Ne.symm ht) partition payload

theorem routeKey (h : d.Sound topic n ingest s view) (hn : 0 < n) (t key : String) :
    { d with broker := (d.broker.routeKey t key).1 }.Sound topic n ingest s view := by
  refine { h with holds := ?_ }
  by_cases ht : t = topic
  · subst ht
    exact (h.holds.routeKey hn key).2
  · exact h.holds.frame rfl (Function.update_of_ne (Ne.symm ht) _ _)

/-- A fetch follows the history of its partition. -/
theorem fetch (h : d.Sound topic n ingest s view) (size : ℕ) :
    ∃ d', d.fetch topic size ingest = some d' ∧ d'.Sound topic n ingest s view := by
  unfold Tailing.fetch
  cases hcursor : d.cursors[d.part]? with
  | none => exact ⟨_, rfl, { h with }⟩
  | some c =>
    have hlt := (List.getElem?_eq_some_iff.mp hcursor).1
    have hp : d.part < n := h.count ▸ hlt
    obtain ⟨t, ht, hcap, hrep⟩ := h.holds.partition hp
    have hbatch := h.holds.fetchPartition hp c (Int.natCast_nonneg size)
    rw [← hcap, ← hrep.head, Int.toNat_natCast] at hbatch
    have hfetched := (h.follows d.part c hcursor).fetch t.head size rfl
    simp only [hbatch, ht, Option.map_some, Option.getD_some, Option.bind_eq_bind,
      Option.bind_some]
    refine ⟨_, rfl, h.holds, ?_, ?_, ?_, ?_⟩
    · simpa using h.count
    · intro q e he
      by_cases hq : q = d.part
      · subst hq
        rw [List.getElem?_set_self hlt, Option.some_inj, cursor_foldl_message] at he
        rw [← he]
        exact hfetched
      · rw [List.getElem?_set_ne (Ne.symm hq)] at he
        exact (h.follows q e he).other (Ne.symm hq)
    · intro q hq
      have hne : d.part ≠ q := by omega
      simp [examined_concat, hne, h.idle q hq]
    · simp [state_foldl_message, h.ingested]

theorem step (h : d.Sound topic n ingest s view) (hn : 0 < n) (size : ℕ) (a : Act) :
    ∃ d' view', d.step topic size ingest a = some d' ∧ d'.Sound topic n ingest s view' := by
  cases a with
  | publishToPartition t partition payload =>
    obtain ⟨view', h'⟩ := h.publishToPartition t partition payload
    exact ⟨_, view', rfl, h'⟩
  | publishWithKey t key payload =>
    obtain ⟨view', h'⟩ :=
      (h.routeKey hn t key).publishToPartition t (d.broker.routeKey t key).2 payload
    exact ⟨_, view', rfl, h'⟩
  | fetch =>
    obtain ⟨d', hd', h'⟩ := h.fetch size
    exact ⟨d', view, hd', h'⟩

theorem run (h : d.Sound topic n ingest s view) (hn : 0 < n) (size : ℕ) (as : List Act) :
    ∃ d' view', d.run topic size ingest as = some d' ∧ d'.Sound topic n ingest s view' := by
  induction as generalizing d view with
  | nil => exact ⟨d, view, rfl, h⟩
  | cons a as ih =>
    obtain ⟨d', view', hstep, h'⟩ := h.step hn size a
    obtain ⟨d'', view'', hrun, h''⟩ := ih h'
    refine ⟨d'', view'', ?_, h''⟩
    rw [Tailing.run, List.foldlM_cons, hstep]
    exact hrun

end Tailing.Sound

/-- `NewPoller`, with the broker and the cursors it makes. -/
def Tailing.start (poller : Broker (List UInt8) × List ℤ) (s : σ) : Tailing σ :=
  ⟨poller.1, poller.2, 0, s, []⟩

theorem sound_start {topic : String} {n : ℕ} {b : Broker (List UInt8)}
    (hb : b.Holds topic n fun _ => []) (ingest : σ → Event → σ) (s : σ) :
    (Tailing.start (b, List.replicate n 0) s).Sound topic n ingest s fun _ => [] where
  holds := hb
  count := List.length_replicate
  follows p c hc := by
    obtain ⟨-, rfl⟩ := List.mem_replicate.mp (List.mem_of_getElem? hc)
    exact Follows.start p
  idle _ _ := rfl
  ingested := rfl

/-- **Every run is accounted for**, whatever the capacity, the number of partitions and the
interleaving. -/
theorem run_accounts (topic : String) (size : ℕ) (ingest : σ → Event → σ) (capacity n : ℕ) (s : σ)
    (as : List Act) :
    let b := (Broker.new capacity).ensureTopic topic n
    ∃ d, (Tailing.start (b, List.replicate (b.partitionCount topic) 0) s).run topic size ingest
      as = some d ∧ Accounts ingest s d := by
  have habsent : (Broker.new capacity : Broker (List UInt8)).topics topic = none := rfl
  obtain ⟨n', hpos, hcount, hholds⟩ := Broker.holds_ensureTopic habsent n
  dsimp only
  rw [hcount]
  obtain ⟨d, view, hrun, hd⟩ := (sound_start hholds ingest s).run hpos size as
  exact ⟨d, hrun, hd.accounts⟩

/-- **A pass that no publish interrupts** is the loop over the cursors that are left. -/
theorem run_pass (topic : String) (size : ℕ) (ingest : σ → Event → σ) (before cs : List ℤ)
    (d : Tailing σ) (hcursors : d.cursors = before ++ cs) (hpart : d.part = before.length) :
    (d.run topic size ingest (List.replicate cs.length .fetch)).map
        (fun d' => (d'.cursors, d'.state)) =
      (pollFrom topic size ingest d.broker d.part cs d.state).map
        fun r => (before ++ r.1, r.2.1) := by
  induction cs generalizing before d with
  | nil => simp [Tailing.run, pollFrom, hcursors]
  | cons c cs ih =>
    have hcursor : d.cursors[d.part]? = some c := by simp [hcursors, hpart]
    rw [List.length_cons, List.replicate_succ, Tailing.run, List.foldlM_cons]
    simp only [Tailing.step, Tailing.fetch, hcursor, pollFrom]
    cases hmsgs : d.broker.fetchPartition topic d.part c size with
    | none => rfl
    | some msgs =>
      -- What is left of the pass runs with one cursor more behind it.
      simp only [Option.bind_eq_bind, Option.bind_some]
      refine (ih (before ++ [(msgs.foldl (Pass.message ingest) ⟨c, d.state, 0⟩).cursor]) _
        (by simp [hcursors, hpart]) (by simp [hpart])).trans ?_
      cases pollFrom topic size ingest d.broker (d.part + 1) cs
        (msgs.foldl (Pass.message ingest) ⟨c, d.state, 0⟩).state <;> simp

end AgentBus.AgentStream
