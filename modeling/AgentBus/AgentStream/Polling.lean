import AgentBus.AgentStream.Codec
import AgentBus.Broker.Broker
import Mathlib.Data.List.Induction

/-!
# Polling a topic for envelopes

The pollers of `internal/workflow` and `internal/controlplane` have the same loops: a cursor per
partition, and passes that fetch a batch from each partition in turn and hand the envelopes they
find to a consumer.  Here the topic, the size of a batch and the consumer are parameters.

What the passes see of a partition is what its ring still holds, a batch at a time; so they hand
over the events of each partition in order, whatever the order across partitions (`poll_spec`).

## Main definitions

* `Pass`, `pollFrom`, `poll` — passes over the partitions.
* `retained`, `ofPartition` — what a ring still holds, and the events of a partition.
* `poll_spec` — what the passes have handed over.
* `Reads` — passes that have handed over a list of events, in some order across keys.
-/

namespace AgentBus.AgentStream

open Broker

variable {σ : Type}

/-- The state of a pass: the cursor of the partition in hand, the consumer, and how many envelopes
it was given. -/
structure Pass (σ : Type) where
  cursor : ℤ
  state : σ
  ingested : ℕ

/-- One message: it is handed over if it is an envelope, and the cursor moves past it. -/
def Pass.message (ingest : σ → Event → σ) (d : Pass σ) (m : Message (List UInt8)) : Pass σ :=
  match parseEvent m.payload with
  | some e => ⟨m.offset + 1, ingest d.state e, d.ingested + 1⟩
  | none => ⟨m.offset + 1, d.state, d.ingested⟩

section Passes

variable (topic : String) (size : ℕ) (ingest : σ → Event → σ) (b : Broker (List UInt8))

/-- A pass from partition `part` on, over the cursors that are left. -/
def pollFrom : ℕ → List ℤ → σ → Option (List ℤ × σ × ℕ)
  | _, [], s => some ([], s, 0)
  | part, c :: cs, s => do
      let msgs ← b.fetchPartition topic part c size
      let d := msgs.foldl (Pass.message ingest) ⟨c, s, 0⟩
      let (cs, s, n) ← pollFrom (part + 1) cs d.state
      some (d.cursor :: cs, s, d.ingested + n)

/-- The cursors and the consumer after `n` passes. -/
def poll : ℕ → List ℤ × σ → Option (List ℤ × σ)
  | 0, d => some d
  | n + 1, d => do
      let (cs, s) ← poll n d
      let (cs, s, _) ← pollFrom topic size ingest b 0 cs s
      some (cs, s)

end Passes

/-! ## One batch -/

variable (ingest : σ → Event → σ)

theorem state_foldl_message (msgs : List (Message (List UInt8))) (d : Pass σ) :
    (msgs.foldl (Pass.message ingest) d).state =
      ((msgs.map Message.payload).filterMap parseEvent).foldl ingest d.state := by
  induction msgs generalizing d with
  | nil => rfl
  | cons m msgs ih =>
    rw [List.foldl_cons, ih]
    cases hm : parseEvent m.payload with
    | none => simp [Pass.message, hm]
    | some e => simp [Pass.message, hm]

theorem cursor_foldl_message (msgs : List (Message (List UInt8))) (d : Pass σ) :
    (msgs.foldl (Pass.message ingest) d).cursor =
      (msgs.getLast?.map fun m => m.offset + 1).getD d.cursor := by
  induction msgs using List.reverseRecOn with
  | nil => rfl
  | append_singleton msgs m _ =>
    rw [List.foldl_append, List.getLast?_append]
    cases hm : parseEvent m.payload <;> simp [Pass.message, hm]

/-- What a ring of `capacity` still holds of its history. -/
def retained {α : Type} (capacity : ℕ) (ps : List α) : List α := ps.drop (ps.length - capacity)

/-- The events of partition `p` of `n`. -/
def ofPartition (n p : ℕ) (es : List Event) : List Event :=
  es.filter fun e => keyPartition n e.key = p

@[simp] theorem map_payload_log {α : Type} (ps : List α) :
    (Topic.log ps).map Message.payload = ps := by
  apply List.ext_getElem?
  intro i
  rw [List.getElem?_map, Topic.getElem?_log, Option.map_map]
  simp [Function.comp_def]

/-- Where a batch of the log ends. -/
theorem next_offset_log {α : Type} (ps : List α) (lo n : ℕ) (c : ℤ) :
    ((((Topic.log ps).drop lo).take n).getLast?.map fun m => m.offset + 1).getD c =
      if min n (ps.length - lo) = 0 then c else lo + (min n (ps.length - lo) : ℕ) := by
  have hlen : (((Topic.log ps).drop lo).take n).length = min n (ps.length - lo) := by simp
  rw [List.getLast?_eq_getElem?, hlen]
  split
  · rename_i h0
    rw [List.getElem?_eq_none (by omega)]
    rfl
  · rename_i hpos
    rw [List.getElem?_take, if_pos (by omega), List.getElem?_drop, Topic.getElem?_log,
      List.getElem?_eq_getElem (by omega)]
    simp only [Option.map_some, Option.getD_some]
    omega

/-- Dropping more of what a ring holds than there is drops all of it. -/
theorem drop_min {α : Type} (cap k : ℕ) (ps : List α) :
    ps.drop (ps.length - cap + min k (retained cap ps).length) =
      ps.drop (ps.length - cap + k) := by
  rw [retained, List.length_drop]
  rcases Nat.le_total k (ps.length - (ps.length - cap)) with hk | hk
  · rw [min_eq_left hk]
  · rw [min_eq_right hk, List.drop_eq_nil_of_le (by omega), List.drop_eq_nil_of_le (by omega)]

section Batches

variable (size : ℕ) (b : Broker (List UInt8)) (view : ℕ → List (List UInt8))

/-- A cursor after `n` batches of partition `p`: the next batch starts where they end. -/
def At (n p : ℕ) (c : ℤ) : Prop :=
  max c ((view p).length - ringCapacity b.capacity : ℕ) =
    ((view p).length - ringCapacity b.capacity : ℕ) +
      (min (size * n) (retained (ringCapacity b.capacity) (view p)).length : ℕ)

/-- The envelopes of batch `n` of partition `p`. -/
def batch (n p : ℕ) : List Event :=
  (((retained (ringCapacity b.capacity) (view p)).drop (size * n)).take size).filterMap parseEvent

/-- The events that were read of partition `p`. -/
def readOf (p : ℕ) (read : List (ℕ × Event)) : List Event :=
  (read.filter fun r => r.1 = p).map Prod.snd

theorem readOf_append (p : ℕ) (read read' : List (ℕ × Event)) :
    readOf p (read ++ read') = readOf p read ++ readOf p read' := by
  simp [readOf]

theorem readOf_labelled (p q : ℕ) (es : List Event) :
    readOf p (es.map fun e => (q, e)) = if p = q then es else [] := by
  by_cases hp : p = q
  · simp [readOf, List.filter_map, Function.comp_def, hp]
  · simp [readOf, List.filter_map, Function.comp_def, hp, Ne.symm hp]

variable {size b view} {topic : String} (h : b.Shows topic view) (hsize : 0 < size)
include h hsize

/-- **A fetch from where the batches so far end is the next batch.** -/
theorem fetch_batch {n p : ℕ} (hp : p < defaultTopicPartitions) {c : ℤ}
    (hc : At size b view n p c) :
    ∃ msgs, b.fetchPartition topic p c size = some msgs ∧
      (msgs.map Message.payload).filterMap parseEvent = batch size b view n p ∧
      At size b view (n + 1) p ((msgs.getLast?.map fun m => m.offset + 1).getD c) := by
  refine ⟨_, h.fetchPartition hp c (Int.natCast_nonneg size), ?_, ?_⟩
  · rw [hc, ← Nat.cast_add, Int.toNat_natCast, Int.toNat_natCast, List.map_take, List.map_drop,
      map_payload_log, drop_min, batch, retained, List.drop_drop]
  · rw [next_offset_log]
    unfold At at hc ⊢
    rw [hc, ← Nat.cast_add, Int.toNat_natCast, Int.toNat_natCast]
    simp only [retained, List.length_drop, Nat.mul_succ] at hc ⊢
    generalize size * n = k at hc ⊢
    split <;> omega

/-! ## Passes -/

/-- A pass hands over the next batch of every partition it visits. -/
theorem pollFrom_spec {n : ℕ} (cs : List ℤ) (part : ℕ) (s : σ)
    (hlen : part + cs.length ≤ defaultTopicPartitions)
    (hat : ∀ i c, cs[i]? = some c → At size b view n (part + i) c) :
    ∃ cs' read k, pollFrom topic size ingest b part cs s =
        some (cs', (read.map Prod.snd).foldl ingest s, k) ∧
      cs'.length = cs.length ∧ (∀ i c, cs'[i]? = some c → At size b view (n + 1) (part + i) c) ∧
      ∀ p, readOf p read =
        if part ≤ p ∧ p < part + cs.length then batch size b view n p else [] := by
  induction cs generalizing part s with
  | nil =>
    refine ⟨[], [], 0, rfl, rfl, by simp, ?_⟩
    intro p
    rw [if_neg (by simp only [List.length_nil]; omega)]
    rfl
  | cons c cs ih =>
    rw [List.length_cons] at hlen
    have hpart : part < defaultTopicPartitions := by omega
    obtain ⟨msgs, hmsgs, hbatch, hnext⟩ := fetch_batch h hsize hpart (hat 0 c rfl)
    have hstate := state_foldl_message ingest msgs ⟨c, s, 0⟩
    have hcursor := cursor_foldl_message ingest msgs ⟨c, s, 0⟩
    rw [hbatch] at hstate
    generalize hd : msgs.foldl (Pass.message ingest) ⟨c, s, 0⟩ = d at hstate hcursor
    obtain ⟨cs', read, k, hpoll, hlen', hat', hread⟩ := ih (part + 1)
      ((batch size b view n part).foldl ingest s) (by omega) (by
        intro i c' hc'
        have := hat (i + 1) c' hc'
        rwa [← Nat.add_assoc, Nat.add_right_comm] at this)
    refine ⟨d.cursor :: cs', (batch size b view n part).map (fun e => (part, e)) ++ read,
      d.ingested + k, ?_, by simp [hlen'], ?_, ?_⟩
    · simp only [pollFrom, hmsgs, Option.bind_eq_bind, Option.bind_some, hd, hstate, hpoll,
        List.map_append, List.foldl_append, List.map_map, Function.comp_def, List.map_id']
    · intro i c' hc'
      cases i with
      | zero =>
        cases hc'
        rw [hcursor]
        exact hnext
      | succ i =>
        have := hat' i c' hc'
        rwa [Nat.add_right_comm, Nat.add_assoc] at this
    · intro p
      rw [readOf_append, readOf_labelled, hread, List.length_cons]
      by_cases hp : p = part
      · subst hp
        rw [if_pos rfl, if_neg (by omega), if_pos (by omega), List.append_nil]
      · rw [if_neg hp, List.nil_append]
        exact if_congr (by omega) rfl rfl

/-- What `n` passes have read: of every partition the first `n` batches of what its ring holds. -/
theorem poll_read (n : ℕ) (s : σ) :
    ∃ (cs : List ℤ) (read : List (ℕ × Event)),
      poll topic size ingest b n (List.replicate defaultTopicPartitions 0, s) =
        some (cs, (read.map Prod.snd).foldl ingest s) ∧
      cs.length = defaultTopicPartitions ∧ (∀ p c, cs[p]? = some c → At size b view n p c) ∧
      ∀ p, readOf p read = if p < defaultTopicPartitions then
        ((retained (ringCapacity b.capacity) (view p)).take (size * n)).filterMap parseEvent
        else [] := by
  induction n with
  | zero =>
    refine ⟨_, [], rfl, by simp, ?_, by simp [readOf]⟩
    intro p c hc
    obtain ⟨-, rfl⟩ := List.mem_replicate.mp (List.mem_of_getElem? hc)
    simp [At]
  | succ n ih =>
    obtain ⟨cs, read, hpoll, hlen, hat, hread⟩ := ih
    obtain ⟨cs', read', k, hpass, hlen', hat', hread'⟩ := pollFrom_spec ingest h hsize cs 0
      ((read.map Prod.snd).foldl ingest s) (by omega) (by simpa using hat)
    refine ⟨cs', read ++ read', ?_, hlen'.trans hlen, by simpa using hat', ?_⟩
    · simp only [poll, hpoll, Option.bind_eq_bind, Option.bind_some, hpass, List.map_append,
        List.foldl_append]
    · intro p
      rw [readOf_append, hread p, hread' p]
      by_cases hp : p < defaultTopicPartitions
      · rw [if_pos hp, if_pos (by omega), if_pos hp, batch, Nat.mul_succ, List.take_add,
          List.filterMap_append]
      · rw [if_neg hp, if_neg (by omega), if_neg hp, List.append_nil]

/-- **What `n` passes have handed over**, of a topic whose events were routed by their keys: of
every partition the first `n` batches of what its ring holds, in order. -/
theorem poll_spec
    (hroute : ∀ p < defaultTopicPartitions, ∀ e ∈ (view p).filterMap parseEvent,
      keyPartition defaultTopicPartitions e.key = p) (n : ℕ) (s : σ) :
    ∃ (cs : List ℤ) (es : List Event),
      poll topic size ingest b n (List.replicate defaultTopicPartitions 0, s) =
        some (cs, es.foldl ingest s) ∧
      ∀ p < defaultTopicPartitions,
        ofPartition defaultTopicPartitions p es =
          ((retained (ringCapacity b.capacity) (view p)).take (size * n)).filterMap parseEvent := by
  obtain ⟨cs, read, hpoll, -, -, hread⟩ := poll_read ingest h hsize n s
  -- An event was read of the partition its key is routed to.
  have hlabel : ∀ r ∈ read, keyPartition defaultTopicPartitions r.2.key = r.1 := by
    intro r hr
    have hmem : r.2 ∈ readOf r.1 read :=
      List.mem_map_of_mem (List.mem_filter.mpr ⟨hr, by simp⟩)
    rw [hread] at hmem
    split at hmem
    · rename_i hp
      obtain ⟨payload, hpayload, hparse⟩ := List.mem_filterMap.mp hmem
      refine hroute r.1 hp r.2 (List.mem_filterMap.mpr ⟨payload, ?_, hparse⟩)
      exact List.mem_of_mem_drop (List.mem_of_mem_take hpayload)
    · cases hmem
  refine ⟨cs, read.map Prod.snd, hpoll, ?_⟩
  intro p hp
  have hsame : ofPartition defaultTopicPartitions p (read.map Prod.snd) = readOf p read := by
    rw [readOf, ofPartition, List.filter_map]
    refine congrArg _ (List.filter_congr fun r hr => ?_)
    rw [Function.comp_apply, hlabel r hr]
  rw [hsame, hread p, if_pos hp]

end Batches

/-- The events of a key are among those of its partition. -/
theorem filter_key_partition (k : String) (es : List Event) :
    ((ofPartition defaultTopicPartitions (keyPartition defaultTopicPartitions k) es).filter
        fun e => e.key = k) = es.filter fun e => e.key = k := by
  rw [ofPartition, List.filter_filter]
  apply List.filter_congr
  intro e _
  by_cases hk : e.key = k <;> simp [hk]

/-- The order of two events of different keys does not matter to any key. -/
theorem filter_key_swap {e e' : Event} (hne : e.key ≠ e'.key) (k : String) :
    ([e, e'].filter fun e => e.key = k) = [e', e].filter fun e => e.key = k := by
  by_cases he : e.key = k
  · have he' : e'.key ≠ k := fun h => hne (he.trans h.symm)
    simp [he, he']
  · simp [List.filter_cons, he]

/-! ## Topics that were published to -/

/-- The broker after the texts of events were published in order, each under the key of its
event. -/
def publishAll (topic : String) (b : Broker (List UInt8)) (ms : List (Event × List UInt8)) :
    Broker (List UInt8) :=
  ms.foldl (fun b m =>
    let r := b.routeKey topic m.1.key
    (r.1.publishToPartition topic r.2 m.2).1) b

/-- The texts published to partition `p`. -/
def textsOf (ms : List (Event × List UInt8)) (p : ℕ) : List (List UInt8) :=
  (ms.filter fun m => keyPartition defaultTopicPartitions m.1.key = p).map Prod.snd

/-- An event that is complete is read back from its text. -/
theorem parseEvent_text {e : Event} (hback : e.Complete) (hvalid : e.validate.isOk = true) :
    parseEvent ((e.marshal 0).toOption.getD []) = some e := by
  cases hv : e.validate with
  | error msg =>
    rw [hv] at hvalid
    cases hvalid
  | ok u =>
    have hbs : e.marshal 0 = .ok (Utf8.encode (Json.print (.obj e.fields))) := by
      rw [Event.marshal, hback.withDefaults, hv]
    rw [hbs]
    exact (parseEvent_marshal hback hbs).2

theorem shows_publishAll (topic : String) (ms : List (Event × List UInt8))
    {b : Broker (List UInt8)} {view : ℕ → List (List UInt8)} (h : b.Shows topic view) :
    (publishAll topic b ms).capacity = b.capacity ∧
      (publishAll topic b ms).Shows topic fun p => view p ++ textsOf ms p := by
  induction ms generalizing b view with
  | nil => exact ⟨rfl, h.congr fun p _ => (List.append_nil _).symm⟩
  | cons m ms ih =>
    have hlt := keyPartition_lt (by decide : 0 < defaultTopicPartitions) m.1.key
    have hkey : m.1.key ≠ "" := sessionKey_ne _ _ _
    obtain ⟨hroute, hcap, hshows⟩ := h.routeKey_of_ne hkey
    obtain ⟨-, hcap', hshows'⟩ := hshows.publishToPartition hlt m.2
    rw [← hroute] at hcap' hshows'
    obtain ⟨hcap'', hshows''⟩ := ih hshows'
    refine ⟨hcap''.trans (hcap'.trans hcap), hshows''.congr ?_⟩
    intro p _
    by_cases hp : p = (b.routeKey topic m.1.key).2
    · rw [hp, Function.update_self, List.append_assoc, hroute]
      simp [textsOf]
    · rw [Function.update_of_ne hp]
      rw [hroute] at hp
      simp [textsOf, Ne.symm hp]

theorem filterMap_textsOf {ms : List (Event × List UInt8)}
    (hparse : ∀ m ∈ ms, parseEvent m.2 = some m.1) (p : ℕ) :
    (textsOf ms p).filterMap parseEvent =
      ofPartition defaultTopicPartitions p (ms.map Prod.fst) := by
  induction ms with
  | nil => rfl
  | cons m ms ih =>
    have htail := ih fun m' hm' => hparse m' (List.mem_cons_of_mem _ hm')
    have hhead := hparse m List.mem_cons_self
    by_cases hp : keyPartition defaultTopicPartitions m.1.key = p
    · simpa [textsOf, ofPartition, hp, hhead] using htail
    · simpa [textsOf, ofPartition, hp] using htail

/-- `n` passes over a topic, whose events were routed by their keys, have read `es` in some order:
of every partition what `es` has of it. -/
structure Reads (topic : String) (size : ℕ) (b : Broker (List UInt8)) (n : ℕ)
    (view : ℕ → List (List UInt8)) (es : List Event) : Prop where
  shown : b.Shows topic view
  routed : ∀ p < defaultTopicPartitions, ∀ e ∈ (view p).filterMap parseEvent,
    keyPartition defaultTopicPartitions e.key = p
  read : ∀ p < defaultTopicPartitions,
    ((retained (ringCapacity b.capacity) (view p)).take (size * n)).filterMap parseEvent =
      ofPartition defaultTopicPartitions p es

/-- Over a fresh broker, on which a log was published and whose rings have dropped nothing of it,
enough passes read the log. -/
theorem reads_publishAll (topic : String) (size capacity : ℕ)
    {ms : List (Event × List UInt8)} (hparse : ∀ m ∈ ms, parseEvent m.2 = some m.1)
    (hcap : ms.length ≤ ringCapacity capacity) {n : ℕ} (hn : ms.length ≤ size * n) :
    Reads topic size (publishAll topic (Broker.new capacity) ms) n (textsOf ms)
      (ms.map Prod.fst) := by
  obtain ⟨hcapacity, hshows⟩ := shows_publishAll topic ms (Broker.shows_new capacity topic)
  refine ⟨hshows, ?_, ?_⟩
  · intro p _ e he
    rw [filterMap_textsOf hparse] at he
    simpa using List.of_mem_filter he
  · intro p _
    have hlen : (textsOf ms p).length ≤ ms.length := by
      rw [textsOf, List.length_map]
      exact List.length_filter_le ..
    have hall : retained (ringCapacity (publishAll topic (Broker.new capacity) ms).capacity)
        (textsOf ms p) = textsOf ms p := by
      have hroom : (textsOf ms p).length ≤
          ringCapacity (publishAll topic (Broker.new capacity) ms).capacity := by
        rw [hcapacity]
        exact hlen.trans hcap
      rw [retained, Nat.sub_eq_zero_of_le hroom, List.drop_zero]
    rw [hall, List.take_of_length_le (hlen.trans hn), filterMap_textsOf hparse]

/-- A broker to which events were published, and which has dropped none of them. -/
theorem exists_reads (topic : String) (size capacity n : ℕ) {es : List Event}
    (hes : ∀ e ∈ es, e.Complete ∧ e.validate.isOk = true)
    (hcap : es.length ≤ ringCapacity capacity) (hn : es.length ≤ size * n) :
    ∃ b view, Reads topic size b n view es := by
  have htexts : ∀ m ∈ es.map fun e => (e, (e.marshal 0).toOption.getD []),
      parseEvent m.2 = some m.1 := by
    intro m hm
    obtain ⟨e, he, rfl⟩ := List.mem_map.mp hm
    dsimp only
    exact parseEvent_text (hes e he).1 (hes e he).2
  have hreads := reads_publishAll topic size capacity htexts (by rwa [List.length_map])
    (by rwa [List.length_map])
  have hfst : (es.map fun e => (e, (e.marshal 0).toOption.getD [])).map Prod.fst = es := by
    simp [Function.comp_def]
  rw [hfst] at hreads
  exact ⟨_, _, hreads⟩

/-- **Passes that have read `es` have handed over its events, key by key in their order.** -/
theorem Reads.poll {topic : String} {size : ℕ} {b : Broker (List UInt8)} {n : ℕ}
    {view : ℕ → List (List UInt8)} {es : List Event} (h : Reads topic size b n view es)
    (hsize : 0 < size) (s : σ) :
    ∃ (cs : List ℤ) (fs : List Event),
      poll topic size ingest b n (List.replicate defaultTopicPartitions 0, s) =
        some (cs, fs.foldl ingest s) ∧
      ∀ k, (fs.filter fun e => e.key = k) = es.filter fun e => e.key = k := by
  obtain ⟨cs, fs, hpoll, hfs⟩ := poll_spec ingest h.shown hsize h.routed n s
  refine ⟨cs, fs, hpoll, ?_⟩
  intro k
  have hp := keyPartition_lt (by decide : 0 < defaultTopicPartitions) k
  rw [← filter_key_partition k fs, hfs _ hp, h.read _ hp, filter_key_partition]

end AgentBus.AgentStream
