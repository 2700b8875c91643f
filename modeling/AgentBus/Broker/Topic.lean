import Mathlib.Data.List.Basic
import Mathlib.Data.List.Nodup
import Mathlib.Data.Int.Notation
import Mathlib.Logic.Function.Basic
import Mathlib.Tactic.Ring

/-!
# A partition: the ring buffer and the log it shows

`internal/broker/topic.go`: one partition of a topic is a ring of fixed capacity, with
`head` and `tail` counting the messages ever dropped and ever published.

The view is the list of payloads ever published.  `Topic.Represents` ties a ring to
its view; publishing appends to the view (`Represents.publish`), and a fetch reads the
stretch of the log that is asked for and still held (`Represents.fetch`).

## Main definitions

* `Message`, `Topic` — the state.
* `newTopic`, `Topic.publish`, `Topic.fetch` — the operations.
* `Topic.log`, `Topic.Represents` — the view.
-/

namespace AgentBus.Broker

variable {α : Type*}

/-- `Message`: a single record stored in a partition. -/
structure Message (α : Type*) where
  offset : ℤ
  payload : α
  deriving DecidableEq, Repr

/-- `Topic`: one partition, a ring buffer of `cap` messages. -/
structure Topic (α : Type*) where
  cap : ℕ
  cap_pos : 0 < cap
  messages : ℕ → Message α
  /-- The oldest offset still in the ring. -/
  head : ℕ
  /-- The next offset to write, which is the number of messages published. -/
  tail : ℕ
  evictions : ℕ

/-- `defaultCapacity`. -/
def defaultCapacity : ℕ := 2 ^ 20

/-- `newTopic`. -/
def newTopic [Inhabited α] (capacity : ℕ) : Topic α where
  cap := if capacity = 0 then defaultCapacity else capacity
  cap_pos := by
    split
    · decide
    · omega
  messages := fun _ => ⟨0, default⟩
  head := 0
  tail := 0
  evictions := 0

namespace Topic

/-- `Publish` appends a message, drops the oldest one when the ring is full, and returns
the offset. -/
def publish (t : Topic α) (payload : α) : Topic α × ℤ :=
  let offset := t.tail
  let full := decide (t.cap < t.tail + 1 - t.head)
  ({ t with
      messages := Function.update t.messages (t.tail % t.cap) ⟨offset, payload⟩
      tail := t.tail + 1
      head := if full then t.head + 1 else t.head
      evictions := if full then t.evictions + 1 else t.evictions },
    offset)

/-- `Fetch` returns up to `maxCount` messages from `offset` on.  A negative slice
capacity is a panic, here `none`. -/
def fetch (t : Topic α) (offset maxCount : ℤ) : Option (List (Message α)) :=
  let offset := max offset t.head
  if (t.tail : ℤ) ≤ offset then some []
  else
    let stop := min (offset + maxCount) t.tail
    if stop < offset then none
    else
      some ((List.range (stop - offset).toNat).map fun j =>
        t.messages ((offset.toNat + j) % t.cap))

/-- The capacity of the slice that `Fetch` makes, when it gets that far. -/
def fetchCapacity (t : Topic α) (offset maxCount : ℤ) : Option ℤ :=
  let offset := max offset t.head
  if (t.tail : ℤ) ≤ offset then none else some (min (offset + maxCount) t.tail - offset)

/-- The indexes at which `Fetch` reads the ring: `int(i) % t.cap` for every offset in the loop. -/
def fetchIndexes (t : Topic α) (offset maxCount : ℤ) : List ℤ :=
  match t.fetchCapacity offset maxCount with
  | none => []
  | some n => (List.range n.toNat).map fun j : ℕ => (max offset t.head + j).tmod t.cap

/-- `Fetch` in terms of the slice it makes and the indexes it reads. -/
theorem fetch_eq (t : Topic α) (offset maxCount : ℤ) :
    t.fetch offset maxCount =
      if ∃ n ∈ t.fetchCapacity offset maxCount, n < 0 then none
      else some ((t.fetchIndexes offset maxCount).map fun i => t.messages i.toNat) := by
  have hnonneg : (0 : ℤ) ≤ max offset t.head := le_max_of_le_right (Int.natCast_nonneg _)
  by_cases hle : (t.tail : ℤ) ≤ max offset t.head
  · simp [fetch, fetchIndexes, fetchCapacity, hle]
  · by_cases hneg : min (max offset t.head + maxCount) (t.tail : ℤ) < max offset t.head
    · have hcap : min (max offset t.head + maxCount) (t.tail : ℤ) - max offset t.head < 0 := by
        omega
      simp only [fetch, fetchCapacity, if_neg hle, if_pos hneg, Option.mem_def, Option.some.injEq,
        exists_eq_left', if_pos hcap]
    · have hcap : ¬ min (max offset t.head + maxCount) (t.tail : ℤ) - max offset t.head < 0 := by
        omega
      simp only [fetch, fetchIndexes, fetchCapacity, if_neg hle, if_neg hneg, Option.mem_def,
        Option.some.injEq, exists_eq_left', if_neg hcap, List.map_map]
      refine List.map_congr_left ?_
      intro j _
      obtain ⟨o, ho⟩ := Int.eq_ofNat_of_zero_le hnonneg
      rw [Function.comp_apply, ho, ← Nat.cast_add, ← Int.ofNat_tmod]
      rfl

variable {maxCount : ℤ} {ps : List α} {m : Message α} {t : Topic α}

/-- The indexes are those of the ring. -/
theorem fetchIndexes_lt (t : Topic α) {offset i : ℤ} (hi : i ∈ t.fetchIndexes offset maxCount) :
    0 ≤ i ∧ i < t.cap := by
  have hcap := t.cap_pos
  have hhead : (0 : ℤ) ≤ max offset t.head := le_max_of_le_right (Int.natCast_nonneg _)
  unfold fetchIndexes at hi
  split at hi
  · cases hi
  · obtain ⟨j, -, rfl⟩ := List.mem_map.mp hi
    exact ⟨Int.tmod_nonneg _ (by omega), Int.tmod_lt_of_pos _ (by omega)⟩

/-- The slice is made with a negative capacity if the count is negative and there is something to
read. -/
theorem fetch_eq_none_iff (t : Topic α) (offset maxCount : ℤ) :
    t.fetch offset maxCount = none ↔ maxCount < 0 ∧ max offset t.head < t.tail := by
  unfold fetch
  dsimp only
  split
  · simp
    omega
  · split <;> simp <;> omega

/-! ## The view -/

/-- The messages that publishing `ps` creates. -/
def log (ps : List α) : List (Message α) := ps.mapIdx fun i p => ⟨i, p⟩

@[simp] theorem length_log (ps : List α) : (log ps).length = ps.length := by simp [log]

theorem log_concat (ps : List α) (p : α) : log (ps ++ [p]) = log ps ++ [⟨ps.length, p⟩] := by
  simp [log, List.mapIdx_append]

/-- What is published later leaves the log of what was there. -/
theorem log_mono {ps' : List α} (h : ps <+: ps') : log ps <+: log ps' := by
  obtain ⟨later, rfl⟩ := h
  exact ⟨_, List.mapIdx_append.symm⟩

theorem getElem?_log (ps : List α) (i : ℕ) :
    (log ps)[i]? = ps[i]?.map fun p => ⟨i, p⟩ := by
  simp [log]

/-- The offsets of a stretch of the log. -/
theorem offset_of_mem_drop_log {lo n : ℕ} (h : m ∈ ((log ps).drop lo).take n) :
    (lo : ℤ) ≤ m.offset ∧ m.offset < lo + n := by
  obtain ⟨i, hi⟩ := List.mem_iff_getElem?.mp h
  rw [List.getElem?_take] at hi
  split at hi
  · rw [List.getElem?_drop, getElem?_log] at hi
    obtain ⟨p, -, rfl⟩ := Option.map_eq_some_iff.mp hi
    push_cast
    omega
  · cases hi

theorem offset_lt_of_mem_log (h : m ∈ log ps) : m.offset < ps.length := by
  obtain ⟨i, hi, rfl⟩ := List.mem_mapIdx.mp h
  exact Int.ofNat_lt.mpr hi

theorem le_offset_of_mem_drop_log {lo : ℕ} (h : m ∈ (log ps).drop lo) : (lo : ℤ) ≤ m.offset := by
  rw [← List.take_of_length_le (l := (log ps).drop lo) le_rfl] at h
  exact (offset_of_mem_drop_log h).1

/-- The part of a stretch of the log below an offset. -/
theorem filter_lt_drop_log (ps : List α) (lo n : ℕ) (c : ℤ) :
    (((log ps).drop lo).take n).filter (fun m => decide (m.offset < c)) =
      ((log ps).drop lo).take (min n (c - lo).toNat) := by
  have hsplit := List.take_append_drop (c - lo).toNat (((log ps).drop lo).take n)
  have hlow : ∀ m ∈ (((log ps).drop lo).take n).take (c - lo).toNat,
      decide (m.offset < c) = true := by
    intro m hm
    rw [List.take_take] at hm
    have := offset_of_mem_drop_log hm
    have hlo : 0 < min (c - lo).toNat n := by
      by_contra h0
      rw [Nat.eq_zero_of_not_pos h0] at hm
      simp at hm
    simp only [decide_eq_true_eq]
    omega
  have hhigh : ∀ m ∈ (((log ps).drop lo).take n).drop (c - lo).toNat,
      ¬ decide (m.offset < c) = true := by
    intro m hm
    rw [List.drop_take, List.drop_drop] at hm
    have := offset_of_mem_drop_log hm
    simp only [decide_eq_true_eq]
    push_cast at this
    omega
  rw [← hsplit, List.filter_append, List.filter_eq_self.mpr hlow,
    List.filter_eq_nil_iff.mpr hhigh, List.append_nil, List.take_take, Nat.min_comm]

/-- The part of the log from an offset on. -/
theorem filter_le_log (ps : List α) (lo : ℕ) :
    (log ps).filter (fun m => decide ((lo : ℤ) ≤ m.offset)) = (log ps).drop lo := by
  have hlow : ∀ m ∈ (log ps).take lo, ¬ decide ((lo : ℤ) ≤ m.offset) = true := by
    intro m hm
    have := offset_of_mem_drop_log (show m ∈ ((log ps).drop 0).take lo by simpa using hm)
    simp only [decide_eq_true_eq]
    omega
  have hhigh : ∀ m ∈ (log ps).drop lo, decide ((lo : ℤ) ≤ m.offset) = true := by
    intro m hm
    simpa using le_offset_of_mem_drop_log hm
  conv_lhs => rw [← List.take_append_drop lo (log ps)]
  rw [List.filter_append, List.filter_eq_nil_iff.mpr hlow, List.filter_eq_self.mpr hhigh,
    List.nil_append]

/-- The part of the log between two offsets. -/
theorem filter_between_log (ps : List α) (lo : ℕ) (hi : ℤ) :
    (log ps).filter (fun m => decide ((lo : ℤ) ≤ m.offset ∧ m.offset < hi)) =
      ((log ps).drop lo).take (hi - lo).toNat := by
  have hlt := filter_lt_drop_log ps lo (ps.length - lo) hi
  rw [List.take_of_length_le (by simp), ← filter_le_log, List.filter_filter] at hlt
  simp only [Bool.decide_and, Bool.and_comm (decide ((lo : ℤ) ≤ _))]
  rw [hlt, ← List.take_take, filter_le_log, List.take_of_length_le]
  simp

theorem pairwise_log (ps : List α) : (log ps).Pairwise fun m m' => m.offset < m'.offset := by
  rw [List.pairwise_iff_getElem]
  intro i j hi hj hij
  simpa [log] using hij

theorem nodup_log (ps : List α) : (log ps).Nodup := by
  refine (pairwise_log ps).imp fun hlt heq => ?_
  rw [heq] at hlt
  exact lt_irrefl _ hlt

/-- The ring `t` holds the youngest messages of the history `ps`. -/
structure Represents (t : Topic α) (ps : List α) : Prop where
  tail : t.tail = ps.length
  head : t.head = ps.length - t.cap
  evictions : t.evictions = t.head
  slots : ∀ i, t.head ≤ i → i < t.tail → (log ps)[i]? = some (t.messages (i % t.cap))

theorem represents_newTopic [Inhabited α] (capacity : ℕ) :
    Represents (newTopic capacity : Topic α) [] := by
  refine ⟨rfl, ?_, rfl, ?_⟩
  · simp [newTopic]
  · intro i _ hi
    simp [newTopic] at hi

/-- Two offsets less than a ring apart use different slots. -/
theorem slot_ne {cap i j : ℕ} (hij : i < j) (hj : j < i + cap) : i % cap ≠ j % cap := by
  intro h
  have hd : j - i < cap := by omega
  have hmod : (j - i) % cap = 0 := Nat.sub_mod_eq_zero_of_mod_eq h.symm
  rw [Nat.mod_eq_of_lt hd] at hmod
  omega

/-- **Publishing appends to the view.** -/
theorem Represents.publish (h : t.Represents ps) (p : α) :
    (t.publish p).1.Represents (ps ++ [p]) ∧ (t.publish p).2 = ps.length := by
  have htail := h.tail
  have hhead := h.head
  have hpos := t.cap_pos
  refine ⟨⟨?_, ?_, ?_, ?_⟩, ?_⟩
  · simp [Topic.publish, htail]
  · simp only [Topic.publish, List.length_append, List.length_singleton, decide_eq_true_eq]
    split <;> omega
  · simp only [Topic.publish, h.evictions]
  · intro i hi hlt
    have hbounds : t.head ≤ i ∧ (t.cap < t.tail + 1 - t.head → t.head + 1 ≤ i) := by
      simp only [Topic.publish, decide_eq_true_eq] at hi
      split at hi <;> omega
    rw [getElem?_log]
    by_cases hlast : i = t.tail
    · subst hlast
      simp [Topic.publish, htail]
    · replace hlt : i < t.tail := by
        simp only [Topic.publish] at hlt
        omega
      have hslot := h.slots i hbounds.1 hlt
      -- The slot just written belongs to a younger offset of the same ring.
      have hne : i % t.cap ≠ t.tail % t.cap := slot_ne hlt (by omega)
      rw [getElem?_log] at hslot
      simp only [Topic.publish, Function.update_of_ne hne]
      rw [List.getElem?_append_left (by omega)]
      exact hslot
  · simp [Topic.publish, htail]

/-- Publish a list of payloads. -/
def publishAll (t : Topic α) (ps : List α) : Topic α := ps.foldl (fun t p => (t.publish p).1) t

theorem publishAll_concat (t : Topic α) (ps : List α) (p : α) :
    t.publishAll (ps ++ [p]) = ((t.publishAll ps).publish p).1 := by
  simp [publishAll]

@[simp] theorem cap_publishAll (t : Topic α) (ps : List α) : (t.publishAll ps).cap = t.cap := by
  induction ps generalizing t with
  | nil => rfl
  | cons p ps ih => exact ih _

/-- The ring after a history. -/
theorem Represents.publishAll {qs : List α} (h : t.Represents qs) (ps : List α) :
    (t.publishAll ps).Represents (qs ++ ps) := by
  induction ps generalizing t qs with
  | nil => simpa [Topic.publishAll] using h
  | cons p ps ih =>
    rw [List.append_cons]
    exact ih (h.publish p).1

/-- **A fetch reads the log from the clamped offset on.** -/
theorem Represents.fetch (h : t.Represents ps) (offset : ℤ) (hmax : 0 ≤ maxCount) :
    t.fetch offset maxCount =
      some (((log ps).drop (max offset t.head).toNat).take maxCount.toNat) := by
  unfold Topic.fetch
  have hlo : 0 ≤ max offset (t.head : ℤ) := by omega
  obtain ⟨lo, hlo⟩ := Int.eq_ofNat_of_zero_le hlo
  have hheadlo : t.head ≤ lo := by omega
  obtain ⟨n, rfl⟩ := Int.eq_ofNat_of_zero_le hmax
  have htail := h.tail
  simp only [hlo, Int.toNat_natCast]
  split
  · rw [List.drop_eq_nil_of_le (by simp; omega)]
    simp
  · rename_i hlt
    rw [if_neg (by omega)]
    congr 1
    apply List.ext_getElem?
    intro j
    rw [List.getElem?_take, List.getElem?_drop, List.getElem?_map]
    by_cases hj : j < (min ((lo : ℤ) + n) t.tail - lo).toNat
    · rw [List.getElem?_range hj, if_pos (by omega), h.slots (lo + j) (by omega) (by omega)]
      rfl
    · rw [List.getElem?_eq_none (by simpa using hj)]
      split
      · rw [List.getElem?_eq_none (by simp; omega)]
        rfl
      · rfl

/-- What a fetch answers was published. -/
theorem Represents.mem_of_fetch (h : t.Represents ps) {offset : ℤ} {msgs : List (Message α)}
    (hfetch : t.fetch offset maxCount = some msgs) (hm : m ∈ msgs) : m.payload ∈ ps := by
  rcases le_or_gt 0 maxCount with hmax | hmax
  · rw [h.fetch offset hmax] at hfetch
    cases hfetch
    obtain ⟨i, hi⟩ := List.mem_iff_getElem?.mp (List.mem_of_mem_drop (List.mem_of_mem_take hm))
    rw [getElem?_log] at hi
    obtain ⟨p, hp, rfl⟩ := Option.map_eq_some_iff.mp hi
    exact List.mem_of_getElem? hp
  · -- A negative count panics, unless there is nothing to read.
    unfold Topic.fetch at hfetch
    simp only at hfetch
    split at hfetch
    · cases hfetch
      cases hm
    · rw [if_pos (by omega)] at hfetch
      cases hfetch

/-- **The ring refines an append-only log.**  For every capacity and every history the `k`-th
message gets the offset `k`, the head is where the last `c` messages begin and counts the
evictions, and a fetch returns the messages of the log from the clamped offset on, as many as are
asked for. -/
theorem ring_refines_log [Inhabited α] (c : ℕ) (hc : 1 ≤ c) (ps : List α) :
    (∀ k p, ps[k]? = some p →
        ((newTopic c : Topic α).publishAll (ps.take k)).publish p =
          ((newTopic c).publishAll (ps.take (k + 1)), (k : ℤ))) ∧
      (((newTopic c : Topic α).publishAll ps).tail = ps.length ∧
        (((newTopic c : Topic α).publishAll ps).head : ℤ) = max 0 ((ps.length : ℤ) - c) ∧
        ((newTopic c : Topic α).publishAll ps).evictions =
          ((newTopic c : Topic α).publishAll ps).head) ∧
      ∀ o maxCount : ℤ, 0 ≤ maxCount → maxCount ≤ 2 ^ 31 - 1 →
        ((newTopic c : Topic α).publishAll ps).fetch o maxCount =
          some ((log ps).filter fun m =>
            decide (max o ((newTopic c : Topic α).publishAll ps).head ≤ m.offset ∧
              m.offset < min (max o ((newTopic c : Topic α).publishAll ps).head + maxCount)
                ps.length)) := by
  have hview : ∀ qs, ((newTopic c : Topic α).publishAll qs).Represents qs :=
    (represents_newTopic c).publishAll
  have hcap : ((newTopic c : Topic α).publishAll ps).cap = c := by
    rw [cap_publishAll]
    exact if_neg (by omega)
  refine ⟨?_, ⟨(hview ps).tail, ?_, (hview ps).evictions⟩, ?_⟩
  · intro k p hk
    obtain ⟨hlt, rfl⟩ := List.getElem?_eq_some_iff.mp hk
    have hoffset := ((hview (ps.take k)).publish ps[k]).2
    rw [List.length_take, min_eq_left hlt.le] at hoffset
    rw [List.take_add_one, hk, Option.toList_some, publishAll_concat]
    exact Prod.ext rfl hoffset
  · rw [(hview ps).head, hcap]
    omega
  · intro o maxCount hnonneg _
    obtain ⟨lo, hlo⟩ := Int.eq_ofNat_of_zero_le
      (le_max_of_le_right (Int.natCast_nonneg _) :
        0 ≤ max o (((newTopic c : Topic α).publishAll ps).head : ℤ))
    rw [(hview ps).fetch o hnonneg, hlo, Int.toNat_natCast, filter_between_log]
    refine congrArg some ?_
    -- A stretch that ends behind the tail is cut off there.
    rcases le_total ((lo : ℤ) + maxCount) ps.length with hle | hle
    · rw [min_eq_left hle, add_sub_cancel_left]
    · rw [min_eq_right hle, List.take_of_length_le, List.take_of_length_le]
      · simp
      · simp
        omega

/-- A ring of two after four messages: two are evicted, and a fetch from below the head starts at
the head. -/
theorem ring_refines_log_two :
    ((newTopic 2).publishAll [10, 20, 30, 40]).evictions = 2 ∧
      ((newTopic 2).publishAll [10, 20, 30, 40]).fetch 1 1 = some [⟨2, 30⟩] ∧
      ((newTopic 2).publishAll [10, 20, 30, 40]).fetch 1 1 =
        some ((log [10, 20, 30, 40]).filter fun m =>
          decide (max 1 (((newTopic 2).publishAll [10, 20, 30, 40]).head : ℤ) ≤ m.offset ∧
            m.offset < min (max 1 (((newTopic 2).publishAll [10, 20, 30, 40]).head : ℤ) + 1) 4)) :=
  ⟨by decide, by decide,
    (ring_refines_log 2 (by decide) [10, 20, 30, 40]).2.2 1 1 (by decide) (by decide)⟩

end Topic
end AgentBus.Broker
