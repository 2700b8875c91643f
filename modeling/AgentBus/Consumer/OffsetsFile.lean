import AgentBus.Consumer.Offsets
import AgentBus.Lib.JsonText
import AgentBus.Lib.Maps
import AgentBus.Lib.Utf8
import Mathlib.Data.List.Sort

/-!
# The file of the offsets

`save` and `load` of `internal/consumer/manager.go`: the map of the offsets as a JSON object, whose
members are in the order of their keys.  The texts of JSON are UTF-8, and what is not in a key is
replaced when it is written: the offset is then found under another key.

All offsets are found again after a restart exactly if the topics and the groups that were committed
are valid UTF-8 (`offsets_survive_iff`).

A replaced byte stands in the file as an escape, and here as the character itself; both are read
alike.

## Main definitions

* `Manager.save`, `load` — writing and reading the file.
-/

namespace AgentBus.Consumer

open Decimal Maps Utf8

/-- The order of byte strings. -/
def bytesLe : List UInt8 → List UInt8 → Bool
  | [], _ => true
  | _ :: _, [] => false
  | b :: bs, b' :: bs' => decide (b < b') || decide (b = b') && bytesLe bs bs'

namespace Manager

/-- The entries of the map in the order of their keys. -/
def sorted (m : Manager) : List (Sigma fun _ : List UInt8 => Int64) :=
  m.offsets.entries.insertionSort fun e e' => bytesLe e.1 e'.1

/-- `save`: the bytes of the file. -/
def save (m : Manager) : List UInt8 :=
  encode (Json.print (.obj (m.sorted.map fun e => (ofBytes e.1, .num (.ofInt e.2.toInt)))))

end Manager

/-- A member of the object as an entry of the map. -/
def readEntry (member : String × Json) : Option (List UInt8 × Int64) :=
  (member.2.readInt64 0).map fun offset => (encode member.1.toList, Int64.ofInt offset)

/-- `load` into a manager without offsets; a missing file is none. -/
def load : Option (List UInt8) → Option Manager
  | none => some newManager
  | some data => do
      let value ← Json.parse (decode data)
      let entries ← (← value.members).mapM readEntry
      return ⟨insertEach entries ∅⟩

/-! ## What is read back -/

theorem readEntry_member (e : Sigma fun _ : List UInt8 => Int64) :
    readEntry (ofBytes e.1, .num (.ofInt e.2.toInt)) = some (encode (decode e.1), e.2) := by
  have hoffset := Number.toInt64?_ofInt e.2.le_toInt e.2.toInt_lt
  simp [readEntry, Json.readInt64, hoffset, ofBytes]

theorem mapM_readEntry (es : List (Sigma fun _ : List UInt8 => Int64)) :
    (es.map fun e => (ofBytes e.1, Json.num (.ofInt e.2.toInt))).mapM readEntry =
      some (es.map fun e => (encode (decode e.1), e.2)) := by
  induction es with
  | nil => rfl
  | cons e es ih => simp [readEntry_member, ih]

/-- The file is read back, each key as it was written. -/
@[simp] theorem load_save (m : Manager) :
    load (some m.save) =
      some ⟨insertEach (m.sorted.map fun e => (encode (decode e.1), e.2)) ∅⟩ := by
  simp [load, Manager.save, Json.members, mapM_readEntry, -List.mapM_map]

theorem mem_sorted {m : Manager} {k : List UInt8} {v : Int64} :
    (⟨k, v⟩ : Sigma fun _ => Int64) ∈ m.sorted ↔ m.offsets.lookup k = some v := by
  rw [Manager.sorted, List.mem_insertionSort, ← Option.mem_def, AList.mem_lookup_iff]

theorem nodup_sorted (m : Manager) : (m.sorted.map Sigma.fst).Nodup := by
  have hperm := List.perm_insertionSort (fun e e' => bytesLe e.1 e'.1) m.offsets.entries
  exact (hperm.map Sigma.fst).nodup_iff.mpr m.offsets.nodupKeys

/-- What is found after a restart is under a valid key. -/
theorem isValid_of_lookup {m m' : Manager} (h : load (some m.save) = some m') {k : List UInt8}
    {v : Int64} (hk : m'.offsets.lookup k = some v) : IsValid k := by
  rw [load_save] at h
  obtain rfl := Option.some.inj h
  rcases mem_of_lookup_insertEach hk with hmem | hnone
  · obtain ⟨e, -, he⟩ := List.mem_map.mp hmem
    cases he
    exact isValid_encode _
  · simp at hnone

/-- Where all keys are valid, a restart changes nothing. -/
theorem lookup_of_isValid {m m' : Manager} (h : load (some m.save) = some m')
    (hvalid : ∀ k v, m.offsets.lookup k = some v → IsValid k) (k : List UInt8) :
    m'.offsets.lookup k = m.offsets.lookup k := by
  rw [load_save] at h
  obtain rfl := Option.some.inj h
  have hentries : (m.sorted.map fun e => (encode (decode e.1), e.2)) =
      m.sorted.map fun e => (e.1, e.2) :=
    List.map_congr_left fun e he => by rw [hvalid e.1 e.2 (mem_sorted.mp he)]
  have hkeys : ((m.sorted.map fun e => (e.1, e.2)).map Prod.fst).Nodup := by
    rw [List.map_map]
    exact nodup_sorted m
  have hmem (v : Int64) : (k, v) ∈ m.sorted.map (fun e => (e.1, e.2)) ↔
      m.offsets.lookup k = some v := by
    rw [← mem_sorted, List.mem_map]
    constructor
    · rintro ⟨e, he, heq⟩
      cases heq
      exact he
    · exact fun he => ⟨_, he, rfl⟩
  rw [hentries]
  ext v
  constructor
  · intro hv
    rcases mem_of_lookup_insertEach hv with hin | hnone
    · exact (hmem v).mp hin
    · simp at hnone
  · exact fun hv => lookup_insertEach_of_mem hkeys ((hmem v).mpr hv) ∅

/-! ## The keys that were committed -/

theorem itoa_ascii (v : Int64) : ∀ b ∈ itoa v, b.toNat < 128 := by
  have hdigit : ∀ d : Fin 10, (digitByte d).toNat < 128 := by decide
  have hloop (v : Int64) : ∀ b ∈ itoaLoop 20 v.toInt.toNat [], b.toNat < 128 := by
    rw [itoaLoop_eq (toNat_toInt_lt v)]
    split <;> simp [hdigit]
  rw [itoa]
  split
  · simp
  · split
    · intro b hb
      rcases List.mem_cons.mp hb with rfl | hb
      · decide
      · exact hloop _ b hb
    · exact hloop _

/-- A key is valid exactly if the topic and the group are. -/
theorem isValid_key_iff (p : Position) : IsValid p.key ↔ IsValid p.topic ∧ IsValid p.group := by
  have hform : p.key = p.topic ++ colon :: ([] ++ colon :: (p.group ++ colon :: ([] ++ colon ::
      ([] ++ 0x70 :: itoa p.partition)))) := by
    simp [Position.key, key]
  have hnil : IsValid [] := isValid_encode []
  rw [hform, isValid_append_cons_iff (by decide), isValid_append_cons_iff (by decide),
    isValid_append_cons_iff (by decide), isValid_append_cons_iff (by decide),
    isValid_append_cons_iff (by decide)]
  simp [hnil, isValid_of_ascii (itoa_ascii p.partition)]

/-- The keys of the map are those of the commits. -/
theorem isSome_lookup_commitAll (m : Manager) (commits : List (Position × Int64)) (k : List UInt8) :
    ((m.commitAll commits).offsets.lookup k).isSome ↔
      (m.offsets.lookup k).isSome ∨ ∃ c ∈ commits, k = c.1.key := by
  induction commits generalizing m with
  | nil => simp [Manager.commitAll]
  | cons c commits ih =>
    rw [show m.commitAll (c :: commits) = (m.commitPartition c.1 c.2).commitAll commits from rfl,
      ih]
    by_cases hk : k = c.1.key
    · subst hk
      simp [Manager.commitPartition]
    · simp [Manager.commitPartition, hk]

/-- After a restart every offset is what it was exactly if the committed topics and groups are valid
UTF-8. -/
theorem offsets_survive_iff (commits : List (Position × Int64)) :
    (∃ m, load (some (newManager.commitAll commits).save) = some m ∧
        ∀ p, m.getPartition p = (newManager.commitAll commits).getPartition p) ↔
      ∀ c ∈ commits, IsValid c.1.topic ∧ IsValid c.1.group := by
  constructor
  · rintro ⟨m, hload, hget⟩ c hc
    have hsome := (isSome_lookup_commitAll newManager commits c.1.key).mpr (.inr ⟨c, hc, rfl⟩)
    obtain ⟨v, hv⟩ := Option.isSome_iff_exists.mp hsome
    rw [← isValid_key_iff]
    exact isValid_of_lookup hload ((hget c.1).trans hv)
  · intro hvalid
    refine ⟨_, load_save _, fun p => lookup_of_isValid (load_save _) (fun k v hk => ?_) p.key⟩
    rcases (isSome_lookup_commitAll newManager commits k).mp (by rw [hk]; rfl) with hnew | hc
    · simp [newManager] at hnew
    · obtain ⟨c, hc, rfl⟩ := hc
      exact (isValid_key_iff c.1).mpr (hvalid c hc)

theorem not_isValid_ff : ¬ IsValid [0xFF] := by
  have hread : ([0xFF] : List UInt8).toByteArray.utf8DecodeChar? 0 = none := by decide
  have hdecode : decode [0xFF] = [replacement] := by
    rw [decode, hread]
    simp [decode]
  rw [IsValid, hdecode]
  decide

/-- The topic of the one byte 0xFF is found before a restart and not after it. -/
theorem offset_lost :
    ((newManager.commitAll [(⟨[0xFF], [0x67], 0⟩, 5)]).getPartition ⟨[0xFF], [0x67], 0⟩ = some 5) ∧
      ∃ m, load (some (newManager.commitAll [(⟨[0xFF], [0x67], 0⟩, 5)]).save) = some m ∧
        m.getPartition ⟨[0xFF], [0x67], 0⟩ = none := by
  refine ⟨by decide +kernel, _, load_save _, ?_⟩
  rw [Option.eq_none_iff_forall_ne_some]
  intro v hv
  exact not_isValid_ff ((isValid_key_iff _).mp (isValid_of_lookup (load_save _) hv)).1

end AgentBus.Consumer
