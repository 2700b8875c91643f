import AgentBus.Cluster.Leadership
import AgentBus.Lib.Maps

/-!
# Snapshots of the metadata

`Snapshot` and `Restore` of the metadata state machine (`internal/cluster/metadata/fsm.go`).  A
snapshot is written in version 2 of its layout.  Restoring reads the version first and takes the
state from that layout, or from the older one in which a member was only its Raft address; what the
state machine held before is gone.

A restored state machine answers every later command as one that was never restored
(`snapshot_transparent`): two state machines whose maps look the same keep looking the same, and
refuse the same commands.

What `encoding/json` makes of the structs is a parameter, and that it reads back what it wrote is
the assumption `Codec.RoundTrips`.  Maps are compared by what they hold under each key, since JSON
does not keep an order.

## Main definitions

* `SnapshotPayload`, `SnapshotV1`, `Codec` — the two layouts and their bytes.
* `FSM.snapshot`, `FSM.restore` — taking and restoring a snapshot.
* `FSM.applyAll` — committed log entries in order.
* `FSM.Same` — the same members, shard leaders and shard count.
-/

namespace AgentBus.Leadership

/-! ## Committed entries -/

/-- What `FSM.Apply` answers to a log entry. -/
inductive LogError where
  /-- `fsm: bad command`. -/
  | badCommand
  | refused (err : ApplyError)
  deriving DecidableEq, Repr

/-- `Apply` on a log entry; `none` stands for data that is not a command. -/
def FSM.applyLog (f : FSM) : Option Command → FSM × Option LogError
  | none => (f, some .badCommand)
  | some cmd => ((f.apply cmd).1, (f.apply cmd).2.map .refused)

/-- Log entries in order, with the answer to each. -/
def FSM.applyAll (f : FSM) : List (Option Command) → FSM × List (Option LogError)
  | [] => (f, [])
  | entry :: entries =>
    (((f.applyLog entry).1.applyAll entries).1,
      (f.applyLog entry).2 :: ((f.applyLog entry).1.applyAll entries).2)

theorem FSM.applyAll_append (f : FSM) (cs ds : List (Option Command)) :
    f.applyAll (cs ++ ds) =
      (((f.applyAll cs).1.applyAll ds).1,
        (f.applyAll cs).2 ++ ((f.applyAll cs).1.applyAll ds).2) := by
  induction cs generalizing f with
  | nil => rfl
  | cons c cs ih => simp only [List.cons_append, applyAll, ih]

/-! ## Snapshots -/

/-- A map of the source, which may be nil. -/
abbrev GoMap (κ α : Type*) := Option (AList fun _ : κ => α)

/-- What a map holds under a key. -/
def GoMap.find {κ α : Type*} [DecidableEq κ] (m : GoMap κ α) (k : κ) : Option α :=
  m.bind fun entries => entries.lookup k

/-- `snapshotPayload`. -/
structure SnapshotPayload where
  version : ℤ
  members : GoMap String Member
  shardLeaders : GoMap UInt32 String
  shardCount : UInt32

/-- The layout of version 1, in which a member is its Raft address. -/
structure SnapshotV1 where
  members : GoMap String String
  shardLeaders : GoMap UInt32 String

/-- What `encoding/json` does with the two layouts: writing, the version that the probe reads, and
reading. -/
structure Codec (β : Type*) where
  marshal : SnapshotPayload → Option β
  marshalV1 : SnapshotV1 → Option β
  probe : β → ℤ
  unmarshal : β → Option SnapshotPayload
  unmarshalV1 : β → Option SnapshotV1

/-- What was written is read back; a snapshot of version 1 is not taken for one of version 2. -/
structure Codec.RoundTrips {β : Type*} (c : Codec β) : Prop where
  v2 : ∀ p data, c.marshal p = some data → c.probe data = p.version ∧
    ∃ p', c.unmarshal data = some p' ∧ (∀ id, p'.members.find id = p.members.find id) ∧
      (∀ s, p'.shardLeaders.find s = p.shardLeaders.find s) ∧ p'.shardCount = p.shardCount
  v1 : ∀ p data, c.marshalV1 p = some data → c.probe data ≠ 2 ∧
    ∃ p', c.unmarshalV1 data = some p' ∧ (∀ id, p'.members.find id = p.members.find id) ∧
      ∀ s, p'.shardLeaders.find s = p.shardLeaders.find s

/-- The error of `Restore`: the data does not parse. -/
inductive RestoreError where
  | unmarshal
  deriving DecidableEq, Repr

/-- The members of a snapshot of version 1. -/
def membersV1 (m : AList fun _ : String => String) : AList fun _ : String => Member where
  entries := m.entries.map fun e => ⟨e.1, ⟨e.1, e.2, ""⟩⟩
  nodupKeys := by
    rw [List.NodupKeys, List.keys, List.map_map]
    exact m.nodupKeys

namespace FSM

variable {β : Type*}

/-- `Snapshot`. -/
def snapshot (c : Codec β) (f : FSM) : Option β :=
  c.marshal ⟨2, some f.members, some f.shardLeaders, f.shardCount⟩

/-- `Restore`; maps that are nil are replaced by empty ones. -/
def restore (c : Codec β) (f : FSM) (data : β) : FSM × Option RestoreError :=
  if c.probe data = 2 then
    match c.unmarshal data with
    | none => (f, some .unmarshal)
    | some p => (⟨p.members.getD ∅, p.shardLeaders.getD ∅, p.shardCount⟩, none)
  else
    match c.unmarshalV1 data with
    | none => (f, some .unmarshal)
    | some p => (⟨membersV1 (p.members.getD ∅), p.shardLeaders.getD ∅, 0⟩, none)

/-- The same members, shard leaders and shard count. -/
structure Same (f g : FSM) : Prop where
  members : ∀ id, f.memberAt id = g.memberAt id
  shardLeaders : ∀ s, f.shardLeaders.lookup s = g.shardLeaders.lookup s
  shardCount : f.shardCount = g.shardCount

end FSM

/-! ## What maps hold -/

theorem GoMap.lookup_getD {κ α : Type*} [DecidableEq κ] (m : GoMap κ α) (k : κ) :
    (m.getD ∅).lookup k = m.find k := by
  cases m with
  | none => exact AList.lookup_empty k
  | some entries => rfl

/-- Maps that look the same look the same after an insertion. -/
theorem lookup_insert_congr {κ α : Type*} [DecidableEq κ] {m m' : AList fun _ : κ => α}
    (h : ∀ k, m.lookup k = m'.lookup k) (a : κ) (b : α) (k : κ) :
    (m.insert a b).lookup k = (m'.insert a b).lookup k := by
  by_cases hk : k = a
  · subst hk
    rw [AList.lookup_insert, AList.lookup_insert]
  · rw [AList.lookup_insert_ne hk, AList.lookup_insert_ne hk, h]

@[simp] theorem lookup_membersV1 (m : AList fun _ : String => String) (id : String) :
    (membersV1 m).lookup id = (m.lookup id).map fun addr => ⟨id, addr, ""⟩ := by
  apply Option.ext
  intro x
  rw [← Option.mem_def, AList.mem_lookup_iff, ← Option.mem_def, Option.mem_map]
  simp only [membersV1, List.mem_map]
  constructor
  · rintro ⟨⟨id', addr⟩, hmem, heq⟩
    cases heq
    exact ⟨addr, AList.mem_lookup_iff.mpr hmem, rfl⟩
  · rintro ⟨addr, hmem, rfl⟩
    exact ⟨⟨id, addr⟩, AList.mem_lookup_iff.mp hmem, rfl⟩

/-- A shard keeps its leader unless that is the node. -/
@[simp] theorem FSM.lookup_leadersBut (f : FSM) (nodeID : String) (s : UInt32) :
    (f.leadersBut nodeID).lookup s = (f.shardLeaders.lookup s).filter (· ≠ nodeID) :=
  Maps.lookup_keeping (fun leader => decide (leader ≠ nodeID)) f.shardLeaders s

/-! ## State machines that look the same -/

namespace FSM

variable {f g : FSM}

/-- **The same command is answered alike**, and leaves what looks the same. -/
theorem Same.apply (h : f.Same g) (cmd : Command) :
    (f.apply cmd).1.Same (g.apply cmd).1 ∧ (f.apply cmd).2 = (g.apply cmd).2 := by
  obtain ⟨op, nodeID, addr, clientAddr, shard⟩ := cmd
  cases op with
  | addMember =>
    by_cases hid : nodeID = ""
    · simp only [FSM.apply, hid, if_true]
      exact ⟨h, trivial⟩
    · simp only [FSM.apply, hid, if_false, h.members nodeID]
      exact ⟨⟨lookup_insert_congr h.members _ _, h.shardLeaders, h.shardCount⟩, trivial⟩
  | registerMember =>
    by_cases hid : nodeID = ""
    · simp only [FSM.apply, hid, if_true]
      exact ⟨h, trivial⟩
    · simp only [FSM.apply, hid, if_false]
      exact ⟨⟨lookup_insert_congr h.members _ _, h.shardLeaders, h.shardCount⟩, trivial⟩
  | removeMember =>
    refine ⟨⟨?_, ?_, h.shardCount⟩, rfl⟩
    · intro id
      simp only [FSM.apply, memberAt]
      by_cases hid : id = nodeID
      · rw [hid, AList.lookup_erase, AList.lookup_erase]
      · rw [AList.lookup_erase_ne hid, AList.lookup_erase_ne hid]
        exact h.members id
    · intro s
      simp only [FSM.apply, lookup_leadersBut, h.shardLeaders]
  | setShardLeader =>
    by_cases hid : nodeID = ""
    · simp only [FSM.apply, hid, if_true]
      exact ⟨h, trivial⟩
    · simp only [FSM.apply, hid, if_false]
      exact ⟨⟨h.members, lookup_insert_congr h.shardLeaders _ _, h.shardCount⟩, trivial⟩
  | setShardCount => exact ⟨⟨h.members, h.shardLeaders, rfl⟩, rfl⟩
  | other name => exact ⟨h, rfl⟩

theorem Same.applyLog (h : f.Same g) (entry : Option Command) :
    (f.applyLog entry).1.Same (g.applyLog entry).1 ∧
      (f.applyLog entry).2 = (g.applyLog entry).2 := by
  cases entry with
  | none => exact ⟨h, rfl⟩
  | some cmd =>
    obtain ⟨hsame, herr⟩ := h.apply cmd
    exact ⟨hsame, congrArg (Option.map LogError.refused) herr⟩

/-- **The same entries are answered alike.** -/
theorem Same.applyAll (h : f.Same g) (entries : List (Option Command)) :
    (f.applyAll entries).1.Same (g.applyAll entries).1 ∧
      (f.applyAll entries).2 = (g.applyAll entries).2 := by
  induction entries generalizing f g with
  | nil => exact ⟨h, rfl⟩
  | cons entry entries ih =>
    obtain ⟨hsame, herr⟩ := h.applyLog entry
    obtain ⟨hsame', herrs⟩ := ih hsame
    exact ⟨hsame', by rw [FSM.applyAll, FSM.applyAll, herr, herrs]⟩

/-- What a snapshot restores. -/
theorem restore_snapshot {β : Type*} {c : Codec β} (hc : c.RoundTrips) (g : FSM) {data : β}
    (hdata : f.snapshot c = some data) :
    ∃ g', g.restore c data = (g', none) ∧ g'.Same f := by
  obtain ⟨hprobe, p, hp, hmembers, hleaders, hcount⟩ := hc.v2 _ _ hdata
  refine ⟨⟨p.members.getD ∅, p.shardLeaders.getD ∅, p.shardCount⟩, ?_, ?_, ?_, hcount⟩
  · simp only [restore, hprobe, if_true, hp]
  · intro id
    rw [memberAt, GoMap.lookup_getD, hmembers]
    rfl
  · intro s
    rw [GoMap.lookup_getD, hleaders]
    rfl

/-- What a snapshot of version 1 restores. -/
theorem restore_v1 {β : Type*} {c : Codec β} (hc : c.RoundTrips) (g : FSM) {p : SnapshotV1}
    {data : β} (hdata : c.marshalV1 p = some data) :
    ∃ g', g.restore c data = (g', none) ∧
      (∀ id, (g'.memberAt id).map Member.raftAddr = p.members.find id) ∧
      ∀ s, g'.shardLeaders.lookup s = p.shardLeaders.find s := by
  obtain ⟨hprobe, p', hp', hmembers, hleaders⟩ := hc.v1 _ _ hdata
  refine ⟨⟨membersV1 (p'.members.getD ∅), p'.shardLeaders.getD ∅, 0⟩, ?_, ?_, ?_⟩
  · simp only [restore, hprobe, if_false, hp']
  · intro id
    rw [memberAt, lookup_membersV1, GoMap.lookup_getD, Option.map_map, hmembers]
    exact Option.map_id'
  · intro s
    rw [GoMap.lookup_getD, hleaders]

end FSM

/-- **Snapshots are transparent.**  Restoring, into any state machine, the snapshot taken after the
entries `cs` and then applying `ds` gives the same members, shard leaders and shard count as
applying `cs` and `ds` without a break, and the same answer to every entry.  A snapshot of
version 1 restores the Raft addresses and the shard leaders it recorded. -/
theorem snapshot_transparent {β : Type*} (c : Codec β) (hc : c.RoundTrips) :
    (∀ (f g : FSM) (cs ds : List (Option Command)) (data : β),
      (f.applyAll cs).1.snapshot c = some data →
        ∃ g', g.restore c data = (g', none) ∧
          (g'.applyAll ds).1.Same (f.applyAll (cs ++ ds)).1 ∧
          (f.applyAll cs).2 ++ (g'.applyAll ds).2 = (f.applyAll (cs ++ ds)).2) ∧
      ∀ (g : FSM) (p : SnapshotV1) (data : β), c.marshalV1 p = some data →
        ∃ g', g.restore c data = (g', none) ∧
          (∀ id, (g'.memberAt id).map Member.raftAddr = p.members.find id) ∧
          ∀ s, g'.shardLeaders.lookup s = p.shardLeaders.find s := by
  refine ⟨?_, fun g p data hdata => FSM.restore_v1 hc g hdata⟩
  intro f g cs ds data hdata
  obtain ⟨g', hrestore, hsame⟩ := FSM.restore_snapshot hc g hdata
  obtain ⟨hsame', herrs⟩ := hsame.applyAll ds
  rw [FSM.applyAll_append]
  exact ⟨g', hrestore, hsame', by rw [herrs]⟩

/-- A codec that keeps the structs as they are. -/
def plainCodec : Codec (SnapshotPayload ⊕ SnapshotV1) where
  marshal p := some (.inl p)
  marshalV1 p := some (.inr p)
  probe := Sum.elim SnapshotPayload.version fun _ => 0
  unmarshal := Sum.elim some fun _ => none
  unmarshalV1 := Sum.elim (fun _ => none) some

theorem plainCodec_roundTrips : plainCodec.RoundTrips where
  v2 := by
    rintro p _ ⟨⟩
    exact ⟨rfl, p, rfl, fun _ => rfl, fun _ => rfl, rfl⟩
  v1 := by
    rintro p _ ⟨⟩
    exact ⟨show (0 : ℤ) ≠ 2 by decide, p, rfl, fun _ => rfl, fun _ => rfl⟩

/-- Member `a` is registered with a client address, and after the snapshot added again without
one: it keeps the address. -/
theorem snapshot_transparent_readded :
    ∃ data g', (FSM.new.applyAll [some ⟨.registerMember, "a", "a:7", "a:9", 0⟩]).1.snapshot
        plainCodec = some data ∧
      FSM.new.restore plainCodec data = (g', none) ∧
      ((g'.applyAll [some ⟨.addMember, "a", "a:8", "", 0⟩]).1.memberAt "a") =
        some ⟨"a", "a:8", "a:9"⟩ := by
  obtain ⟨g', hrestore, hsame, -⟩ := (snapshot_transparent plainCodec plainCodec_roundTrips).1
    FSM.new FSM.new [some ⟨.registerMember, "a", "a:7", "a:9", 0⟩]
    [some ⟨.addMember, "a", "a:8", "", 0⟩] _ rfl
  exact ⟨_, g', rfl, hrestore, (hsame.members "a").trans rfl⟩

end AgentBus.Leadership
