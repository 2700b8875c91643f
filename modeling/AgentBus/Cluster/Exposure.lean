import AgentBus.Cluster.Subscribe

/-!
# What a subscription exposes

The loop of `Subscribe` sends what is synced, so that nobody sees a record that a failed sync could
lose.  The backfill before it sends whatever is in the file, and a record is in the file before its
sync is over (`sent_before_synced`).  If a backfill sends a record only after the call that appended
it and the rounds that have flushed it are over, and the last round did not fail, every record sent
was synced (`sent_synced`), with any failures of the disk.

Both rest on the group commit: a record that is not synced is in the hands of some call unless a
round has failed, and what a round will declare synced is no less than what is synced, so `synced`
never goes back.

## Main definitions

* `backfillQuiet` — the condition.
* `backfillSynced` — what it comes to.
* `Subscriber.Within` — a subscription has sent, and will send, synced records.
-/

namespace AgentBus.Cluster

open GroupCommit Pool

/-- The offset that a backfill is about to send. -/
def Task.backfilling : Task → Input → Option ℕ
  | .subscribe t, .go =>
    match t.phase with
    | .sending scan _ => if scan.limit = none then some scan.offset else none
    | _ => none
  | _, _ => none

/-- The task has a record in its hands. -/
def Task.Covers (k : ℕ) : Task → Prop
  | .append a => a.Covers k
  | .subscribe _ => False

instance Task.decidableCovers (k : ℕ) (t : Task) : Decidable (t.Covers k) := by
  cases t with
  | append a => exact inferInstanceAs (Decidable (a.Covers k))
  | subscribe t => exact isFalse fun h => h

/-- A backfill sends a record only while no call of `Append` has it in its hands, and if the last
round did not fail. -/
def backfillQuiet (w : World LogFile Task) : Act Start Input ℕ → Prop
  | .run i input => ∀ t ∈ w.threads[i]?, ∀ off ∈ t.backfilling input,
      w.shared.shard.syncErr = none ∧ ∀ u ∈ w.threads, ¬ u.Covers off
  | _ => True

instance (w : World LogFile Task) (a : Act Start Input ℕ) : Decidable (backfillQuiet w a) := by
  unfold backfillQuiet
  cases a <;> infer_instance

/-- A backfill sends a record only when it is synced. -/
def backfillSynced : Guard LogFile Task Input ℕ where
  thread s t input := ∀ off ∈ t.backfilling input, off < s.shard.synced
  env _ _ := True

/-! ## What is sent -/

/-- The scan of the goroutine, if it is in one. -/
def Phase.scan : Phase → Option Scan
  | .header scan => some scan
  | .body scan _ => some scan
  | .sending scan _ => some scan
  | _ => none

/-- What is known of a subscription when `synced` records are synced: a scan that is no backfill
stops before them, and what has been sent was synced. -/
structure Subscriber.Within (synced : ℕ) (t : Subscriber) : Prop where
  limit : ∀ scan ∈ t.phase.scan, ∀ currentTail ∈ scan.limit, currentTail ≤ synced
  sending : ∀ scan payload, t.phase = .sending scan payload →
    ∀ currentTail ∈ scan.limit, scan.offset < currentTail
  sent : ∀ off k, (off, k) ∈ t.sent → off < k ∧ k ≤ synced

variable {k : ℕ} {t : Subscriber}

theorem Subscriber.Within.mono {k' : ℕ} (h : t.Within k) (hk : k ≤ k') : t.Within k' :=
  ⟨fun scan hscan ct hct => (h.limit scan hscan ct hct).trans hk, h.sending,
    fun off k hoff => ⟨(h.sent off k hoff).1, (h.sent off k hoff).2.trans hk⟩⟩

/-- A step out of every scan. -/
theorem Subscriber.Within.leave (h : t.Within k) {phase : Phase} (hphase : phase.scan = none) :
    Subscriber.Within k { t with phase := phase } := by
  refine ⟨?_, ?_, h.sent⟩
  · intro scan hscan
    simp [hphase] at hscan
  · rintro scan payload rfl
    cases hphase

/-- A step within a scan. -/
theorem Subscriber.Within.stay (h : t.Within k) {phase : Phase}
    {scan scan' : Scan} (hscan : t.phase.scan = some scan) (hphase : phase.scan = some scan')
    (hlimit : scan'.limit = scan.limit)
    (hsending : ∀ scan'' payload, phase = .sending scan'' payload →
      ∀ currentTail ∈ scan''.limit, scan''.offset < currentTail) :
    Subscriber.Within k { t with phase := phase } := by
  refine ⟨?_, hsending, h.sent⟩
  intro scan'' hscan''
  have heq : scan'' = scan' := by simpa [hphase, eq_comm] using hscan''
  rw [heq, hlimit]
  exact h.limit scan hscan

theorem Subscriber.Within.ended (h : t.Within k) (scan : Scan) : (t.ended scan).Within k := by
  unfold Subscriber.ended
  split
  · refine h.leave ?_
    split <;> rfl
  · exact h.leave rfl

theorem Subscriber.Within.deliver (h : t.Within k) {scan : Scan} (hscan : t.phase.scan = some scan)
    (payload : Payload) : (t.deliver scan payload).Within k := by
  unfold Subscriber.deliver
  split
  · split
    · rename_i hlimit
      refine h.stay hscan rfl rfl ?_
      rintro _ _ ⟨⟩ currentTail hct
      simp [hlimit] at hct
    · rename_i currentTail hlimit
      split
      · exact h.ended scan
      · rename_i hlt
        refine h.stay hscan rfl rfl ?_
        rintro _ _ ⟨⟩ currentTail' hct
        rw [hlimit] at hct
        cases hct
        exact not_le.mp hlt
  · refine h.stay hscan rfl rfl ?_
    rintro _ _ ⟨⟩

/-- **One step of a subscription** sends only what is synced. -/
theorem Subscriber.Within.step {sum : List UInt8 → UInt32} {s : LogFile} {t' : Subscriber}
    {input : Input} (h : t.Within s.shard.synced)
    (hguard : backfillSynced.thread s (.subscribe t) input) (hstep : t.step sum s input = some t') :
    t'.Within s.shard.synced := by
  unfold Subscriber.step at hstep
  split at hstep
  · split at hstep
    · rename_i scan hphase
      split at hstep
      · cases hstep
        exact h.ended scan
      · split at hstep
        · cases hstep
          exact h.leave rfl
        · cases hstep
          have hscan : t.phase.scan = some scan := by rw [hphase]; rfl
          exact h.stay hscan rfl rfl (by rintro _ _ ⟨⟩)
    · rename_i scan hdr hphase
      split at hstep
      · cases hstep
        exact h.ended scan
      · split at hstep
        · cases hstep
          exact h.leave rfl
        · cases hstep
          exact h.deliver (by rw [hphase]; rfl) _
    · rename_i scan payload hphase
      split at hstep
      · cases hstep
        have hscan : t.phase.scan = some scan := by rw [hphase]; rfl
        -- The record is below the limit of the scan, or meets the condition.
        have hsynced : scan.offset < s.shard.synced := by
          cases hlimit : scan.limit with
          | none => exact hguard scan.offset (by simp [Task.backfilling, hphase, hlimit])
          | some currentTail =>
            exact Nat.lt_of_lt_of_le (h.sending scan payload hphase currentTail hlimit)
              (h.limit scan hscan currentTail hlimit)
        refine ⟨?_, by rintro _ _ ⟨⟩, ?_⟩
        · rintro _ ⟨⟩
          exact h.limit scan hscan
        · intro off k hoff
          rcases List.mem_append.mp hoff with hoff | hoff
          · exact h.sent off k hoff
          · cases List.mem_singleton.mp hoff
            exact ⟨hsynced, le_refl _⟩
      · cases hstep
    · split at hstep
      · cases hstep
        refine ⟨?_, by rintro _ _ ⟨⟩, h.sent⟩
        rintro _ ⟨⟩ _ ⟨⟩
        exact le_refl _
      · split at hstep
        · cases hstep
          exact h.leave rfl
        · cases hstep
    · cases hstep
  · split at hstep
    · split at hstep
      · cases hstep
        exact h.ended _
      · cases hstep
    · cases hstep
  · cases hstep
    exact ⟨h.limit, h.sending, h.sent⟩
  · split at hstep
    · cases hstep
    · cases hstep
      exact ⟨h.limit, h.sending, h.sent⟩
  · cases hstep

/-! ## The pool -/

/-- What is known of a task. -/
def Task.Within (s : LogFile) : Task → Prop
  | .append a => (∃ payload, a.Valid s.shard payload) ∧ a.Sound s.shard
  | .subscribe t => t.Within s.shard.synced

/-- What a task is to the rounds of the group commit. -/
def Task.role : Task → Role
  | .append a => a.role
  | .subscribe _ => .outside

section

variable {sum : List UInt8 → UInt32} {records : List Payload} {w : World LogFile Task}
  (h : (subscriptions sum).Reach backfillSynced (LogFile.opened sum records) w)

include h

/-- **The invariant of the pool.** -/
theorem subscriptions_within :
    Holds (fun s => s.shard.Valid ∧ s.shard.gens.Valid) (fun s t => t.Within s)
      (fun t u => t.role.Compatible u.role) w := by
  refine Program.Reach.local_invariant (fun t u htu => htu.symm) ?_ ?_ ?_ ?_ h
  · exact ⟨Shard.valid_opened records, Nat.zero_lt_one⟩
  · intro s r _
    cases r with
    | append payload =>
      exact ⟨⟨⟨payload, rfl⟩, trivial, by rintro _ _ _ _ ⟨⟩, by rintro _ ⟨⟩⟩,
        fun u _ => .outside _⟩
    | subscribe fromOffset =>
      refine ⟨⟨?_, by rintro _ _ ⟨⟩, by rintro _ _ ⟨⟩⟩, fun u _ => .outside _⟩
      rintro _ ⟨⟩ _ ⟨⟩
  · intro s t input s' t' hs ht hguard hstep
    cases t with
    | append a =>
      cases input with
      | disk d =>
        obtain ⟨⟨sh, a'⟩, ha, heq⟩ := Option.map_eq_some_iff.mp hstep
        cases heq
        obtain ⟨⟨payload, hvalid⟩, hsound⟩ := ht
        obtain ⟨hs', hgrows, hvalid'⟩ := Appending.step_spec hs.1 hvalid ha
        have hadv := Appending.step_rounds hs.1 hs.2 hvalid hsound ha
        obtain ⟨hgens, hsound'⟩ := hadv.own hs.2 hsound
        refine ⟨⟨⟨hs', hgens⟩, ⟨payload, hvalid'⟩, hsound'⟩, ?_⟩
        intro u hu hpair
        cases u with
        | append b =>
          obtain ⟨⟨payload', hb⟩, hbsound⟩ := hu
          obtain ⟨hbsound', hpair'⟩ := hadv.beside hs.2 hsound hbsound hpair
          exact ⟨⟨⟨payload', hgrows.appending hb⟩, hbsound'⟩, hpair'⟩
        | subscribe t => exact ⟨hu.mono hadv.forward, (Role.Compatible.outside _).symm⟩
      | _ => cases hstep
    | subscribe t =>
      obtain ⟨t₁, ht₁, heq⟩ := Option.map_eq_some_iff.mp hstep
      cases heq
      exact ⟨⟨hs, ht.step hguard ht₁⟩, fun u hu _ => ⟨hu, .outside _⟩⟩
  · intro s n s' hs _ henv
    cases henv
    refine ⟨hs, fun u hu => ?_⟩
    cases u with
    | append a => exact hu
    | subscribe t => exact hu

/-- A record that is not synced is in the hands of a call, unless a round has failed. -/
theorem subscriptions_covered (k : ℕ) (hk : w.shared.shard.Owes k) :
    ∃ t ∈ w.threads, t.Covers k := by
  refine Program.Reach.served (fun s k => s.shard.Owes k) (fun t k => t.Covers k)
    (fun w hw => subscriptions_within hw) ?_ ?_ ?_ h k hk
  · exact fun k hk => absurd hk.counted (not_lt.mpr hk.unsynced)
  · intro s t input s' t' k hs ht _ hstep howed
    cases t with
    | append a =>
      cases input with
      | disk d =>
        obtain ⟨⟨sh, a'⟩, ha, heq⟩ := Option.map_eq_some_iff.mp hstep
        cases heq
        obtain ⟨⟨payload, hvalid⟩, hsound⟩ := ht
        exact (Appending.step_rounds hs.1 hs.2 hvalid hsound ha).owes k howed
      | _ => cases hstep
    | subscribe t =>
      obtain ⟨t₁, -, heq⟩ := Option.map_eq_some_iff.mp hstep
      cases heq
      exact .inr ⟨howed, fun h => h⟩
  · intro s n s' k _ _ henv howed
    cases henv
    exact ⟨howed.unsynced, howed.counted, howed.pending⟩

/-- The record that a backfill is about to send has been counted. -/
theorem counted_of_backfilling (hrecords : ∀ p ∈ records, p.length ≤ maxPayloadSize) {t : Task}
    (ht : t ∈ w.threads) {input : Input} {off : ℕ} (hoff : off ∈ t.backfilling input) :
    off < w.shared.shard.tail := by
  have hsound := (subscriptions_sound hrecords h).of_mem ht
  unfold Task.backfilling at hoff
  split at hoff
  · rename_i t
    split at hoff
    · rename_i scan payload hphase
      have hat := Subscriber.Sound.phase hsound
      rw [hphase] at hat
      split at hoff <;> cases hoff
      exact (List.getElem?_eq_some_iff.mp hat.2.2).1
    · cases hoff
  · cases hoff

end

/-- A record that a backfill sends under the condition is synced. -/
theorem allows_of_backfillQuiet {sum : List UInt8 → UInt32} {records : List Payload}
    (hrecords : ∀ p ∈ records, p.length ≤ maxPayloadSize) (w : World LogFile Task)
    (a : Act Start Input ℕ)
    (h : (subscriptions sum).Reach backfillSynced (LogFile.opened sum records) w)
    (hquiet : backfillQuiet w a) : backfillSynced.Allows w a := by
  cases a with
  | spawn r => trivial
  | env n => trivial
  | run i input =>
    intro t ht off hoff
    obtain ⟨herr, hnone⟩ := hquiet t ht off hoff
    have hlt := counted_of_backfilling h hrecords (List.mem_of_getElem? ht) hoff
    by_contra hge
    obtain ⟨u, hu, hcovers⟩ := subscriptions_covered h off ⟨not_lt.mp hge, hlt, .inl herr⟩
    exact hnone u hu hcovers

/-- **Only synced records are sent.**  Beside any calls of `Append`, whose writes and syncs may be
pending or fail, in every run in which a backfill sends a record only after the last round has
succeeded and while no call has the record in its hands: each record sent was below `synced` when
it was sent, and a successful `fsync` has covered it. -/
theorem sent_synced (sum : List UInt8 → UInt32) (records : List Payload)
    (hrecords : ∀ p ∈ records, p.length ≤ maxPayloadSize) (w : World LogFile Task)
    (h : (subscriptions sum).Runs backfillQuiet ⟨LogFile.opened sum records, []⟩ w)
    (t : Subscriber) (ht : .subscribe t ∈ w.threads) (off synced : ℕ)
    (hsent : (off, synced) ∈ t.sent) : off < synced ∧ off < w.shared.shard.durable := by
  have hw := subscriptions_within (h.toReach fun w a _ => allows_of_backfillQuiet hrecords w a)
  have hwithin : t.Within w.shared.shard.synced := hw.of_mem ht
  obtain ⟨hlt, hle⟩ := hwithin.sent off synced hsent
  exact ⟨hlt, Nat.lt_of_lt_of_le hlt (hle.trans hw.shared.1.synced)⟩

/-- A record is appended while the sync of another is under way, and a backfill sends both; then a
third is appended and sent. -/
def backfillThenLive : List (Act Start Input ℕ) :=
  List.flatten [[.spawn (.append [1]), .spawn (.append [2])],
    [0, 1, 0, 0, 1, 1, 1].map fun i => .run i (.disk .healthy),
    [.spawn (.subscribe 0), .spawn (.append [3])], goes 2 7,
    List.replicate 3 (.run 3 (.disk .healthy)), goes 2 8]

theorem sent_synced_backfillThenLive :
    ∃ w t, (subscriptions Wal.crc32c).Runs backfillQuiet ⟨LogFile.opened Wal.crc32c [], []⟩ w ∧
      .subscribe t ∈ w.threads ∧ t.sent = [(0, 2), (1, 2), (2, 3)] ∧
      (2 < 3 ∧ 2 < w.shared.shard.durable) := by
  have hrun : ((subscriptions Wal.crc32c).execIf backfillQuiet
      ⟨LogFile.opened Wal.crc32c [], []⟩ backfillThenLive).bind
        (fun w => w.threads[2]?.map fun t =>
          match t with
          | .append _ => []
          | .subscribe t => t.sent) = some [(0, 2), (1, 2), (2, 3)] := by
    decide +kernel
  obtain ⟨w, hw, hthird⟩ := Option.bind_eq_some_iff.mp hrun
  obtain ⟨u, hu, heq⟩ := Option.map_eq_some_iff.mp hthird
  have hruns := Program.Runs.refl.execIf _ hw
  cases u with
  | append a => cases heq
  | subscribe t =>
    have ht := List.mem_of_getElem? hu
    have hsent : t.sent = [(0, 2), (1, 2), (2, 3)] := heq
    exact ⟨w, t, hruns, ht, hsent,
      sent_synced Wal.crc32c [] (by simp) w hruns t ht 2 3 (by rw [hsent]; simp)⟩

/-- A disk on which every sync fails. -/
def failingSync : Disk := ⟨.ok 0, .ok 0, .error 0⟩

/-- A record is flushed, and its sync is under way when a subscription starts; then the sync
fails. -/
def syncFails : List (Act Start Input ℕ) :=
  List.flatten [[.spawn (.append [1]), .run 0 (.disk failingSync), .spawn (.subscribe 0)],
    goes 1 3, [.run 1 .receive], List.replicate 2 (.run 0 (.disk failingSync))]

/-- The record is received, and its `Append` fails. -/
theorem sent_before_synced :
    ∃ w t, (subscriptions Wal.crc32c).Reach Guard.all (LogFile.opened Wal.crc32c []) w ∧
      w.threads = [.append (.failed .io), .subscribe t] ∧ t.received = [(0, [1])] ∧
      t.sent = [(0, 0)] ∧ w.shared.shard.synced = 0 ∧ w.shared.shard.durable = 0 := by
  have hrun : ((subscriptions Wal.crc32c).exec ⟨LogFile.opened Wal.crc32c [], []⟩ syncFails).map
      (fun w => (w.shared.shard.synced, w.shared.shard.durable, w.threads)) =
        some (0, 0, [.append (.failed .io), .subscribe
          { start := 0, next := 1, phase := .header ⟨none, 0, 1, 9⟩, cancelled := false,
            queue := [], received := [(0, [1])], sent := [(0, 0)] }]) := by
    decide +kernel
  obtain ⟨w, hw, heq⟩ := Program.exists_reach hrun
  simp only [Prod.mk.injEq] at heq
  exact ⟨w, _, hw, heq.2.2, rfl, rfl, heq.1, heq.2.1⟩

end AgentBus.Cluster
