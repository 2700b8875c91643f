import AgentBus.Cluster.Subscribe
import AgentBus.Lib.Machine

/-!
# A subscription that is cancelled

The goroutine of `Subscribe` (`internal/cluster/shardwal/shardwal.go`) after its context was
cancelled, when nobody receives on its channel and the shard stays as it is.

The backfill ends at a cancelled context.  The live loop looks at the context only while there is
nothing to read: with synced records left it starts `Replay` again, whose callback stops at the
first of them, and so on.  It makes finitely many passes exactly when it has nothing left to read
or has not got to the loop (`passes_bounded_iff`), and with a full channel it never returns
(`full_channel_spins`).

## Main definitions

* `Subscriber.passes` — the passes of the live loop in a run.
* `Phase.Backfilling` — the goroutine is in its first scan.
* `Subscriber.Spinning` — it is past it, and has synced records left to read.
-/

namespace AgentBus.Cluster

open Bytes Framing

variable (sum : List UInt8 → UInt32)

/-- What the goroutine can do by itself. -/
def Input.Own (input : Input) : Prop := input = .go ∨ input = .quit

/-- The goroutine begins a pass of the live loop: it starts `Replay`. -/
def Subscriber.Passes (s : LogFile) (t : Subscriber) : Prop :=
  t.phase = .live ∧ t.next < s.shard.synced

instance (s : LogFile) (t : Subscriber) : Decidable (t.Passes s) :=
  inferInstanceAs (Decidable (t.phase = .live ∧ t.next < s.shard.synced))

/-- How many passes the goroutine begins in a run. -/
def Subscriber.passes (s : LogFile) : Subscriber → List Input → ℕ
  | _, [] => 0
  | t, input :: inputs =>
    match t.step sum s input with
    | none => 0
    | some t' => (if t.Passes s then 1 else 0) + passes s t' inputs

/-- The limit of the scan the goroutine is in. -/
def Phase.limit : Phase → Option (Option ℕ)
  | .header scan => some scan.limit
  | .body scan _ => some scan.limit
  | .sending scan _ => some scan.limit
  | .live => none
  | .closed => none

/-- The goroutine is in its first scan, which has no limit. -/
def Phase.Backfilling (phase : Phase) : Prop := phase.limit = some none

instance (phase : Phase) : Decidable phase.Backfilling :=
  inferInstanceAs (Decidable (phase.limit = some none))

/-- The goroutine is past its first scan, has not returned, and has synced records left to read. -/
structure Subscriber.Spinning (s : LogFile) (t : Subscriber) : Prop where
  sound : t.Sound sum s.shard.records
  cancelled : t.cancelled = true
  running : t.phase ≠ .closed
  past : ¬ t.phase.Backfilling
  behind : t.next < s.shard.synced

/-- What the goroutine can do by itself once its context is cancelled. -/
inductive Subscriber.Moves (s : LogFile) (t : Subscriber) : Subscriber → Prop
  /-- The scan goes on. -/
  | scans {phase : Phase} {limit : Option ℕ} (hlimit : t.phase.limit = some limit)
      (hlimit' : phase.limit = some limit) : Moves s t { t with phase := phase }
  /-- The scan ends; after the first one the goroutine returns. -/
  | ends {limit : Option ℕ} (hlimit : t.phase.limit = some limit) :
      Moves s t { t with phase := if limit = none then .closed else .live }
  /-- A record is sent. -/
  | sends {phase : Phase} {limit : Option ℕ} (r : ℕ × Payload) (hlimit : t.phase.limit = some limit)
      (hlimit' : phase.limit = some limit) (hroom : t.queue.length < channelSize) :
      Moves s t { t with
        phase := phase
        next := t.next + 1
        queue := t.queue ++ [r]
        sent := t.sent ++ [(r.1, s.shard.synced)] }
  /-- A pass of the live loop begins. -/
  | passes {scan : Scan} (hlive : t.phase = .live) (hbehind : t.next < s.shard.synced)
      (hlimit : scan.limit ≠ none) : Moves s t { t with phase := .header scan }
  /-- The goroutine returns. -/
  | returns (hlive : t.phase = .live) (hnothing : s.shard.synced ≤ t.next) :
      Moves s t { t with phase := .closed }

variable {sum} {s : LogFile} {t t' : Subscriber} {input : Input}

/-! ## One step -/

/-- The header of a record gives the checksum of its payload. -/
theorem ofBe_checksum (p : Payload) :
    ofBe (((encodeRecord sum p).take 8).drop 4) = (sum p).toNat := by
  rw [List.drop_take, encodeRecord, List.append_assoc, List.drop_left' (length_be 4 p.length),
    List.take_left' (length_be 4 _)]
  exact ofBe_be (sum p).toNat_lt

theorem Subscriber.moves_ended (hcancel : t.cancelled = true) {scan : Scan}
    (hlimit : t.phase.limit = some scan.limit) : t.Moves s (t.ended scan) := by
  have hends := Subscriber.Moves.ends (s := s) hlimit
  unfold Subscriber.ended
  split
  · rename_i hnone
    simpa [hnone, hcancel] using hends
  · rename_i hsome
    simpa [hsome] using hends

theorem Subscriber.moves_deliver (hcancel : t.cancelled = true) {scan : Scan}
    (hlimit : t.phase.limit = some scan.limit) (payload : Payload) :
    t.Moves s (t.deliver scan payload) := by
  unfold Subscriber.deliver
  split
  · split
    · exact .scans hlimit rfl
    · split
      · exact moves_ended hcancel hlimit
      · exact .scans hlimit rfl
  · exact .scans hlimit rfl

section Step

variable (hsize : ∀ p ∈ s.shard.records, p.length ≤ maxPayloadSize)
  (h : t.Sound sum s.shard.records)

include hsize h

/-- The file ends before a header, or the header is that of a record. -/
theorem Subscriber.Sound.step_header {scan : Scan} (hphase : t.phase = .header scan) :
    t.step sum s .go = some (t.ended scan) ∨
      ∃ hdr, t.step sum s .go = some { t with phase := .body scan hdr } := by
  have hat := h.phase
  rw [hphase] at hat
  simp only [Subscriber.step, hphase]
  split
  · exact .inl rfl
  · rename_i hdr rest hread
    obtain ⟨p, hp, rfl⟩ := hat.1.header hread
    have hle := hsize p (List.mem_of_getElem? hp)
    rw [ofBe_header hle, if_neg (not_lt.mpr hle)]
    exact .inr ⟨_, rfl⟩

/-- The file ends before a payload, or the payload is that of the record. -/
theorem Subscriber.Sound.step_body {scan : Scan} {hdr : List UInt8}
    (hphase : t.phase = .body scan hdr) :
    t.step sum s .go = some (t.ended scan) ∨
      ∃ p, s.shard.records[scan.offset]? = some p ∧
        t.step sum s .go = some (t.deliver scan p) := by
  have hat := h.phase
  rw [hphase] at hat
  obtain ⟨⟨hat, -⟩, p, hp, rfl⟩ := hat
  simp only [Subscriber.step, hphase]
  rw [ofBe_header (hsize p (List.mem_of_getElem? hp))]
  split
  · exact .inl rfl
  · rename_i payload rest hread
    obtain rfl := hat.body hp hread
    rw [ofBe_checksum, if_neg (not_not.mpr rfl)]
    exact .inr ⟨payload, hp, rfl⟩

/-- **What the goroutine can do by itself** once its context is cancelled. -/
theorem Subscriber.Sound.moves (hcancel : t.cancelled = true) (hown : input.Own)
    (hstep : t.step sum s input = some t') : t.Moves s t' := by
  have hat := h.phase
  rcases hown with rfl | rfl
  · cases hphase : t.phase with
    | header scan =>
      rcases h.step_header hsize hphase with heq | ⟨hdr, heq⟩
      · cases heq.symm.trans hstep
        exact moves_ended hcancel (by rw [hphase]; rfl)
      · cases heq.symm.trans hstep
        have hlimit : t.phase.limit = some scan.limit := by rw [hphase]; rfl
        exact .scans hlimit rfl
    | body scan hdr =>
      rcases h.step_body hsize hphase with heq | ⟨p, -, heq⟩
      · cases heq.symm.trans hstep
        exact moves_ended hcancel (by rw [hphase]; rfl)
      · cases heq.symm.trans hstep
        exact moves_deliver hcancel (by rw [hphase]; rfl) p
    | sending scan payload =>
      rw [hphase] at hat
      have hnext : t.next = scan.offset := hat.1.2.trans (max_eq_left hat.2.1)
      simp only [Subscriber.step, hphase] at hstep
      split at hstep
      · rename_i hroom
        cases hstep
        rw [← hnext]
        have hlimit : t.phase.limit = some scan.limit := by rw [hphase]; rfl
        exact .sends (t.next, payload) hlimit rfl hroom
      · cases hstep
    | live =>
      simp only [Subscriber.step, hphase] at hstep
      split at hstep
      · rename_i hbehind
        cases hstep
        exact .passes hphase hbehind (by simp [Scan.start])
      · rename_i hbehind
        cases hstep
        exact .returns hphase (not_lt.mp hbehind)
    | closed =>
      simp only [Subscriber.step, hphase] at hstep
      cases hstep
  · simp only [Subscriber.step] at hstep
    split at hstep
    · rename_i scan payload hphase
      rw [if_pos hcancel] at hstep
      cases hstep
      exact moves_ended hcancel (by rw [hphase]; rfl)
    · cases hstep

end Step

/-! ## Where the passes are bounded -/

/-- The goroutine has returned, is in its first scan, or has nothing left to read. -/
def Subscriber.Done (s : LogFile) (t : Subscriber) : Prop :=
  t.phase = .closed ∨ t.phase.Backfilling ∨ s.shard.synced ≤ t.next

theorem Subscriber.Moves.done (hmove : t.Moves s t') (hdone : t.Done s) : t'.Done s := by
  have hsame {limit : Option ℕ} {phase : Phase} (hlimit : t.phase.limit = some limit)
      (hlimit' : phase.limit = some limit) (hdone : t.Done s) :
      phase.Backfilling ∨ s.shard.synced ≤ t.next := by
    rcases hdone with hclosed | hback | hnothing
    · rw [hclosed] at hlimit
      cases hlimit
    · exact .inl (hlimit'.trans (hlimit.symm.trans hback))
    · exact .inr hnothing
  cases hmove with
  | scans hlimit hlimit' => exact .inr (hsame hlimit hlimit' hdone)
  | ends hlimit =>
    rename_i limit
    rcases hdone with hclosed | hback | hnothing
    · rw [hclosed] at hlimit
      cases hlimit
    · obtain rfl : limit = none := Option.some.inj (hlimit.symm.trans hback)
      exact .inl rfl
    · exact .inr (.inr hnothing)
  | sends r hlimit hlimit' hroom =>
    rcases hsame hlimit hlimit' hdone with hback | hnothing
    · exact .inr (.inl hback)
    · exact .inr (.inr (hnothing.trans (Nat.le_succ _)))
  | passes hlive hbehind =>
    rcases hdone with hclosed | hback | hnothing
    · rw [hlive] at hclosed
      cases hclosed
    · rw [hlive] at hback
      cases hback
    · omega
  | returns => exact .inl rfl

theorem Subscriber.Done.not_passes (h : t.Done s) : ¬ t.Passes s := by
  rintro ⟨hlive, hbehind⟩
  rcases h with hclosed | hback | hnothing
  · rw [hlive] at hclosed
    cases hclosed
  · rw [hlive] at hback
    cases hback
  · omega

theorem Subscriber.Moves.cancelled (hmove : t.Moves s t') : t'.cancelled = t.cancelled := by
  cases hmove <;> rfl

/-- Then it makes no pass any more. -/
theorem Subscriber.Done.passes_eq_zero (hsize : ∀ p ∈ s.shard.records, p.length ≤ maxPayloadSize)
    (h : t.Sound sum s.shard.records) (hcancel : t.cancelled = true) (hdone : t.Done s)
    {inputs : List Input} (hown : ∀ input ∈ inputs, input.Own) :
    t.passes sum s inputs = 0 := by
  induction inputs generalizing t with
  | nil => rfl
  | cons input inputs ih =>
    rw [Subscriber.passes]
    split
    · rfl
    · rename_i t' hstep
      have hmove := h.moves hsize hcancel (hown input (by simp)) hstep
      rw [if_neg hdone.not_passes, Nat.zero_add]
      exact ih (h.step hsize hstep) (hmove.cancelled.trans hcancel) (hmove.done hdone)
        fun i hi => hown i (List.mem_cons_of_mem _ hi)

/-! ## Where they are not -/

/-- How far the goroutine is from the live loop. -/
def Phase.rank (records : List Payload) : Phase → ℕ
  | .header scan => 3 * (records.length - scan.offset) + 3
  | .body scan _ => 3 * (records.length - scan.offset) + 2
  | .sending _ _ => 1
  | .live => 0
  | .closed => 0

/-- Another phase of the same scan, or the live loop. -/
theorem Subscriber.Spinning.move (h : t.Spinning sum s) {phase : Phase}
    (hat : phase.At sum s.shard.records t.next) (hrunning : phase ≠ .closed)
    (hpast : ¬ phase.Backfilling) : Subscriber.Spinning sum s { t with phase := phase } :=
  ⟨h.sound.move hat, h.cancelled, hrunning, hpast, h.behind⟩

/-- A scan of the live loop leads back to it. -/
theorem Subscriber.ended_eq_live {scan : Scan} (hpast : scan.limit ≠ none) :
    t.ended scan = { t with phase := .live } := by
  unfold Subscriber.ended
  split
  · rename_i hnone
    exact absurd hnone hpast
  · rfl

theorem Subscriber.deliver_cases {scan : Scan} (hpast : scan.limit ≠ none) (payload : Payload) :
    t.deliver scan payload = { t with phase := .sending scan payload } ∨
      t.deliver scan payload = { t with phase := .live } ∨
      t.deliver scan payload = { t with phase := .header (scan.advance payload) } := by
  unfold Subscriber.deliver
  split
  · split
    · exact .inl rfl
    · split
      · exact .inr (.inl (ended_eq_live hpast))
      · exact .inl rfl
  · exact .inr (.inr rfl)

theorem Subscriber.Spinning.live (h : t.Spinning sum s) :
    Subscriber.Spinning sum s { t with phase := .live } :=
  h.move trivial (by simp) (by simp [Phase.Backfilling, Phase.limit])

/-- **Towards the live loop.**  A goroutine that spins has a step that brings it closer, and it
does not send. -/
theorem Subscriber.Spinning.closer (hsize : ∀ p ∈ s.shard.records, p.length ≤ maxPayloadSize)
    (h : t.Spinning sum s) (hlive : t.phase ≠ .live) :
    ∃ input t', input.Own ∧ t.step sum s input = some t' ∧ t'.Spinning sum s ∧
      t'.phase.rank s.shard.records < t.phase.rank s.shard.records := by
  have hat := h.sound.phase
  have hpast := h.past
  cases hphase : t.phase with
  | header scan =>
    rw [hphase] at hat hpast
    have hlimit : scan.limit ≠ none := fun hnone => hpast (congrArg some hnone)
    rcases h.sound.step_header hsize hphase with hstep | ⟨hdr, hstep⟩
    · rw [ended_eq_live hlimit] at hstep
      exact ⟨.go, _, .inl rfl, hstep, h.live, by simp [Phase.rank]⟩
    · refine ⟨.go, _, .inl rfl, hstep, ?_, by simp [Phase.rank]⟩
      have hnext := h.sound.step hsize hstep
      exact h.move hnext.phase (by simp) hpast
  | body scan hdr =>
    rw [hphase] at hat hpast
    have hlimit : scan.limit ≠ none := fun hnone => hpast (congrArg some hnone)
    rcases h.sound.step_body hsize hphase with hstep | ⟨p, hp, hstep⟩
    · rw [ended_eq_live hlimit] at hstep
      exact ⟨.go, _, .inl rfl, hstep, h.live, by simp [Phase.rank]⟩
    · refine ⟨.go, _, .inl rfl, hstep, ?_⟩
      have hlt : scan.offset < s.shard.records.length := (List.getElem?_eq_some_iff.mp hp).1
      have hnext := h.sound.step hsize hstep
      rcases deliver_cases hlimit p with heq | heq | heq
      · rw [heq] at hnext ⊢
        exact ⟨h.move hnext.phase (by simp) hpast, by simp [Phase.rank]⟩
      · rw [heq]
        exact ⟨h.live, by simp [Phase.rank]⟩
      · rw [heq] at hnext ⊢
        refine ⟨h.move hnext.phase (by simp) hpast, ?_⟩
        simp only [Phase.rank, Scan.advance]
        omega
  | sending scan payload =>
    rw [hphase] at hpast
    have hlimit : scan.limit ≠ none := fun hnone => hpast (congrArg some hnone)
    refine ⟨.quit, { t with phase := .live }, .inr rfl, ?_, h.live, by simp [Phase.rank]⟩
    simp [Subscriber.step, hphase, h.cancelled, ended_eq_live hlimit]
  | live => exact absurd hphase hlive
  | closed => exact absurd hphase h.running

/-- A goroutine that spins can get to the live loop. -/
theorem Subscriber.Spinning.exists_live
    (hsize : ∀ p ∈ s.shard.records, p.length ≤ maxPayloadSize) (h : t.Spinning sum s) :
    ∃ inputs t', (∀ input ∈ inputs, Input.Own input) ∧
      Machine.run (Subscriber.step sum s) t inputs = some t' ∧ t'.Spinning sum s ∧
      t'.phase = .live := by
  induction hn : t.phase.rank s.shard.records using Nat.strong_induction_on generalizing t with
  | _ n ih =>
    by_cases hlive : t.phase = .live
    · exact ⟨[], t, by simp, rfl, h, hlive⟩
    · obtain ⟨input, t₁, hown, hstep, h₁, hrank⟩ := h.closer hsize hlive
      obtain ⟨inputs, t', howns, hrun, h', hlive'⟩ := ih _ (hn ▸ hrank) h₁ rfl
      refine ⟨input :: inputs, t', ?_, ?_, h', hlive'⟩
      · intro i hi
        rcases List.mem_cons.mp hi with rfl | hi
        · exact hown
        · exact howns i hi
      · simp only [Machine.run, hstep, Option.bind_some, hrun]

theorem Subscriber.passes_append {inputs rest : List Input}
    (hrun : Machine.run (Subscriber.step sum s) t inputs = some t') :
    t.passes sum s (inputs ++ rest) = t.passes sum s inputs + t'.passes sum s rest := by
  induction inputs generalizing t with
  | nil =>
    cases hrun
    simp [Subscriber.passes]
  | cons input inputs ih =>
    obtain ⟨t₁, hstep, hrun⟩ := Option.bind_eq_some_iff.mp hrun
    simp only [List.cons_append, Subscriber.passes, hstep, ih hrun]
    omega

/-- **A goroutine that spins makes any number of passes.** -/
theorem Subscriber.Spinning.exists_passes
    (hsize : ∀ p ∈ s.shard.records, p.length ≤ maxPayloadSize) (h : t.Spinning sum s) (n : ℕ) :
    ∃ inputs, (∀ input ∈ inputs, Input.Own input) ∧ n ≤ t.passes sum s inputs := by
  induction n generalizing t with
  | zero => exact ⟨[], by simp, Nat.zero_le _⟩
  | succ n ih =>
    obtain ⟨inputs, t₁, howns, hrun, h₁, hlive⟩ := h.exists_live hsize
    -- the next step begins a pass
    have hstep : t₁.step sum s .go =
        some { t₁ with phase := .header (.start (some s.shard.synced) t₁.next) } := by
      simp [Subscriber.step, hlive, h₁.behind]
    have h₂ : Subscriber.Spinning sum s
        { t₁ with phase := .header (.start (some s.shard.synced) t₁.next) } :=
      h₁.move (h₁.sound.step hsize hstep).phase (by simp)
        (by simp [Phase.Backfilling, Phase.limit, Scan.start])
    obtain ⟨rest, hrest, hpasses⟩ := ih h₂
    refine ⟨inputs ++ .go :: rest, ?_, ?_⟩
    · intro i hi
      rcases List.mem_append.mp hi with hi | hi
      · exact howns i hi
      · rcases List.mem_cons.mp hi with rfl | hi
        · exact .inl rfl
        · exact hrest i hi
    · rw [passes_append hrun]
      have hpass : t₁.Passes s := ⟨hlive, h₁.behind⟩
      simp only [Subscriber.passes, hstep, if_pos hpass]
      omega

/-- **When a cancelled subscription stops.**  Once the context is cancelled and nobody receives, the
live loop makes a bounded number of further passes exactly when the goroutine has returned, is
still in the backfill, or has nothing left to read. -/
theorem passes_bounded_iff (s : LogFile)
    (hsize : ∀ p ∈ s.shard.records, p.length ≤ maxPayloadSize) (t : Subscriber)
    (h : t.Sound sum s.shard.records) (hcancel : t.cancelled = true) :
    (∃ n, ∀ inputs : List Input, (∀ input ∈ inputs, input.Own) → t.passes sum s inputs ≤ n) ↔
      t.phase = .closed ∨ t.phase.Backfilling ∨ s.shard.synced ≤ t.next := by
  constructor
  · rintro ⟨n, hn⟩
    by_contra hnot
    push Not at hnot
    have hspins : t.Spinning sum s := ⟨h, hcancel, hnot.1, hnot.2.1, hnot.2.2⟩
    obtain ⟨inputs, howns, hpasses⟩ := hspins.exists_passes hsize (n + 1)
    have hle := hn inputs howns
    omega
  · intro hdone
    exact ⟨0, fun inputs howns => (Subscriber.Done.passes_eq_zero hsize h hcancel hdone howns).le⟩

/-- A subscription that is cancelled before it has read anything. -/
theorem passes_bounded_backfill :
    ∃ n, ∀ inputs : List Input, (∀ input ∈ inputs, input.Own) →
      Subscriber.passes Wal.crc32c (LogFile.opened Wal.crc32c [[1], [2]])
        { Subscriber.new 0 with cancelled := true } inputs ≤ n := by
  have hsound : (Subscriber.new 0).Sound Wal.crc32c [[1], [2]] := Subscriber.sound_new _ 0
  refine (passes_bounded_iff _ ?_ { Subscriber.new 0 with cancelled := true }
    ⟨hsound.out, hsound.next, hsound.phase⟩ rfl).mpr (.inr (.inl rfl))
  simp [LogFile.opened, Shard.opened, maxPayloadSize]

/-! ## A full channel -/

/-- A goroutine that spins on a full channel goes on spinning. -/
theorem Subscriber.Spinning.step_full
    (hsize : ∀ p ∈ s.shard.records, p.length ≤ maxPayloadSize) (h : t.Spinning sum s)
    (hfull : channelSize ≤ t.queue.length) (hown : input.Own)
    (hstep : t.step sum s input = some t') :
    t'.Spinning sum s ∧ channelSize ≤ t'.queue.length := by
  have hsound := h.sound.step hsize hstep
  have hpast := h.past
  cases h.sound.moves hsize h.cancelled hown hstep with
  | scans hlimit hlimit' =>
    refine ⟨⟨hsound, h.cancelled, ?_, ?_, h.behind⟩, hfull⟩
    · rintro rfl
      cases hlimit'
    · exact fun hback => hpast (hlimit.trans (hlimit'.symm.trans hback))
  | ends hlimit =>
    rename_i limit
    have hsome : limit ≠ none := by
      rintro rfl
      exact hpast hlimit
    rw [if_neg hsome]
    exact ⟨h.live, hfull⟩
  | sends r hlimit hlimit' hroom => omega
  | passes hlive hbehind hlimit =>
    refine ⟨⟨hsound, h.cancelled, by simp, ?_, h.behind⟩, hfull⟩
    exact fun hback => hlimit (Option.some.inj hback)
  | returns hlive hnothing =>
    have hbehind := h.behind
    omega

theorem Subscriber.Spinning.run_full
    (hsize : ∀ p ∈ s.shard.records, p.length ≤ maxPayloadSize) (h : t.Spinning sum s)
    (hfull : channelSize ≤ t.queue.length) {inputs : List Input}
    (hown : ∀ input ∈ inputs, input.Own)
    (hrun : Machine.run (Subscriber.step sum s) t inputs = some t') : t'.Spinning sum s := by
  induction inputs generalizing t with
  | nil =>
    cases hrun
    exact h
  | cons input inputs ih =>
    obtain ⟨t₁, hstep, hrun⟩ := Option.bind_eq_some_iff.mp hrun
    obtain ⟨h₁, hfull₁⟩ := h.step_full hsize hfull (hown input (by simp)) hstep
    exact ih h₁ hfull₁ (fun i hi => hown i (List.mem_cons_of_mem _ hi)) hrun

/-- `n` records of one byte. -/
def oneByte (n : ℕ) : List Payload := List.replicate n [0]

/-- A subscription of `n` records that nobody has received from, in the live loop and cancelled. -/
def unread (n : ℕ) : Subscriber where
  start := 0
  next := n
  phase := .live
  cancelled := true
  queue := numbered 0 (oneByte n)
  received := []
  sent := (List.range n).map fun off => (off, n)

theorem spinning_unread (n : ℕ) :
    (unread n).Spinning sum (LogFile.opened sum (oneByte (n + 1))) where
  sound := by
    refine ⟨fun i r hr => ?_, by simp [unread, numbered, oneByte], trivial⟩
    simp only [unread, List.nil_append, getElem?_numbered, oneByte, List.getElem?_replicate] at hr
    split at hr
    · rename_i hi
      cases hr
      refine ⟨rfl, ?_⟩
      simp [LogFile.opened, Shard.opened, oneByte, unread, Nat.lt_succ_of_lt hi]
    · cases hr
  cancelled := rfl
  running := by simp [unread]
  past := by simp [unread, Phase.Backfilling, Phase.limit]
  behind := by simp [unread, LogFile.opened, Shard.opened, oneByte]

/-- The channel is full, the context is cancelled and one synced record is left: the goroutine makes
any number of passes, and never returns. -/
theorem full_channel_spins :
    (unread 128).Sound Wal.crc32c (oneByte 129) ∧ (unread 128).cancelled = true ∧
      (unread 128).queue.length = channelSize ∧
      (∀ n, ∃ inputs : List Input, (∀ input ∈ inputs, input.Own) ∧
        n ≤ (unread 128).passes Wal.crc32c (LogFile.opened Wal.crc32c (oneByte 129)) inputs) ∧
      ∀ (inputs : List Input) (t : Subscriber), (∀ input ∈ inputs, input.Own) →
        Machine.run (Subscriber.step Wal.crc32c (LogFile.opened Wal.crc32c (oneByte 129)))
          (unread 128) inputs = some t → t.phase ≠ .closed := by
  have hspins : (unread 128).Spinning Wal.crc32c (LogFile.opened Wal.crc32c (oneByte 129)) :=
    spinning_unread 128
  have hsize : ∀ p ∈ (LogFile.opened Wal.crc32c (oneByte 129)).shard.records,
      p.length ≤ maxPayloadSize := by
    intro p hp
    rw [List.eq_of_mem_replicate hp]
    decide
  have hfull : (unread 128).queue.length = channelSize := by
    simp [unread, numbered, oneByte, channelSize]
  refine ⟨hspins.sound, rfl, hfull, hspins.exists_passes hsize, fun inputs t hown hrun => ?_⟩
  exact (hspins.run_full hsize hfull.ge hown hrun).running

end AgentBus.Cluster
