import AgentBus.Lib.Maps
import AgentBus.Lib.Metering
import Mathlib.Data.Rat.Cast.Order
import Mathlib.Tactic.Linarith
import Mathlib.Tactic.Ring

/-!
# The rate limiter

`internal/ratelimit/ratelimit.go`: a token bucket for each key.  Every so many calls the buckets
that were not used for a while are deleted, and a key without a bucket starts with a full one.

An idle bucket may not have refilled by then: with a burst of more than the rate gives in the idle
time, a key is allowed more than its rate (`evicted_too_early`).  Otherwise what a key is allowed
in any window is at most the burst and what the rate gives (`allowed_le`).

The numbers are exact and times are in seconds.

## Main definitions

* `Limiter`, `newWithClock`, `Limiter.allow` — the source.
* `Limiter.budget` — the tokens a key would find at a time.
-/

namespace AgentBus.Ratelimit

open Maps Metering

/-- `gcEvery`. -/
def gcEvery : ℕ := 1024

/-- `defaultTTL`: five minutes. -/
def defaultTTL : ℚ := 5 * 60

/-- `bucket`. -/
structure Bucket where
  tokens : ℚ
  lastFill : ℚ
  lastSeen : ℚ
  deriving DecidableEq, Repr

/-- `Limiter`. -/
structure Limiter where
  rate : ℚ
  burst : ℚ
  ttl : ℚ
  buckets : AList fun _ : String => Bucket
  opsSinceGC : ℕ

/-- `newWithClock`; the clock is read by the calls. -/
def newWithClock (ratePerSec burst : ℚ) : Limiter where
  rate := ratePerSec
  burst := if 0 < ratePerSec ∧ burst < 1 then 1 else burst
  ttl := defaultTTL
  buckets := ∅
  opsSinceGC := 0

namespace Limiter

/-- `sweepIdleLocked`. -/
def sweepIdleLocked (l : Limiter) (now : ℚ) : Limiter :=
  { l with buckets := keeping (fun b => ¬ (l.ttl < now - b.lastSeen)) l.buckets }

/-- The sweep that `Allow` makes every `gcEvery` calls. -/
def sweepEvery (l : Limiter) (now : ℚ) : Limiter :=
  if gcEvery ≤ l.opsSinceGC + 1 then { l.sweepIdleLocked now with opsSinceGC := 0 }
  else { l with opsSinceGC := l.opsSinceGC + 1 }

/-- The bucket of a key at the time of a call: a full one when there is none. -/
def refilled (l : Limiter) (now : ℚ) (key : String) : Bucket :=
  match l.buckets.lookup key with
  | none => { tokens := l.burst, lastFill := now, lastSeen := now }
  | some b =>
    let elapsed := now - b.lastFill
    if 0 < elapsed then
      { tokens := if l.burst < b.tokens + elapsed * l.rate then l.burst
          else b.tokens + elapsed * l.rate
        lastFill := now
        lastSeen := now }
    else { b with lastSeen := now }

/-- `Allow`. -/
def allow (l : Limiter) (now : ℚ) (key : String) : Limiter × Bool :=
  if ¬ 0 < l.rate then (l, true)
  else
    let l := l.sweepEvery now
    let b := l.refilled now key
    if 1 ≤ b.tokens then
      ({ l with buckets := l.buckets.insert key { b with tokens := b.tokens - 1 } }, true)
    else ({ l with buckets := l.buckets.insert key b }, false)

/-- The tokens a key would find at a time. -/
def budget (key : String) (l : Limiter) (now : ℚ) : ℚ :=
  match l.buckets.lookup key with
  | none => l.burst
  | some b => min l.burst (b.tokens + l.rate * (now - b.lastFill))

/-- The settings are these, and every bucket was filled when it was last seen, holds no more than
the burst and was not seen later than now. -/
structure Sound (rate burst ttl : ℚ) (l : Limiter) (now : ℚ) : Prop where
  rate_eq : l.rate = rate
  burst_eq : l.burst = burst
  ttl_eq : l.ttl = ttl
  nonneg : ∀ key b, l.buckets.lookup key = some b → 0 ≤ b.tokens
  le_burst : ∀ key b, l.buckets.lookup key = some b → b.tokens ≤ burst
  filled : ∀ key b, l.buckets.lookup key = some b → b.lastFill = b.lastSeen
  seen : ∀ key b, l.buckets.lookup key = some b → b.lastSeen ≤ now

variable {rate burst ttl now : ℚ} {l : Limiter} {key : String}

/-! ## One call -/

/-- What a sweep leaves of a bucket. -/
theorem lookup_sweepEvery (l : Limiter) (now : ℚ) (key : String) :
    (l.sweepEvery now).buckets.lookup key = l.buckets.lookup key ∨
      ((l.sweepEvery now).buckets.lookup key = none ∧
        ∃ b, l.buckets.lookup key = some b ∧ l.ttl < now - b.lastSeen) := by
  unfold sweepEvery
  split
  · simp only [sweepIdleLocked, lookup_keeping]
    cases hl : l.buckets.lookup key with
    | none => exact .inl rfl
    | some b =>
      by_cases hidle : l.ttl < now - b.lastSeen
      · exact .inr ⟨by simp [Option.filter, hidle], b, rfl, hidle⟩
      · exact .inl (by simp [Option.filter, hidle])
  · exact .inl rfl

@[simp] theorem rate_sweepEvery : (l.sweepEvery now).rate = l.rate := by
  unfold sweepEvery
  split <;> rfl

@[simp] theorem burst_sweepEvery : (l.sweepEvery now).burst = l.burst := by
  unfold sweepEvery
  split <;> rfl

@[simp] theorem ttl_sweepEvery : (l.sweepEvery now).ttl = l.ttl := by
  unfold sweepEvery
  split <;> rfl

/-- The bucket that a call leaves. -/
def taken (b : Bucket) : Bucket :=
  if 1 ≤ b.tokens then { b with tokens := b.tokens - 1 } else b

theorem allow_eq (hrate : 0 < l.rate) :
    l.allow now key =
      ({ l.sweepEvery now with
          buckets := (l.sweepEvery now).buckets.insert key
            (taken ((l.sweepEvery now).refilled now key)) },
        decide (1 ≤ ((l.sweepEvery now).refilled now key).tokens)) := by
  simp only [allow, not_not.mpr hrate, if_false, taken]
  split <;> simp_all

theorem Sound.sweepEvery (h : l.Sound rate burst ttl now) :
    (l.sweepEvery now).Sound rate burst ttl now := by
  have hlookup (key : String) (b : Bucket)
      (hb : (l.sweepEvery now).buckets.lookup key = some b) : l.buckets.lookup key = some b := by
    rcases lookup_sweepEvery l now key with heq | ⟨hnone, -⟩
    · rwa [heq] at hb
    · rw [hnone] at hb
      cases hb
  exact ⟨by simp [h.rate_eq], by simp [h.burst_eq], by simp [h.ttl_eq],
    fun key b hb => h.nonneg key b (hlookup key b hb),
    fun key b hb => h.le_burst key b (hlookup key b hb),
    fun key b hb => h.filled key b (hlookup key b hb),
    fun key b hb => h.seen key b (hlookup key b hb)⟩

/-- The refilled bucket holds the budget, and was filled now. -/
theorem Sound.refilled (h : l.Sound rate burst ttl now) (key : String) :
    (l.refilled now key).tokens = l.budget key now ∧ (l.refilled now key).lastFill = now ∧
      (l.refilled now key).lastSeen = now := by
  unfold Limiter.refilled budget
  cases hl : l.buckets.lookup key with
  | none => exact ⟨rfl, rfl, rfl⟩
  | some b =>
    have hseen := h.seen key b hl
    rw [← h.filled key b hl] at hseen
    have hle := h.le_burst key b hl
    rw [← h.burst_eq] at hle
    simp only
    split
    · refine ⟨?_, rfl, rfl⟩
      rw [mul_comm l.rate]
      split
      · rename_i hfull
        exact (min_eq_left hfull.le).symm
      · rename_i hfull
        exact (min_eq_right (not_lt.mp hfull)).symm
    · rename_i helapsed
      have heq : b.lastFill = now := le_antisymm hseen (by linarith)
      refine ⟨?_, heq, rfl⟩
      simp [heq, hle]

theorem Sound.budget_nonneg (h : l.Sound rate burst ttl now) (hrate : 0 ≤ rate) (hburst : 0 ≤ burst)
    (key : String) : 0 ≤ l.budget key now := by
  unfold budget
  cases hl : l.buckets.lookup key with
  | none => exact h.burst_eq ▸ hburst
  | some b =>
    have hseen := h.seen key b hl
    rw [← h.filled key b hl] at hseen
    have hgain := mul_nonneg hrate (sub_nonneg.mpr hseen)
    rw [h.burst_eq, h.rate_eq]
    exact le_min hburst (add_nonneg (h.nonneg key b hl) hgain)

theorem Sound.budget_le (h : l.Sound rate burst ttl now) (key : String) :
    l.budget key now ≤ burst := by
  unfold budget
  rw [h.burst_eq]
  cases l.buckets.lookup key with
  | none => exact le_rfl
  | some b => exact min_le_left ..

/-- **A sweep gives nothing away** where a bucket refills within the idle time. -/
theorem Sound.budget_sweepEvery (h : l.Sound rate burst ttl now) (hrate : 0 ≤ rate)
    (hrefills : burst ≤ rate * ttl) (key : String) {t : ℚ} (ht : now ≤ t) :
    (l.sweepEvery now).budget key t = l.budget key t := by
  rcases lookup_sweepEvery l now key with heq | ⟨hnone, b, hb, hidle⟩
  · simp only [budget, heq, burst_sweepEvery, rate_sweepEvery]
  · simp only [budget, hnone, hb, burst_sweepEvery]
    have hnonneg := h.nonneg key b hb
    rw [h.ttl_eq, ← h.filled key b hb] at hidle
    have hgain : rate * ttl ≤ rate * (t - b.lastFill) :=
      mul_le_mul_of_nonneg_left (by linarith) hrate
    rw [h.rate_eq, h.burst_eq]
    exact (min_eq_left (by linarith)).symm

theorem lookup_allow (hrate : 0 < l.rate) (key key' : String) :
    (l.allow now key).1.buckets.lookup key' =
      if key' = key then some (taken ((l.sweepEvery now).refilled now key))
      else (l.sweepEvery now).buckets.lookup key' := by
  rw [allow_eq hrate]
  by_cases hkey : key' = key
  · subst hkey
    simp
  · simp [hkey]

theorem Sound.allow (h : l.Sound rate burst ttl now) (hrate : 0 < rate) (hburst : 0 ≤ burst)
    (key : String) : (l.allow now key).1.Sound rate burst ttl now := by
  have hpos : 0 < l.rate := h.rate_eq ▸ hrate
  have hswept := h.sweepEvery
  obtain ⟨htokens, hfill, hseen⟩ := hswept.refilled key
  have hnonneg := hswept.budget_nonneg hrate.le hburst key
  have hle := hswept.budget_le key
  rw [← htokens] at hnonneg hle
  -- the bucket of the key is new, and the others are those the sweep left
  have hnew : 0 ≤ (taken ((l.sweepEvery now).refilled now key)).tokens ∧
      (taken ((l.sweepEvery now).refilled now key)).tokens ≤ burst ∧
      (taken ((l.sweepEvery now).refilled now key)).lastFill = now ∧
      (taken ((l.sweepEvery now).refilled now key)).lastSeen = now := by
    unfold taken
    split
    · exact ⟨by simp; linarith, by simp; linarith, hfill, hseen⟩
    · exact ⟨hnonneg, hle, hfill, hseen⟩
  have hcases (P : Bucket → Prop) (hP : P (taken ((l.sweepEvery now).refilled now key)))
      (hold : ∀ key' b, (l.sweepEvery now).buckets.lookup key' = some b → P b) (key' : String)
      (b : Bucket) (hb : (l.allow now key).1.buckets.lookup key' = some b) : P b := by
    rw [lookup_allow hpos] at hb
    split at hb
    · cases hb
      exact hP
    · exact hold key' b hb
  refine ⟨?_, ?_, ?_, hcases _ hnew.1 hswept.nonneg, hcases _ hnew.2.1 hswept.le_burst,
    hcases _ (hnew.2.2.1.trans hnew.2.2.2.symm) hswept.filled, hcases _ hnew.2.2.2.le hswept.seen⟩
  · rw [allow_eq hpos]
    exact hswept.rate_eq
  · rw [allow_eq hpos]
    exact hswept.burst_eq
  · rw [allow_eq hpos]
    exact hswept.ttl_eq

/-- A call takes what it is granted off the budget of its key, and leaves the others. -/
theorem Sound.budget_allow (h : l.Sound rate burst ttl now) (hrate : 0 < rate)
    (hrefills : burst ≤ rate * ttl) (k key : String) :
    (l.allow now key).1.budget k now +
      (if (decide (key = k) && (l.allow now key).2) = true then 1 else 0) ≤ l.budget k now := by
  have hpos : 0 < l.rate := h.rate_eq ▸ hrate
  have hswept := h.sweepEvery
  rw [← h.budget_sweepEvery hrate.le hrefills k le_rfl]
  by_cases hkey : key = k
  · subst hkey
    obtain ⟨htokens, hfill, -⟩ := hswept.refilled key
    have hbucket : (l.allow now key).1.budget key now ≤
        (taken ((l.sweepEvery now).refilled now key)).tokens := by
      have hfill' : (taken ((l.sweepEvery now).refilled now key)).lastFill = now := by
        unfold taken
        split <;> exact hfill
      simp only [budget, lookup_allow hpos, if_true, hfill', sub_self, mul_zero, add_zero]
      exact min_le_right ..
    refine le_trans (add_le_add_left hbucket _) ?_
    rw [allow_eq hpos, ← htokens]
    unfold taken
    split
    · rename_i hone
      simp [hone]
    · rename_i hone
      simp [hone]
  · simp only [hkey, decide_false, Bool.false_and, Bool.false_eq_true, if_false, add_zero]
    rw [budget, lookup_allow hpos, if_neg (Ne.symm hkey), allow_eq hpos]
    exact le_rfl

theorem Sound.later (h : l.Sound rate burst ttl now) {t : ℚ} (ht : now ≤ t) :
    l.Sound rate burst ttl t :=
  { h with seen := fun key b hb => (h.seen key b hb).trans ht }

/-- **The budget of a key is an allowance.** -/
theorem allowance_budget (hrate : 0 < rate) (hburst : 0 ≤ burst) (hrefills : burst ≤ rate * ttl)
    (k : String) :
    Allowance allow (fun key => decide (key = k)) rate burst (Sound rate burst ttl) (budget k) where
  nonneg l t h := h.budget_nonneg hrate.le hburst k
  le_bound l t h := h.budget_le k
  later l t t' h ht := h.later ht
  grows l t t' h ht := by
    have hgain := mul_nonneg hrate.le (sub_nonneg.mpr ht)
    unfold budget
    rw [h.burst_eq, h.rate_eq]
    cases l.buckets.lookup k with
    | none => linarith
    | some b =>
      rw [min_add]
      refine min_le_min (by linarith) (le_of_eq ?_)
      ring
  keeps l t key h := h.allow hrate hburst key
  costs l t key h := h.budget_allow hrate hrefills k key

end Limiter

theorem burst_newWithClock_nonneg {ratePerSec : ℚ} (burst : ℚ) (hrate : 0 < ratePerSec) :
    0 ≤ (newWithClock ratePerSec burst).burst := by
  simp only [newWithClock]
  split
  · exact zero_le_one
  · rename_i hno
    push Not at hno
    linarith [hno hrate]

theorem sound_newWithClock (ratePerSec burst t : ℚ) :
    (newWithClock ratePerSec burst).Sound ratePerSec (newWithClock ratePerSec burst).burst
      defaultTTL t := by
  refine ⟨rfl, rfl, rfl, ?_, ?_, ?_, ?_⟩ <;> intro key b hb <;> simp [newWithClock] at hb

/-- Where the rate gives a full burst within the idle time after which a bucket is deleted, what a
key is allowed in any window is at most the burst and what the rate gives in it. -/
theorem allowed_le (ratePerSec burst : ℚ) (hrate : 0 < ratePerSec)
    (hrefills : (newWithClock ratePerSec burst).burst ≤ ratePerSec * defaultTTL)
    (calls : List (ℚ × String)) (hclock : (calls.map Prod.fst).Pairwise (· ≤ ·)) (k : String)
    (t₁ t₂ : ℚ) (hwindow : t₁ ≤ t₂) :
    (granted (fun key => decide (key = k)) t₁ t₂
        (log Limiter.allow (newWithClock ratePerSec burst) calls) : ℚ) ≤
      (newWithClock ratePerSec burst).burst + ratePerSec * (t₂ - t₁) := by
  have hburst := burst_newWithClock_nonneg burst hrate
  obtain ⟨t, ht⟩ := exists_le_of_pairwise hclock
  exact (Limiter.allowance_budget hrate hburst hrefills k).granted_le hrate.le
    (sound_newWithClock ratePerSec burst t) hwindow ht hclock

/-- A key that waits between its calls. -/
theorem allowed_le_waiting :
    (granted (fun key => decide (key = "k")) 0 10
        (log Limiter.allow (newWithClock 1 2) [(0, "k"), (0, "k"), (0, "k"), (10, "k")]) : ℚ) ≤
      (newWithClock 1 2).burst + 1 * (10 - 0) :=
  allowed_le 1 2 (by norm_num) (by norm_num [newWithClock, defaultTTL])
    [(0, "k"), (0, "k"), (0, "k"), (10, "k")] (by norm_num) "k" 0 10 (by norm_num)

/-! ## A bucket that is deleted before it has refilled -/

namespace Limiter

variable {now : ℚ} {l : Limiter} {k other : String}

/-- Between the two states there were `n` calls, none of them a sweep and none for the key. -/
structure Passed (k : String) (n : ℕ) (l l' : Limiter) : Prop where
  opsSinceGC : l'.opsSinceGC = l.opsSinceGC + n
  bucket : l'.buckets.lookup k = l.buckets.lookup k
  rate : l'.rate = l.rate
  burst : l'.burst = l.burst
  ttl : l'.ttl = l.ttl

@[simp] theorem sweepEvery_of_lt (hops : l.opsSinceGC + 1 < gcEvery) :
    l.sweepEvery now = { l with opsSinceGC := l.opsSinceGC + 1 } := by
  simp [sweepEvery, not_le.mpr hops]

theorem passed_allow (hrate : 0 < l.rate) (hother : k ≠ other)
    (hops : l.opsSinceGC + 1 < gcEvery) : Passed k 1 l (l.allow now other).1 := by
  have hlookup : (l.allow now other).1.buckets.lookup k = _ := lookup_allow hrate other k
  rw [if_neg hother, sweepEvery_of_lt hops] at hlookup
  refine ⟨?_, hlookup, ?_, ?_, ?_⟩ <;> rw [allow_eq hrate, sweepEvery_of_lt hops]

/-- Calls for another key bring the next sweep closer, and leave the rest. -/
theorem passed_replicate (hrate : 0 < l.rate) (hother : k ≠ other) {n : ℕ}
    (hops : l.opsSinceGC + n < gcEvery) :
    Passed k n l (after allow l (List.replicate n (now, other))) := by
  induction n generalizing l with
  | zero => exact ⟨rfl, rfl, rfl, rfl, rfl⟩
  | succ n ih =>
    have hone : Passed k 1 l (l.allow now other).1 := passed_allow hrate hother (by omega)
    have hrest := ih (l := (l.allow now other).1) (by rw [hone.rate]; exact hrate)
      (by rw [hone.opsSinceGC]; omega)
    refine ⟨?_, hrest.bucket.trans hone.bucket, hrest.rate.trans hone.rate,
      hrest.burst.trans hone.burst, hrest.ttl.trans hone.ttl⟩
    rw [show after allow l (List.replicate (n + 1) (now, other)) =
      after allow (l.allow now other).1 (List.replicate n (now, other)) from rfl,
      hrest.opsSinceGC, hone.opsSinceGC]
    omega

/-- A call that sweeps away the idle bucket of its own key finds a full one. -/
theorem allow_evicted (now : ℚ) (hrate : 0 < l.rate) (hburst : 1 ≤ l.burst)
    (hops : gcEvery ≤ l.opsSinceGC + 1) {b : Bucket} (hb : l.buckets.lookup k = some b)
    (hidle : l.ttl < now - b.lastSeen) :
    (l.allow now k).2 = true ∧
      (l.allow now k).1.buckets.lookup k = some ⟨l.burst - 1, now, now⟩ ∧
      (l.allow now k).1.opsSinceGC = 0 ∧ (l.allow now k).1.rate = l.rate := by
  have hswept : (l.sweepEvery now).buckets.lookup k = none := by
    have hlate : l.ttl + b.lastSeen < now := by linarith
    simp [sweepEvery, hops, sweepIdleLocked, hb, Option.filter, hlate]
  have hfull : (l.sweepEvery now).refilled now k = ⟨l.burst, now, now⟩ := by
    simp [refilled, hswept]
  refine ⟨?_, ?_, ?_, ?_⟩
  · simp [allow_eq hrate, hfull, hburst]
  · simp [lookup_allow hrate, hfull, taken, hburst]
  · simp [allow_eq hrate, sweepEvery, hops]
  · simp [allow_eq hrate]

/-- A call at the time its bucket was filled is granted while there are tokens. -/
theorem allow_filled (hrate : 0 < l.rate) (hops : l.opsSinceGC + 1 < gcEvery) {tokens : ℚ}
    (hb : l.buckets.lookup k = some ⟨tokens, now, now⟩) (htokens : 1 ≤ tokens) :
    (l.allow now k).2 = true := by
  simp [allow_eq hrate, sweepEvery_of_lt hops, refilled, hb, htokens]

end Limiter

/-- Two calls for a key, calls for another one after five minutes, and two for the first again. -/
def aroundSweep (others : ℕ) : List (ℚ × String) :=
  [(0, "k"), (0, "k")] ++ (List.replicate others (301, "other") ++ [(301, "k"), (301, "k")])

theorem pairwise_aroundSweep (others : ℕ) :
    ((aroundSweep others).map Prod.fst).Pairwise (· ≤ ·) := by
  simp only [aroundSweep, List.map_append, List.map_replicate, List.map_cons, List.map_nil,
    List.pairwise_append, List.pairwise_replicate, List.pairwise_pair, List.mem_cons,
    List.mem_append, List.mem_replicate, List.not_mem_nil, or_false, or_self]
  refine ⟨le_rfl, ⟨.inr le_rfl, le_rfl, ?_⟩, ?_⟩
  · rintro a ⟨-, rfl⟩ b rfl
    exact le_rfl
  · rintro a rfl b (⟨-, rfl⟩ | rfl) <;> norm_num

/-- With a burst of two at one token in a thousand seconds, the call that sweeps finds the bucket of
its own key idle. -/
theorem granted_aroundSweep (others : ℕ) (hothers : 2 + others + 1 = gcEvery) :
    4 ≤ granted (fun key => decide (key = "k")) 0 301
      (log Limiter.allow (newWithClock (1 / 1000) 2) (aroundSweep others)) := by
  set l := after Limiter.allow (newWithClock (1 / 1000) 2) [(0, "k"), (0, "k")] with hl
  have hbucket : l.buckets.lookup "k" = some ⟨0, 0, 0⟩ := by decide +kernel
  have hops : l.opsSinceGC = 2 := by decide +kernel
  have hrate : l.rate = 1 / 1000 := by decide +kernel
  have hburst : l.burst = 2 := by decide +kernel
  have httl : l.ttl = 300 := by decide +kernel
  set l' := after Limiter.allow l (List.replicate others (301, "other")) with hl'
  have hpassed : Limiter.Passed "k" others l l' :=
    Limiter.passed_replicate (by rw [hrate]; norm_num) (by decide) (by omega)
  have hrate' : 0 < l'.rate := by
    rw [hpassed.rate, hrate]
    norm_num
  obtain ⟨hthird, hleft, hops', hrate''⟩ :=
    Limiter.allow_evicted (k := "k") 301 hrate'
      (by rw [hpassed.burst, hburst]; norm_num) (by rw [hpassed.opsSinceGC, hops]; omega)
      (hpassed.bucket.trans hbucket) (by rw [hpassed.ttl, httl]; norm_num)
  have hfourth := Limiter.allow_filled (hrate''.symm ▸ hrate') (by rw [hops']; decide) hleft
    (by rw [hpassed.burst, hburst]; norm_num)
  have hfirst : granted (fun key => decide (key = "k")) 0 301
      (log Limiter.allow (newWithClock (1 / 1000) 2) [(0, "k"), (0, "k")]) = 2 := by
    decide +kernel
  have hlast : granted (fun key => decide (key = "k")) 0 301
      (log Limiter.allow l' [(301, "k"), (301, "k")]) = 2 := by
    simp [granted, log, hthird, hfourth]
  rw [aroundSweep, granted_append, granted_append, ← hl, ← hl', hfirst, hlast]
  omega

/-- A burst of two at one token in a thousand seconds: the bucket is deleted after five minutes,
and the key is allowed four calls within 301 seconds. -/
theorem evicted_too_early :
    ((aroundSweep 1021).map Prod.fst).Pairwise (· ≤ ·) ∧
      (newWithClock (1 / 1000) 2).burst + 1 / 1000 * (301 - 0) <
        (granted (fun key => decide (key = "k")) 0 301
          (log Limiter.allow (newWithClock (1 / 1000) 2) (aroundSweep 1021)) : ℚ) := by
  refine ⟨pairwise_aroundSweep 1021, ?_⟩
  have hfour : (4 : ℚ) ≤ (granted (fun key => decide (key = "k")) 0 301
      (log Limiter.allow (newWithClock (1 / 1000) 2) (aroundSweep 1021)) : ℚ) := by
    exact_mod_cast granted_aroundSweep 1021 rfl
  have hburst : (newWithClock (1 / 1000) 2).burst = 2 := by decide +kernel
  rw [hburst]
  linarith

end AgentBus.Ratelimit
