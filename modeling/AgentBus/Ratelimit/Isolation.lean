import AgentBus.Ratelimit.Limiter

/-!
# What a key sees of the other keys

The sweep of idle buckets is the one thing that calls for different keys share: every call brings
it closer, whichever its key is.  Where a bucket refills within the idle time, deleting it does not
show, and what a key is answered does not depend on the calls for the others
(`answers_eq_of_filter_eq`).  Otherwise calls for another key can bring back a spent budget
(`answers_ne_of_sweep`).

## Main definitions

* `Limiter.SameBudget` — two limiters between which a key cannot tell the difference.
-/

namespace AgentBus.Ratelimit

open Metering

namespace Limiter

variable {rate burst ttl now : ℚ} {l l' : Limiter} {k key : String}

/-- The answer to a call is whether the budget is at least one token. -/
theorem Sound.snd_allow (h : l.Sound rate burst ttl now) (hrate : 0 < rate)
    (hrefills : burst ≤ rate * ttl) (k : String) :
    (l.allow now k).2 = decide (1 ≤ l.budget k now) := by
  rw [allow_eq (h.rate_eq ▸ hrate), (h.sweepEvery.refilled k).1,
    h.budget_sweepEvery hrate.le hrefills k le_rfl]

/-- What a call leaves its key, now and later. -/
theorem Sound.budget_allow_self (h : l.Sound rate burst ttl now) (hrate : 0 < rate)
    (hrefills : burst ≤ rate * ttl) (k : String) (t : ℚ) :
    (l.allow now k).1.budget k t =
      min burst ((if 1 ≤ l.budget k now then l.budget k now - 1 else l.budget k now) +
        rate * (t - now)) := by
  have hpos : 0 < l.rate := h.rate_eq ▸ hrate
  obtain ⟨htokens, hfill, -⟩ := h.sweepEvery.refilled k
  rw [h.budget_sweepEvery hrate.le hrefills k le_rfl] at htokens
  have hkept : (l.allow now k).1.rate = rate ∧ (l.allow now k).1.burst = burst := by
    simp [allow_eq hpos, h.rate_eq, h.burst_eq]
  rw [← htokens]
  simp only [budget, lookup_allow hpos, if_true, hkept, taken]
  split <;> simp [hfill]

/-- A call for another key leaves the budget as it is. -/
theorem Sound.budget_allow_other (h : l.Sound rate burst ttl now) (hrate : 0 < rate)
    (hrefills : burst ≤ rate * ttl) (hkey : k ≠ key) {t : ℚ} (ht : now ≤ t) :
    (l.allow now key).1.budget k t = l.budget k t := by
  have hpos : 0 < l.rate := h.rate_eq ▸ hrate
  rw [← h.budget_sweepEvery hrate.le hrefills k ht, budget, lookup_allow hpos, if_neg hkey,
    allow_eq hpos]
  rfl

/-- Both limiters are sound, and the key has the same budget in them from now on. -/
structure SameBudget (rate burst ttl : ℚ) (k : String) (now : ℚ) (l l' : Limiter) : Prop where
  left : l.Sound rate burst ttl now
  right : l'.Sound rate burst ttl now
  budget_eq : ∀ t, now ≤ t → l.budget k t = l'.budget k t

/-- **A key cannot tell limiters with the same budget apart.** -/
theorem alike_sameBudget (hrate : 0 < rate) (hburst : 0 ≤ burst) (hrefills : burst ≤ rate * ttl)
    (k : String) :
    Alike allow (fun key => decide (key = k)) (SameBudget rate burst ttl k) where
  later t t' l l' h ht :=
    ⟨h.left.later ht, h.right.later ht, fun t'' ht'' => h.budget_eq t'' (ht.trans ht'')⟩
  other t l l' key h hkey := by
    have hne : k ≠ key := Ne.symm (of_decide_eq_false hkey)
    exact ⟨h.left.allow hrate hburst key, h.right, fun t' ht' =>
      (h.left.budget_allow_other hrate hrefills hne ht').trans (h.budget_eq t' ht')⟩
  answer t l l' key h hkey := by
    obtain rfl := of_decide_eq_true hkey
    rw [h.left.snd_allow hrate hrefills, h.right.snd_allow hrate hrefills, h.budget_eq t le_rfl]
  own t l l' key h hkey := by
    obtain rfl := of_decide_eq_true hkey
    refine ⟨h.left.allow hrate hburst key, h.right.allow hrate hburst key, fun t' _ => ?_⟩
    rw [h.left.budget_allow_self hrate hrefills, h.right.budget_allow_self hrate hrefills,
      h.budget_eq t le_rfl]

end Limiter

/-- What a key is answered in a new limiter is what it is answered when it is the only one. -/
theorem answers_newWithClock {ratePerSec burst : ℚ} (hrate : 0 < ratePerSec)
    (hrefills : (newWithClock ratePerSec burst).burst ≤ ratePerSec * defaultTTL) (k : String)
    {calls : List (ℚ × String)} (hclock : (calls.map Prod.fst).Pairwise (· ≤ ·)) :
    answers (fun key => decide (key = k))
        (log Limiter.allow (newWithClock ratePerSec burst) calls) =
      log Limiter.allow (newWithClock ratePerSec burst)
        (calls.filter fun c => decide (c.2 = k)) := by
  obtain ⟨t, ht⟩ := exists_le_of_pairwise hclock
  have hsound := sound_newWithClock ratePerSec burst t
  exact (Limiter.alike_sameBudget hrate (burst_newWithClock_nonneg burst hrate) hrefills
    k).answers_filter ⟨hsound, hsound, fun _ _ => rfl⟩ ht hclock

/-- Where the rate gives a full burst within the idle time after which a bucket is deleted, two
sequences of calls with the same calls for a key get the same answers for it. -/
theorem answers_eq_of_filter_eq (ratePerSec burst : ℚ) (hrate : 0 < ratePerSec)
    (hrefills : (newWithClock ratePerSec burst).burst ≤ ratePerSec * defaultTTL) (k : String)
    (calls calls' : List (ℚ × String)) (hclock : (calls.map Prod.fst).Pairwise (· ≤ ·))
    (hclock' : (calls'.map Prod.fst).Pairwise (· ≤ ·))
    (hsame : (calls.filter fun c => decide (c.2 = k)) = calls'.filter fun c => decide (c.2 = k)) :
    answers (fun key => decide (key = k))
        (log Limiter.allow (newWithClock ratePerSec burst) calls) =
      answers (fun key => decide (key = k))
        (log Limiter.allow (newWithClock ratePerSec burst) calls') := by
  rw [answers_newWithClock hrate hrefills k hclock, answers_newWithClock hrate hrefills k hclock',
    hsame]

/-- A key that has spent its burst, with and without a call for another one in between. -/
theorem answers_eq_of_filter_eq_spent :
    answers (fun key => decide (key = "k"))
        (log Limiter.allow (newWithClock 1 1) [(0, "k"), (0, "other"), (0, "k"), (1, "k")]) =
      answers (fun key => decide (key = "k"))
        (log Limiter.allow (newWithClock 1 1) [(0, "k"), (0, "k"), (1, "k")]) :=
  answers_eq_of_filter_eq 1 1 (by norm_num) (by norm_num [newWithClock, defaultTTL]) "k" _ _
    (by norm_num) (by norm_num) (by decide +kernel)

/-! ## Calls for another key bring back a spent budget -/

theorem filter_aroundSweep (others : ℕ) :
    ((aroundSweep others).filter fun c => decide (c.2 = "k")) =
      [(0, "k"), (0, "k"), (301, "k"), (301, "k")] := by
  simp [aroundSweep, List.filter_append]

/-- A burst of two at one token in a thousand seconds: a key that has spent it is refused after five
minutes, unless enough calls for another key have swept its bucket away. -/
theorem answers_ne_of_sweep :
    ((aroundSweep 1021).map Prod.fst).Pairwise (· ≤ ·) ∧
      ((aroundSweep 0).map Prod.fst).Pairwise (· ≤ ·) ∧
      ((aroundSweep 1021).filter fun c => decide (c.2 = "k")) =
        ((aroundSweep 0).filter fun c => decide (c.2 = "k")) ∧
      answers (fun key => decide (key = "k"))
          (log Limiter.allow (newWithClock (1 / 1000) 2) (aroundSweep 1021)) ≠
        answers (fun key => decide (key = "k"))
          (log Limiter.allow (newWithClock (1 / 1000) 2) (aroundSweep 0)) := by
  refine ⟨pairwise_aroundSweep 1021, pairwise_aroundSweep 0, ?_, fun heq => ?_⟩
  · rw [filter_aroundSweep, filter_aroundSweep]
  · have hswept := granted_aroundSweep 1021 rfl
    have hrefused : granted (fun key => decide (key = "k")) 0 301
        (log Limiter.allow (newWithClock (1 / 1000) 2) (aroundSweep 0)) = 2 := by
      decide +kernel
    rw [← granted_answers, heq, granted_answers, hrefused] at hswept
    omega

end AgentBus.Ratelimit
