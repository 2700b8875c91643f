import AgentBus.Controlplane.Gauges

/-!
# Which agents are offline

The registry of agents (`internal/controlplane/registry.go`).  An agent is seen when it is
registered, sends a heartbeat or produces an event, and `SweepStale` marks the agents offline that
were not seen for the time to live.  It is the only call that does so, and every other call that
sees an agent takes the mark away.

So the mark can be read off the calls (`offline_iff`): with a clock that does not go back, an agent
is offline exactly if some sweep came too late after the call that saw it last.

## Main definitions

* `Registry.heartbeat`, `Registry.deregister` — the source.
* `RegistryCall`, `Registry.calls` — the calls with their times.
* `seenAt` — when an agent was seen last.
-/

namespace AgentBus.Controlplane

open Maps

/-- `Heartbeat`. -/
def Registry.heartbeat (now : Time) (r : Registry) (id : String) : Registry × Bool :=
  match r.agents.lookup id with
  | none => (r, false)
  | some a =>
    let a := { a with
      lastSeen := now
      status := if a.status = .offline then .idle else a.status }
    ({ r with agents := r.agents.insert id a }, true)

/-- `Deregister`. -/
def Registry.deregister (r : Registry) (id : String) : Registry :=
  { r with agents := r.agents.erase id }

/-- The calls of a registry that write to it. -/
inductive RegistryCall where
  | register (id : String) (caps : Option (List String))
  | heartbeat (id : String)
  | touch (id session : String)
  | deregister (id : String)
  | sweepStale
  deriving DecidableEq, Repr

def Registry.call (r : Registry) : ℤ × RegistryCall → Registry
  | (now, .register id caps) => r.register now id caps
  | (now, .heartbeat id) => (r.heartbeat now id).1
  | (now, .touch id session) => r.touch now id session
  | (_, .deregister id) => r.deregister id
  | (now, .sweepStale) => r.sweepStale now

/-- Calls one after the other. -/
def Registry.calls (r : Registry) (cs : List (ℤ × RegistryCall)) : Registry :=
  cs.foldl Registry.call r

/-- What a call says about the time an agent was seen last, if it is known. -/
def see (id : String) (seen : Option ℤ) : ℤ × RegistryCall → Option ℤ
  | (now, .register id' _) | (now, .touch id' _) => if id' = id ∧ id ≠ "" then some now else seen
  | (now, .heartbeat id') => if id' = id then seen.map fun _ => now else seen
  | (_, .deregister id') => if id' = id then none else seen
  | (_, .sweepStale) => seen

/-- When an agent was seen last, if it is known. -/
def seenAt (id : String) (cs : List (ℤ × RegistryCall)) : Option ℤ := cs.foldl (see id) none

/-- A sweep came more than the time to live after the agent was seen. -/
def Missed (ttl : ℤ) (cs : List (ℤ × RegistryCall)) (seen : ℤ) : Prop :=
  ∃ now, (now, .sweepStale) ∈ cs ∧ seen + ttl < now

theorem missed_concat {ttl now seen : ℤ} {cs : List (ℤ × RegistryCall)} {c : RegistryCall} :
    Missed ttl (cs ++ [(now, c)]) seen ↔
      Missed ttl cs seen ∨ (c = .sweepStale ∧ seen + ttl < now) := by
  simp only [Missed, List.mem_append, List.mem_singleton, Prod.mk.injEq, or_and_right, exists_or]
  grind

section Calls

variable {r : Registry} {id : String}

/-- What a call does to an agent that was seen at some time, or is not known. -/
inductive Seen (ttl now : ℤ) (c : RegistryCall) (o : Option AgentInfo) (seen : Option ℤ) :
    Option AgentInfo → Option ℤ → Prop
  | other (hc : c ≠ .sweepStale) : Seen ttl now c o seen o seen
  | sees (a : AgentInfo) (hc : c ≠ .sweepStale) (hseen : a.lastSeen = now)
      (hstatus : a.status ≠ .offline) : Seen ttl now c o seen (some a) (some now)
  | leaves (hc : c ≠ .sweepStale) : Seen ttl now c o seen none none
  | sweeps (hc : c = .sweepStale) : Seen ttl now c o seen
      (o.map fun a =>
        if a.status ≠ .offline ∧ a.lastSeen < now - ttl then { a with status := .offline } else a)
      seen

theorem online_ne {status : AgentStatus} :
    (if status = .offline then .idle else status) ≠ AgentStatus.offline := by
  split <;> simp_all

/-- **What one call does to an agent.** -/
theorem Registry.call_spec {seen : Option ℤ}
    (h : (r.agents.lookup id).map AgentInfo.lastSeen = seen) (now : ℤ) (c : RegistryCall) :
    Seen r.ttl now c (r.agents.lookup id) seen ((r.call (now, c)).agents.lookup id)
      (see id seen (now, c)) := by
  cases c with
  | register id' caps =>
    simp only [call, register, see]
    by_cases hid : id' = id
    · subst hid
      by_cases hblank : id' = ""
      · simpa [hblank] using .other (by simp)
      · simpa [hblank] using .sees _ (by simp) rfl online_ne
    · split <;> simpa [hid, Ne.symm hid] using .other (by simp)
  | heartbeat id' =>
    simp only [call, heartbeat, see]
    by_cases hid : id' = id
    · subst hid
      cases ha : r.agents.lookup id' with
      | none => simpa [← h, ha] using .leaves (by simp)
      | some a => simpa [← h, ha] using .sees _ (by simp) rfl online_ne
    · split <;> simpa [hid, Ne.symm hid] using .other (by simp)
  | touch id' session =>
    simp only [call, touch, see]
    by_cases hid : id' = id
    · subst hid
      by_cases hblank : id' = ""
      · simpa [hblank] using .other (by simp)
      · simpa [hblank] using .sees _ (by simp) rfl (by simp)
    · split <;> simpa [hid, Ne.symm hid] using .other (by simp)
  | deregister id' =>
    simp only [call, deregister, see]
    by_cases hid : id' = id
    · subst hid
      simpa using .leaves (by simp)
    · simpa [hid, AList.lookup_erase_ne (Ne.symm hid)] using .other (by simp)
  | sweepStale =>
    simp only [call, sweepStale, lookup_mapValues, see]
    exact .sweeps rfl

@[simp] theorem Registry.ttl_calls (r : Registry) (cs : List (ℤ × RegistryCall)) :
    (r.calls cs).ttl = r.ttl := by
  refine Maps.foldl_frame Registry.ttl (fun r c _ => ?_) r
  obtain ⟨now, c⟩ := c
  cases c <;> simp only [call, register, heartbeat, touch, deregister, sweepStale] <;>
    (try split) <;> rfl

end Calls

/-- **An agent is offline exactly if it has missed a sweep.**  With a clock that does not go back,
the registry knows the agents that were seen and not deregistered since, and has one for offline
exactly if some sweep came more than the time to live after it was seen last. -/
theorem offline_iff (ttl : ℤ) (httl : 0 ≤ ttl) (cs : List (ℤ × RegistryCall))
    (hclock : (cs.map Prod.fst).Pairwise (· ≤ ·)) (id : String) :
    (((⟨∅, ttl⟩ : Registry).calls cs).agents.lookup id).map AgentInfo.lastSeen = seenAt id cs ∧
      ∀ a ∈ ((⟨∅, ttl⟩ : Registry).calls cs).agents.lookup id,
        a.status = .offline ↔ Missed ttl cs a.lastSeen := by
  induction cs using List.reverseRecOn with
  | nil => exact ⟨rfl, fun a ha => by cases ha⟩
  | append_singleton cs c ih =>
    obtain ⟨now, c⟩ := c
    rw [List.map_append, List.pairwise_append] at hclock
    obtain ⟨hclock, -, hnow⟩ := hclock
    obtain ⟨hseen, hoffline⟩ := ih hclock
    have hspec := Registry.call_spec hseen now c
    rw [Registry.ttl_calls] at hspec
    simp only [seenAt, Registry.calls, List.foldl_append, List.foldl_cons, List.foldl_nil]
    simp only [seenAt, Registry.calls] at hspec hseen hoffline
    generalize Registry.call _ (now, c) = r', see id _ (now, c) = seen' at hspec ⊢
    generalize r'.agents.lookup id = o' at hspec ⊢
    cases hspec with
    | other hc => exact ⟨hseen, fun a ha => by simp [missed_concat, hc, hoffline a ha]⟩
    | sees a hc hlast hstatus =>
      refine ⟨congrArg some hlast, ?_⟩
      intro b hb
      cases Option.mem_some_iff.mp hb
      refine iff_of_false hstatus ?_
      rw [missed_concat]
      rintro (⟨t, ht, hlt⟩ | ⟨hsweep, -⟩)
      · have hle := hnow t (List.mem_map_of_mem ht) now (by simp)
        rw [hlast] at hlt
        omega
      · exact hc hsweep
    | leaves hc => exact ⟨rfl, fun a ha => by cases ha⟩
    | sweeps hc =>
      refine ⟨?_, ?_⟩
      · rw [← hseen, Option.map_map]
        congr 1
        funext a
        dsimp only [Function.comp]
        split <;> rfl
      · intro a ha
        obtain ⟨b, hb, rfl⟩ := Option.mem_map.mp ha
        have hb := hoffline b hb
        rw [missed_concat]
        split
        · rename_i hlate
          simp only [hc, true_and, true_iff]
          exact .inr (by omega)
        · rename_i hon
          rw [hb]
          grind

/-- An agent that was registered at 0 and heard of at 20 misses the sweep at 40. -/
theorem offline_iff_missed :
    let cs := [(0, .register "a" none), (20, .heartbeat "a"), (25, .sweepStale), (40, .sweepStale)]
    ∃ a ∈ ((⟨∅, 10⟩ : Registry).calls cs).agents.lookup "a",
      a.lastSeen = 20 ∧ a.status = .offline := by
  intro cs
  obtain ⟨hseen, hoffline⟩ := offline_iff 10 (by decide) cs (by decide) "a"
  obtain ⟨a, ha, hlast⟩ := Option.map_eq_some_iff.mp
    (hseen.trans (show seenAt "a" cs = some 20 from rfl))
  refine ⟨a, ha, hlast, (hoffline a ha).mpr ⟨40, by decide, ?_⟩⟩
  rw [hlast]
  decide

end AgentBus.Controlplane
