import AgentBus.Workflow.Progress

/-!
# Attempt numbers as fencing tokens

A lease is a pair of an execution and an attempt.  The attempt is read while the execution is
reserved, and published before the reservation ends; the log of published leases is therefore the
place to look at.  Three facts are kept along every run, with the poller and failing publishes.

* A published attempt is at most the attempt of the execution, or it is the next one and the
  execution is still reserved (`Accounted`).
* A call that holds a reservation it has not published finds the execution reserved, and no attempt
  above the current one has been published (`Held`).
* Two calls never hold the same execution, and no two of them published the same lease.

## Main definitions

* `tokens` — the leases a log has published.
* `Thread.holding` — the reservation a call has not published yet.
* `Thread.leases`, `Thread.returned` — the leases a call has published, and those it has returned.
* `Thread.Reserving` — the call has reserved an execution and its lease is not folded yet.
-/

namespace AgentBus.Workflow

open AgentStream Pool

/-- The lease an event publishes. -/
def token? (e : Event) : Option (String × ℤ) :=
  if eventType e = some .leased then some (e.key, e.attempt) else none

/-- The leases a log has published. -/
def tokens (log : List Event) : List (String × ℤ) := log.filterMap token?

/-- The execution and the attempt of a lease. -/
def Lease.token (l : Lease) : String × ℤ := (sessionKey l.tenant l.project l.workflowID, l.attempt)

/-- The leases a batch has collected. -/
def Batch.tokens (b : Batch) : List (String × ℤ) := b.out.map Lease.token

/-- The leases a call has published. -/
def Thread.leases : Thread → List (String × ℤ)
  | .leasing b | .idle b | .waiting b _ | .granting b _ | .unreserving b _
  | .preparing (.grant b _ _) | .publishing (.grant b _ _) _ => b.tokens
  | .folding (.grant b x n) _ | .granted b x n => b.tokens ++ [(x.key, n)]
  | .done _ (.leaseBatch leases _) => leases.map Lease.token
  | _ => []

/-- The leases a call has returned to its worker. -/
def Thread.returned : Thread → List (String × ℤ)
  | .done _ (.leaseBatch leases _) => leases.map Lease.token
  | _ => []

/-- The execution a call has reserved without publishing the lease, and the attempt it has read. -/
def Thread.holding : Thread → Option (Execution × Option ℤ)
  | .granting _ x | .unreserving _ x => some (x, none)
  | .preparing (.grant _ x n) | .publishing (.grant _ x n) _ => some (x, some n)
  | _ => none

/-- The call has reserved the execution under `k`, and its lease is neither folded nor given
up. -/
def Thread.Reserving (m : Store) (k : String) : Thread → Prop
  | .granting _ x | .unreserving _ x | .preparing (.grant _ x _) | .publishing (.grant _ x _) _ =>
    x.key = k
  | .folding (.grant _ x n) _ => x.key = k ∧ ∃ y, m.find? k = some y ∧ y.attempt < n
  | _ => False

/-- Every published attempt has been folded, or it is the next one of a reserved execution. -/
def Accounted (m : Store) (log : List Event) : Prop :=
  ∀ k n, (k, n) ∈ tokens log →
    ∃ y, m.find? k = some y ∧ (n ≤ y.attempt ∨ (n = y.attempt + 1 ∧ y.reserved = true))

/-- The execution `x` is reserved, its next attempt is not published, and the attempt that was
read is the next one. -/
def Held (m : Store) (log : List Event) (x : Execution) (read : Option ℤ) : Prop :=
  ∃ y, m.find? x.key = some y ∧ y.ref = x.ref ∧ y.reserved = true ∧
    (∀ n, (x.key, n) ∈ tokens log → n ≤ y.attempt) ∧ ∀ n ∈ read, n = y.attempt + 1

/-! ## What a step does to a reservation -/

/-- An execution before and after a step of a thread, as far as leases are concerned. -/
inductive TokenChange (c : Config) (t t' : Thread) (k : String) (y y' : Execution) : Prop
  | kept (attempt : y'.attempt = y.attempt) (reserved : y'.reserved = y.reserved)
  | reserved (b : Batch) (thread : t = .leasing b) (next : t' = .granting b y')
      (free : y.reserved = false) (attempt : y'.attempt = y.attempt)
      (taken : y'.reserved = true)
  | unreserved (b : Batch) (x : Execution) (thread : t = .unreserving b x) (key : k = x.key)
      (attempt : y'.attempt = y.attempt)
  | leased (e : Event) (thread : t.folding? c = some e) (key : k = e.key)
      (type : eventType e = some .leased) (fits : e.attempt = y.attempt + 1)
      (attempt : y'.attempt = y.attempt + 1)

/-- What a fold does to a reservation. -/
theorem Execution.Folds.tokenChange {x x' : Execution} {e : Event} (h : Execution.Folds x e x') :
    x'.ref = x.ref ∧ ((x'.attempt = x.attempt ∧ x'.reserved = x.reserved) ∨
      (eventType e = some .leased ∧ e.attempt = x.attempt + 1 ∧ x'.attempt = x.attempt + 1)) := by
  cases h with
  | leased p ty payload status attempt => exact ⟨rfl, .inr ⟨ty, attempt, attempt⟩⟩
  | heartbeat | completed | failed | retry | dead => exact ⟨rfl, .inl ⟨rfl, rfl⟩⟩

section Steps

variable {c : Config} {s s' : State} {t t' : Thread} {l : Choice}

theorem Steps.tokenChange (h : Steps c s t l s' t') (hret : s.store.retainTerminal ≤ 0)
    {k : String} {y : Execution} (hy : s.store.find? k = some y) :
    ∃ y', s'.store.find? k = some y' ∧ y'.ref = y.ref ∧ TokenChange c t t' k y y' := by
  have hchange := h.findChange k
  generalize s'.store.find? k = o at hchange
  cases hchange with
  | same => exact ⟨y, hy, rfl, .kept rfl rfl⟩
  | evicted retained => omega
  | reserved b x thread next present pending free =>
    obtain rfl := Option.some.inj (present.symm.trans hy)
    exact ⟨_, rfl, rfl, .reserved b thread next free rfl rfl⟩
  | unreserved b x z thread key present ref =>
    obtain rfl := Option.some.inj (present.symm.trans hy)
    exact ⟨_, rfl, rfl, .unreserved b x thread key rfl⟩
  | fenced a x thread next key present live current leased free =>
    obtain rfl := Option.some.inj (present.symm.trans hy)
    exact ⟨_, rfl, rfl, .kept rfl rfl⟩
  | released a x thread key present =>
    obtain rfl := Option.some.inj (present.symm.trans hy)
    exact ⟨_, rfl, rfl, .kept rfl rfl⟩
  | created f stamp nx thread next key type absent valid =>
    rw [hy] at absent
    cases absent
  | folded f stamp x x' thread next key present folds =>
    obtain rfl := Option.some.inj (present.symm.trans hy)
    refine ⟨x', rfl, folds.tokenChange.1, ?_⟩
    rcases folds.tokenChange.2 with ⟨hattempt, hres⟩ | ⟨hty, hfits, hattempt⟩
    · exact .kept hattempt hres
    · refine .leased (f.event c stamp) ?_ ?_ hty hfits hattempt
      · rw [thread]
        rfl
      · rw [Frame.key_event]
        exact key

/-- The lease a frame publishes. -/
theorem token?_event (f : Frame) (stamp : Time) :
    token? (f.event c stamp) =
      match f with
      | .grant _ x n => some (x.key, n)
      | _ => none := by
  unfold token?
  rw [Frame.eventType_event]
  cases f with
  | grant b x n => exact if_pos rfl
  | verdict a x => rcases Frame.verdict_eq a x with hv | hv <;> simp [Frame.type, hv]
  | sweep x rest n => rcases Frame.sweepVerdict_eq x with hv | hv <;> simp [Frame.type, hv]
  | submit | heartbeat | complete | fail => exact if_neg (by simp [Frame.type])

theorem mem_tokens {log : List Event} {e : Event} (he : e ∈ log)
    (hty : eventType e = some .leased) : (e.key, e.attempt) ∈ tokens log :=
  List.mem_filterMap.mpr ⟨e, he, if_pos hty⟩

theorem tokens_concat (log : List Event) (e : Event) :
    tokens (log ++ [e]) = tokens log ++ (token? e).toList := by
  unfold tokens
  rw [List.filterMap_append, List.filterMap_cons, List.filterMap_nil]
  cases token? e <;> rfl

/-- A call keeps its leases or loses them; it gains one when it publishes. -/
theorem Quiet.leases (h : Quiet c s t l t') : t'.leases.Sublist t.leases := by
  cases h with
  | heartbeat a =>
    exact heartbeatStart_ind s a (fun _ => List.Sublist.refl _) fun _ _ => List.Sublist.refl _
  | fail a =>
    exact failStart_ind s a (fun _ => List.Sublist.refl _) fun _ _ => List.Sublist.refl _
  | stamp f => cases f <;> exact List.Sublist.refl _
  | error f stamp => cases f <;> exact List.Sublist.refl _
  | granted b x attempt =>
    simp only [Thread.leases, Batch.tokens, List.map_append]
    exact List.Sublist.refl _
  | late b => exact List.nil_sublist _
  | timeout b ch => exact List.nil_sublist _
  | cancel b ch => exact List.nil_sublist _
  | _ => exact List.Sublist.refl _

/-- Only a `LeaseBatch` that publishes adds to the published leases. -/
theorem Steps.leases (h : Steps c s t l s' t') :
    (tokens s'.log = tokens s.log ∧ t'.leases.Sublist t.leases) ∨
      ∃ b x n stamp, t = .publishing (.grant b x n) stamp ∧ s'.store = s.store ∧
        tokens s'.log = tokens s.log ++ [(x.key, n)] ∧ t'.leases = t.leases ++ [(x.key, n)] := by
  cases h with
  | quiet t t' l h => exact .inl ⟨rfl, h.leases⟩
  | begin a r h =>
    refine .inl ⟨rfl, ?_⟩
    split <;> exact List.Sublist.refl _
  | reserve b r h =>
    refine .inl ⟨rfl, ?_⟩
    rcases b.onReserve_cases r.2 with ⟨x, -, hx⟩ | hx | hx <;> rw [hx] <;>
      exact List.Sublist.refl _
  | publish f stamp valid =>
    have htok := tokens_concat s.log (f.event c stamp)
    rw [token?_event] at htok
    cases f with
    | grant b x n => exact .inr ⟨b, x, n, stamp, rfl, rfl, htok, rfl⟩
    | submit | heartbeat | complete | fail | verdict | sweep =>
      exact .inl ⟨htok.trans (List.append_nil _), List.Sublist.refl _⟩
  | fold f stamp => exact .inl ⟨rfl, by cases f <;> exact List.Sublist.refl _⟩
  | unreserve b x =>
    refine .inl ⟨rfl, ?_⟩
    split
    · exact List.nil_sublist _
    · exact List.Sublist.refl _
  | wait b => exact .inl ⟨rfl, List.Sublist.refl _⟩
  | abort a => exact .inl ⟨rfl, List.Sublist.refl _⟩
  | expire now order perm => exact .inl ⟨rfl, List.Sublist.refl _⟩

theorem Steps.tokens_subset (h : Steps c s t l s' t') : tokens s.log ⊆ tokens s'.log := by
  rcases h.leases with ⟨htok, -⟩ | ⟨b, x, n, stamp, -, -, htok, -⟩
  · rw [htok]
    exact List.Subset.refl _
  · rw [htok]
    exact List.subset_append_left _ _

/-- A reservation a call holds was held before, or was made by this step. -/
theorem Quiet.holding (h : Quiet c s t l t') {x : Execution} {o : Option ℤ}
    (hx : t'.holding = some (x, o)) :
    ∃ o', t.holding = some (x, o') ∧ ∀ n ∈ o, n ∈ o' ∨ n = (s.store.deref x).attempt + 1 := by
  cases h with
  | heartbeat a =>
    revert hx
    exact heartbeatStart_ind s a (fun _ => nofun) fun _ _ => nofun
  | fail a =>
    revert hx
    exact failStart_ind s a (fun _ => nofun) fun _ _ => nofun
  | stamp f =>
    cases f with
    | grant b y n =>
      cases hx
      exact ⟨some n, rfl, fun m hm => .inl hm⟩
    | submit | heartbeat | complete | fail | verdict | sweep => cases hx
  | error f stamp =>
    cases f with
    | grant b y n =>
      cases hx
      exact ⟨some n, rfl, fun m hm => by cases hm⟩
    | submit | heartbeat | complete | fail | verdict | sweep => cases hx
  | read b y =>
    cases hx
    refine ⟨none, rfl, ?_⟩
    intro n hn
    exact .inr (Option.mem_some_iff.mp hn).symm
  | _ => cases hx

theorem Steps.holding (h : Steps c s t l s' t') {x : Execution} {o : Option ℤ}
    (hx : t'.holding = some (x, o)) :
    (s' = s ∧ ∃ o', t.holding = some (x, o') ∧
        ∀ n ∈ o, n ∈ o' ∨ n = (s.store.deref x).attempt + 1) ∨
      (o = none ∧ s'.log = s.log ∧ ∃ k y, s.store.find? k = some y ∧ y.status = .pending ∧
        y.reserved = false ∧ x = { y with reserved := true } ∧ s'.store.find? k = some x) := by
  cases h with
  | quiet t t' l h => exact .inl ⟨rfl, h.holding hx⟩
  | begin a r h =>
    split at hx <;> cases hx
  | reserve b r h =>
    cases h with
    | nothing stale =>
      rcases b.onReserve_cases none with ⟨y, hy, -⟩ | hy | hy
      · cases hy
      · rw [hy] at hx
        cases hx
      · rw [hy] at hx
        cases hx
    | found pre rest k y split stale present pending free =>
      cases hx
      exact .inr ⟨rfl, rfl, k, y, present, pending, free, rfl, Store.find?_put_self _ _ _⟩
  | wait b => cases hx
  | publish f stamp valid => cases hx
  | fold f stamp => cases f <;> cases hx
  | unreserve b x => cases hx
  | abort a => cases hx
  | expire now order perm => cases hx

end Steps

/-! ## The invariant -/

/-- What the shared state keeps. -/
structure TokenInv (s : State) : Prop where
  kept : s.store.retainTerminal ≤ 0
  indexed : s.store.Indexed
  inbox : ∀ p ∈ s.poller.inbox, p.1 ∈ s.log
  fresh : (tokens s.log).Nodup
  accounted : Accounted s.store s.log

/-- What each call keeps. -/
structure TokenLocal (c : Config) (s : State) (t : Thread) : Prop where
  folding : ∀ e, t.folding? c = some e → e ∈ s.log
  leases : t.leases ⊆ tokens s.log
  nodup : t.leases.Nodup
  holding : ∀ x o, t.holding = some (x, o) → Held s.store s.log x o

/-- What any two calls keep. -/
structure TokenPair (t u : Thread) : Prop where
  leases : t.leases.Disjoint u.leases
  holding : ∀ x y o o', t.holding = some (x, o) → u.holding = some (y, o') → x.key ≠ y.key

variable {t : Thread} {c : Config} {s : State}

theorem TokenPair.symm {u : Thread} (h : TokenPair t u) : TokenPair u t where
  leases := fun _ hu ht => h.leases ht hu
  holding x y o o' hx hy := (h.holding y x o' o hy hx).symm

section Run

variable {c : Config} {s s' : State} {t t' : Thread} {l : Choice}

variable {m : Store} {log : List Event} {x : Execution} {o : Option ℤ}

/-- A published lease of a held execution has been folded: nothing more is accepted for it. -/
theorem Held.not_next {y : Execution} {e : Event} (h : Held m log x o) (hy : m.find? x.key = some y)
    (he : e ∈ log) (hkey : x.key = e.key) (hty : eventType e = some .leased) :
    e.attempt ≠ y.attempt + 1 := by
  obtain ⟨z, hz, -, -, hmax, -⟩ := h
  obtain rfl := Option.some.inj (hz.symm.trans hy)
  have hle := hmax e.attempt (hkey ▸ mem_tokens he hty)
  omega

/-- A reservation is kept by the steps of the calls that do not hold it. -/
theorem Held.step (h : Steps c s t l s' t') (hs : TokenInv s) (ht : TokenLocal c s t)
    (hother : ∀ x' o', t.holding = some (x', o') → x'.key ≠ x.key) (hx : Held s.store s.log x o) :
    Held s'.store s'.log x o := by
  obtain ⟨y, hy, href, hres, hmax, hread⟩ := id hx
  obtain ⟨y', hy', href', hchange⟩ := h.tokenChange hs.kept hy
  -- Nothing is published for the execution, and its flag and its attempt stay.
  have hmax' : ∀ n, (x.key, n) ∈ tokens s'.log → n ≤ y.attempt := by
    intro n hn
    rcases h.leases with ⟨htok, -⟩ | ⟨b, z, m, stamp, rfl, -, htok, -⟩
    · exact hmax n (htok ▸ hn)
    · rw [htok] at hn
      rcases List.mem_append.mp hn with hn | hn
      · exact hmax n hn
      · obtain ⟨hkey, -⟩ := Prod.mk.inj (List.mem_singleton.mp hn)
        exact absurd hkey.symm (hother z (some m) rfl)
  have hsame : y'.attempt = y.attempt ∧ y'.reserved = true := by
    cases hchange with
    | kept attempt reserved => exact ⟨attempt, reserved.trans hres⟩
    | reserved b thread next free attempt taken =>
      rw [hres] at free
      cases free
    | unreserved b z thread key attempt =>
      exact absurd key.symm (hother z none (by rw [thread]; rfl))
    | leased e thread key type fits attempt =>
      exact absurd fits (hx.not_next hy (ht.folding e thread) key type)
  refine ⟨y', hy', href'.trans href, hsame.2, ?_, ?_⟩
  · rw [hsame.1]
    exact hmax'
  · rw [hsame.1]
    exact hread

/-- The reservation of the call that moves. -/
theorem Held.self (h : Steps c s t l s' t') (hs : TokenInv s) (ht : TokenLocal c s t)
    (hx : t'.holding = some (x, o)) : Held s'.store s'.log x o := by
  rcases h.holding hx with ⟨rfl, o', ho', hread⟩ | ⟨rfl, hlog, k, y, hy, -, hfree, rfl, hy'⟩
  · obtain ⟨y, hy, href, hres, hmax, hread'⟩ := ht.holding x o' ho'
    refine ⟨y, hy, href, hres, hmax, ?_⟩
    intro n hn
    rcases hread n hn with hn | hn
    · exact hread' n hn
    · rw [hn, Store.deref_of_find? hy href]
  · have hkey : Execution.key { y with reserved := true } = k := hs.indexed.keyed k y hy
    refine ⟨_, hkey.symm ▸ hy', rfl, rfl, ?_, fun n hn => by cases hn⟩
    intro n hn
    rw [hkey, hlog] at hn
    obtain ⟨z, hz, hle | ⟨-, hr⟩⟩ := hs.accounted k n hn
    · obtain rfl := Option.some.inj (hz.symm.trans hy)
      exact hle
    · obtain rfl := Option.some.inj (hz.symm.trans hy)
      rw [hfree] at hr
      cases hr

/-- The published leases stay accounted for. -/
theorem Accounted.step (h : Steps c s t l s' t') (hs : TokenInv s) (ht : TokenLocal c s t) :
    Accounted s'.store s'.log := by
  intro k n hn
  rcases h.leases with ⟨htok, -⟩ | ⟨b, x, m, stamp, rfl, hstore, htok, -⟩
  · rw [htok] at hn
    obtain ⟨y, hy, hn'⟩ := hs.accounted k n hn
    obtain ⟨y', hy', -, hchange⟩ := h.tokenChange hs.kept hy
    refine ⟨y', hy', ?_⟩
    cases hchange with
    | kept attempt reserved => rwa [attempt, reserved]
    | reserved b thread next free attempt taken =>
      rw [attempt, taken]
      exact hn'.imp_right fun hn' => ⟨hn'.1, rfl⟩
    | unreserved b x thread key attempt =>
      -- The call gives back what it holds, so nothing above the attempt is published.
      obtain ⟨z, hz, -, -, hmax, -⟩ := ht.holding x none (by rw [thread]; rfl)
      rw [← key, hy] at hz
      cases hz
      exact .inl (attempt ▸ hmax n (key ▸ hn))
    | leased e thread key type fits attempt => omega
  · rw [htok] at hn
    rw [hstore]
    rcases List.mem_append.mp hn with hn | hn
    · exact hs.accounted k n hn
    · obtain ⟨y, hy, -, hres, -, hread⟩ := ht.holding x (some m) rfl
      obtain ⟨rfl, rfl⟩ := Prod.mk.inj (List.mem_singleton.mp hn)
      exact ⟨y, hy, .inr ⟨hread n rfl, hres⟩⟩

/-- The lease a call is about to publish is new. -/
theorem TokenLocal.not_mem_tokens {b : Batch} {n : ℤ} {stamp : Time}
    (ht : TokenLocal c s (.publishing (.grant b x n) stamp)) : (x.key, n) ∉ tokens s.log := by
  intro hmem
  obtain ⟨y, -, -, -, hmax, hread⟩ := ht.holding x (some n) rfl
  have hle := hmax n hmem
  have heq := hread n rfl
  omega

theorem TokenInv.step (h : Steps c s t l s' t') (hs : TokenInv s) (ht : TokenLocal c s t) :
    TokenInv s' := by
  constructor
  · exact h.retainTerminal.trans_le hs.kept
  · exact h.indexed hs.indexed
  · intro p hp
    exact h.log_subset (hs.inbox p (h.poller ▸ hp))
  · rcases h.leases with ⟨htok, -⟩ | ⟨b, x, n, stamp, rfl, -, htok, -⟩
    · rw [htok]
      exact hs.fresh
    · rw [htok, List.nodup_append]
      refine ⟨hs.fresh, List.nodup_singleton _, ?_⟩
      intro p hp q hq heq
      rw [heq, List.mem_singleton.mp hq] at hp
      exact ht.not_mem_tokens hp
  · exact Accounted.step h hs ht

theorem TokenLocal.self (h : Steps c s t l s' t') (hs : TokenInv s) (ht : TokenLocal c s t) :
    TokenLocal c s' t' := by
  have hleases : t'.leases ⊆ tokens s'.log ∧ t'.leases.Nodup := by
    rcases h.leases with ⟨htok, hsub⟩ | ⟨b, x, n, stamp, rfl, -, htok, hnew⟩
    · rw [htok]
      exact ⟨List.Subset.trans hsub.subset ht.leases, ht.nodup.sublist hsub⟩
    · rw [htok, hnew]
      refine ⟨?_, List.nodup_append.mpr ⟨ht.nodup, List.nodup_singleton _, ?_⟩⟩
      · exact List.append_subset.mpr ⟨List.subset_append_of_subset_left _ ht.leases,
          List.subset_append_right _ _⟩
      · intro p hp q hq heq
        rw [heq, List.mem_singleton.mp hq] at hp
        exact ht.not_mem_tokens (ht.leases hp)
  constructor
  · intro e he
    rcases h.log_cases with ⟨-, hnone⟩ | ⟨f, stamp, rfl, rfl, rfl⟩
    · rw [hnone] at he
      cases he
    · cases he
      exact List.mem_append_right _ (List.mem_singleton_self _)
  · exact hleases.1
  · exact hleases.2
  · intro x o hx
    exact Held.self h hs ht hx

theorem TokenLocal.other (h : Steps c s t l s' t') (hs : TokenInv s) (ht : TokenLocal c s t)
    {u : Thread} (hu : TokenLocal c s u) (hpair : TokenPair t u) : TokenLocal c s' u := by
  constructor
  · intro e he
    exact h.log_subset (hu.folding e he)
  · exact List.Subset.trans hu.leases h.tokens_subset
  · exact hu.nodup
  · intro x o hx
    exact (hu.holding x o hx).step h hs ht fun x' o' hx' => hpair.holding x' x o' o hx' hx

theorem TokenPair.step (h : Steps c s t l s' t') (hs : TokenInv s) (ht : TokenLocal c s t)
    {u : Thread} (hu : TokenLocal c s u) (hpair : TokenPair t u) : TokenPair t' u := by
  constructor
  · rcases h.leases with ⟨-, hsub⟩ | ⟨b, x, n, stamp, rfl, -, -, hnew⟩
    · exact fun p hp => hpair.leases (hsub.subset hp)
    · rw [hnew]
      intro p hp hpu
      rcases List.mem_append.mp hp with hp | hp
      · exact hpair.leases hp hpu
      · rw [List.mem_singleton.mp hp] at hpu
        exact ht.not_mem_tokens (hu.leases hpu)
  · intro x y o o' hx hy
    rcases h.holding hx with ⟨-, o₁, hx₁, -⟩ | ⟨-, -, k, z, hz, -, hfree, rfl, -⟩
    · exact hpair.holding x y o₁ o' hx₁ hy
    · -- What is free in the store is held by nobody.
      intro hkey
      obtain ⟨z', hz', -, hres, -⟩ := hu.holding y o' hy
      rw [← hkey, show Execution.key { z with reserved := true } = k from
        hs.indexed.keyed k z hz, hz] at hz'
      cases hz'
      rw [hfree] at hres
      cases hres

/-! ### The poller -/

/-- What a delivery does to an execution. -/
theorem Store.find?_deliver (hret : m.retainTerminal ≤ 0) (e : Event) {k : String} {y : Execution}
    (hy : m.find? k = some y) :
    ∃ y', (m.apply e).1.find? k = some y' ∧ (y' = y ∨ k = e.key ∧ Execution.Folds y e y') := by
  rw [find?_apply hret, hy]
  by_cases hk : k = e.key
  · rw [if_pos hk]
    cases hap : y.apply e with
    | none => exact ⟨y, by simp [foldKey, hap], .inl rfl⟩
    | some y' =>
      exact ⟨y', by simp [foldKey, hap], .inr ⟨hk, Execution.apply_eq_some_iff.mp hap⟩⟩
  · rw [if_neg hk]
    exact ⟨y, rfl, .inl rfl⟩

theorem Accounted.deliver (hret : m.retainTerminal ≤ 0) (h : Accounted m log) (e : Event) :
    Accounted (m.apply e).1 log := by
  intro k n hn
  obtain ⟨y, hy, hn'⟩ := h k n hn
  obtain ⟨y', hy', rfl | ⟨-, hfolds⟩⟩ := Store.find?_deliver hret e hy
  · exact ⟨y', hy', hn'⟩
  · refine ⟨y', hy', ?_⟩
    rcases hfolds.tokenChange.2 with ⟨hattempt, hres⟩ | ⟨-, -, hattempt⟩
    · rwa [hattempt, hres]
    · omega

theorem Held.deliver (hret : m.retainTerminal ≤ 0) {e : Event} (he : e ∈ log) (h : Held m log x o) :
    Held (m.apply e).1 log x o := by
  obtain ⟨y, hy, href, hres, hmax, hread⟩ := id h
  obtain ⟨y', hy', rfl | ⟨hkey, hfolds⟩⟩ := Store.find?_deliver hret e hy
  · exact ⟨y', hy', href, hres, hmax, hread⟩
  · rcases hfolds.tokenChange with ⟨href', ⟨hattempt, hres'⟩ | ⟨hty, hfits, -⟩⟩
    · rw [← hattempt] at hmax hread
      exact ⟨y', hy', href'.trans href, hres'.trans hres, hmax, hread⟩
    · exact absurd hfits (h.not_next hy he hkey hty)

theorem TokenInv.environment {e : EnvStep} (h : Environs c s e s') (hs : TokenInv s) :
    TokenInv s' ∧ ∀ u, TokenLocal c s u → TokenLocal c s' u := by
  cases h with
  | tick now le =>
    exact ⟨⟨hs.kept, hs.indexed, hs.inbox, hs.fresh, hs.accounted⟩,
      fun u hu => ⟨hu.folding, hu.leases, hu.nodup, hu.holding⟩⟩
  | fetch p inbox =>
    exact ⟨⟨hs.kept, hs.indexed, inbox, hs.fresh, hs.accounted⟩,
      fun u hu => ⟨hu.folding, hu.leases, hu.nodup, hu.holding⟩⟩
  | deliver e o p inbox =>
    have he : e ∈ s.log := hs.inbox (e, o) (by rw [inbox]; exact List.mem_cons_self)
    refine ⟨⟨?_, hs.indexed.apply e, ?_, hs.fresh, hs.accounted.deliver hs.kept e⟩, ?_⟩
    · exact (Store.retainTerminal_apply _ _).trans_le hs.kept
    · intro q hq
      exact hs.inbox q (by rw [inbox]; exact List.mem_cons_of_mem _ hq)
    · intro u hu
      exact ⟨hu.folding, hu.leases, hu.nodup,
        fun x o hx => (hu.holding x o hx).deliver hs.kept he⟩

end Run

/-! ## Whole runs -/

theorem tokenInv_init (hc : c.retainTerminal ≤ 0) : TokenInv (State.init c) where
  kept := hc
  indexed := Store.indexed_empty _
  inbox _ hp := absurd hp List.not_mem_nil
  fresh := List.nodup_nil
  accounted _ _ hn := absurd hn List.not_mem_nil

/-- A call that has just arrived has no lease. -/
theorem tokenLocal_start (c : Config) (s : State) (r : Request) : TokenLocal c s (.start r) where
  folding _ he := by cases he
  leases _ hp := absurd hp List.not_mem_nil
  nodup := List.nodup_nil
  holding _ _ hx := by cases hx

theorem tokenPair_start (r : Request) (u : Thread) : TokenPair (.start r) u where
  leases _ hp := absurd hp List.not_mem_nil
  holding _ _ _ _ hx := by cases hx

theorem token_holds (hc : c.retainTerminal ≤ 0) {w : World State Thread}
    (h : (coordinator c).Reach Guard.all (State.init c) w) :
    Holds TokenInv (TokenLocal c) TokenPair w := by
  refine Program.Reach.local_invariant (fun _ _ => TokenPair.symm) (tokenInv_init hc)
    ?_ ?_ ?_ h
  · intro s r _
    exact ⟨tokenLocal_start c s r, fun u _ => tokenPair_start r u⟩
  · intro s t l s' t' hs ht _ hstep
    have hsteps := coordinator_steps hstep
    refine ⟨⟨hs.step hsteps ht, ht.self hsteps hs⟩, ?_⟩
    intro u hu hpair
    exact ⟨TokenLocal.other hsteps hs ht hu hpair, hpair.step hsteps hs ht hu⟩
  · intro s e s' hs _ hstep
    exact hs.environment (environment_spec hstep)

theorem Thread.returned_subset (t : Thread) : t.returned ⊆ t.leases := by
  unfold Thread.returned
  split
  · exact List.Subset.refl _
  · exact List.nil_subset _

theorem TokenLocal.nodup_returned (ht : TokenLocal c s t) : t.returned.Nodup := by
  unfold Thread.returned
  split
  · exact ht.nodup
  · exact List.nodup_nil

/-- The next attempt of an execution a call holds is not published. -/
theorem TokenLocal.not_published (ht : TokenLocal c s t) {x y : Execution} {o : Option ℤ}
    (hx : t.holding = some (x, o)) (hy : s.store.find? x.key = some y) :
    (x.key, y.attempt + 1) ∉ tokens s.log := by
  intro hmem
  obtain ⟨z, hz, -, -, hmax, -⟩ := ht.holding x o hx
  obtain rfl := Option.some.inj (hz.symm.trans hy)
  have hle := hmax _ hmem
  omega

/-- A call that is reserving holds the reservation, or it has published the next attempt. -/
theorem TokenLocal.reserving {k : String} (hs : TokenInv s) (ht : TokenLocal c s t)
    (h : t.Reserving s.store k) :
    (∃ x o, t.holding = some (x, o) ∧ x.key = k) ∨
      ∃ y, s.store.find? k = some y ∧ (k, y.attempt + 1) ∈ t.leases := by
  unfold Thread.Reserving at h
  split at h
  · exact .inl ⟨_, _, rfl, h⟩
  · exact .inl ⟨_, _, rfl, h⟩
  · exact .inl ⟨_, _, rfl, h⟩
  · exact .inl ⟨_, _, rfl, h⟩
  · rename_i b x n stamp
    obtain ⟨rfl, y, hy, hlt⟩ := h
    have hmem : (x.key, n) ∈ Thread.leases (.folding (.grant b x n) stamp) :=
      List.mem_append_right _ (List.mem_singleton_self _)
    obtain ⟨z, hz, hle⟩ := hs.accounted x.key n (ht.leases hmem)
    obtain rfl := Option.some.inj (hz.symm.trans hy)
    have hn : n = z.attempt + 1 := by omega
    exact .inr ⟨z, hz, hn ▸ hmem⟩
  · exact h.elim

/-- **Attempt numbers are fencing tokens.**  In every run, with the poller and with publishes that
fail, no two leases that were returned to workers are for the same attempt of the same execution,
and no two calls have the same execution reserved. -/
theorem lease_tokens_unique (c : Config) (hc : c.retainTerminal ≤ 0) {w : World State Thread}
    (h : (coordinator c).Reach Guard.all (State.init c) w) :
    (w.threads.flatMap Thread.returned).Nodup ∧
      ∀ (i j : ℕ) t u k, w.threads[i]? = some t → w.threads[j]? = some u →
        t.Reserving w.shared.store k → u.Reserving w.shared.store k → i = j := by
  have hinv := token_holds hc h
  constructor
  · rw [List.nodup_flatMap]
    constructor
    · exact fun t ht => (hinv.of_mem ht).nodup_returned
    · rw [List.pairwise_iff_getElem]
      intro i j hi hj hij
      have hpair := hinv.pair i j _ _ hij.ne (List.getElem?_eq_getElem hi)
        (List.getElem?_eq_getElem hj)
      exact fun p hp hq =>
        hpair.leases (Thread.returned_subset _ hp) (Thread.returned_subset _ hq)
  · intro i j t u k hi hj ht hu
    by_contra hne
    have hpair := hinv.pair i j t u hne hi hj
    have hti := hinv.each i t hi
    have huj := hinv.each j u hj
    rcases hti.reserving hinv.shared ht with ⟨x, o, hx, rfl⟩ | ⟨y, hy, hmem⟩ <;>
      rcases huj.reserving hinv.shared hu with ⟨z, o', hz, hkey⟩ | ⟨y', hy', hmem'⟩
    · exact hpair.holding x z o o' hx hz hkey.symm
    · exact hti.not_published hx hy' (huj.leases hmem')
    · subst hkey
      exact huj.not_published hz hy (hti.leases hmem)
    · obtain rfl := Option.some.inj (hy.symm.trans hy')
      exact hpair.leases hmem hmem'

/-- The first attempt fails, a publish of the second lease fails, and the second attempt is leased
by another worker. -/
def leasedTwice : List (Act Request Choice EnvStep) :=
  firstAttempt 3 ++ arrive 2 7 (.fail ⟨firstHolder, "boom", true⟩) ++
    arrive 3 4 (.leaseBatch ⟨"build", "w1", 1, 0⟩) ++ [Act.run 3 Choice.publishError] ++ goOn 3 1 ++
    arrive 4 8 (.leaseBatch ⟨"build", "w2", 1, 0⟩)

theorem lease_tokens_unique_twice :
    ∃ w, (coordinator .default).Reach Guard.all (State.init .default) w ∧
      w.threads.flatMap Thread.returned = [("acme/p/w", 1), ("acme/p/w", 2)] ∧
      (w.threads.flatMap Thread.returned).Nodup := by
  have hrun : ((coordinator .default).exec ⟨State.init .default, []⟩ leasedTwice).map
      (fun w => w.threads.flatMap Thread.returned) =
        some [("acme/p/w", 1), ("acme/p/w", 2)] := by
    decide +kernel
  obtain ⟨w, hreach, heq⟩ := Program.exists_reach hrun
  exact ⟨w, hreach, heq, (lease_tokens_unique .default (by decide) hreach).1⟩

end AgentBus.Workflow
