import AgentBus.Controlplane.ControlPlane
import AgentBus.Lib.Delimiters
import AgentBus.Workflow.Steps

/-!
# Tenants and their keys

Executions and sessions are kept under one string that is made of a tenant, a project and an id,
with slashes between them.  Nothing keeps a slash out of the three, so two addresses may share a
key, and then each sees what is sent to the other.  Addresses with different keys are isolated: the
fold of an event leaves other keys alone, except that a retention bound drops finished executions
whoever they belong to.

## Main definitions

* `Address` — a tenant, a project and an id.
* `StoreIsolated`, `SessionIsolated` — events for one address do not show at another.
-/

namespace AgentBus.Workflow

open AgentStream Controlplane

/-- What an execution or a session is addressed by. -/
@[ext]
structure Address where
  tenant : String
  project : String
  id : String
  deriving DecidableEq, Repr

namespace Address

/-- The key an address is kept under. -/
def key (a : Address) : String := sessionKey a.tenant a.project a.id

/-- The address as far as it matters: blanks around the parts are dropped. -/
def trimmed (a : Address) : Address :=
  ⟨trimSpace a.tenant, trimSpace a.project, trimSpace a.id⟩

/-- No part is blank. -/
def NonBlank (a : Address) : Prop :=
  trimSpace a.tenant ≠ "" ∧ trimSpace a.project ≠ "" ∧ trimSpace a.id ≠ ""

instance (a : Address) : Decidable a.NonBlank :=
  inferInstanceAs (Decidable (_ ∧ _ ∧ _))

/-- The tenant and the project have no slash. -/
def SlashFree (a : Address) : Prop := '/' ∉ a.tenant.toList ∧ '/' ∉ a.project.toList

/-- The event is addressed to `a`. -/
def Receives (a : Address) (e : Event) : Prop :=
  e.tenant = a.tenant ∧ e.project = a.project ∧ e.sessionID = a.id

theorem Receives.key {a : Address} {e : Event} (h : a.Receives e) : e.key = a.key := by
  obtain ⟨htenant, hproject, hid⟩ := h
  rw [Event.key, Address.key, htenant, hproject, hid]

end Address

/-- `Get` at one address. -/
def Store.getAt (s : Store) (a : Address) : Option Execution := s.get a.tenant a.project a.id

/-- `GetSession` at one address. -/
def getSessionAt (cp : ControlPlane) (a : Address) : Option RunState :=
  cp.getSession a.tenant a.project a.id

/-- The control plane after some events, each at its time. -/
def ingestAll (cp : ControlPlane) (es : List (Time × Event)) : ControlPlane :=
  es.foldl (fun cp p => cp.ingest p.1 p.2) cp

/-- Events for `a` do not change the execution at `b`, in any store that drops nothing. -/
def StoreIsolated (a b : Address) : Prop :=
  ∀ (s : Store) (es : List Event), s.retainTerminal ≤ 0 → (∀ e ∈ es, a.Receives e) →
    (s.applyAll es).getAt b = s.getAt b

/-- Events for `a` do not change the session at `b`. -/
def SessionIsolated (a b : Address) : Prop :=
  ∀ (cp : ControlPlane) (es : List (Time × Event)), (∀ p ∈ es, a.Receives p.2) →
    getSessionAt (ingestAll cp es) b = getSessionAt cp b

/-! ## The store -/

/-- The fold of an event leaves other keys alone, or drops a finished execution. -/
theorem Store.find?_apply_of_ne {s : Store} {e : Event} {k : String} (hk : k ≠ e.key) :
    (s.apply e).1.find? k = s.find? k ∨
      (0 < s.retainTerminal ∧ (s.apply e).1.find? k = none) := by
  obtain ⟨o, hwritten, hfind | ⟨hret, hnone, -⟩⟩ := find?_apply_cases s e k
  · cases hwritten with
    | same refused => exact .inl hfind
    | created nx key ty absent valid => exact absurd key hk
    | folded x x' key present folds => exact absurd key hk
  · exact .inr ⟨hret, hnone⟩

/-- **Events of other keys** leave an execution alone, or it is finished and dropped. -/
theorem Store.find?_applyAll_of_ne {es : List Event} {k : String} (hk : ∀ e ∈ es, k ≠ e.key)
    (s : Store) :
    (s.applyAll es).find? k = s.find? k ∨
      (0 < s.retainTerminal ∧ (s.applyAll es).find? k = none) := by
  induction es generalizing s with
  | nil => exact .inl rfl
  | cons e es ih =>
    have htail := ih (fun e' he' => hk e' (List.mem_cons_of_mem _ he')) (s.apply e).1
    rw [retainTerminal_apply] at htail
    rcases find?_apply_of_ne (s := s) (hk e List.mem_cons_self) with hsame | ⟨hret, hnone⟩
    · rwa [hsame] at htail
    · refine .inr ⟨hret, ?_⟩
      rcases htail with htail | htail
      · exact htail.trans hnone
      · exact htail.2

/-- The submit of an execution at an address. -/
def submitTo (a : Address) : Event :=
  newEnvelope .submitted a.tenant a.project a.id coordinatorAgentID 0
    (SubmitPayload.marshal ⟨"build", [], 1, 1⟩) 0

theorem isSome_getAt_submitTo (a : Address) (retain : ℤ) (hret : retain ≤ 0) :
    (((Store.empty retain).apply (submitTo a)).1.find? a.key).isSome = true := by
  have hkey : (submitTo a).key = a.key := rfl
  have hread : SubmitPayload.unmarshal (submitTo a).payload = some ⟨"build", [], 1, 1⟩ :=
    SubmitPayload.unmarshal_marshal _ (by decide) (by decide)
  have hty : eventType (submitTo a) = some .submitted := eventType_newEnvelope ..
  have hnone : (Store.empty retain).find? a.key = none := rfl
  rw [Store.find?_apply hret, hkey, if_pos rfl, hnone, foldKey, if_pos hty]
  simp [newExecution, hread]

theorem storeIsolated_iff (a b : Address) : StoreIsolated a b ↔ a.key ≠ b.key := by
  constructor
  · intro h hkey
    have hsame := h (Store.empty 0) [submitTo a] le_rfl (by
      intro e he
      rw [List.mem_singleton.mp he]
      exact ⟨rfl, rfl, rfl⟩)
    have hsome := isSome_getAt_submitTo a 0 le_rfl
    rw [hkey] at hsome
    change ((Store.empty 0).apply (submitTo a)).1.find? b.key = none at hsame
    rw [hsame] at hsome
    cases hsome
  · intro hkey s es hret hes
    have hother : ∀ e ∈ es, b.key ≠ e.key := by
      intro e he heq
      rw [(hes e he).key] at heq
      exact hkey heq.symm
    rcases Store.find?_applyAll_of_ne hother s with hsame | ⟨hret', -⟩
    · exact hsame
    · omega

/-! ## The control plane -/

theorem getSessionAt_ingestAll {a b : Address} (hkey : a.key ≠ b.key) (cp : ControlPlane)
    (es : List (Time × Event)) (hes : ∀ p ∈ es, a.Receives p.2) :
    getSessionAt (ingestAll cp es) b = getSessionAt cp b := by
  induction es generalizing cp with
  | nil => rfl
  | cons p es ih =>
    have hne : b.key ≠ p.2.key := by
      rw [(hes p List.mem_cons_self).key]
      exact hkey.symm
    have htail := ih (cp.ingest p.1 p.2) fun q hq => hes q (List.mem_cons_of_mem _ hq)
    exact htail.trans (cp.get_ingest_of_ne p.1 hne)

theorem sessionIsolated_iff {a : Address} (ha : a.NonBlank) (b : Address) :
    SessionIsolated a b ↔ a.key ≠ b.key := by
  constructor
  · intro h hkey
    have hsame := h ControlPlane.new [(0, submitTo a)] (by
      intro p hp
      rw [List.mem_singleton.mp hp]
      exact ⟨rfl, rfl, rfl⟩)
    have hsome := ControlPlane.new.isSome_get_ingest 0 (e := submitTo a)
      (sessionKey_ne_slashes ha.1 _ _)
    change ((ControlPlane.new.ingest 0 (submitTo a)).sessions.get a.key).isSome = true at hsome
    rw [hkey] at hsome
    change (ControlPlane.new.ingest 0 (submitTo a)).sessions.get b.key = none at hsame
    rw [hsame] at hsome
    cases hsome
  · exact getSessionAt_ingestAll

/-! ## Keys without ambiguity -/

/-- Without slashes in the tenant and the project, the key tells the address. -/
theorem Address.key_eq_iff {a b : Address} (ha : a.trimmed.SlashFree) (hb : b.trimmed.SlashFree) :
    a.key = b.key ↔ a.trimmed = b.trimmed := by
  have hchars : ∀ a : Address, a.key.toList = a.trimmed.tenant.toList ++
      '/' :: (a.trimmed.project.toList ++ '/' :: a.trimmed.id.toList) := by
    intro a
    simp [Address.key, sessionKey, Address.trimmed]
  constructor
  · intro h
    have hlist := congrArg String.toList h
    rw [hchars, hchars] at hlist
    obtain ⟨htenant, hrest⟩ := Delimiters.append_cons_inj ha.1 hb.1 hlist
    obtain ⟨hproject, hid⟩ := Delimiters.append_cons_inj ha.2 hb.2 hrest
    exact Address.ext (String.toList_inj.mp htenant) (String.toList_inj.mp hproject)
      (String.toList_inj.mp hid)
  · intro h
    apply String.toList_inj.mp
    rw [hchars, hchars, h]

/-- **When tenants are isolated.**  Whatever is sent to one address does not show at another, in a
store that drops nothing and in the control plane, if and only if their keys differ; and for
addresses without a slash in the tenant and the project they differ exactly if the addresses do,
blanks aside. -/
theorem isolation_iff (a b : Address) (ha : a.NonBlank) :
    (StoreIsolated a b ↔ a.key ≠ b.key) ∧ (SessionIsolated a b ↔ a.key ≠ b.key) ∧
      (a.trimmed.SlashFree → b.trimmed.SlashFree → (a.key ≠ b.key ↔ a.trimmed ≠ b.trimmed)) :=
  ⟨storeIsolated_iff a b, sessionIsolated_iff ha b, fun hfree hfree' =>
    not_congr (Address.key_eq_iff hfree hfree')⟩

theorem isolation_iff_tasks :
    (Address.mk "acme" "p" "v").NonBlank ∧
      StoreIsolated ⟨"acme", "p", "v"⟩ ⟨"acme", "p", "w"⟩ ∧
      SessionIsolated ⟨"acme", "p", "v"⟩ ⟨"acme", "p", "w"⟩ := by
  have hblank : (Address.mk "acme" "p" "v").NonBlank := by decide +kernel
  have hkey : (Address.mk "acme" "p" "v").key ≠ (Address.mk "acme" "p" "w").key := by
    decide +kernel
  obtain ⟨hstore, hsession, -⟩ :=
    isolation_iff ⟨"acme", "p", "v"⟩ ⟨"acme", "p", "w"⟩ hblank
  exact ⟨hblank, hstore.mpr hkey, hsession.mpr hkey⟩

/-! ## Tenants that see each other -/

/-- An execution from its submit to its completion. -/
def finishedRun (a : Address) : List Event :=
  [submitTo a,
    newEnvelope .leased a.tenant a.project a.id "w1" 1 (LeasePayload.marshal ⟨"w1"⟩) 0,
    newEnvelope .completed a.tenant a.project a.id "w1" 1 (CompletePayload.marshal ⟨"w1", []⟩) 0]

/-- Two tenants share a key; and with room for one finished execution, a tenant that finishes one
makes another tenant's disappear. -/
theorem tenants_not_isolated :
    ((Address.mk "a/b" "c" "d").NonBlank ∧ (Address.mk "a" "b/c" "d").NonBlank ∧
      (Address.mk "a/b" "c" "d").trimmed ≠ (Address.mk "a" "b/c" "d").trimmed ∧
      ((Store.empty 0).getAt ⟨"a", "b/c", "d"⟩).isSome = false ∧
      (((Store.empty 0).applyAll [submitTo ⟨"a/b", "c", "d"⟩]).getAt
        ⟨"a", "b/c", "d"⟩).isSome = true ∧
      (getSessionAt ControlPlane.new ⟨"a", "b/c", "d"⟩).isSome = false ∧
      (getSessionAt (ingestAll ControlPlane.new [(0, submitTo ⟨"a/b", "c", "d"⟩)])
        ⟨"a", "b/c", "d"⟩).isSome = true) ∧
    (((Store.empty 1).applyAll (finishedRun ⟨"acme", "p", "v"⟩)).getAt
        ⟨"acme", "p", "v"⟩).isSome = true ∧
      (((Store.empty 1).applyAll (finishedRun ⟨"acme", "p", "v"⟩)).applyAll
        (finishedRun ⟨"other", "q", "w"⟩)).getAt ⟨"acme", "p", "v"⟩ = none := by
  decide +kernel

end AgentBus.Workflow
