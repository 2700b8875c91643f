import Mathlib.Data.List.AList
import Mathlib.Data.List.Induction

/-!
# Maps, and what a loop over keys does to them

What is found under a key after the entries of some values are deleted, or after the same value is
put under several keys; for association lists, and for any state in which something is found under
a key.  A tally counts how often each key comes up, and has no entry for the others.
-/

namespace AgentBus.Maps

variable {κ α : Type*}

section Loop

variable {σ β : Type*} {put : σ → κ → σ}

/-- What each round leaves alone, the loop does. -/
theorem foldl_frame (get : σ → β) {ks : List κ} (h : ∀ s, ∀ k ∈ ks, get (put s k) = get s)
    (s : σ) : get (ks.foldl put s) = get s := by
  induction ks generalizing s with
  | nil => rfl
  | cons k ks ih =>
    rw [List.foldl_cons, ih fun s k' hk' => h s k' (List.mem_cons_of_mem _ hk')]
    exact h s k List.mem_cons_self

/-- Each round puts the value under its key: the loop puts it under all of them. -/
theorem foldl_put [DecidableEq κ] (I : σ → Prop) (get : σ → κ → β) {v : β}
    (hput : ∀ s, I s → ∀ k, I (put s k) ∧ ∀ j, get (put s k) j = if j = k then v else get s j)
    (ks : List κ) {s : σ} (hs : I s) :
    I (ks.foldl put s) ∧ ∀ j, get (ks.foldl put s) j = if j ∈ ks then v else get s j := by
  induction ks generalizing s with
  | nil => exact ⟨hs, fun j => by simp⟩
  | cons k ks ih =>
    obtain ⟨hI, hget⟩ := hput s hs k
    obtain ⟨hrest, hgets⟩ := ih hI
    refine ⟨hrest, fun j => ?_⟩
    rw [List.foldl_cons, hgets, hget]
    by_cases hmem : j ∈ ks
    · simp [hmem]
    · simp [hmem]

end Loop

variable [DecidableEq κ]

/-- The entries whose values have a property. -/
def keeping (keep : α → Bool) (m : AList fun _ : κ => α) : AList fun _ : κ => α :=
  ⟨m.entries.filter fun e => keep e.2, m.nodupKeys.sublist List.filter_sublist⟩

@[simp] theorem lookup_keeping (keep : α → Bool) (m : AList fun _ : κ => α) (k : κ) :
    (keeping keep m).lookup k = (m.lookup k).filter keep := by
  apply Option.ext
  intro x
  rw [← Option.mem_def, AList.mem_lookup_iff, Option.filter_eq_some_iff, ← Option.mem_def,
    AList.mem_lookup_iff]
  exact List.mem_filter

/-- One value under several keys. -/
def insertAll (v : α) (ks : List κ) (m : AList fun _ : κ => α) : AList fun _ : κ => α :=
  ks.foldl (fun m k => m.insert k v) m

@[simp] theorem lookup_insertAll (v : α) (ks : List κ) (m : AList fun _ : κ => α) (k : κ) :
    (insertAll v ks m).lookup k = if k ∈ ks then some v else m.lookup k := by
  refine (foldl_put (fun _ => True) (fun (m : AList fun _ : κ => α) k => m.lookup k)
    (fun m _ a => ⟨trivial, fun j => ?_⟩) ks trivial).2 k
  by_cases hj : j = a
  · subst hj
    simp
  · simp [hj]

/-- Entries put in one after the other. -/
def insertEach (es : List (κ × α)) (m : AList fun _ : κ => α) : AList fun _ : κ => α :=
  es.foldl (fun m e => m.insert e.1 e.2) m

theorem mem_of_lookup_insertEach {es : List (κ × α)} {m : AList fun _ : κ => α} {k : κ} {v : α}
    (h : (insertEach es m).lookup k = some v) : (k, v) ∈ es ∨ m.lookup k = some v := by
  induction es generalizing m with
  | nil => exact .inr h
  | cons e es ih =>
    rcases ih h with hmem | hlookup
    · exact .inl (List.mem_cons_of_mem _ hmem)
    · by_cases hk : k = e.1
      · subst hk
        rw [AList.lookup_insert] at hlookup
        obtain rfl := Option.some.inj hlookup
        exact .inl List.mem_cons_self
      · rw [AList.lookup_insert_ne hk] at hlookup
        exact .inr hlookup

@[simp] theorem lookup_insertEach_of_notMem {es : List (κ × α)} {k : κ} (h : k ∉ es.map Prod.fst)
    (m : AList fun _ : κ => α) : (insertEach es m).lookup k = m.lookup k := by
  refine foldl_frame (fun m : AList fun _ : κ => α => m.lookup k) (fun m e he => ?_) m
  exact AList.lookup_insert_ne fun hk => h (hk ▸ List.mem_map_of_mem he)

theorem lookup_insertEach_of_mem {es : List (κ × α)} (hnodup : (es.map Prod.fst).Nodup) {k : κ}
    {v : α} (h : (k, v) ∈ es) (m : AList fun _ : κ => α) :
    (insertEach es m).lookup k = some v := by
  induction es generalizing m with
  | nil => simp at h
  | cons e es ih =>
    rw [List.map_cons, List.nodup_cons] at hnodup
    rcases List.mem_cons.mp h with rfl | hmem
    · exact (lookup_insertEach_of_notMem hnodup.1 _).trans (AList.lookup_insert m)
    · exact ih hnodup.2 hmem _

/-- Each value changed in its place. -/
def mapValues (f : α → α) (m : AList fun _ : κ => α) : AList fun _ : κ => α where
  entries := m.entries.map fun e => ⟨e.1, f e.2⟩
  nodupKeys := by
    have hkeys : (m.entries.map fun e => (⟨e.1, f e.2⟩ : Sigma fun _ : κ => α)).keys =
        m.entries.keys := by
      simp [List.keys, Function.comp_def]
    rw [List.NodupKeys, hkeys]
    exact m.nodupKeys

theorem lookup_mapValues (f : α → α) (m : AList fun _ : κ => α) (k : κ) :
    (mapValues f m).lookup k = (m.lookup k).map f :=
  List.dlookup_map₂ (f := fun _ => f) k

section Tally

variable {β : Type*} (key : β → κ)

/-- How often each key comes up. -/
def tally (xs : List β) : AList fun _ : κ => ℕ :=
  xs.foldl (fun m x => m.insert (key x) ((m.lookup (key x)).getD 0 + 1)) ∅

theorem lookup_tally (xs : List β) (k : κ) :
    (tally key xs).lookup k =
      if 0 < xs.countP (fun x => key x = k) then some (xs.countP fun x => key x = k) else none := by
  induction xs using List.reverseRecOn with
  | nil => simp [tally]
  | append_singleton xs x ih =>
    rw [tally, List.foldl_append, ← tally, List.countP_append, List.countP_singleton]
    simp only [List.foldl_cons, List.foldl_nil]
    by_cases hk : key x = k
    · subst hk
      rw [AList.lookup_insert, ih]
      by_cases hpos : 0 < xs.countP fun x' => key x' = key x
      · simp [hpos]
      · simp [Nat.eq_zero_of_not_pos hpos]
    · rw [AList.lookup_insert_ne (Ne.symm hk), ih]
      simp [hk]

end Tally

/-- The values of a map put over those of a function. -/
def overlay (m : AList fun _ : κ => α) (g : κ → Option α) : κ → Option α :=
  m.entries.foldl (fun g e => Function.update g e.1 (some e.2)) g

@[simp] theorem overlay_apply (m : AList fun _ : κ => α) (g : κ → Option α) (k : κ) :
    overlay m g k = (m.lookup k).or (g k) := by
  obtain ⟨entries, hnodup⟩ := m
  rw [AList.lookup, overlay]
  induction entries generalizing g with
  | nil => simp
  | cons e entries ih =>
    obtain ⟨hnot, hrest⟩ := List.nodupKeys_cons.mp hnodup
    rw [List.foldl_cons, ih _ hrest]
    by_cases hk : k = e.1
    · subst hk
      rw [List.dlookup_eq_none.mpr hnot, List.dlookup_cons_eq]
      simp
    · rw [List.dlookup_cons_ne _ _ hk, Function.update_of_ne hk]

end AgentBus.Maps
