import AgentBus.Controlplane.ControlPlane
import AgentBus.Lib.Channel
import AgentBus.Lib.Pool

/-!
# The inboxes with their locks

`internal/controlplane/inbox.go`: `Open` and `Close` each hold the lock throughout, but `Deliver`
only looks the channel up under it and sends after it has let go.  The calls are threads of a pool
(`inboxProgram`), with the lookup and the send of `Deliver` as separate steps, and whoever receives
is the environment.

An entry of the map is an open channel that no other agent has (`LiveInboxes.Wired`), and a channel
that was found is the agent's inbox as long as it is open (`LiveInboxes.Linked`).

## Main definitions

* `LiveInboxes`, `InboxThread`, `LiveInboxes.step`, `inboxProgram` — the steps.
* `LiveInboxes.Wired`, `LiveInboxes.Linked`, `Relies` — the invariants.
* `InboxStep`, `LiveInboxes.Change` — what a step does, and what it does to the state.
-/

namespace AgentBus.Controlplane

open Pool

/-! ## The calls -/

/-- `Inboxes`: the channel of each agent, and every channel that was made. -/
structure LiveInboxes where
  boxes : String → Option ℕ
  chans : List (Channel RoutedEvent)
  size : ℕ

/-- A call. -/
inductive InboxCall where
  | open (agent : String)
  | deliver (agent : String) (ev : RoutedEvent)
  | close (agent : String)
  deriving DecidableEq, Repr

/-- How far a call has come. -/
inductive InboxThread where
  | opening (agent : String)
  | opened (agent : String) (ch : ℕ)
  | looking (agent : String) (ev : RoutedEvent)
  /-- `Deliver` has found the channel and let go of the lock. -/
  | sending (agent : String) (ev : RoutedEvent) (ch : ℕ)
  /-- `Deliver` has returned true. -/
  | delivered (agent : String) (ev : RoutedEvent) (ch : ℕ)
  /-- `Deliver` has returned false. -/
  | refused (agent : String) (ev : RoutedEvent)
  | closing (agent : String)
  | closed (agent : String)
  /-- `send on closed channel`. -/
  | sendOnClosed (agent : String) (ev : RoutedEvent) (ch : ℕ)
  /-- `close of closed channel`. -/
  | closeOfClosed (agent : String) (ch : ℕ)
  deriving DecidableEq, Repr

namespace LiveInboxes

/-- `NewInboxes`. -/
def new (size : ℤ) : LiveInboxes := ⟨fun _ => none, [], if size ≤ 0 then 1 else size.toNat⟩

/-- A channel is made for an agent. -/
def made (s : LiveInboxes) (agent : String) : LiveInboxes :=
  { s with
    boxes := Function.update s.boxes agent (some s.chans.length)
    chans := s.chans ++ [Channel.make s.size] }

/-- A channel is written to. -/
def put (s : LiveInboxes) (ch : ℕ) (c : Channel RoutedEvent) : LiveInboxes :=
  { s with chans := s.chans.set ch c }

/-- An agent's entry is deleted. -/
def removed (s : LiveInboxes) (agent : String) : LiveInboxes :=
  { s with boxes := Function.update s.boxes agent none }

/-- The next step of a call. -/
def step (s : LiveInboxes) : InboxThread → Option (LiveInboxes × InboxThread)
  | .opening agent =>
    match s.boxes agent with
    | some ch => some (s, .opened agent ch)
    | none => some (s.made agent, .opened agent s.chans.length)
  | .looking agent ev =>
    match s.boxes agent with
    | some ch => some (s, .sending agent ev ch)
    | none => some (s, .refused agent ev)
  | .sending agent ev ch =>
    (s.chans[ch]?).map fun c =>
      match c.trySend ev with
      | none => (s, .sendOnClosed agent ev ch)
      | some (c', true) => (s.put ch c', .delivered agent ev ch)
      | some (_, false) => (s, .refused agent ev)
  | .closing agent =>
    match s.boxes agent with
    | none => some (s, .closed agent)
    | some ch =>
      (s.chans[ch]?).map fun c =>
        match c.close with
        | none => (s.removed agent, .closeOfClosed agent ch)
        | some c' => ((s.removed agent).put ch c', .closed agent)
  | _ => none

/-- Someone receives from a channel. -/
def receive (s : LiveInboxes) (ch : ℕ) : Option LiveInboxes :=
  (s.chans[ch]?).bind fun c => c.receive.map fun r => s.put ch r.2

end LiveInboxes

/-- The calls, and the receivers as the environment. -/
def inboxProgram : Program LiveInboxes InboxThread InboxCall Unit ℕ where
  entry
    | .open agent => .opening agent
    | .deliver agent ev => .looking agent ev
    | .close agent => .closing agent
  thread s t _ := s.step t
  env s ch := s.receive ch

/-! ## What a step does -/

/-- The steps, one by one. -/
inductive InboxStep (s : LiveInboxes) : InboxThread → LiveInboxes → InboxThread → Prop
  | reopen {agent : String} {ch : ℕ} (h : s.boxes agent = some ch) :
      InboxStep s (.opening agent) s (.opened agent ch)
  | make {agent : String} (h : s.boxes agent = none) :
      InboxStep s (.opening agent) (s.made agent) (.opened agent s.chans.length)
  | find {agent : String} {ev : RoutedEvent} {ch : ℕ} (h : s.boxes agent = some ch) :
      InboxStep s (.looking agent ev) s (.sending agent ev ch)
  | miss {agent : String} {ev : RoutedEvent} (h : s.boxes agent = none) :
      InboxStep s (.looking agent ev) s (.refused agent ev)
  | send {agent : String} {ev : RoutedEvent} {ch : ℕ} {c c' : Channel RoutedEvent}
      (hc : s.chans[ch]? = some c) (h : c.trySend ev = some (c', true)) :
      InboxStep s (.sending agent ev ch) (s.put ch c') (.delivered agent ev ch)
  | full {agent : String} {ev : RoutedEvent} {ch : ℕ} {c c' : Channel RoutedEvent}
      (hc : s.chans[ch]? = some c) (h : c.trySend ev = some (c', false)) :
      InboxStep s (.sending agent ev ch) s (.refused agent ev)
  | sendClosed {agent : String} {ev : RoutedEvent} {ch : ℕ} {c : Channel RoutedEvent}
      (hc : s.chans[ch]? = some c) (h : c.closed = true) :
      InboxStep s (.sending agent ev ch) s (.sendOnClosed agent ev ch)
  | absent {agent : String} (h : s.boxes agent = none) :
      InboxStep s (.closing agent) s (.closed agent)
  | close {agent : String} {ch : ℕ} {c c' : Channel RoutedEvent} (h : s.boxes agent = some ch)
      (hc : s.chans[ch]? = some c) (hclose : c.close = some c') :
      InboxStep s (.closing agent) ((s.removed agent).put ch c') (.closed agent)
  | closeClosed {agent : String} {ch : ℕ} {c : Channel RoutedEvent} (h : s.boxes agent = some ch)
      (hc : s.chans[ch]? = some c) (hclosed : c.closed = true) :
      InboxStep s (.closing agent) (s.removed agent) (.closeOfClosed agent ch)

theorem inboxStep_of_step {s s' : LiveInboxes} {t t' : InboxThread}
    (h : s.step t = some (s', t')) : InboxStep s t s' t' := by
  cases t with
  | opening agent =>
    simp only [LiveInboxes.step] at h
    split at h
    · rename_i hbox
      cases h
      exact .reopen hbox
    · rename_i hbox
      cases h
      exact .make hbox
  | looking agent ev =>
    simp only [LiveInboxes.step] at h
    split at h
    · rename_i hbox
      cases h
      exact .find hbox
    · rename_i hbox
      cases h
      exact .miss hbox
  | sending agent ev ch =>
    obtain ⟨c, hc, h⟩ := Option.map_eq_some_iff.mp h
    split at h
    · rename_i hsend
      cases h
      exact .sendClosed hc (Channel.trySend_eq_none_iff.mp hsend)
    · rename_i hsend
      cases h
      exact .send hc hsend
    · rename_i hsend
      cases h
      exact .full hc hsend
  | closing agent =>
    simp only [LiveInboxes.step] at h
    split at h
    · rename_i hbox
      cases h
      exact .absent hbox
    · rename_i ch hbox
      obtain ⟨c, hc, h⟩ := Option.map_eq_some_iff.mp h
      split at h
      · rename_i hclose
        cases h
        exact .closeClosed hbox hc (Channel.close_eq_none_iff.mp hclose)
      · rename_i hclose
        cases h
        exact .close hbox hc hclose
  | opened agent ch => cases h
  | delivered agent ev ch => cases h
  | refused agent ev => cases h
  | closed agent => cases h
  | sendOnClosed agent ev ch => cases h
  | closeOfClosed agent ch => cases h

/-! ## The invariants -/

namespace LiveInboxes

/-- The entries are open channels, and no two agents have the same. -/
structure Wired (s : LiveInboxes) : Prop where
  isOpen : ∀ agent ch, s.boxes agent = some ch → ∃ c, s.chans[ch]? = some c ∧ c.closed = false
  own : ∀ agent agent' ch, s.boxes agent = some ch → s.boxes agent' = some ch → agent = agent'
  capacity : ∀ (ch : ℕ) c, s.chans[ch]? = some c → c.capacity = s.size

/-- The channel was the agent's inbox once, and is still if it is open. -/
def Linked (s : LiveInboxes) (agent : String) (ch : ℕ) : Prop :=
  ∃ c, s.chans[ch]? = some c ∧ (c.closed = false ↔ s.boxes agent = some ch)

variable {agent : String} {ch k : ℕ} {c : Channel RoutedEvent}

theorem Linked.isOpen_iff {s : LiveInboxes} (hl : s.Linked agent ch) (hc : s.chans[ch]? = some c) :
    c.closed = false ↔ s.boxes agent = some ch := by
  obtain ⟨c', hc', hiff⟩ := hl
  rw [hc] at hc'
  cases hc'
  exact hiff

/-- What happens to the state: a channel is made, one is written to, or one is closed. -/
inductive Change (s : LiveInboxes) : LiveInboxes → Prop
  | same : Change s s
  | made {agent : String} (h : s.boxes agent = none) : Change s (s.made agent)
  | put {ch : ℕ} {c c' : Channel RoutedEvent} (hc : s.chans[ch]? = some c)
      (hclosed : c'.closed = c.closed) (hcap : c'.capacity = c.capacity) : Change s (s.put ch c')
  | closed {agent : String} {ch : ℕ} {c c' : Channel RoutedEvent} (h : s.boxes agent = some ch)
      (hc : s.chans[ch]? = some c) (hclosed : c'.closed = true) (hcap : c'.capacity = c.capacity) :
      Change s ((s.removed agent).put ch c')

variable {s s' : LiveInboxes}

@[simp] theorem getElem?_made (hc : s.chans[ch]? = some c) (agent : String) :
    (s.made agent).chans[ch]? = some c :=
  (List.getElem?_append_left (List.getElem?_eq_some_iff.mp hc).1).trans hc

theorem getElem?_made_cases (h : (s.made agent).chans[ch]? = some c) :
    (ch = s.chans.length ∧ c = Channel.make s.size) ∨ s.chans[ch]? = some c :=
  getElem?_append_singleton_cases h

@[simp] theorem getElem?_put_self (hc : s.chans[ch]? = some c) (c' : Channel RoutedEvent) :
    (s.put ch c').chans[ch]? = some c' := by
  rw [put, List.getElem?_set_self (List.getElem?_eq_some_iff.mp hc).1]

@[simp] theorem getElem?_put_of_ne (h : k ≠ ch) (c' : Channel RoutedEvent) :
    (s.put ch c').chans[k]? = s.chans[k]? :=
  List.getElem?_set_ne (Ne.symm h)

theorem Wired.ne_closed (hs : s.Wired) (hbox : s.boxes agent = some ch)
    (hc : s.chans[ch]? = some c) : c.closed ≠ true := by
  obtain ⟨c', hc', hopen⟩ := hs.isOpen agent ch hbox
  rw [hc] at hc'
  cases hc'
  rw [hopen]
  exact Bool.false_ne_true

/-- The channel that is made is not in use. -/
theorem Wired.ne_length (hs : s.Wired) (h : s.boxes agent = some ch) : ch ≠ s.chans.length := by
  obtain ⟨c, hc, -⟩ := hs.isOpen agent ch h
  exact ((List.getElem?_eq_some_iff.mp hc).1).ne

@[simp] theorem boxes_made (agent agent' : String) :
    (s.made agent).boxes agent' =
      if agent' = agent then some s.chans.length else s.boxes agent' :=
  Function.update_apply ..

@[simp] theorem boxes_removed (agent agent' : String) :
    (s.removed agent).boxes agent' = if agent' = agent then none else s.boxes agent' :=
  Function.update_apply ..

/-- The entries that are left are other channels. -/
theorem Wired.entry_removed (hs : s.Wired) {agent' : String} (hbox : s.boxes agent = some ch)
    (h : (s.removed agent).boxes agent' = some k) : k ≠ ch ∧ s.boxes agent' = some k := by
  rw [boxes_removed] at h
  split at h
  · cases h
  · rename_i hne
    refine ⟨?_, h⟩
    rintro rfl
    exact hne (hs.own _ _ _ h hbox)

theorem Wired.capacity_put (hs : s.Wired) {c' ck : Channel RoutedEvent} (hc : s.chans[ch]? = some c)
    (hcap : c'.capacity = c.capacity) (h : (s.put ch c').chans[k]? = some ck) :
    ck.capacity = s.size := by
  rcases getElem?_set_cases h with ⟨rfl, rfl⟩ | ⟨-, h⟩
  · exact hcap.trans (hs.capacity _ c hc)
  · exact hs.capacity k ck h

theorem wired_new (size : ℤ) : (new size).Wired where
  isOpen _ _ h := by cases h
  own _ _ _ h := by cases h
  capacity _ _ h := by cases h

theorem Change.wired (h : Change s s') (hs : s.Wired) : s'.Wired := by
  cases h with
  | same => exact hs
  | @made agent hnone =>
    have hcases : ∀ agent' ch, (s.made agent).boxes agent' = some ch →
        (agent' = agent ∧ ch = s.chans.length) ∨
          (ch ≠ s.chans.length ∧ s.boxes agent' = some ch) := by
      intro agent' ch hbox
      rw [boxes_made] at hbox
      split at hbox
      · rename_i heq
        exact .inl ⟨heq, (Option.some.inj hbox).symm⟩
      · exact .inr ⟨hs.ne_length hbox, hbox⟩
    refine ⟨?_, ?_, ?_⟩
    · intro agent' ch hbox
      rcases hcases agent' ch hbox with ⟨-, rfl⟩ | ⟨-, hbox⟩
      · exact ⟨_, List.getElem?_concat_length, rfl⟩
      · obtain ⟨c, hc, hopen⟩ := hs.isOpen agent' ch hbox
        exact ⟨c, getElem?_made hc agent, hopen⟩
    · intro a b ch ha hb
      rcases hcases a ch ha with ⟨rfl, rfl⟩ | ⟨hne, ha⟩
      · rcases hcases b _ hb with ⟨rfl, -⟩ | ⟨hne, -⟩
        · rfl
        · exact absurd rfl hne
      · rcases hcases b ch hb with ⟨-, rfl⟩ | ⟨-, hb⟩
        · exact absurd rfl hne
        · exact hs.own a b ch ha hb
    · intro ch c hc
      rcases getElem?_made_cases hc with ⟨-, rfl⟩ | hc
      · rfl
      · exact hs.capacity ch c hc
  | @put ch c c' hc hclosed hcap =>
    refine ⟨?_, hs.own, ?_⟩
    · intro agent k hbox
      obtain ⟨ck, hck, hopen⟩ := hs.isOpen agent k hbox
      by_cases hk : k = ch
      · subst hk
        rw [hc] at hck
        cases hck
        exact ⟨c', getElem?_put_self hc c', hclosed.trans hopen⟩
      · exact ⟨ck, (getElem?_put_of_ne hk c').trans hck, hopen⟩
    · exact fun k ck => hs.capacity_put hc hcap
  | @closed agent ch c c' hbox hc hclosed hcap =>
    refine ⟨?_, ?_, ?_⟩
    · intro agent' k hk
      obtain ⟨hne, hk⟩ := hs.entry_removed hbox hk
      obtain ⟨ck, hck, hopen⟩ := hs.isOpen agent' k hk
      exact ⟨ck, (getElem?_put_of_ne hne c').trans hck, hopen⟩
    · intro a b k ha hb
      exact hs.own a b k (hs.entry_removed hbox ha).2 (hs.entry_removed hbox hb).2
    · exact fun k ck => hs.capacity_put hc hcap

/-- A channel that was found stays linked to its agent. -/
theorem Change.linked (h : Change s s') (hs : s.Wired) (hl : s.Linked agent ch) :
    s'.Linked agent ch := by
  obtain ⟨c, hc, hiff⟩ := hl
  cases h with
  | same => exact ⟨c, hc, hiff⟩
  | @made agent' hnone =>
    refine ⟨c, getElem?_made hc agent', hiff.trans ?_⟩
    rw [boxes_made]
    split
    · rename_i heq
      rw [heq, hnone, Option.some.injEq]
      have hlt := (List.getElem?_eq_some_iff.mp hc).1
      exact iff_of_false (by simp) hlt.ne'
    · rfl
  | @put k ck c' hck hclosed hcap =>
    by_cases hk : ch = k
    · subst hk
      rw [hc] at hck
      cases hck
      exact ⟨c', getElem?_put_self hc c', hclosed ▸ hiff⟩
    · exact ⟨c, (getElem?_put_of_ne hk c').trans hc, hiff⟩
  | @closed agent' k ck c' hbox hck hclosed hcap =>
    by_cases hk : ch = k
    · subst hk
      refine ⟨c', getElem?_put_self hc c', ?_⟩
      rw [hclosed]
      exact iff_of_false (by simp) fun hstill => (hs.entry_removed hbox hstill).1 rfl
    · refine ⟨c, (getElem?_put_of_ne hk c').trans hc, hiff.trans ?_⟩
      change _ ↔ (s.removed agent').boxes agent = some ch
      rw [boxes_removed]
      split
      · rename_i heq
        rw [heq, hbox, Option.some.injEq]
        exact iff_of_false (Ne.symm hk) (by simp)
      · rfl

/-- Under the invariant a step is one of the changes, and no channel is closed twice. -/
theorem Wired.change {t t' : InboxThread} (hs : s.Wired) (h : InboxStep s t s' t') :
    Change s s' := by
  cases h with
  | reopen hbox => exact .same
  | make hnone => exact .made hnone
  | find hbox => exact .same
  | miss hnone => exact .same
  | send hc hsend =>
    obtain ⟨hopen, -, hopen', hcap, -⟩ := Channel.trySend_eq_true hsend
    exact .put hc (hopen'.trans hopen.symm) hcap
  | full hc hsend => exact .same
  | sendClosed hc hclosed => exact .same
  | absent hnone => exact .same
  | close hbox hc hclose =>
    obtain ⟨-, rfl⟩ := Channel.close_eq_some hclose
    exact .closed hbox hc rfl rfl
  | closeClosed hbox hc hclosed => exact absurd hclosed (hs.ne_closed hbox hc)

theorem receive_eq_some (h : s.receive ch = some s') :
    ∃ c ev c', s.chans[ch]? = some c ∧ c.receive = some (ev, c') ∧ s' = s.put ch c' := by
  obtain ⟨c, hc, h⟩ := Option.bind_eq_some_iff.mp h
  obtain ⟨⟨ev, c'⟩, hreceive, rfl⟩ := Option.map_eq_some_iff.mp h
  exact ⟨c, ev, c', hc, hreceive, rfl⟩

theorem change_of_receive (h : s.receive ch = some s') : Change s s' := by
  obtain ⟨c, ev, c', hc, hreceive, rfl⟩ := receive_eq_some h
  obtain ⟨hclosed, hcap, -⟩ := Channel.receive_eq_some hreceive
  exact .put hc hclosed hcap

end LiveInboxes

open LiveInboxes

/-! ## Along every run -/

/-- What a call relies on; no call has closed a channel twice. -/
def Relies (s : LiveInboxes) : InboxThread → Prop
  | .sending agent _ ch => s.Linked agent ch
  | .closeOfClosed _ _ => False
  | _ => True

variable {s s' : LiveInboxes} {t t' : InboxThread}

theorem relies_entry (s : LiveInboxes) (r : InboxCall) : Relies s (inboxProgram.entry r) := by
  cases r <;> trivial

theorem LiveInboxes.Change.keeps (h : Change s s') (hs : s.Wired) :
    s'.Wired ∧ ∀ u, Relies s u → Relies s' u := by
  refine ⟨h.wired hs, fun u hu => ?_⟩
  cases u with
  | sending agent ev ch => exact h.linked hs hu
  | closeOfClosed agent ch => exact hu
  | _ => trivial

/-- A step of a call keeps what all the calls rely on. -/
theorem InboxStep.keeps (h : InboxStep s t s' t') (hs : s.Wired) :
    (s'.Wired ∧ Relies s' t') ∧ ∀ u, Relies s u → Relies s' u := by
  obtain ⟨hwired, hothers⟩ := (hs.change h).keeps hs
  refine ⟨⟨hwired, ?_⟩, hothers⟩
  cases h with
  | find hbox =>
    obtain ⟨c, hc, hopen⟩ := hs.isOpen _ _ hbox
    exact ⟨c, hc, iff_of_true hopen hbox⟩
  | closeClosed hbox hc hclosed => exact absurd hclosed (hs.ne_closed hbox hc)
  | _ => trivial

theorem holds_relies {size : ℤ} {w : World LiveInboxes InboxThread}
    (h : inboxProgram.Reach Guard.all (new size) w) :
    Holds LiveInboxes.Wired Relies (fun _ _ => True) w := by
  refine h.local_invariant (fun _ _ _ => trivial) (wired_new size) ?_ ?_ ?_
  · intro s r _
    exact ⟨relies_entry s r, fun _ _ => trivial⟩
  · intro s t l s' t' hs _ _ hstep
    obtain ⟨hself, hothers⟩ := (inboxStep_of_step hstep).keeps hs
    exact ⟨hself, fun u hu _ => ⟨hothers u hu, trivial⟩⟩
  · intro s ch s' hs _ hstep
    exact (change_of_receive hstep).keeps hs

end AgentBus.Controlplane
