import AgentBus.Broker.Subscription
import AgentBus.Lib.Pool

/-!
# Publishers and a blocked subscriber

`Publish` stores its message under one lock and offers a token to every subscription under another;
a token that finds the channel full is dropped.  `Next` fetches, and when it gets nothing waits for
a token and fetches again.  Publishers, the reader of one subscription, and whoever subscribes and
unsubscribes beside it are steps of a pool (`feedProgram`), one step per critical section and one
per token.

A reader that waits for messages which are there is owed a token.  A publisher serves that debt from
the moment it has stored its message until it has come to the subscription in `notifySubs`
(`Publishing.Owes`), and a fetch that finds nothing leaves no debt; so no wakeup is lost
(`subscriber_not_starved`).

## Main definitions

* `Publishing`, `Reader`, `Feed`, `FeedStep` — the threads, and what they share.
* `removeSub` — the list of subscriptions without one of them.
* `feedProgram` — the steps.
* `Feed.Starved` — a reader that waits beside a message.
-/

namespace AgentBus.Broker

open Topic Pool

variable {α : Type*}

/-- How far a call of `Publish` has come. -/
inductive Publishing (α : Type*) where
  | calling (payload : α)
  /-- The message is in the ring and `t.mu` is released. -/
  | stored (offset : ℤ)
  /-- Inside `notifySubs`, with the subscriptions that the loop has not come to. -/
  | notifying (todo : List ℕ) (offset : ℤ)
  | returned (offset : ℤ)

/-- What the owner of the subscription is doing. -/
inductive Reader where
  | absent
  /-- In `SubscribePartitionAt`, with the offset chosen and before `addSub`. -/
  | opening
  /-- Between two calls of `Next`. -/
  | idle
  /-- In `Next`, before a fetch. -/
  | fetching (maxCount : ℤ)
  /-- In `Next`, at the `select`. -/
  | waiting (maxCount : ℤ)
  deriving DecidableEq, Repr

/-- A partition and its subscriptions; `notify` says which channels hold their token, `subsMu`
whether a publisher holds the lock of the list. -/
structure Feed (α : Type*) where
  topic : Topic α
  subs : List ℕ
  subsMu : Bool
  notify : ℕ → Bool
  sub : Subscription
  reader : Reader

/-- What happens beside the publishers. -/
inductive FeedStep where
  /-- The subscription is made; a negative offset stands for the tail. -/
  | subscribe (startOffset : ℤ)
  | register
  | next (maxCount : ℤ)
  | fetch
  | wake
  /-- The context of the call ends. -/
  | cancel
  /-- Another subscription is added, removed, or takes its token. -/
  | addSub (x : ℕ)
  | removeSub (x : ℕ)
  | receive (x : ℕ)

/-- `removeSub`: the last subscription takes the place of the one that leaves. -/
def removeSub (subs : List ℕ) (x : ℕ) : List ℕ :=
  match subs.idxOf? x with
  | none => subs
  | some i => (subs.set i (subs.getLastD x)).dropLast

/-- A partition nobody has written to or subscribed to. -/
def Feed.new [Inhabited α] (capacity : ℕ) : Feed α where
  topic := newTopic capacity
  subs := []
  subsMu := false
  notify := fun _ => false
  sub := ⟨0⟩
  reader := .absent

namespace Feed

/-- A step of `Publish`. -/
def publishing (f : Feed α) : Publishing α → Option (Feed α × Publishing α)
  | .calling payload =>
    let r := f.topic.publish payload
    some ({ f with topic := r.1 }, .stored r.2)
  | .stored offset =>
    if f.subsMu then none else some ({ f with subsMu := true }, .notifying f.subs offset)
  | .notifying (x :: todo) offset =>
    -- A full channel stays full: the send has a default.
    some ({ f with notify := Function.update f.notify x true }, .notifying todo offset)
  | .notifying [] offset => some ({ f with subsMu := false }, .returned offset)
  | .returned _ => none

/-- A step of the subscription `me` or of another one. -/
def step (me : ℕ) (f : Feed α) : FeedStep → Option (Feed α)
  | .subscribe startOffset =>
    if f.reader = .absent then
      some { f with sub := subscribePartitionAt f.topic startOffset, reader := .opening }
    else none
  | .register =>
    if f.reader = .opening ∧ f.subsMu = false then
      some { f with subs := f.subs ++ [me], reader := .idle }
    else none
  | .next maxCount =>
    if f.reader = .idle then some { f with reader := .fetching maxCount } else none
  | .fetch =>
    match f.reader with
    | .fetching maxCount =>
      (f.sub.next f.topic maxCount).map fun r =>
        { f with sub := r.1, reader := if r.2.isSome then .idle else .waiting maxCount }
    | _ => none
  | .wake =>
    match f.reader with
    | .waiting maxCount =>
      if f.notify me then
        some
          { f with notify := Function.update f.notify me false, reader := .fetching maxCount }
      else none
    | _ => none
  | .cancel =>
    match f.reader with
    | .waiting _ => some { f with reader := .idle }
    | _ => none
  | .addSub x =>
    if x ≠ me ∧ f.subsMu = false then some { f with subs := f.subs ++ [x] } else none
  | .removeSub x =>
    if x ≠ me ∧ f.subsMu = false then some { f with subs := Broker.removeSub f.subs x } else none
  | .receive x =>
    if x ≠ me ∧ f.notify x then some { f with notify := Function.update f.notify x false }
    else none

end Feed

/-- Publishers beside the subscription `me`. -/
def feedProgram (α : Type*) (me : ℕ) : Program (Feed α) (Publishing α) α Unit FeedStep where
  entry := .calling
  thread f t _ := f.publishing t
  env := Feed.step me

/-- The message is stored, and the subscription has not been offered its token. -/
def Publishing.Owes (me : ℕ) : Publishing α → Prop
  | .stored _ => True
  | .notifying todo _ => me ∈ todo
  | _ => False

/-- The reader waits without a token, and a message is at its offset or beyond. -/
def Feed.Starved (me : ℕ) (f : Feed α) : Prop :=
  (∃ maxCount, 0 < maxCount ∧ f.reader = .waiting maxCount) ∧ f.notify me = false ∧
    f.sub.offset < f.topic.tail

/-! ## The steps -/

/-- The other subscriptions stay. -/
theorem mem_removeSub {subs : List ℕ} {me x : ℕ} (hme : me ∈ subs) (hne : x ≠ me) :
    me ∈ removeSub subs x := by
  unfold removeSub
  split
  · exact hme
  · rename_i i hi
    obtain ⟨hlt, hx⟩ : ∃ h : i < subs.length, subs[i] = x := by
      obtain ⟨h, hx, -⟩ := List.findIdx?_eq_some_iff_getElem.mp hi
      exact ⟨h, by simpa using hx⟩
    obtain ⟨j, hj, hme⟩ := List.mem_iff_getElem.mp hme
    have hij : i ≠ j := by
      rintro rfl
      exact hne (hx.symm.trans hme)
    -- The last one moves to `i`; every other one keeps its place.
    refine List.mem_iff_getElem?.mpr ?_
    by_cases hlast : j = subs.length - 1
    · refine ⟨i, ?_⟩
      have hget : subs.getLastD x = me := by
        rw [List.getLastD_eq_getLast?, List.getLast?_eq_getElem?, ← hlast,
          List.getElem?_eq_getElem hj, Option.getD_some, hme]
      rw [List.getElem?_dropLast, List.length_set, if_pos (by omega), List.getElem?_set_self hlt,
        hget]
    · refine ⟨j, ?_⟩
      rw [List.getElem?_dropLast, List.length_set, if_pos (by omega), List.getElem?_set_ne hij,
        List.getElem?_eq_getElem hj, hme]

/-- A fetch that finds nothing is at the tail. -/
theorem tail_le_of_next_none {t : Topic α} {ps : List α} (ht : t.Represents ps)
    {sub sub' : Subscription} (hsub : 0 ≤ sub.offset) {maxCount : ℤ} (hmax : 0 < maxCount)
    (h : sub.next t maxCount = some (sub', none)) : sub' = sub ∧ (t.tail : ℤ) ≤ sub.offset := by
  rw [Subscription.next, ht.fetch sub.offset hmax.le, Option.map_some, Option.some_inj] at h
  split at h
  · cases h
  · rename_i hempty
    refine ⟨(congrArg Prod.fst h).symm, ?_⟩
    have hcap := t.cap_pos
    have htail := ht.tail
    have hhead := ht.head
    simp only [List.length_take, List.length_drop, length_log] at hempty
    omega

theorem offset_nonneg_of_next {t : Topic α} {sub : Subscription} (hsub : 0 ≤ sub.offset)
    {maxCount : ℤ} {r : Subscription × Option (List (Message α))}
    (h : sub.next t maxCount = some r) : 0 ≤ r.1.offset := by
  obtain ⟨msgs, -, rfl⟩ := Option.map_eq_some_iff.mp h
  split
  · dsimp only
    omega
  · exact hsub

/-- What the feed keeps: the ring, the offset, and the place of a subscription that is in use. -/
structure Feed.Sound (me : ℕ) (f : Feed α) : Prop where
  ring : ∃ ps, f.topic.Represents ps
  nonneg : 0 ≤ f.sub.offset
  registered : f.reader ≠ .absent → f.reader ≠ .opening → me ∈ f.subs

namespace Feed.Sound

variable {me : ℕ} {f f' : Feed α}

theorem new [Inhabited α] (me capacity : ℕ) : (Feed.new capacity : Feed α).Sound me :=
  ⟨⟨[], represents_newTopic capacity⟩, le_rfl, fun h => absurd rfl h⟩

theorem publishing (h : f.Sound me) {t t' : Publishing α}
    (hstep : f.publishing t = some (f', t')) : f'.Sound me := by
  obtain ⟨⟨ps, hps⟩, hsub, hreg⟩ := h
  unfold Feed.publishing at hstep
  split at hstep
  · cases hstep
    exact ⟨⟨_, (hps.publish _).1⟩, hsub, hreg⟩
  · split at hstep <;> cases hstep
    exact ⟨⟨ps, hps⟩, hsub, hreg⟩
  · cases hstep
    exact ⟨⟨ps, hps⟩, hsub, hreg⟩
  · cases hstep
    exact ⟨⟨ps, hps⟩, hsub, hreg⟩
  · cases hstep

theorem step (h : f.Sound me) {e : FeedStep} (hstep : f.step me e = some f') : f'.Sound me := by
  obtain ⟨hring, hsub, hreg⟩ := h
  cases e <;> simp only [Feed.step] at hstep
  case subscribe startOffset =>
    split at hstep <;> cases hstep
    refine ⟨hring, ?_, fun _ h => absurd rfl h⟩
    dsimp only [subscribePartitionAt]
    split <;> omega
  case register =>
    split at hstep <;> cases hstep
    exact ⟨hring, hsub, fun _ _ => by simp⟩
  case next maxCount =>
    split at hstep <;> cases hstep
    rename_i hidle
    exact ⟨hring, hsub, fun _ _ => hreg (by simp [hidle]) (by simp [hidle])⟩
  case fetch =>
    split at hstep
    · rename_i maxCount hfetching
      obtain ⟨r, hr, rfl⟩ := Option.map_eq_some_iff.mp hstep
      refine ⟨hring, offset_nonneg_of_next hsub hr, ?_⟩
      intro _ _
      exact hreg (by simp [hfetching]) (by simp [hfetching])
    · cases hstep
  case wake =>
    split at hstep
    · rename_i maxCount hwaiting
      split at hstep <;> cases hstep
      exact ⟨hring, hsub, fun _ _ => hreg (by simp [hwaiting]) (by simp [hwaiting])⟩
    · cases hstep
  case cancel =>
    split at hstep <;> cases hstep
    rename_i hwaiting
    exact ⟨hring, hsub, fun _ _ => hreg (by simp [hwaiting]) (by simp [hwaiting])⟩
  case addSub x =>
    split at hstep <;> cases hstep
    exact ⟨hring, hsub, fun h h' => List.mem_append_left _ (hreg h h')⟩
  case removeSub x =>
    split at hstep <;> cases hstep
    rename_i hx
    exact ⟨hring, hsub, fun h h' => mem_removeSub (hreg h h') hx.1⟩
  case receive x =>
    split at hstep <;> cases hstep
    exact ⟨hring, hsub, hreg⟩

end Feed.Sound

namespace Feed.Starved

variable {me : ℕ} {f f' : Feed α}

/-- A reader that starves after a step of a publisher is served by that publisher, or starved
before and was not served by it. -/
theorem publishing (hs : f.Sound me) {t t' : Publishing α}
    (hstep : f.publishing t = some (f', t')) (h : f'.Starved me) :
    t'.Owes me ∨ (f.Starved me ∧ ¬ t.Owes me) := by
  unfold Feed.publishing at hstep
  split at hstep
  · cases hstep
    exact Or.inl trivial
  · split at hstep <;> cases hstep
    obtain ⟨⟨maxCount, -, hwait⟩, -⟩ := h
    exact Or.inl (hs.registered (by simp_all) (by simp_all))
  · rename_i x todo offset
    cases hstep
    obtain ⟨hwait, htoken, hbehind⟩ := h
    by_cases hx : me = x
    · simp [hx] at htoken
    · dsimp only at htoken
      rw [Function.update_of_ne hx] at htoken
      by_cases htodo : me ∈ todo
      · exact Or.inl htodo
      · exact Or.inr ⟨⟨hwait, htoken, hbehind⟩, by simp [Publishing.Owes, hx, htodo]⟩
  · cases hstep
    exact Or.inr ⟨h, by simp [Publishing.Owes]⟩
  · cases hstep

/-- No step beside the publishers makes a reader starve. -/
theorem step (hs : f.Sound me) {e : FeedStep} (hstep : f.step me e = some f')
    (h : f'.Starved me) : f.Starved me := by
  obtain ⟨⟨m, hm, hwait⟩, htoken, hbehind⟩ := h
  cases e <;> simp only [Feed.step] at hstep
  case fetch =>
    split at hstep
    · rename_i maxCount hfetching
      obtain ⟨⟨sub', msgs⟩, hnext, rfl⟩ := Option.map_eq_some_iff.mp hstep
      cases msgs with
      | some msgs => simp at hwait
      | none =>
        obtain ⟨ps, hps⟩ := hs.ring
        simp only [Option.isSome_none, Bool.false_eq_true, if_false,
          Reader.waiting.injEq] at hwait
        obtain ⟨rfl, htail⟩ := tail_le_of_next_none hps hs.nonneg (hwait ▸ hm) hnext
        dsimp only at hbehind
        omega
    · cases hstep
  case wake =>
    split at hstep
    · split at hstep <;> cases hstep
      cases hwait
    · cases hstep
  case cancel =>
    split at hstep <;> cases hstep
    cases hwait
  case receive x =>
    split at hstep <;> cases hstep
    rename_i hx
    dsimp only at htoken
    rw [Function.update_of_ne (Ne.symm hx.1)] at htoken
    exact ⟨⟨m, hm, hwait⟩, htoken, hbehind⟩
  case addSub x =>
    split at hstep <;> cases hstep
    exact ⟨⟨m, hm, hwait⟩, htoken, hbehind⟩
  case removeSub x =>
    split at hstep <;> cases hstep
    exact ⟨⟨m, hm, hwait⟩, htoken, hbehind⟩
  all_goals
    split at hstep <;> cases hstep
    cases hwait

end Feed.Starved

/-! ## Whole runs -/

variable [Inhabited α]

theorem sound_reach {me capacity : ℕ} {w : World (Feed α) (Publishing α)}
    (h : (feedProgram α me).Reach Guard.all (Feed.new capacity) w) :
    Pool.Holds (Feed.Sound me) (fun _ _ => True) (fun _ _ => True) w := by
  refine Program.Reach.local_invariant (fun _ _ _ => trivial) (Feed.Sound.new me capacity) ?_ ?_ ?_
    h
  · exact fun _ _ _ => ⟨trivial, fun _ _ => trivial⟩
  · intro f t _ f' t' hf _ _ hstep
    exact ⟨⟨hf.publishing hstep, trivial⟩, fun _ _ _ => ⟨trivial, trivial⟩⟩
  · exact fun f e f' hf _ hstep => ⟨hf.step hstep, fun _ _ => trivial⟩

/-- **No lost wakeup.**  While a call of `Next` that asks for messages is at its `select`, either
nothing is at its offset or beyond, or its token is there, or a publisher has stored its message
and has yet to offer the token. -/
theorem subscriber_not_starved {me capacity : ℕ} {w : World (Feed α) (Publishing α)}
    (h : (feedProgram α me).Reach Guard.all (Feed.new capacity) w) {maxCount : ℤ}
    (hmax : 0 < maxCount) (hwait : w.shared.reader = .waiting maxCount) :
    (w.shared.notify me = false ∧ (w.shared.topic.tail : ℤ) ≤ w.shared.sub.offset) ∨
      w.shared.notify me = true ∨ ∃ t ∈ w.threads, t.Owes me := by
  by_cases htoken : w.shared.notify me = true
  · exact Or.inr (Or.inl htoken)
  · rw [Bool.not_eq_true] at htoken
    by_cases hbehind : (w.shared.topic.tail : ℤ) ≤ w.shared.sub.offset
    · exact Or.inl ⟨htoken, hbehind⟩
    · refine Or.inr (Or.inr ?_)
      refine Program.Reach.served (κ := Unit) (fun f _ => f.Starved me) (fun t _ => t.Owes me)
        (fun w hw => sound_reach hw) ?_ ?_ ?_ h ()
        ⟨⟨maxCount, hmax, hwait⟩, htoken, not_le.mp hbehind⟩
      · rintro - ⟨⟨m, -, hm⟩, -⟩
        cases hm
      · exact fun f t _ f' t' _ hf _ _ hstep hstarved => hstarved.publishing hf hstep
      · exact fun f e f' _ hf _ hstep hstarved => hstarved.step hf hstep

/-- A reader that waits at an empty partition while a publisher has just stored a message. -/
theorem subscriber_not_starved_stored :
    ∃ w : World (Feed ℕ) (Publishing ℕ), w.shared.reader = .waiting 1 ∧
      ((w.shared.notify 0 = false ∧ (w.shared.topic.tail : ℤ) ≤ w.shared.sub.offset) ∨
        w.shared.notify 0 = true ∨ ∃ t ∈ w.threads, t.Owes 0) := by
  obtain ⟨w, hw⟩ : ∃ w, (feedProgram ℕ 0).exec ⟨Feed.new 1, []⟩
      [.env (.subscribe 0), .env .register, .env (.next 1), .env .fetch, .spawn 7, .run 0 ()] =
        some w := ⟨_, rfl⟩
  have hreach := Program.Reach.exec .init _ hw
  have hwait : w.shared.reader = .waiting 1 := by
    cases hw
    rfl
  exact ⟨w, hwait, subscriber_not_starved hreach (by decide) hwait⟩

end AgentBus.Broker
