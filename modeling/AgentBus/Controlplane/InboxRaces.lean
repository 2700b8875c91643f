import AgentBus.Controlplane.InboxCalls
import AgentBus.Lib.Ledger

/-!
# Closing an inbox beside a delivery

`Deliver` sends after it has let go of the lock.  A `Close` that comes between its lookup and its
send closes the channel, and the send panics (`deliver_sends_on_closed`); it panics exactly then
(`InboxStep.sending`).

All else holds in every interleaving: no channel is closed twice, and each channel has accepted
exactly the events for which `Deliver` returned true, while it was the open inbox of the agent
(`inboxes_safe`).

## Main definitions

* `sentTo`, `LiveInboxes.accepted` — what was delivered, by the calls and by the channels.
* `Apart`, `RunsApart` — no inbox is closed between a lookup and its send.
-/

namespace AgentBus.Controlplane

open Pool LiveInboxes

variable {s s' : LiveInboxes} {t t' : InboxThread}

/-- The event a call has put into the channel. -/
def sentTo (ch : ℕ) : InboxThread → List RoutedEvent
  | .delivered _ ev ch' => if ch' = ch then [ev] else []
  | _ => []

/-- What a channel has accepted; nothing if it does not exist. -/
def LiveInboxes.accepted (s : LiveInboxes) (ch : ℕ) : List RoutedEvent :=
  ((s.chans[ch]?).map Channel.sent).getD []

theorem accepted_put {ch : ℕ} {c : Channel RoutedEvent} (hc : s.chans[ch]? = some c)
    {c' : Channel RoutedEvent} {evs : List RoutedEvent} (hsent : c'.sent = c.sent ++ evs) (k : ℕ) :
    (s.put ch c').accepted k = s.accepted k ++ if ch = k then evs else [] := by
  unfold LiveInboxes.accepted
  by_cases hk : k = ch
  · subst hk
    rw [getElem?_put_self hc, hc, if_pos rfl]
    exact hsent
  · rw [getElem?_put_of_ne hk, if_neg (Ne.symm hk), List.append_nil]

@[simp] theorem accepted_made (s : LiveInboxes) (agent : String) (k : ℕ) :
    (s.made agent).accepted k = s.accepted k := by
  unfold LiveInboxes.accepted
  cases hk : s.chans[k]? with
  | some c => rw [getElem?_made hk]
  | none =>
    cases hmade : (s.made agent).chans[k]? with
    | none => rfl
    | some c =>
      rcases getElem?_made_cases hmade with ⟨-, rfl⟩ | hold
      · rfl
      · rw [hk] at hold
        cases hold

/-- A step adds to a channel what its call has put into it. -/
theorem InboxStep.accepted (h : InboxStep s t s' t') (k : ℕ) :
    s'.accepted k = s.accepted k ++ sentTo k t' ∧ sentTo k t = [] := by
  cases h with
  | make hnone => exact ⟨(accepted_made ..).trans (List.append_nil _).symm, rfl⟩
  | send hc hsend =>
    obtain ⟨-, -, -, -, -, hsent⟩ := Channel.trySend_eq_true hsend
    exact ⟨accepted_put hc hsent k, rfl⟩
  | @close agent ch c c' hbox hc hclose =>
    obtain ⟨-, rfl⟩ := Channel.close_eq_some hclose
    have hsent : ({ c with closed := true } : Channel RoutedEvent).sent = c.sent ++ [] :=
      (List.append_nil _).symm
    have hput := accepted_put (s := s.removed agent) hc hsent k
    rw [ite_self] at hput
    exact ⟨hput, rfl⟩
  | _ => exact ⟨(List.append_nil _).symm, rfl⟩

/-- **Each channel has accepted the events for which `Deliver` returned true**, and no others. -/
theorem accepted_perm {size : ℤ} {w : World LiveInboxes InboxThread}
    (h : inboxProgram.Reach Guard.all (new size) w) (ch : ℕ) :
    (w.shared.accepted ch).Perm (w.threads.flatMap (sentTo ch)) := by
  refine h.balance (fun s => s.accepted ch) (fun _ => []) (sentTo ch) (fun _ => holds_relies)
    (List.Perm.refl _) ?_ ?_ ?_
  · intro r
    cases r <;> rfl
  · intro s t l s' t' _ _ _ hstep
    obtain ⟨haccepted, hnone⟩ := (inboxStep_of_step hstep).accepted ch
    exact ⟨sentTo ch t', [], haccepted, rfl, by rw [hnone]⟩
  · intro s ch' s' hstep
    obtain ⟨c, ev, c', hc, hreceive, rfl⟩ := receive_eq_some hstep
    obtain ⟨-, -, -, hsent⟩ := Channel.receive_eq_some hreceive
    have hput := accepted_put hc (hsent.trans (List.append_nil _).symm) ch
    rw [ite_self, List.append_nil] at hput
    exact ⟨hput, rfl⟩

/-- **A send panics exactly if the inbox was closed since the lookup**, and an event is delivered to
the agent's inbox. -/
theorem InboxStep.sending {agent : String} {ev : RoutedEvent} {ch : ℕ}
    (h : InboxStep s (.sending agent ev ch) s' t') (hl : s.Linked agent ch) :
    (t' = .sendOnClosed agent ev ch ↔ s.boxes agent ≠ some ch) ∧
      (t' = .delivered agent ev ch → s.boxes agent = some ch) := by
  cases h with
  | send hc hsend =>
    have hbox := (hl.isOpen_iff hc).mp (Channel.trySend_eq_true hsend).1
    exact ⟨iff_of_false (by simp) (not_not.mpr hbox), fun _ => hbox⟩
  | full hc hsend =>
    have hbox := (hl.isOpen_iff hc).mp (Channel.trySend_eq_false hsend).1
    exact ⟨iff_of_false (by simp) (not_not.mpr hbox), fun _ => hbox⟩
  | sendClosed hc hclosed =>
    refine ⟨iff_of_true rfl fun hbox => ?_, fun hne => by cases hne⟩
    rw [(hl.isOpen_iff hc).mpr hbox] at hclosed
    cases hclosed

/-! ## Closing beside a delivery -/

/-- No `Close` takes its step while a `Deliver` to the agent is between its lookup and its send. -/
def Apart : InboxThread → InboxThread → Prop
  | .closing agent, .sending agent' _ _ => agent ≠ agent'
  | _, _ => True

instance (t u : InboxThread) : Decidable (Apart t u) := by
  unfold Apart
  split <;> infer_instance

/-- The runs in which this is so. -/
def RunsApart (size : ℤ) (w : World LiveInboxes InboxThread) : Prop :=
  inboxProgram.Runs (Guard.all.Beside fun _ t _ u => Apart t u) ⟨new size, []⟩ w

/-- A channel that was found is the agent's inbox still, and no send has panicked. -/
def InPlace (s : LiveInboxes) : InboxThread → Prop
  | .sending agent _ ch => s.boxes agent = some ch
  | .sendOnClosed _ _ _ => False
  | _ => True

/-- Only a `Close` takes an inbox away. -/
theorem InboxStep.inPlace_other (h : InboxStep s t s' t') {u : InboxThread}
    (hu : InPlace s u) (hapart : Apart t u) : InPlace s' u := by
  cases u with
  | sending agent ev ch =>
    have hbox : s.boxes agent = some ch := hu
    cases h with
    | @make agent' hnone =>
      have hne : agent ≠ agent' := by
        rintro rfl
        rw [hnone] at hbox
        cases hbox
      exact (boxes_made agent' agent).trans ((if_neg hne).trans hbox)
    | @close agent' k c c' hbox' hc hclose =>
      exact (boxes_removed agent' agent).trans ((if_neg (Ne.symm hapart)).trans hbox)
    | @closeClosed agent' k c hbox' hc hclosed =>
      exact (boxes_removed agent' agent).trans ((if_neg (Ne.symm hapart)).trans hbox)
    | _ => exact hbox
  | sendOnClosed agent ev ch => exact hu
  | _ => trivial

theorem InboxStep.inPlace (h : InboxStep s t s' t') (hs : s.Wired) (ht : InPlace s t) :
    InPlace s' t' := by
  cases h with
  | find hbox => exact hbox
  | sendClosed hc hclosed => exact absurd hclosed (hs.ne_closed ht hc)
  | _ => trivial

theorem holds_inPlace {size : ℤ} {w : World LiveInboxes InboxThread} (h : RunsApart size w) :
    Holds LiveInboxes.Wired InPlace (fun _ _ => True) w := by
  refine Program.Runs.local_invariant (fun _ _ _ => trivial) (holds_idle (wired_new size))
    ?_ ?_ ?_ h
  · intro s r _
    refine ⟨?_, fun _ _ => trivial⟩
    cases r <;> trivial
  · intro s t l s' t' hs ht _ hstep
    have h := inboxStep_of_step hstep
    exact ⟨⟨(hs.change h).wired hs, h.inPlace hs ht⟩,
      fun u hu _ hapart => ⟨h.inPlace_other hu hapart, trivial⟩⟩
  · intro s ch s' hs _ hstep
    refine ⟨(change_of_receive hstep).wired hs, fun u hu => ?_⟩
    obtain ⟨c, ev, c', -, -, rfl⟩ := receive_eq_some hstep
    exact hu

/-- **Inboxes under concurrent calls.**  In every interleaving no channel is closed twice, each
channel has accepted exactly the events for which `Deliver` returned true, and a send panics exactly
if the inbox it found was closed since; otherwise it goes to the open inbox of the agent.  If no
inbox is closed between a lookup and its send, no send panics. -/
theorem inboxes_safe (size : ℤ) :
    (∀ w, inboxProgram.Reach Guard.all (new size) w →
      (∀ agent ch, .closeOfClosed agent ch ∉ w.threads) ∧
      (∀ agent ev ch, .delivered agent ev ch ∈ w.threads →
        ∃ c, w.shared.chans[ch]? = some c ∧ ev ∈ c.received ++ c.buffer) ∧
      (∀ (ch : ℕ) c, w.shared.chans[ch]? = some c →
        (c.received ++ c.buffer).Perm (w.threads.flatMap (sentTo ch))) ∧
      ∀ (i : ℕ) agent ev ch, w.threads[i]? = some (.sending agent ev ch) →
        ∃ s' t', inboxProgram.step w (.run i ()) = some ⟨s', w.threads.set i t'⟩ ∧
          (t' = .sendOnClosed agent ev ch ↔ w.shared.boxes agent ≠ some ch) ∧
          (t' = .delivered agent ev ch → w.shared.boxes agent = some ch ∧
            ∃ c, w.shared.chans[ch]? = some c ∧ c.closed = false)) ∧
    ∀ w, RunsApart size w → ∀ agent ev ch, .sendOnClosed agent ev ch ∉ w.threads := by
  constructor
  · intro w hw
    have hholds := holds_relies hw
    have hperm := accepted_perm hw
    refine ⟨?_, ?_, ?_, ?_⟩
    · exact fun agent ch hmem => hholds.of_mem hmem
    · intro agent ev ch hmem
      have hev : ev ∈ w.shared.accepted ch := by
        rw [(hperm ch).mem_iff]
        exact List.mem_flatMap.mpr ⟨_, hmem, by simp [sentTo]⟩
      unfold LiveInboxes.accepted at hev
      cases hc : w.shared.chans[ch]? with
      | none => simp [hc] at hev
      | some c =>
        rw [hc] at hev
        exact ⟨c, rfl, hev⟩
    · intro ch c hc
      have hsent : w.shared.accepted ch = c.received ++ c.buffer := by
        rw [LiveInboxes.accepted, hc]
        rfl
      exact hsent ▸ hperm ch
    · intro i agent ev ch hi
      have hlinked : w.shared.Linked agent ch := hholds.each i _ hi
      obtain ⟨c, hc, -⟩ := id hlinked
      obtain ⟨⟨s', t'⟩, hstep⟩ : ∃ r, w.shared.step (.sending agent ev ch) = some r :=
        ⟨_, by rw [LiveInboxes.step, hc]; rfl⟩
      obtain ⟨hcrash, hdelivered⟩ := (inboxStep_of_step hstep).sending hlinked
      refine ⟨s', t', ?_, hcrash, fun ht' => ?_⟩
      · simp only [Program.step, hi]
        exact congrArg (Option.map _) hstep
      · have hbox := hdelivered ht'
        exact ⟨hbox, hholds.shared.isOpen agent ch hbox⟩
  · exact fun w hw agent ev ch hmem => (holds_inPlace hw).of_mem hmem

/-- An escalation. -/
def escalation : RoutedEvent := ⟨"acme/p/a", eventEscalation, []⟩

/-- An inbox that is closed after the delivery: the event is in it. -/
theorem inboxes_safe_closed_after :
    ∃ w, RunsApart 4 w ∧ w.threads =
        [.opened "ops" 0, .delivered "ops" escalation 0, .closed "ops"] ∧
      (∀ agent ev ch, .sendOnClosed agent ev ch ∉ w.threads) := by
  have hrun : ((inboxProgram.execIf (Guard.all.Beside fun _ t _ u => Apart t u) ⟨new 4, []⟩
      [.spawn (.open "ops"), .run 0 (), .spawn (.deliver "ops" escalation), .run 1 (),
        .run 1 (), .spawn (.close "ops"), .run 2 ()]).map World.threads) =
      some [.opened "ops" 0, .delivered "ops" escalation 0, .closed "ops"] := by decide +kernel
  obtain ⟨w, hexec, hthreads⟩ := Option.map_eq_some_iff.mp hrun
  have hw : RunsApart 4 w := Program.Runs.refl.execIf _ hexec
  exact ⟨w, hw, hthreads, (inboxes_safe 4).2 w hw⟩

/-- **A send on a closed channel.**  The inbox is closed between the lookup and the send. -/
theorem deliver_sends_on_closed :
    ∃ w, inboxProgram.Reach Guard.all (new 4) w ∧ w.threads =
      [.opened "ops" 0, .sendOnClosed "ops" escalation 0, .closed "ops"] := by
  have hrun : (inboxProgram.exec ⟨new 4, []⟩ [.spawn (.open "ops"), .run 0 (),
      .spawn (.deliver "ops" escalation), .run 1 (), .spawn (.close "ops"), .run 2 (),
      .run 1 ()]).map World.threads =
      some [.opened "ops" 0, .sendOnClosed "ops" escalation 0, .closed "ops"] := by decide +kernel
  exact Program.exists_reach hrun

end AgentBus.Controlplane
