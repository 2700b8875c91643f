import AgentBus.Cluster.Replication

/-!
# Agreement of the replicas

When a publisher's wait for the high-water mark ends, every replica that was counted should hold
the record.  A follower's acknowledgement is only an offset, its tail; so it speaks for the
leader's records exactly if the follower's log is a beginning of the leader's.  The code does not
see to that: a former leader acknowledges records it does not have (`agreement_broken`).

It is so in every orderly run (`replicated_agreement`): a node starts to lead only if no other does
and no log is longer than its own; what belongs to a leadership, the writes of publishers and the
work of streams, happens while the node leads; and a follower looks at its tail for one stream at a
time.  Then all logs are beginnings of the leader's at all times (`orderly_agrees`).

## Main definitions

* `Agree` — two logs agree on their first records.
* `Orderly` — the condition.
* `State.Agrees`, `Thread.Follows` — what an orderly run keeps.
* `agreementGuard` — what it comes to.
-/

namespace AgentBus.Cluster

open Pool

/-- The logs of nodes `m` and `id` agree on their first `k` records. -/
def Agree (s : State) (m id : String) (k : ℕ) : Prop :=
  ∃ common, common.length = k ∧ common <+: (s.shard m).records ∧ common <+: (s.shard id).records

/-- The follower whose handler is between its look at the tail and its write. -/
def Thread.entering : Thread → Option String
  | .session _ follower _ (.appending _ (.writing _)) _ => some follower
  | _ => none

/-- The follower at whose tail a handler is about to look. -/
def Thread.looks : Thread → Choice → Option String
  | .session _ follower _ (.received _ _) _, .go => some follower
  | _, _ => none

/-- A publisher writes, and a stream works, only while the node leads; streams are opened between
members. -/
def Thread.InOffice (members : List String) (s : State) : Thread → Choice → Prop
  | .appending n _ (.writing _), .disk _ => (s.nodes n).leads = true
  | .dialing leader follower, .go => leader ∈ members ∧ follower ∈ members
  | .session leader _ _ (.received _ _) _, .go => (s.nodes leader).leads = true
  | .session leader _ _ (.appending _ (.writing _)) _, .disk _ => (s.nodes leader).leads = true
  | .session leader _ _ .acking _, .go => (s.nodes leader).leads = true
  | _, _ => True

instance (members : List String) (s : State) (t : Thread) (c : Choice) :
    Decidable (t.InOffice members s c) := by
  unfold Thread.InOffice
  split <;> infer_instance

/-- Leadership passes only to a node with a longest log, when no other node leads and no handler is
between its look at the tail and its write; what belongs to a leadership happens while the node
leads; and a follower looks at its tail for one stream at a time. -/
def Orderly (members : List String) (w : World State Thread) : Act Request Choice EnvStep → Prop
  | .spawn _ => True
  | .run i c => ∀ t ∈ w.threads[i]?, t.InOffice members w.shared c ∧
      ∀ f ∈ t.looks c, ∀ u ∈ w.threads.eraseIdx i, u.entering ≠ some f
  | .env e => e.leads = true → e.node ∈ members ∧
      (∀ m ∈ members, m ≠ e.node → (w.shared.nodes m).leads = false) ∧
      (∀ m ∈ members, (w.shared.shard m).tail ≤ (w.shared.shard e.node).tail) ∧
      ∀ u ∈ w.threads, u.entering = none

instance (members : List String) (w : World State Thread) (a : Act Request Choice EnvStep) :
    Decidable (Orderly members w a) := by
  unfold Orderly
  cases a <;> infer_instance

/-- A handler acknowledges only while its log is a beginning of the leader's log. -/
def agreementGuard : Guard State Thread Choice EnvStep where
  thread s t c :=
    match t, c with
    | .session leader follower _ .acking _, .go =>
      (s.shard follower).records <+: (s.shard leader).records
    | _, _ => True
  env _ _ := True

namespace Agree

variable {s s' : State} {m id : String} {k k' : ℕ}

theorem zero (s : State) (m id : String) : Agree s m id 0 :=
  ⟨[], rfl, List.nil_prefix, List.nil_prefix⟩

theorem grows (hg : s.Grows s') (h : Agree s m id k) : Agree s' m id k := by
  obtain ⟨common, hlen, hm, hid⟩ := h
  exact ⟨common, hlen, hm.trans (hg m).records, hid.trans (hg id).records⟩

theorem down (hle : k ≤ k') (h : Agree s m id k') : Agree s m id k := by
  obtain ⟨common, hlen, hm, hid⟩ := h
  have htake := List.take_prefix k common
  exact ⟨common.take k, by simp; omega, htake.trans hm, htake.trans hid⟩

/-- A node agrees with itself. -/
theorem self (h : k ≤ (s.shard m).tail) : Agree s m m k := by
  have htake := List.take_prefix k (s.shard m).records
  exact ⟨(s.shard m).records.take k, by simpa [Shard.tail] using h, htake, htake⟩

/-- A record on which two nodes agree. -/
theorem getElem? (h : Agree s m id (k + 1)) {payload : Payload}
    (hrec : (s.shard m).records[k]? = some payload) :
    (s.shard id).records[k]? = some payload := by
  obtain ⟨common, hlen, ⟨tl, htl⟩, ⟨tl', htl'⟩⟩ := h
  rw [← htl, List.getElem?_append_left (by omega)] at hrec
  rw [← htl', List.getElem?_append_left (by omega), hrec]

/-- What is read for a mark under the condition. -/
theorem reports {t : Thread} {c : Choice} (hs : s.Valid) (ht : t.Valid s)
    (hG : agreementGuard.thread s t c) (h : t.Reports s m id k c) : Agree s m id k := by
  unfold Thread.Reports at h
  split at h
  · obtain ⟨rfl, rfl, rfl⟩ := h
    exact self (le_refl _)
  · obtain ⟨rfl, rfl, cursor', off, payload, hstep, rfl⟩ := h
    have hrec := (Cursor.step_spec (hs _) ht hstep).2 off payload rfl
    exact self (List.getElem?_eq_some_iff.mp hrec).1
  · obtain ⟨rfl, rfl, rfl⟩ := h
    exact ⟨_, rfl, hG, List.prefix_refl _⟩
  · exact h.elim

end Agree

/-! ## Orderly runs -/

section Orderly

variable (members : List String)

/-- Of any two logs one is a beginning of the other, at most one node leads, and all logs are
beginnings of the leader's. -/
structure State.Agrees (s : State) : Prop where
  comparable : ∀ m ∈ members, ∀ m' ∈ members, (s.shard m).records <+: (s.shard m').records ∨
    (s.shard m').records <+: (s.shard m).records
  member : ∀ n, (s.nodes n).leads = true → n ∈ members
  unique : ∀ n m, (s.nodes n).leads = true → (s.nodes m).leads = true → n = m
  leader : ∀ n, (s.nodes n).leads = true →
    ∀ m ∈ members, (s.shard m).records <+: (s.shard n).records

/-- What is known of a stream: a record that has arrived is the leader's, and while a handler is
about to write one, it is the next one of the leader's, and no other node leads. -/
def Thread.Follows (s : State) : Thread → Prop
  | .session leader follower _ handler _ => leader ∈ members ∧ follower ∈ members ∧
      (∀ off payload, handler = .received off payload →
        (s.shard leader).records[off]? = some payload) ∧
      ∀ payload payload', handler = .appending payload (.writing payload') →
        (s.shard follower).records ++ [payload'] <+: (s.shard leader).records ∧
          ∀ n, (s.nodes n).leads = true → n = leader
  | _ => True

/-- What one step in office does to the records. -/
inductive Thread.Writes (s : State) (t : Thread) (s' : State) : Prop
  | nothing (records : ∀ m, (s'.shard m).records = (s.shard m).records)
  /-- A record is put at the end of the log of `n`, for a publisher or from the leader of a
  stream. -/
  | record (n leader : String) (payload : Payload) (leads : (s.nodes leader).leads = true)
      (thread : (leader = n ∧ ∃ p, t = .appending n p (.writing payload)) ∨ ∃ cursor p acks,
        t = .session leader n cursor (.appending p (.writing payload)) acks)
      (own : (s'.shard n).records = (s.shard n).records ++ [payload])
      (others : ∀ m, m ≠ n → (s'.shard m).records = (s.shard m).records)

variable {members} {s s' : State} {t t' : Thread} {c : Choice}

theorem Thread.step_writes (hoffice : t.InOffice members s c)
    (hstep : t.step s c = some (s', t')) : Thread.Writes s t s' := by
  cases Thread.step_logs hstep with
  | quiet hshard _ _ => exact .nothing fun m => by rw [hshard]
  | append n a a' d sh hchoice hbefore hcall hshared hafter =>
    subst hshared hchoice
    have hsame : ∀ m, m ≠ n → ((s.setShard n sh).shard m).records = (s.shard m).records :=
      fun m hm => by rw [State.shard_setShard, if_neg hm]
    have hown : ((s.setShard n sh).shard n).records = sh.records := by
      rw [State.shard_setShard, if_pos rfl]
    have hnothing : sh.records = (s.shard n).records → Thread.Writes s t (s.setShard n sh) := by
      intro hrecords
      refine .nothing fun m => ?_
      by_cases hm : m = n
      · rw [hm, hown, hrecords]
      · exact hsame m hm
    cases (Appending.step_records hcall).1 with
    | nothing _ hrecords => exact hnothing hrecords
    | refused _ _ _ _ hrecords => exact hnothing hrecords
    | record payload hwriting _ hrecords =>
      subst hwriting
      unfold Thread.append? at hbefore
      split at hbefore <;> cases hbefore
      · exact .record n n payload hoffice (.inl ⟨rfl, _, rfl⟩) (hown.trans hrecords) hsame
      · rename_i leader cursor p acks
        exact .record n leader payload hoffice (.inr ⟨cursor, p, acks, rfl⟩)
          (hown.trans hrecords) hsame

/-- The thread that moves. -/
theorem Thread.Follows.step (hs : s.Valid) (hI : s.Agrees members) (hvalid : t.Valid s)
    (ht : t.Follows members s) (hoffice : t.InOffice members s c)
    (hstep : t.step s c = some (s', t')) :
    t'.Follows members s' ∧
      ∀ f, t'.entering = some f → t.entering = some f ∨ t.looks c = some f := by
  unfold Thread.step at hstep
  split at hstep
  case h_1 n payload =>
    cases hstep
    split <;> exact ⟨trivial, by rintro _ ⟨⟩⟩
  case h_2 n payload a d =>
    obtain ⟨⟨sh, a'⟩, -, heq⟩ := Option.map_eq_some_iff.mp hstep
    cases heq
    exact ⟨trivial, by rintro _ ⟨⟩⟩
  case h_10 n cursor =>
    obtain ⟨⟨cursor', sent⟩, -, heq⟩ := Option.map_eq_some_iff.mp hstep
    cases sent <;> cases heq <;> exact ⟨trivial, by rintro _ ⟨⟩⟩
  case h_11 leader follower =>
    split at hstep <;> cases hstep
    exact ⟨⟨hoffice.1, hoffice.2, by rintro _ _ ⟨⟩, by rintro _ _ ⟨⟩⟩, by rintro _ ⟨⟩⟩
  case h_12 leader follower cursor acks =>
    obtain ⟨⟨cursor', sent⟩, hc, heq⟩ := Option.map_eq_some_iff.mp hstep
    have hsent := (Cursor.step_spec (hs leader) hvalid.1 hc).2
    cases sent <;> cases heq
    · exact ⟨⟨ht.1, ht.2.1, by rintro _ _ ⟨⟩, by rintro _ _ ⟨⟩⟩, by rintro _ ⟨⟩⟩
    · refine ⟨⟨ht.1, ht.2.1, ?_, by rintro _ _ ⟨⟩⟩, by rintro _ ⟨⟩⟩
      rintro off payload ⟨⟩
      exact hsent _ _ rfl
  case h_13 leader follower cursor off payload acks =>
    cases hstep
    by_cases hskip : off < (s.shard follower).tail
    · rw [Handler.receive, if_pos hskip]
      exact ⟨⟨ht.1, ht.2.1, by rintro _ _ ⟨⟩, by rintro _ _ ⟨⟩⟩, by rintro _ ⟨⟩⟩
    · rw [Handler.receive, if_neg hskip]
      split
      · -- The follower has all before this record, which is the leader's.
        rename_i heq
        refine ⟨⟨ht.1, ht.2.1, by rintro _ _ ⟨⟩, ?_⟩, by rintro _ ⟨⟩; exact .inr rfl⟩
        rintro _ _ ⟨⟩
        have hrec := ht.2.2.1 off payload rfl
        rw [heq] at hrec
        exact ⟨prefix_concat (hI.leader leader hoffice follower ht.2.1) hrec,
          fun n hn => hI.unique n leader hn hoffice⟩
      · exact ⟨⟨ht.1, ht.2.1, by rintro _ _ ⟨⟩, by rintro _ _ ⟨⟩⟩, by rintro _ ⟨⟩⟩
  case h_14 leader follower cursor payload a acks d =>
    obtain ⟨⟨sh, a'⟩, ha', heq⟩ := Option.map_eq_some_iff.mp hstep
    cases heq
    have hnot := (Appending.step_records ha').2
    refine ⟨⟨ht.1, ht.2.1, by rintro _ _ ⟨⟩, ?_⟩, ?_⟩
    · rintro _ payload' ⟨⟩
      exact absurd rfl (hnot payload')
    · intro f hf
      cases a' with
      | writing payload' => exact absurd rfl (hnot payload')
      | _ => cases hf
  case h_18 leader follower cursor handler k acks =>
    cases hstep
    refine ⟨by simpa [Thread.Follows] using ht, fun f hf => .inl ?_⟩
    cases handler with
    | appending payload a => cases a <;> exact hf
    | _ => cases hf
  case h_15 | h_16 | h_17 =>
    cases hstep
    exact ⟨⟨ht.1, ht.2.1, by rintro _ _ ⟨⟩, by rintro _ _ ⟨⟩⟩, by rintro _ ⟨⟩⟩
  case h_5 =>
    split at hstep <;> cases hstep
    exact ⟨trivial, by rintro _ ⟨⟩⟩
  case h_3 | h_4 | h_6 | h_7 | h_8 | h_9 =>
    cases hstep
    exact ⟨trivial, by rintro _ ⟨⟩⟩
  case h_19 => cases hstep

/-- A thread that does not move, and enters no log that the other one does. -/
theorem Thread.Follows.beside {u : Thread} (hu : u.Follows members s)
    (hwrites : Thread.Writes s t s') (hgrows : s.Grows s')
    (hleads : ∀ n, (s'.nodes n).leads = (s.nodes n).leads)
    (hpair : ∀ f, t.entering = some f → u.entering ≠ some f) : u.Follows members s' := by
  cases u with
  | session leader follower cursor handler acks =>
    obtain ⟨hleader, hfollower, hreceived, hentering⟩ := hu
    refine ⟨hleader, hfollower,
      fun off payload heq => (hgrows leader).getElem? (hreceived off payload heq), ?_⟩
    rintro p payload rfl
    obtain ⟨hnext, honly⟩ := hentering p payload rfl
    refine ⟨?_, fun n hn => honly n (hleads n ▸ hn)⟩
    have hsame : (s'.shard follower).records = (s.shard follower).records := by
      cases hwrites with
      | nothing hrecords => exact hrecords follower
      | record n leader' payload' hlead hthread hown hothers =>
        by_cases hn : follower = n
        · subst hn
          exfalso
          rcases hthread with ⟨rfl, -⟩ | ⟨cursor', p', acks', rfl⟩
          · -- A publisher writes to the leader's log, not behind the stream's record.
            have hlen := (honly _ hlead ▸ hnext).length_le
            rw [List.length_append, List.length_singleton] at hlen
            omega
          · exact hpair follower rfl rfl
        · exact hothers follower hn
    rw [hsame]
    exact hnext.trans (hgrows leader).records
  | _ => trivial

/-- The logs after a step in office. -/
theorem State.Agrees.step (hI : s.Agrees members) (ht : t.Follows members s)
    (hwrites : Thread.Writes s t s') (hgrows : s.Grows s')
    (hleads : ∀ n, (s'.nodes n).leads = (s.nodes n).leads) : s'.Agrees members := by
  cases hwrites with
  | nothing hrecords =>
    refine ⟨?_, ?_, ?_, ?_⟩ <;> simp only [hrecords, hleads]
    · exact hI.comparable
    · exact hI.member
    · exact hI.unique
    · exact hI.leader
  | record n leader payload hlead hthread hown hothers =>
    -- All logs stay beginnings of the leader's.
    have hall : ∀ m ∈ members, (s'.shard m).records <+: (s'.shard leader).records := by
      intro m hm
      by_cases hmn : m = n
      · subst hmn
        rcases hthread with ⟨rfl, -⟩ | ⟨cursor, p, acks, rfl⟩
        · exact List.prefix_refl _
        · rw [hown]
          exact (ht.2.2.2 p payload rfl).1.trans (hgrows leader).records
      · rw [hothers m hmn]
        exact (hI.leader leader hlead m hm).trans (hgrows leader).records
    refine ⟨fun m hm m' hm' => List.prefix_or_prefix_of_prefix (hall m hm) (hall m' hm'), ?_, ?_,
      ?_⟩ <;> simp only [hleads]
    · exact hI.member
    · exact hI.unique
    · intro n' hn'
      rw [hI.unique n' leader hn' hlead]
      exact hall

/-- The logs after a change of leadership. -/
theorem State.Agrees.setLeads (hI : s.Agrees members) {n : String} {b : Bool}
    (hok : b = true → n ∈ members ∧ (∀ m ∈ members, m ≠ n → (s.nodes m).leads = false) ∧
      ∀ m ∈ members, (s.shard m).tail ≤ (s.shard n).tail) : (s.setLeads n b).Agrees members := by
  have hother : ∀ m, b = true → (s.nodes m).leads = true → m = n := by
    intro m hb hm
    by_contra hne
    rw [(hok hb).2.1 m (hI.member m hm) hne] at hm
    cases hm
  refine ⟨?_, ?_, ?_, ?_⟩ <;> simp only [State.shard_setLeads, State.leads_setLeads]
  · exact hI.comparable
  · intro m hm
    split at hm
    · rename_i heq
      exact heq ▸ (hok hm).1
    · exact hI.member m hm
  · intro m m' hm hm'
    split at hm <;> split at hm'
    · rename_i heq heq'
      rw [heq, heq']
    · rename_i heq _
      rw [heq, hother m' hm hm']
    · rename_i _ heq'
      rw [heq', hother m hm' hm]
    · exact hI.unique m m' hm hm'
  · intro m hm m' hm'
    split at hm
    · rename_i heq
      obtain ⟨hn, -, htails⟩ := hok hm
      subst heq
      rcases hI.comparable m' hm' m hn with h | h
      · exact h
      · exact (h.eq_of_length_le (htails m' hm')).symm ▸ List.prefix_refl _
    · exact hI.leader m hm m' hm'

/-- A thread after a change of leadership. -/
theorem Thread.Follows.setLeads (ht : t.Follows members s) {n : String} {b : Bool}
    (hok : b = true → t.entering = none) : t.Follows members (s.setLeads n b) := by
  cases t with
  | session leader follower cursor handler acks =>
    simp only [Thread.Follows, State.shard_setLeads, State.leads_setLeads] at ht ⊢
    obtain ⟨hleader, hfollower, hreceived, hentering⟩ := ht
    refine ⟨hleader, hfollower, hreceived, ?_⟩
    rintro p payload rfl
    obtain ⟨hnext, honly⟩ := hentering p payload rfl
    refine ⟨hnext, fun m hm => ?_⟩
    split at hm
    · cases hok hm
    · exact honly m hm
  | _ => trivial

/-- **The invariant of orderly runs.** -/
theorem orderly_agrees {files : String → List Payload}
    (hfiles : ∀ m ∈ members, ∀ m' ∈ members, files m <+: files m' ∨ files m' <+: files m)
    {w : World State Thread} (h : cluster.Runs (Orderly members) ⟨State.init files, []⟩ w) :
    Holds (fun s => s.Valid ∧ s.Agrees members) (fun s t => t.Valid s ∧ t.Follows members s)
      (fun t u => ∀ f, t.entering = some f → u.entering ≠ some f) w := by
  have hsymm : ∀ t u : Thread, (∀ f, t.entering = some f → u.entering ≠ some f) →
      ∀ f, u.entering = some f → t.entering ≠ some f := fun t u h f hu ht => h f ht hu
  induction h with
  | refl =>
    refine holds_idle ⟨State.valid_init files, hfiles, ?_, ?_, ?_⟩
    · rintro n ⟨⟩
    · rintro n m ⟨⟩
    · rintro n ⟨⟩
  | @step w w' a _ hok hstep ih =>
    cases a with
    | spawn r =>
      cases hstep
      refine ih.spawn hsymm ?_ ?_
      · cases r <;> exact ⟨trivial, trivial⟩
      · cases r <;> exact fun u _ f hf => by cases hf
    | run i c =>
      obtain ⟨t, s', t', ht, hrun, rfl⟩ := Program.step_run hstep
      obtain ⟨hoffice, hlooks⟩ := hok t ht
      obtain ⟨hs, hI⟩ := ih.shared
      obtain ⟨hvalid, hfollows⟩ := ih.each i t ht
      have spec := Thread.step_spec hs hvalid hrun
      have hwrites := Thread.step_writes hoffice hrun
      obtain ⟨hfollows', hentering⟩ := hfollows.step hs hI hvalid hoffice hrun
      refine ih.run hsymm ⟨spec.valid, hI.step hfollows hwrites spec.grows spec.leads⟩
        ⟨spec.thread, hfollows'⟩ fun j u hj hu => ?_
      have hpair := ih.pair i j t u hj.symm ht hu
      have hmem := List.mem_eraseIdx_iff_getElem?.mpr ⟨j, hj, hu⟩
      obtain ⟨huvalid, hufollows⟩ := ih.each j u hu
      refine ⟨⟨spec.grows.thread huvalid,
        hufollows.beside hwrites spec.grows spec.leads hpair⟩, fun f hf => ?_⟩
      rcases hentering f hf with hf | hf
      · exact hpair f hf
      · exact hlooks f hf u hmem
    | env e =>
      cases hstep
      obtain ⟨hs, hI⟩ := ih.shared
      refine ⟨⟨fun n => by simpa using hs n, hI.setLeads fun hb => ?_⟩, ?_, ih.pair⟩
      · obtain ⟨hn, hothers, htails, -⟩ := hok hb
        exact ⟨hn, hothers, htails⟩
      · intro i t ht
        obtain ⟨hvalid, hfollows⟩ := ih.each i t ht
        exact ⟨(w.shared.grows_setLeads e.node e.leads).thread hvalid,
          hfollows.setLeads fun hb => (hok hb).2.2.2 t (List.mem_of_getElem? ht)⟩

/-- In an orderly run a handler acknowledges only while its log is a beginning of the leader's. -/
theorem allows_of_orderly {files : String → List Payload}
    (hfiles : ∀ m ∈ members, ∀ m' ∈ members, files m <+: files m' ∨ files m' <+: files m)
    {w : World State Thread} {a : Act Request Choice EnvStep}
    (h : cluster.Runs (Orderly members) ⟨State.init files, []⟩ w) (hok : Orderly members w a) :
    agreementGuard.Allows w a := by
  have hholds := orderly_agrees hfiles h
  cases a with
  | spawn r => trivial
  | env e => trivial
  | run i c =>
    intro t ht
    unfold agreementGuard
    dsimp only
    split
    · exact hholds.shared.2.leader _ (hok _ ht).1 _ (hholds.each i _ ht).2.2.1
    · trivial

end Orderly

/-- **Replicated agreement.**  In every orderly run of nodes whose first logs are beginnings of one
another, with any leadership changes, streams and failures that such a run has: when a wait for
the record at `off` has ended, every replica counted by it holds that record, then and ever
after. -/
theorem replicated_agreement (members : List String) (files : String → List Payload)
    (hfiles : ∀ m ∈ members, ∀ m' ∈ members, files m <+: files m' ∨ files m' <+: files m)
    (w : World State Thread) (h : cluster.Runs (Orderly members) ⟨State.init files, []⟩ w)
    (n : String) (payload : Payload) (off : ℕ) (replicas : List String)
    (hacked : Thread.acked n payload off replicas ∈ w.threads) :
    ∀ id ∈ replicas, (w.shared.shard id).records[off]? = some payload := by
  have hinit : Recorded Agree (State.init files) := by
    intro m id k hk
    rcases State.mem_offsets_init hk with rfl | ⟨rfl, rfl⟩
    · exact .zero _ m id
    · exact .self (le_refl _)
  have hholds := recorded_sound Agree.zero (fun _ _ _ _ _ => Agree.down)
    (fun _ _ _ _ _ => Agree.grows) (fun _ _ _ _ _ _ => Agree.reports)
    (State.valid_init files) hinit (h.toReach fun w a hr _ => allows_of_orderly hfiles hr)
  obtain ⟨hvalid, hunderway⟩ := hholds.of_mem hacked
  intro id hid
  exact (hunderway n id (off + 1) ⟨rfl, hid, rfl⟩).getElem? hvalid

/-! ## A former leader -/

/-- Node `a` publishes while it leads, and its stream to `b` does not open; then `b` leads and
publishes, and streams its log to `a`, which skips the record and acknowledges it. -/
def formerLeader : List (Act Request Choice EnvStep) :=
  leadOn 0 "a" ["b"] ++ publishOn 2 "a" [1] ++ [.env ⟨"a", false⟩] ++
    leadOn 3 "b" ["a"] ++ publishOn 5 "b" [2] ++ goOn 4 2 ++
    [.spawn (.replicate "b" "a")] ++ goOn 6 4 ++ [.run 6 .ack] ++ goOn 5 1

/-- The wait at `b` ends although `a` holds another record. -/
theorem agreement_broken :
    ∃ w, cluster.Reach Guard.all (State.init fun _ => []) w ∧
      w.threads[5]? = some (.acked "b" [2] 0 ["b", "a"]) ∧
      (w.shared.shard "a").records = [[1]] := by
  have hrun : (cluster.exec ⟨State.init fun _ => [], []⟩ formerLeader).map
      (fun w => (w.threads[5]?, (w.shared.shard "a").records)) =
        some (some (.acked "b" [2] 0 ["b", "a"]), [[1]]) := by
    decide +kernel
  obtain ⟨w, hw, heq⟩ := Program.exists_reach hrun
  rw [Prod.mk.injEq] at heq
  exact ⟨w, hw, heq.1, heq.2⟩

/-- Node `a` leads, publishes, and streams its log to `b`; then `b` leads, publishes, and streams
its log to `a`, which skips the first record and appends the second. -/
def orderlyFailover : List (Act Request Choice EnvStep) :=
  leadOn 0 "a" ["b"] ++ publishOn 2 "a" [1] ++ goOn 1 2 ++
    [.spawn (.replicate "a" "b")] ++ goOn 3 3 ++ appendOn 3 ++ goOn 3 2 ++ [.run 3 .ack] ++
    [.env ⟨"a", false⟩] ++ leadOn 4 "b" ["a"] ++ publishOn 6 "b" [2] ++ goOn 5 1 ++
    [.spawn (.replicate "b" "a")] ++ goOn 7 6 ++ appendOn 7 ++ goOn 7 2 ++
    [.run 7 .ack, .run 7 .ack] ++ goOn 6 1

theorem agreement_plain :
    ∃ w, cluster.Runs (Orderly ["a", "b"]) ⟨State.init fun _ => [], []⟩ w ∧
      w.threads[6]? = some (.acked "b" [2] 1 ["b", "a"]) ∧
      (w.shared.shard "a").records[1]? = some [2] := by
  have hrun : (cluster.execIf (Orderly ["a", "b"]) ⟨State.init fun _ => [], []⟩
      orderlyFailover).map (fun w => w.threads[6]?) =
        some (some (.acked "b" [2] 1 ["b", "a"])) := by
    decide +kernel
  obtain ⟨w, hw, heq⟩ := Option.map_eq_some_iff.mp hrun
  have hruns := Program.Runs.refl.execIf _ hw
  refine ⟨w, hruns, heq, ?_⟩
  exact replicated_agreement ["a", "b"] _ (fun _ _ _ _ => .inl (List.prefix_refl _)) w hruns "b" [2]
    1 ["b", "a"] (List.mem_of_getElem? heq) "a" (by simp)

end AgentBus.Cluster
