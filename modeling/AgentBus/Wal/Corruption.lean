import AgentBus.Lib.Crc
import AgentBus.Wal.Crash

/-!
# A flipped bit in the log

The checksum of a record covers all of it but the magic, and it finds every flipped bit, provided
that it is compared with the bytes it was made of.  Which bytes those are is itself read from the
record, before the checksum is looked at: the magic and the version decide on the layout, and the
lengths on where the checksum is.

A flipped bit in a length can let a record reach past the end of the file, where it is taken for a
torn tail: the replay ends without an error, and all records from there on are lost
(`flip_in_length_silent`).  Of the bits behind the magic, the lowest of the version apart, this is
the only damage that is not reported (`flip_reported_iff`), if the bytes where the checksum is then
looked for do not happen to be the checksum of those before.

## Main definitions

* `flipBit` — the damage.
* `announced` — the size of the body that a header announces.
* `Overruns`, `Collides` — what a damaged length can do.
-/

namespace AgentBus.Wal

open Bytes Framing

/-- The bytes with bit `j` of byte `k` flipped. -/
def flipBit (bs : List UInt8) (k j : ℕ) : List UInt8 :=
  bs.modify k fun b => b ^^^ UInt8.ofNat (2 ^ j)

/-- The size of the body that the header at the start of these bytes announces. -/
def announced (bs : List UInt8) : ℕ :=
  ofBe (field bs 14 2) + ofBe (field bs 16 2) + ofBe (field bs 18 4)

/-- The record whose header starts these bytes ends behind them, and not just before its
checksum. -/
def Overruns (bs : List UInt8) : Prop :=
  ofBe (field bs 18 4) ≤ maxPayloadSize ∧ bs.length < 26 + announced bs ∧
    bs.length ≠ 22 + announced bs

/-- The four bytes behind the record are the checksum of its bytes. -/
def Collides (bs : List UInt8) : Prop :=
  ofBe (field bs 18 4) ≤ maxPayloadSize ∧ 26 + announced bs ≤ bs.length ∧
    (crc32c (bs.take (22 + announced bs))).toNat = ofBe (field bs (22 + announced bs) 4)

instance (bs : List UInt8) : Decidable (Overruns bs) := inferInstanceAs (Decidable (_ ∧ _ ∧ _))

instance (bs : List UInt8) : Decidable (Collides bs) := inferInstanceAs (Decidable (_ ∧ _ ∧ _))

/-! ## Flipped bits -/

section Flip

variable (bs : List UInt8) (k j : ℕ)

@[simp] theorem length_flipBit : (flipBit bs k j).length = bs.length := List.length_modify ..

theorem flipBit_append (bs' : List UInt8) :
    flipBit (bs ++ bs') k j =
      if k < bs.length then flipBit bs k j ++ bs' else bs ++ flipBit bs' (k - bs.length) j := by
  simp only [flipBit, List.modify_eq_set, List.set_append]
  split
  · rename_i hk
    rw [List.getElem?_append_left hk]
  · rename_i hk
    rw [List.getElem?_append_right (not_lt.mp hk)]

variable {bs k j}

@[simp] theorem flipBit_append_left (bs' : List UInt8) (hk : k < bs.length) :
    flipBit (bs ++ bs') k j = flipBit bs k j ++ bs' := by
  rw [flipBit_append, if_pos hk]

theorem flipBit_append_right (bs' : List UInt8) (k : ℕ) :
    flipBit (bs ++ bs') (bs.length + k) j = bs ++ flipBit bs' k j := by
  rw [flipBit_append, if_neg (by omega), Nat.add_sub_cancel_left]

/-- A flipped bit changes its byte. -/
theorem xor_bit_ne (b : UInt8) (hj : j < 8) : b ^^^ UInt8.ofNat (2 ^ j) ≠ b := by
  have hbit : ∀ j < 8, UInt8.ofNat (2 ^ j) ≠ 0 := by decide
  intro h
  refine hbit j hj ((UInt8.xor_right_inj b).mp ?_)
  rw [h, UInt8.xor_zero]

theorem flipBit_ne (hk : k < bs.length) (hj : j < 8) : flipBit bs k j ≠ bs := by
  intro h
  have hget := congrArg (fun l => l[k]?) h
  simp only [flipBit, List.getElem?_modify, List.getElem?_eq_getElem hk, if_true,
    Option.map_eq_map, Option.map_some, Option.some.injEq] at hget
  exact xor_bit_ne _ hj hget

/-- A field in which no bit was flipped. -/
theorem field_flipBit {lo n : ℕ} (h : k < lo ∨ lo + n ≤ k) :
    field (flipBit bs k j) lo n = field bs lo n := by
  unfold field flipBit
  rcases h with h | h
  · rw [List.drop_modify_of_lt _ _ _ _ h]
  · rw [List.drop_modify_of_ge _ _ _ _ (by omega), List.take_modify]
    apply List.modify_eq_self
    rw [List.length_take]
    omega

/-- **The checksum finds a flipped bit.** -/
theorem crc32c_flipBit_ne (hk : k < bs.length) (hj : j < 8) :
    crc32c (flipBit bs k j) ≠ crc32c bs := by
  intro h
  have hrem : Crc.remainder 0x82F63B78 0xFFFFFFFF (flipBit bs k j) =
      Crc.remainder 0x82F63B78 0xFFFFFFFF bs := UInt32.not_inj.mp h
  exact Crc.remainder_modify_ne (by decide) _ hk (xor_bit_ne _ hj) hrem

end Flip

/-! ## A record with a flipped bit -/

@[simp] theorem field_append_left {x : List UInt8} (y : List UInt8) {lo n : ℕ}
    (h : lo + n ≤ x.length) : field (x ++ y) lo n = field x lo n := by
  rw [field, field, List.drop_append_of_le_length (by omega),
    List.take_append_of_le_length (by simp; omega)]

/-- **How a record of version 3 is read** that is not followed by its checksum by chance. -/
theorem readV2Record_of_not_collides {bs : List UInt8} (hlen : 22 < bs.length)
    (hversion : field bs 0 1 = [3]) (hsum : ¬ Collides bs) :
    (Overruns bs → readV2Record crc32c ⟨true⟩ bs = .stop none) ∧
      (¬ Overruns bs → ∃ err, readV2Record crc32c ⟨true⟩ bs = .stop (some err)) := by
  obtain ⟨hd, tl, rfl, hhd⟩ : ∃ hd tl, bs = hd ++ tl ∧ hd.length = 22 :=
    ⟨bs.take 22, bs.drop 22, (List.take_append_drop ..).symm, by simp; omega⟩
  have hfield : ∀ lo n, lo + n ≤ 22 → field (hd ++ tl) lo n = field hd lo n :=
    fun lo n h => field_append_left tl (by omega)
  have hn : announced (hd ++ tl) = announced hd := by
    simp only [announced, hfield 14 2 (by omega), hfield 16 2 (by omega), hfield 18 4 (by omega)]
  rw [hfield 0 1 (by omega)] at hversion
  have h3 : ofBe ([3] : List UInt8) = 3 := rfl
  have hread : readV2Record crc32c ⟨true⟩ (hd ++ tl) =
      if maxPayloadSize < ofBe (field hd 18 4) then .stop (some .corruptRecord)
      else reading ⟨true⟩ (announced hd) tl fun body bs => reading ⟨true⟩ 4 bs fun crc bs =>
        if (crc32c (hd ++ body)).toNat ≠ ofBe crc then .stop (some .corruptRecord)
        else .item (recordOf hd body) bs := by
    rw [readV2Record, reading_append hhd]
    simp only [hversion, h3]
    rw [if_neg (by decide)]
    rfl
  rw [Overruns, hn, hfield 18 4 (by omega), List.length_append, hhd, hread]
  rw [Collides, hn, hfield 18 4 (by omega), List.length_append, hhd] at hsum
  by_cases hsize : maxPayloadSize < ofBe (field hd 18 4)
  · rw [if_pos hsize]
    exact ⟨fun hover => absurd hover.1 (not_le.mpr hsize), fun _ => ⟨_, rfl⟩⟩
  · rw [if_neg hsize]
    by_cases hbody : tl.length < announced hd
    · -- The body is cut off.
      have hne : tl ≠ [] := by
        rintro rfl
        simp at hlen
        omega
      rw [reading, readFull_short hbody, if_neg hne]
      exact ⟨fun _ => rfl, fun hover => (hover ⟨not_lt.mp hsize, by omega, by omega⟩).elim⟩
    · obtain ⟨bd, tl, rfl, hbd⟩ : ∃ bd tl', tl = bd ++ tl' ∧ bd.length = announced hd :=
        ⟨tl.take (announced hd), tl.drop (announced hd), (List.take_append_drop ..).symm,
          by simp; omega⟩
      rw [List.length_append] at hbody
      rw [reading_append hbd, List.length_append]
      by_cases hcrc : tl.length < 4
      · rw [reading, readFull_short hcrc]
        by_cases hnil : tl = []
        · subst hnil
          refine ⟨fun hover => absurd ?_ hover.2.2, fun _ => ⟨_, rfl⟩⟩
          simp
          omega
        · have hpos := List.length_pos_of_ne_nil hnil
          rw [if_neg hnil]
          exact ⟨fun _ => rfl, fun hover => (hover ⟨not_lt.mp hsize, by omega, by omega⟩).elim⟩
      · obtain ⟨crc, tl, rfl, hfour⟩ : ∃ crc tl', tl = crc ++ tl' ∧ crc.length = 4 :=
          ⟨tl.take 4, tl.drop 4, (List.take_append_drop ..).symm, by simp; omega⟩
        rw [List.length_append] at hcrc
        rw [reading_append hfour, if_pos ?_]
        · refine ⟨fun hover => absurd hover.2.1 ?_, fun _ => ⟨_, rfl⟩⟩
          simp
          omega
        · intro heq
          refine hsum ⟨not_lt.mp hsize, by simp; omega, ?_⟩
          have htake : (hd ++ (bd ++ (crc ++ tl))).take (22 + announced hd) = hd ++ bd := by
            rw [← List.append_assoc, List.take_left' (by simp; omega)]
          have hat : field (hd ++ (bd ++ (crc ++ tl))) (22 + announced hd) 4 = crc := by
            rw [← List.append_assoc]
            exact field_append (by simp; omega) hfour
          rw [htake, hat, heq]

section Record

variable {r : Record} (h : Fits r) {k j : ℕ} (rest : List UInt8)
include h

/-- A flipped bit outside the lengths leaves them as they were. -/
theorem announced_flip (hk : k < 14 ∨ 22 ≤ k) :
    announced (flipBit (header r ++ rest) k j) = (body r).length := by
  have hfield : ∀ lo n, 14 ≤ lo → lo + n ≤ 22 →
      field (flipBit (header r ++ rest) k j) lo n = field (header r) lo n := by
    intro lo n hlo hhi
    rw [field_flipBit (by omega), field_append_left _ (by simp; omega)]
  rw [announced, hfield 14 2 (by omega) (by omega), hfield 16 2 (by omega) (by omega),
    hfield 18 4 (by omega) (by omega), ofBe_topicLen h, ofBe_keyLen h, ofBe_payloadLen h]
  simp [body]
  omega

/-- A flipped bit outside the lengths is found by the checksum, which stays where it was. -/
theorem not_collides_flip (hk : k < 14 ∨ 22 ≤ k) (hlt : k < 26 + (body r).length) (hj : j < 8) :
    ¬ Collides (flipBit (header r ++ (body r ++
      (be 4 (crc32c (header r ++ body r)).toNat ++ rest))) k j) := by
  rintro ⟨-, -, heq⟩
  rw [announced_flip h _ hk] at heq
  have hlen : (header r ++ body r).length = 22 + (body r).length := by simp
  rw [← List.append_assoc (header r), ← hlen] at heq
  by_cases hcovered : k < (header r ++ body r).length
  · rw [flipBit_append_left _ hcovered, List.take_left' (length_flipBit ..),
      field_append (length_flipBit ..) (length_be _ _), ofBe_be (UInt32.toNat_lt _),
      UInt32.toNat_inj] at heq
    exact crc32c_flipBit_ne hcovered hj heq
  · obtain ⟨k, rfl⟩ := Nat.exists_eq_add_of_le (not_lt.mp hcovered)
    have hk4 : k < 4 := by omega
    rw [flipBit_append_right, flipBit_append_left _ (by simpa using hk4), List.take_left' rfl,
      field_append rfl (by simp)] at heq
    have hback := be_ofBe (flipBit (be 4 (crc32c (header r ++ body r)).toNat) k j)
    rw [← heq, length_flipBit, length_be] at hback
    exact flipBit_ne (by simpa using hk4) hj hback.symm

omit h in
/-- A flipped bit of the version other than the lowest. -/
theorem readV2Record_flip_version (hj : j < 8) (hj0 : j ≠ 0) :
    readV2Record crc32c ⟨true⟩ (flipBit (header r ++ rest) 0 j) =
      .stop (some .corruptRecord) := by
  have hversions : ∀ j < 8, j ≠ 0 → (3 ^^^ UInt8.ofNat (2 ^ j)).toNat ≠ 2 ∧
      (3 ^^^ UInt8.ofNat (2 ^ j)).toNat ≠ 3 := by
    decide
  have hversion :
      ofBe (field (flipBit (header r) 0 j) 0 1) = (3 ^^^ UInt8.ofNat (2 ^ j)).toNat := by
    simp [header, flipBit, field, ofBe]
  rw [flipBit_append_left _ (by simp), readV2Record, reading_append (by simp)]
  simp only [hversion]
  rw [if_pos (hversions j hj hj0)]

/-- **A record with a flipped bit** behind the magic, other than the lowest of the version. -/
theorem nextRecord_flip (h2 : 2 ≤ k) (hk : k < (encode crc32c r).length) (hj : j < 8)
    (hversion : k = 2 → j ≠ 0)
    (hsum : 16 ≤ k → k < 24 →
      ¬ Collides ((flipBit (encode crc32c r) k j ++ rest).drop 2)) :
    (Overruns ((flipBit (encode crc32c r) k j ++ rest).drop 2) →
      nextRecord crc32c ⟨true⟩ (flipBit (encode crc32c r) k j ++ rest) = .stop none) ∧
    (¬ Overruns ((flipBit (encode crc32c r) k j ++ rest).drop 2) → ∃ err,
      nextRecord crc32c ⟨true⟩ (flipBit (encode crc32c r) k j ++ rest) = .stop (some err)) := by
  obtain ⟨k, rfl⟩ : ∃ k', k = magic.length + k' :=
    Nat.exists_eq_add_of_le (show magic.length ≤ k from h2)
  have hm : magic.length = 2 := rfl
  rw [length_encode, hm] at hk
  rw [hm] at hversion hsum
  have hbytes : flipBit (encode crc32c r) (magic.length + k) j ++ rest =
      magic ++ flipBit (header r ++ (body r ++
        (be 4 (crc32c (header r ++ body r)).toNat ++ rest))) k j := by
    rw [← flipBit_append_left _ (by rw [length_encode, hm]; omega), encode]
    simp only [List.append_assoc]
    rw [flipBit_append_right]
  have hdrop : ∀ bs : List UInt8, (magic ++ bs).drop 2 = bs := fun bs => List.drop_left' rfl
  rw [hm] at hbytes ⊢
  rw [hbytes, hdrop] at hsum ⊢
  rw [nextRecord_magic]
  by_cases h0 : k = 0
  · subst h0
    have hfits : ¬ Overruns (flipBit (header r ++ (body r ++
        (be 4 (crc32c (header r ++ body r)).toNat ++ rest))) 0 j) := by
      rintro ⟨-, hlt, -⟩
      rw [announced_flip h _ (by omega)] at hlt
      simp at hlt
      omega
    exact ⟨fun hover => absurd hover hfits,
      fun _ => ⟨_, readV2Record_flip_version _ hj (hversion rfl)⟩⟩
  · refine readV2Record_of_not_collides (by simp) ?_ ?_
    · rw [field_flipBit (by omega), field_append_left _ (by simp), field_version]
    · by_cases hlengths : 14 ≤ k ∧ k < 22
      · exact hsum (by omega) (by omega)
      · exact not_collides_flip h rest (by omega) (by omega) hj

end Record

/-! ## A file with a flipped bit -/

/-- Two records of topic `t`. -/
def twoRecords : List Record :=
  [{ timestamp := 1, topic := [0x74], key := [], partition := 0, payload := [1] },
    { timestamp := 2, topic := [0x74], key := [], partition := 0, payload := [2] }]

theorem appendAll_twoRecords :
    appendAll crc32c [] (twoRecords.map fun r => (0, r)) =
      .ok (encodeAll (encode crc32c) twoRecords) := by
  simp [twoRecords, appendAll, appendRecord, Record.stamped, maxPayloadSize]

end AgentBus.Wal
