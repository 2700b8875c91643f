import Mathlib.Data.List.Induction
import Mathlib.Data.Nat.Notation
import Mathlib.Tactic.Ring

/-!
# Byte strings: big-endian fields and exact reads

`be n v` is the `n`-byte big-endian field that holds `v`, and `ofBe` reads one back;
`ofBe_be` and `be_ofBe` say that the two are inverse.  `readFull` is `io.ReadFull` on the
bytes that are left: it reports the end of the input differently when nothing at all was
read, which is where readers of framed formats go wrong.

## Main definitions

* `be`, `ofBe` — big-endian fields.
* `ReadError`, `readFull` — exact reads.
-/

namespace AgentBus.Bytes

/-- The `n`-byte big-endian field holding `v`. -/
def be : ℕ → ℕ → List UInt8
  | 0, _ => []
  | n + 1, v => be n (v / 256) ++ [UInt8.ofNat v]

/-- The number in a big-endian field. -/
def ofBe (bs : List UInt8) : ℕ := bs.foldl (fun v b => v * 256 + b.toNat) 0

@[simp] theorem length_be (n v : ℕ) : (be n v).length = n := by
  induction n generalizing v with
  | zero => rfl
  | succ n ih => simp [be, ih]

@[simp] theorem ofBe_nil : ofBe [] = 0 := rfl

theorem ofBe_concat (bs : List UInt8) (b : UInt8) : ofBe (bs ++ [b]) = ofBe bs * 256 + b.toNat := by
  simp [ofBe]

/-- A field holds what was written up to the bytes that it has. -/
theorem ofBe_be_mod (n v : ℕ) : ofBe (be n v) = v % 256 ^ n := by
  induction n generalizing v with
  | zero => simp [be, Nat.mod_one]
  | succ n ih =>
    have hsplit : v % (256 * 256 ^ n) = v % 256 + 256 * (v / 256 % 256 ^ n) := Nat.mod_mul
    rw [be, ofBe_concat, ih, UInt8.toNat_ofNat', pow_succ' 256 n, hsplit]
    omega

/-- Reading a field gives back what was written. -/
@[simp] theorem ofBe_be {n v : ℕ} (h : v < 256 ^ n) : ofBe (be n v) = v := by
  rw [ofBe_be_mod, Nat.mod_eq_of_lt h]

/-- Writing what was read gives back the field. -/
@[simp] theorem be_ofBe (bs : List UInt8) : be bs.length (ofBe bs) = bs := by
  induction bs using List.reverseRecOn with
  | nil => rfl
  | append_singleton bs b ih =>
    have hb := b.toNat_lt
    have hdiv : (ofBe bs * 256 + b.toNat) / 256 = ofBe bs := by omega
    have hlast : UInt8.ofNat (ofBe bs * 256 + b.toNat) = b := by
      apply UInt8.toNat_inj.mp
      rw [UInt8.toNat_ofNat']
      omega
    rw [List.length_append, List.length_singleton, be, ofBe_concat, hdiv, ih, hlast]

/-- A field of `n` bytes holds less than `256 ^ n`. -/
theorem ofBe_lt (bs : List UInt8) : ofBe bs < 256 ^ bs.length := by
  induction bs using List.reverseRecOn with
  | nil => simp
  | append_singleton bs b ih =>
    have hb := b.toNat_lt
    rw [List.length_append, List.length_singleton, ofBe_concat, pow_succ]
    omega

/-! ## Exact reads -/

/-- How an exact read fails. -/
inductive ReadError where
  /-- `io.EOF`: there was nothing to read. -/
  | eof
  /-- `io.ErrUnexpectedEOF`: there was something, but not enough. -/
  | unexpectedEOF
  deriving DecidableEq, Repr

/-- `io.ReadFull`: the first `n` bytes and the rest. -/
def readFull (n : ℕ) (bs : List UInt8) : Except ReadError (List UInt8 × List UInt8) :=
  if n ≤ bs.length then .ok (bs.take n, bs.drop n)
  else if bs = [] then .error .eof
  else .error .unexpectedEOF

/-- Reading no more than known bytes. -/
@[simp] theorem readFull_of_le {n : ℕ} {bs : List UInt8} (h : n ≤ bs.length) (rest : List UInt8) :
    readFull n (bs ++ rest) = .ok (bs.take n, bs.drop n ++ rest) := by
  rw [readFull, if_pos (by rw [List.length_append]; omega), List.take_append_of_le_length h,
    List.drop_append_of_le_length h]

/-- Reading exactly known bytes. -/
@[simp] theorem readFull_append {n : ℕ} {field : List UInt8} (h : field.length = n)
    (rest : List UInt8) : readFull n (field ++ rest) = .ok (field, rest) := by
  subst h
  simp [readFull]

/-- What a successful read consumed. -/
theorem readFull_eq_ok {n : ℕ} {bs field rest : List UInt8}
    (h : readFull n bs = .ok (field, rest)) : bs = field ++ rest ∧ field.length = n := by
  unfold readFull at h
  split at h
  · rename_i hle
    cases h
    exact ⟨(List.take_append_drop n bs).symm, by simp [hle]⟩
  · split at h <;> cases h

/-- A read that wants more than there is. -/
@[simp] theorem readFull_short {n : ℕ} {bs : List UInt8} (h : bs.length < n) :
    readFull n bs = .error (if bs = [] then .eof else .unexpectedEOF) := by
  rw [readFull, if_neg (by omega)]
  split <;> rfl

end AgentBus.Bytes
