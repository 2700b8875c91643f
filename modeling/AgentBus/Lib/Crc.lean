import Mathlib.Data.List.Basic
import Mathlib.Data.Nat.Notation
import Mathlib.Order.Nat

/-!
# Reflected 32-bit checksums

A cyclic redundancy check takes a message byte by byte into a remainder of 32 bits, in the
bit-reversed form that `hash/crc32` uses.  If the highest bit of the polynomial is set, every step
can be undone: the highest bit of a shifted remainder tells which bit was shifted out.  So two
messages that differ in a single byte have different remainders (`remainder_modify_ne`).

## Main definitions

* `shift`, `byte`, `remainder` — one bit, one byte, and a message.
-/

namespace AgentBus.Crc

/-- One bit. -/
def shift (poly c : UInt32) : UInt32 := if c &&& 1 = 1 then (c >>> 1) ^^^ poly else c >>> 1

/-- One byte. -/
def byte (poly crc : UInt32) (b : UInt8) : UInt32 :=
  (List.range 8).foldl (fun c _ => shift poly c) (crc ^^^ b.toUInt32)

/-- A message. -/
def remainder (poly crc : UInt32) (bs : List UInt8) : UInt32 := bs.foldl (byte poly) crc

theorem and_one_iff (c : UInt32) : c &&& 1 = 1 ↔ c.toNat % 2 = 1 := by
  rw [← UInt32.toNat_inj, UInt32.toNat_and]
  simp

theorem toNat_half (c : UInt32) : (c >>> 1).toNat = c.toNat / 2 := by
  simp [UInt32.toNat_shiftRight, Nat.shiftRight_eq_div_pow]

section

variable {poly : UInt32} (hpoly : poly.toNat.testBit 31 = true)
include hpoly

/-- The highest bit of a shifted remainder is the bit that was shifted out. -/
theorem testBit_shift (c : UInt32) :
    (shift poly c).toNat.testBit 31 = decide (c.toNat % 2 = 1) := by
  have hhalf : (c >>> 1).toNat.testBit 31 = false := by
    rw [toNat_half]
    apply Nat.testBit_lt_two_pow
    have := c.toNat_lt
    omega
  unfold shift
  simp only [and_one_iff]
  split
  · rename_i hodd
    rw [UInt32.toNat_xor, Nat.testBit_xor, hhalf, hpoly, decide_eq_true hodd]
    rfl
  · rename_i heven
    rw [hhalf, decide_eq_false heven]

theorem shift_injective : Function.Injective (shift poly) := by
  intro a b h
  have hbit := testBit_shift hpoly a
  rw [h, testBit_shift hpoly b, decide_eq_decide] at hbit
  have hhalf : a >>> 1 = b >>> 1 := by
    unfold shift at h
    simp only [and_one_iff, hbit] at h
    split at h
    · exact (UInt32.xor_left_inj poly).mp h
    · exact h
  have hnat := congrArg UInt32.toNat hhalf
  rw [toNat_half, toNat_half] at hnat
  apply UInt32.toNat_inj.mp
  omega

/-- Shifts can be undone. -/
theorem shifts_injective (n : ℕ) :
    Function.Injective fun c => (List.range n).foldl (fun c _ => shift poly c) c := by
  induction n with
  | zero => exact fun a b h => h
  | succ n ih =>
    intro a b h
    simp only [List.range_succ, List.foldl_append, List.foldl_cons, List.foldl_nil] at h
    exact ih (shift_injective hpoly h)

/-- Different bytes taken into one remainder give different remainders. -/
theorem byte_injective (crc : UInt32) : Function.Injective (byte poly crc) := by
  intro a b h
  have hxor := (UInt32.xor_right_inj crc).mp (shifts_injective hpoly 8 h)
  exact UInt8.toUInt32_inj.mp hxor

theorem byte_left_injective (b : UInt8) : Function.Injective fun crc => byte poly crc b :=
  fun _ _ h => (UInt32.xor_left_inj b.toUInt32).mp (shifts_injective hpoly 8 h)

theorem remainder_injective (bs : List UInt8) :
    Function.Injective fun crc => remainder poly crc bs := by
  induction bs with
  | nil => exact fun a b h => h
  | cons b bs ih =>
    intro crc crc' h
    exact byte_left_injective hpoly b (ih h)

/-- **A changed byte changes the remainder.** -/
theorem remainder_modify_ne (crc : UInt32) {bs : List UInt8} {k : ℕ} (hk : k < bs.length)
    {f : UInt8 → UInt8} (hf : f bs[k] ≠ bs[k]) :
    remainder poly crc (bs.modify k f) ≠ remainder poly crc bs := by
  intro h
  have hsplit : bs = bs.take k ++ bs[k] :: bs.drop (k + 1) := by simp
  rw [List.modify_eq_take_cons_drop hk] at h
  conv at h => rhs; rw [hsplit]
  simp only [remainder, List.foldl_append, List.foldl_cons] at h
  exact hf (byte_injective hpoly _ (remainder_injective hpoly _ h))

end

end AgentBus.Crc
