import Mathlib.Data.Nat.Bitwise
import Mathlib.Tactic.Ring

/-!
# Little-endian numerals

A number written as a fixed count of bytes, least significant first, and read back.

* `LittleEndian.digits w n` : the `w` bytes of `n`; `LittleEndian.value bs` : the number they write.
* `value_digits`, `digits_value` : the two are inverse on numbers below `256 ^ w` and on lists of
  `w` bytes.
* `or_shiftLeft` : joining a byte above the bits already read is addition.
-/

namespace LiteSpeedStore

namespace LittleEndian

/-- The number whose bytes, least significant first, are the list. -/
def value (bs : List UInt8) : ℕ := bs.foldr (fun b n => b.toNat + 256 * n) 0

/-- The `w` bytes of `n`, least significant first; what lies above them is dropped. -/
def digits : ℕ → ℕ → List UInt8
  | 0, _ => []
  | w + 1, n => UInt8.ofNat n :: digits w (n / 256)

@[simp] theorem value_nil : value [] = 0 := rfl

@[simp] theorem value_cons (b : UInt8) (bs : List UInt8) :
    value (b :: bs) = b.toNat + 256 * value bs := rfl

@[simp] theorem length_digits (w n : ℕ) : (digits w n).length = w := by
  induction w generalizing n with
  | zero => rfl
  | succ w ih => rw [digits, List.length_cons, ih]

theorem value_lt (bs : List UInt8) : value bs < 256 ^ bs.length := by
  induction bs with
  | nil => simp
  | cons b bs ih =>
    have := b.toNat_lt
    rw [value_cons, List.length_cons, pow_succ]
    omega

theorem value_digits {w n : ℕ} (h : n < 256 ^ w) : value (digits w n) = n := by
  induction w generalizing n with
  | zero => rw [pow_zero] at h; simp only [digits, value_nil]; omega
  | succ w ih =>
    rw [pow_succ] at h
    rw [digits, value_cons, ih (by omega), UInt8.toNat_ofNat']
    omega

theorem digits_value (bs : List UInt8) : digits bs.length (value bs) = bs := by
  induction bs with
  | nil => rfl
  | cons b bs ih =>
    have hb := b.toNat_lt
    have hq : (b.toNat + 256 * value bs) / 256 = value bs := by omega
    rw [List.length_cons, digits, value_cons, hq, ih]
    congr 1
    apply UInt8.toNat_inj.1
    rw [UInt8.toNat_ofNat']
    omega

theorem value_append (as bs : List UInt8) :
    value (as ++ bs) = value as + 256 ^ as.length * value bs := by
  induction as with
  | nil => simp
  | cons a as ih => rw [List.cons_append, value_cons, ih, value_cons, List.length_cons]; ring

/-- Bits joined above those of `n` add to it. -/
theorem or_shiftLeft {n k : ℕ} (h : n < 2 ^ k) (b : ℕ) : n ||| b <<< k = n + b * 2 ^ k := by
  rw [Nat.or_comm, ← Nat.shiftLeft_add_eq_or_of_lt h, Nat.shiftLeft_eq, Nat.add_comm]

end LittleEndian

end LiteSpeedStore
