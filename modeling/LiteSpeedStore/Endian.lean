import LiteSpeedStore.Theory.LittleEndian
import Mathlib.Tactic.Positivity.Basic
import Mathlib.Tactic.NormNum

/-!
# The integers of the on-disk formats

`Endian.hpp`: every integer of the log and of the snapshot is written byte by byte in
little-endian order.  The definitions follow the shifts and the loops of the source; the lemmas
relate them to `LittleEndian.digits` and `LittleEndian.value`, which is all the rest of the
development uses.
-/

namespace LiteSpeedStore

open LittleEndian

/-- Bytes in memory or in a file. -/
abbrev Bytes := List UInt8

/-- Appends `v` as 4 little-endian bytes. -/
def putLE32 (buf : Bytes) (v : UInt32) : Bytes :=
  buf ++ [v.toUInt8] ++ [(v >>> 8).toUInt8] ++ [(v >>> 16).toUInt8] ++ [(v >>> 24).toUInt8]

/-- Appends `v` as 8 little-endian bytes. -/
def putLE64 (buf : Bytes) (v : UInt64) : Bytes :=
  (List.range 8).foldl (fun buf i => buf ++ [(v >>> UInt64.ofNat (8 * i)).toUInt8]) buf

/-- Reads a little-endian 32-bit integer from the first 4 bytes of `p`. -/
def getLE32 (p : Bytes) : UInt32 :=
  (p.getD 0 0).toUInt32 ||| (p.getD 1 0).toUInt32 <<< 8 ||| (p.getD 2 0).toUInt32 <<< 16 |||
    (p.getD 3 0).toUInt32 <<< 24

/-- Reads a little-endian 64-bit integer from the first 8 bytes of `p`. -/
def getLE64 (p : Bytes) : UInt64 :=
  (List.range 8).foldl (fun v i => v ||| (p.getD i 0).toUInt64 <<< UInt64.ofNat (8 * i)) 0

/-! ### Writing -/

theorem putLE32_eq (buf : Bytes) (v : UInt32) : putLE32 buf v = buf ++ digits 4 v.toNat := by
  have h : ∀ k : ℕ, (v.toNat >>> k) = v.toNat / 2 ^ k := fun k => Nat.shiftRight_eq_div_pow _ _
  simp only [putLE32, digits, List.append_assoc, List.cons_append, List.nil_append]
  congr 5 <;> apply UInt8.toNat_inj.1 <;>
    simp [UInt32.toNat_toUInt8, UInt32.toNat_shiftRight, h] <;> omega

theorem putLE64_eq (buf : Bytes) (v : UInt64) : putLE64 buf v = buf ++ digits 8 v.toNat := by
  have h : ∀ k : ℕ, (v.toNat >>> k) = v.toNat / 2 ^ k := fun k => Nat.shiftRight_eq_div_pow _ _
  simp only [putLE64, List.range, List.range.loop, List.foldl, digits, List.append_assoc,
    List.cons_append, List.nil_append]
  congr 9 <;> apply UInt8.toNat_inj.1 <;>
    simp [UInt64.toNat_toUInt8, UInt64.toNat_shiftRight, h] <;> omega

/-! ### Reading -/

theorem value_take_succ (p : Bytes) (i : ℕ) :
    value (p.take (i + 1)) = value (p.take i) + 256 ^ i * (p.getD i 0).toNat := by
  by_cases h : i < p.length
  · rw [List.take_add_one, value_append, List.length_take, Nat.min_eq_left h.le,
      List.getD_eq_getElem?_getD]
    simp [List.getElem?_eq_getElem h]
  · rw [List.take_of_length_le (by omega), List.take_of_length_le (by omega),
      List.getD_eq_default _ _ (by omega)]
    simp

theorem value_take_lt (p : Bytes) (i : ℕ) : value (p.take i) < 2 ^ (8 * i) := by
  have h := value_lt (p.take i)
  have hle : 256 ^ (p.take i).length ≤ 256 ^ i :=
    Nat.pow_le_pow_right (by norm_num) (List.length_take_le _ _)
  rw [pow_mul]
  exact lt_of_lt_of_le h hle

theorem getLE32_toNat (p : Bytes) : (getLE32 p).toNat = value (p.take 4) := by
  have hb : ∀ i, (p.getD i 0).toNat < 2 ^ 8 := fun i => (p.getD i 0).toNat_lt
  have h1 := value_take_lt p 1
  have h2 := value_take_lt p 2
  have h3 := value_take_lt p 3
  have e1 : value (p.take 1) = (p.getD 0 0).toNat := by simpa using value_take_succ p 0
  have e2 : value (p.take 2) = value (p.take 1) + (p.getD 1 0).toNat * 2 ^ 8 := by
    rw [value_take_succ p 1]; ring
  have e3 : value (p.take 3) = value (p.take 2) + (p.getD 2 0).toNat * 2 ^ 16 := by
    rw [value_take_succ p 2]; ring
  have e4 : value (p.take 4) = value (p.take 3) + (p.getD 3 0).toNat * 2 ^ 24 := by
    rw [value_take_succ p 3]; ring
  have hs : ∀ i k, k ≤ 24 → ((p.getD i 0).toNat <<< k) % 2 ^ 32 = (p.getD i 0).toNat <<< k := by
    intro i k hk
    rw [Nat.shiftLeft_eq]
    refine Nat.mod_eq_of_lt (lt_of_lt_of_le (Nat.mul_lt_mul_of_pos_right (hb i) (by positivity)) ?_)
    rw [← pow_add]
    exact Nat.pow_le_pow_right (by norm_num) (by omega)
  simp only [getLE32, UInt32.toNat_or, UInt32.toNat_shiftLeft, UInt8.toNat_toUInt32]
  simp only [show (8 : UInt32).toNat % 32 = 8 from rfl, show (16 : UInt32).toNat % 32 = 16 from rfl,
    show (24 : UInt32).toNat % 32 = 24 from rfl, hs _ 8 (by norm_num), hs _ 16 (by norm_num),
    hs _ 24 (by norm_num)]
  rw [← e1, or_shiftLeft h1, ← e2, or_shiftLeft h2, ← e3, or_shiftLeft h3, ← e4]

theorem getLE64_toNat (p : Bytes) : (getLE64 p).toNat = value (p.take 8) := by
  suffices h : ∀ n ≤ 8, ((List.range n).foldl (fun v i =>
      v ||| (p.getD i 0).toUInt64 <<< UInt64.ofNat (8 * i)) (0 : UInt64)).toNat =
      value (p.take n) from h 8 le_rfl
  intro n
  induction n with
  | zero => intro _; simp
  | succ n ih =>
    intro hn
    have hb : (p.getD n 0).toNat < 2 ^ 8 := (p.getD n 0).toNat_lt
    have hk : (UInt64.ofNat (8 * n)).toNat % 64 = 8 * n := by
      rw [UInt64.toNat_ofNat']; omega
    have hs : ((p.getD n 0).toNat <<< (8 * n)) % 2 ^ 64 = (p.getD n 0).toNat <<< (8 * n) := by
      rw [Nat.shiftLeft_eq]
      refine Nat.mod_eq_of_lt
        (lt_of_lt_of_le (Nat.mul_lt_mul_of_pos_right hb (by positivity)) ?_)
      rw [← pow_add]
      exact Nat.pow_le_pow_right (by norm_num) (by omega)
    rw [List.range_succ, List.foldl_append, List.foldl_cons, List.foldl_nil, UInt64.toNat_or,
      ih (by omega), UInt64.toNat_shiftLeft, UInt8.toNat_toUInt64, hk, hs,
      or_shiftLeft (value_take_lt p n), value_take_succ, pow_mul]
    ring

/-! ### Round trips -/

@[simp] theorem length_putLE32 (buf : Bytes) (v : UInt32) :
    (putLE32 buf v).length = buf.length + 4 := by simp [putLE32_eq]

@[simp] theorem length_putLE64 (buf : Bytes) (v : UInt64) :
    (putLE64 buf v).length = buf.length + 8 := by simp [putLE64_eq]

theorem getLE32_digits_append (v : UInt32) (rest : Bytes) :
    getLE32 (digits 4 v.toNat ++ rest) = v := by
  apply UInt32.toNat_inj.1
  rw [getLE32_toNat, List.take_left' (length_digits 4 _), value_digits]
  exact v.toNat_lt

theorem getLE64_digits_append (v : UInt64) (rest : Bytes) :
    getLE64 (digits 8 v.toNat ++ rest) = v := by
  apply UInt64.toNat_inj.1
  rw [getLE64_toNat, List.take_left' (length_digits 8 _), value_digits]
  exact v.toNat_lt

theorem digits_getLE32 {p : Bytes} (h : 4 ≤ p.length) : digits 4 (getLE32 p).toNat = p.take 4 := by
  have hl : (p.take 4).length = 4 := by simpa using h
  rw [getLE32_toNat]
  simpa only [hl] using digits_value (p.take 4)

theorem digits_getLE64 {p : Bytes} (h : 8 ≤ p.length) : digits 8 (getLE64 p).toNat = p.take 8 := by
  have hl : (p.take 8).length = 8 := by simpa using h
  rw [getLE64_toNat]
  simpa only [hl] using digits_value (p.take 8)

end LiteSpeedStore
