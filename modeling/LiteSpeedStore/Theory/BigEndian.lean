import Mathlib.Data.Nat.Bitwise
import Mathlib.Tactic.Ring

/-!
# Big-endian bit strings

Numbers and byte strings as bit strings, the most significant bit first.

* `BigEndian.toBits n v` : the low `n` bits of `v`; `BigEndian.ofBits l` : the number they write.
* `BigEndian.bits bs` : the bits of a byte string; `BigEndian.bytes n v` : the low `n` bytes of `v`.
* `BigEndian.chunks n l` : the whole pieces of `n` elements that `l` starts with.
* `ofBits_toBits`, `bits_bytes`, `chunks_bits` : how they fit together.
-/

namespace LiteSpeedStore

namespace BigEndian

/-- The low `n` bits of `v`. -/
def toBits : ℕ → ℕ → List Bool
  | 0, _ => []
  | n + 1, v => v.testBit n :: toBits n v

/-- The number that a bit string writes. -/
def ofBits (l : List Bool) : ℕ := l.foldl (fun n b => 2 * n + b.toNat) 0

/-- The bits of a byte string. -/
def bits (bs : List UInt8) : List Bool := bs.flatMap fun b => toBits 8 b.toNat

/-- The low `n` bytes of `v`. -/
def bytes : ℕ → ℕ → List UInt8
  | 0, _ => []
  | n + 1, v => UInt8.ofNat (v / 256 ^ n) :: bytes n v

/-- The whole pieces of length `n`; what is left over is dropped. -/
def chunks {α : Type*} (n : ℕ) (l : List α) : List (List α) :=
  (List.range (l.length / n)).map fun i => (l.drop (n * i)).take n

/-! ### Numbers -/

@[simp] theorem length_toBits (n v : ℕ) : (toBits n v).length = n := by
  induction n with
  | zero => rfl
  | succ n ih => rw [toBits, List.length_cons, ih]

/-- Only the low bits count. -/
theorem toBits_mod {n k : ℕ} (h : n ≤ k) (v : ℕ) : toBits n (v % 2 ^ k) = toBits n v := by
  induction n with
  | zero => rfl
  | succ n ih =>
    rw [toBits, ih (by omega), Nat.testBit_mod_two_pow, decide_eq_true (by omega), Bool.true_and]
    rfl

theorem toBits_add (m n v : ℕ) : toBits (m + n) v = toBits m (v / 2 ^ n) ++ toBits n v := by
  induction m with
  | zero => rw [Nat.zero_add]; rfl
  | succ m ih =>
    rw [Nat.succ_add, toBits, ih, toBits, Nat.testBit_div_two_pow]
    rfl

theorem toBits_zero (n : ℕ) : toBits n 0 = List.replicate n false := by
  induction n with
  | zero => rfl
  | succ n ih => rw [toBits, ih, Nat.zero_testBit, List.replicate_succ]

@[simp] theorem ofBits_nil : ofBits [] = 0 := rfl

theorem ofBits_append (a b : List Bool) : ofBits (a ++ b) = ofBits a * 2 ^ b.length + ofBits b := by
  have h : ∀ (l : List Bool) (n : ℕ),
      l.foldl (fun n b => 2 * n + b.toNat) n = n * 2 ^ l.length + ofBits l := by
    intro l
    induction l with
    | nil => intro n; simp
    | cons c l ih =>
      intro n
      have hcons : ofBits (c :: l) = (2 * 0 + c.toNat) * 2 ^ l.length + ofBits l := ih _
      rw [List.foldl_cons, ih, hcons, List.length_cons, pow_succ]
      ring
  rw [ofBits, List.foldl_append, h]
  rfl

theorem ofBits_toBits (n v : ℕ) : ofBits (toBits n v) = v % 2 ^ n := by
  induction n with
  | zero => rw [pow_zero, Nat.mod_one]; rfl
  | succ n ih =>
    have hbit : (v.testBit n).toNat = v / 2 ^ n % 2 := Nat.toNat_testBit v n
    have hone : ofBits [v.testBit n] = (v.testBit n).toNat := by simp [ofBits]
    rw [toBits, ← List.singleton_append, ofBits_append, ih, length_toBits, hone, hbit, pow_succ,
      Nat.mod_mul]
    ring

/-! ### Byte strings -/

@[simp] theorem bits_nil : bits [] = [] := rfl

theorem bits_cons (b : UInt8) (bs : List UInt8) : bits (b :: bs) = toBits 8 b.toNat ++ bits bs :=
  rfl

theorem bits_append (as bs : List UInt8) : bits (as ++ bs) = bits as ++ bits bs :=
  List.flatMap_append

@[simp] theorem length_bits (bs : List UInt8) : (bits bs).length = 8 * bs.length := by
  induction bs with
  | nil => rfl
  | cons b bs ih =>
    rw [bits_cons, List.length_append, length_toBits, ih, List.length_cons]
    ring

theorem drop_bits (n : ℕ) (bs : List UInt8) : (bits bs).drop (8 * n) = bits (bs.drop n) := by
  induction n generalizing bs with
  | zero => rfl
  | succ n ih =>
    cases bs with
    | nil => simp
    | cons b bs =>
      rw [bits_cons, Nat.mul_succ, Nat.add_comm, ← List.drop_drop,
        List.drop_left' (length_toBits ..), ih, List.drop_succ_cons]

theorem take_bits (n : ℕ) (bs : List UInt8) : (bits bs).take (8 * n) = bits (bs.take n) := by
  induction n generalizing bs with
  | zero => rfl
  | succ n ih =>
    cases bs with
    | nil => simp
    | cons b bs =>
      have h8 : 8 * n.succ = (toBits 8 b.toNat).length + 8 * n := by
        rw [length_toBits]; omega
      rw [bits_cons, h8, List.take_length_add_append, ih, List.take_succ_cons, bits_cons]

theorem bits_replicate_zero (n : ℕ) : bits (List.replicate n 0) = List.replicate (8 * n) false := by
  induction n with
  | zero => rfl
  | succ n ih =>
    rw [List.replicate_succ, bits_cons, ih, UInt8.toNat_zero, toBits_zero,
      List.replicate_append_replicate, Nat.mul_succ, Nat.add_comm]

theorem bits_bytes (n v : ℕ) : bits (bytes n v) = toBits (8 * n) v := by
  induction n with
  | zero => rfl
  | succ n ih =>
    rw [bytes, bits_cons, ih, Nat.mul_succ, Nat.add_comm, toBits_add, UInt8.toNat_ofNat',
      toBits_mod (by omega), pow_mul]
    norm_num

theorem ofBits_bits_cons (b : UInt8) (bs : List UInt8) :
    ofBits (bits (b :: bs)) = b.toNat * 256 ^ bs.length + ofBits (bits bs) := by
  rw [bits_cons, ofBits_append, ofBits_toBits, length_bits, pow_mul, Nat.mod_eq_of_lt b.toNat_lt]
  norm_num

/-! ### Pieces -/

section

variable {α : Type*} {n : ℕ}

@[simp] theorem chunks_nil : chunks n ([] : List α) = [] := by
  rw [chunks, List.length_nil, Nat.zero_div, List.range_zero, List.map_nil]

theorem chunks_append (hn : 0 < n) {b : List α} (hb : b.length = n) (l : List α) :
    chunks n (b ++ l) = b :: chunks n l := by
  have hlen : (b ++ l).length / n = l.length / n + 1 := by
    rw [List.length_append, hb, Nat.add_div_left _ hn]
  have hrest : ∀ i, (b ++ l).drop (n * (i + 1)) = l.drop (n * i) := by
    intro i
    rw [Nat.mul_succ, Nat.add_comm, ← List.drop_drop, List.drop_left' hb]
  rw [chunks, hlen, List.range_succ_eq_map, List.map_cons, List.map_map, Nat.mul_zero,
    List.drop_zero, List.take_left' hb, chunks]
  congr 1
  apply List.map_congr_left
  intro i _
  rw [Function.comp_apply, Nat.succ_eq_add_one, hrest]

/-- Pieces of the right length are found again. -/
theorem chunks_flatten (hn : 0 < n) {ls : List (List α)} (h : ∀ b ∈ ls, b.length = n) :
    chunks n ls.flatten = ls := by
  induction ls with
  | nil => exact chunks_nil
  | cons b ls ih =>
    rw [List.flatten_cons, chunks_append hn (h b List.mem_cons_self),
      ih fun c hc => h c (List.mem_cons_of_mem b hc)]

theorem getD_chunks {l : List α} {i : ℕ} (h : n * (i + 1) ≤ l.length) (hn : 0 < n) (d : List α) :
    (chunks n l).getD i d = (l.drop (n * i)).take n := by
  have hi : i < l.length / n := (Nat.le_div_iff_mul_le hn).2 (by rw [Nat.mul_comm]; exact h)
  rw [List.getD_eq_getElem _ _ (by simpa [chunks] using hi)]
  simp [chunks]

end

/-- The pieces of the bits are the bits of the pieces. -/
theorem chunks_bits (n : ℕ) (bs : List UInt8) :
    chunks (8 * n) (bits bs) = (chunks n bs).map bits := by
  rw [chunks, length_bits, Nat.mul_div_mul_left _ _ (by norm_num), chunks, List.map_map]
  apply List.map_congr_left
  intro i _
  rw [Nat.mul_assoc, drop_bits, take_bits, Function.comp_apply]

end BigEndian

end LiteSpeedStore
