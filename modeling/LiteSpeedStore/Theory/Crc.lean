import LiteSpeedStore.Theory.LittleEndian
import Mathlib.Logic.Function.Iterate
import Mathlib.Tactic.NormNum

/-!
# Reflected cyclic redundancy checks

The register of a reflected CRC of width `w` shifts right, one bit at a time, and exclusive-ors
the polynomial in whenever a one leaves it (`Crc.bitStep`).  A message is fed a byte at a time
(`Crc.feed`).  Bit by bit, the polynomial is exclusive-ored in whenever the bit that leaves the
register differs from the bit of the message that enters it (`Crc.consume`).

* `bitStep_xor` : a shift is linear; `bitStep_injective` : it is injective when the polynomial has
  its top bit set, so the register can be run backwards.
* `byteStep_table` : eight shifts are one table lookup and a shift by eight.
* `feed_eq_consume` : feeding bytes is consuming their bits, the least significant first.
* `feed_eq_bitSteps` : feeding at most `w` bits is shifting their exclusive or with the register.
* `feed_burst` : two messages that differ only inside a window of at most `w` bits have different
  registers, whatever follows the window.
-/

namespace LiteSpeedStore

namespace Crc

open LittleEndian

variable {w : ℕ} (poly : BitVec w)

/-- One shift of the register. -/
def bitStep (c : BitVec w) : BitVec w :=
  if c.getLsbD 0 then poly ^^^ (c >>> 1) else c >>> 1

/-- `n` shifts of the register. -/
def bitSteps (n : ℕ) (c : BitVec w) : BitVec w := (bitStep poly)^[n] c

/-- A byte joins the low end of the register, which is then shifted eight times. -/
def byteStep (c : BitVec w) (b : UInt8) : BitVec w :=
  bitSteps poly 8 (c ^^^ BitVec.ofNat w b.toNat)

/-- The register after a message. -/
def feed (c : BitVec w) (bs : List UInt8) : BitVec w := bs.foldl (byteStep poly) c

/-- One bit of a message: the polynomial joins when the bit that leaves differs from it. -/
def consume (c : BitVec w) (bit : Bool) : BitVec w :=
  if c.getLsbD 0 != bit then poly ^^^ (c >>> 1) else c >>> 1

/-- The bits of a byte, the least significant first. -/
def byteBits (b : UInt8) : List Bool := (List.range 8).map b.toNat.testBit

/-- The bits of a message, in the order in which the register consumes them. -/
def bits (bs : List UInt8) : List Bool := bs.flatMap byteBits

variable {poly}

@[simp] theorem feed_nil (c : BitVec w) : feed poly c [] = c := rfl

@[simp] theorem feed_cons (c : BitVec w) (b : UInt8) (bs : List UInt8) :
    feed poly c (b :: bs) = feed poly (byteStep poly c b) bs := rfl

theorem feed_append (c : BitVec w) (as bs : List UInt8) :
    feed poly c (as ++ bs) = feed poly (feed poly c as) bs := List.foldl_append

theorem bitSteps_add (m n : ℕ) (c : BitVec w) :
    bitSteps poly (m + n) c = bitSteps poly m (bitSteps poly n c) :=
  Function.iterate_add_apply _ m n c

/-! ### Linearity and injectivity -/

theorem bitStep_xor (a b : BitVec w) :
    bitStep poly (a ^^^ b) = bitStep poly a ^^^ bitStep poly b := by
  unfold bitStep
  rw [BitVec.getLsbD_xor, BitVec.ushiftRight_xor_distrib]
  cases a.getLsbD 0 <;> cases b.getLsbD 0 <;>
    simp only [Bool.false_bne, Bool.true_bne, bne_self_eq_false, Bool.not_false,
      Bool.false_eq_true, if_true, if_false]
  · rw [← BitVec.xor_assoc, ← BitVec.xor_assoc, BitVec.xor_comm poly]
  · rw [BitVec.xor_assoc]
  · rw [BitVec.xor_comm poly (b >>> 1), BitVec.xor_assoc poly, ← BitVec.xor_assoc (a >>> 1),
      ← BitVec.xor_assoc, BitVec.xor_comm poly, BitVec.xor_assoc _ poly poly, BitVec.xor_self,
      BitVec.xor_zero]

theorem bitSteps_xor (n : ℕ) (a b : BitVec w) :
    bitSteps poly n (a ^^^ b) = bitSteps poly n a ^^^ bitSteps poly n b := by
  induction n generalizing a b with
  | zero => rfl
  | succ n ih =>
    have hs : ∀ c, bitSteps poly (n + 1) c = bitSteps poly n (bitStep poly c) := fun _ => rfl
    rw [hs, hs, hs, bitStep_xor, ih]

/-- A register shifted to zero was zero: the top bit of the polynomial shows that a one left. -/
theorem eq_zero_of_bitStep (hp : poly.msb = true) {c : BitVec w} (h : bitStep poly c = 0#w) :
    c = 0#w := by
  have hshift : (c >>> 1).msb = false := by
    rw [BitVec.msb_ushiftRight]; rfl
  cases hc : c.getLsbD 0 with
  | true =>
    have hm : (bitStep poly c).msb = true := by
      simp only [bitStep, hc, if_true, BitVec.msb_xor, hp, hshift, Bool.bne_false]
    rw [h] at hm
    simp at hm
  | false =>
    simp only [bitStep, hc, Bool.false_eq_true, if_false] at h
    apply BitVec.eq_of_getLsbD_eq
    intro i _
    rw [BitVec.getLsbD_zero]
    cases i with
    | zero => exact hc
    | succ i =>
      have hi := congrArg (fun v => v.getLsbD i) h
      simpa [BitVec.getLsbD_ushiftRight, Nat.add_comm] using hi

theorem bitStep_injective (hp : poly.msb = true) : Function.Injective (bitStep poly) := by
  intro a b h
  have hz : bitStep poly (a ^^^ b) = 0#w := by rw [bitStep_xor, h, BitVec.xor_self]
  exact BitVec.xor_eq_zero_iff.1 (eq_zero_of_bitStep hp hz)

theorem bitSteps_injective (hp : poly.msb = true) (n : ℕ) :
    Function.Injective (bitSteps poly n) :=
  (bitStep_injective hp).iterate n

theorem byteStep_injective (hp : poly.msb = true) (b : UInt8) :
    Function.Injective fun c => byteStep poly c b := by
  intro c d h
  exact (BitVec.xor_left_inj _).1 (bitSteps_injective hp 8 h)

/-- The register after a message determines the register before it. -/
theorem feed_injective (hp : poly.msb = true) (bs : List UInt8) :
    Function.Injective fun c => feed poly c bs := by
  induction bs with
  | nil => exact fun _ _ h => h
  | cons b bs ih => exact fun c d h => byteStep_injective hp b (ih h)

/-! ### Shifting out zeros -/

/-- A register whose low bits are zero is only moved down by as many shifts. -/
theorem bitSteps_of_low_zero {n : ℕ} {c : BitVec w} (h : ∀ i < n, c.getLsbD i = false) :
    bitSteps poly n c = c >>> n := by
  induction n generalizing c with
  | zero => exact (BitVec.ushiftRight_zero c).symm
  | succ n ih =>
    have hs : bitSteps poly (n + 1) c = bitSteps poly n (bitStep poly c) := rfl
    have h0 : bitStep poly c = c >>> 1 := by
      simp only [bitStep, h 0 n.succ_pos, Bool.false_eq_true, if_false]
    rw [hs, h0, ih, Nat.add_comm, BitVec.shiftRight_add]
    intro i hi
    rw [BitVec.getLsbD_ushiftRight]
    exact h (1 + i) (by omega)

theorem low_add_high (c : BitVec w) (m : BitVec w) : (c &&& m) ^^^ (c &&& ~~~m) = c := by
  apply BitVec.eq_of_getLsbD_eq
  intro i hi
  simp only [BitVec.getLsbD_xor, BitVec.getLsbD_and, BitVec.getLsbD_not, hi, decide_true,
    Bool.true_and]
  cases c.getLsbD i <;> cases m.getLsbD i <;> rfl

/-- The mask of the low byte. -/
theorem getLsbD_byteMask {i : ℕ} (hi : i < w) : (BitVec.ofNat w 255).getLsbD i = decide (i < 8) := by
  rw [BitVec.getLsbD_ofNat, show (255 : ℕ) = 2 ^ 8 - 1 from rfl, Nat.testBit_two_pow_sub_one]
  simp [hi]

/-- Eight shifts look only at the low byte; the rest moves down. -/
theorem bitSteps_eight (c : BitVec w) :
    bitSteps poly 8 c = bitSteps poly 8 (c &&& BitVec.ofNat w 255) ^^^ (c >>> 8) := by
  have hlow : ∀ i < 8, (c &&& ~~~BitVec.ofNat w 255).getLsbD i = false := by
    intro i hi
    rw [BitVec.getLsbD_and, BitVec.getLsbD_not]
    by_cases hw : i < w
    · simp [getLsbD_byteMask hw, hi]
    · simp [hw]
  have hhigh : (c &&& ~~~BitVec.ofNat w 255) >>> 8 = c >>> 8 := by
    apply BitVec.eq_of_getLsbD_eq
    intro i _
    rw [BitVec.getLsbD_ushiftRight, BitVec.getLsbD_ushiftRight, BitVec.getLsbD_and,
      BitVec.getLsbD_not]
    by_cases hw : 8 + i < w
    · rw [getLsbD_byteMask hw]
      simp [hw]
    · simp [BitVec.getLsbD_of_ge c (8 + i) (by omega)]
  conv_lhs => rw [← low_add_high c (BitVec.ofNat w 255)]
  rw [bitSteps_xor, bitSteps_of_low_zero hlow, hhigh]

theorem ofNat_byte_shiftRight (b : UInt8) : BitVec.ofNat w b.toNat >>> 8 = 0#w := by
  apply BitVec.eq_of_getLsbD_eq
  intro i _
  have hb : b.toNat.testBit (8 + i) = false := Nat.testBit_lt_two_pow
    (lt_of_lt_of_le b.toNat_lt (Nat.pow_le_pow_right (by norm_num) (Nat.le_add_right 8 i)))
  rw [BitVec.getLsbD_ushiftRight, BitVec.getLsbD_ofNat, hb, Bool.and_false, BitVec.getLsbD_zero]

/-- **A byte at a time.**  With the eight shifts of every byte in a table, a byte costs one lookup
and one shift. -/
theorem byteStep_table (c : BitVec w) (b : UInt8) :
    byteStep poly c b =
      bitSteps poly 8 ((c ^^^ BitVec.ofNat w b.toNat) &&& BitVec.ofNat w 255) ^^^ (c >>> 8) := by
  rw [byteStep, bitSteps_eight, BitVec.ushiftRight_xor_distrib, ofNat_byte_shiftRight,
    BitVec.xor_zero]

/-! ### Bit by bit -/

/-- A bit enters the register by being added to its low end before the shift. -/
theorem bitStep_xor_word (c v : BitVec w) :
    bitStep poly (c ^^^ v) = consume poly c (v.getLsbD 0) ^^^ (v >>> 1) := by
  unfold bitStep consume
  rw [BitVec.getLsbD_xor, BitVec.ushiftRight_xor_distrib]
  cases c.getLsbD 0 <;> cases v.getLsbD 0 <;> simp [BitVec.xor_assoc]

/-- Bits added all at once are consumed one after the other; those not yet reached move down. -/
theorem bitSteps_xor_word (n : ℕ) (c v : BitVec w) :
    bitSteps poly n (c ^^^ v) =
      ((List.range n).map v.getLsbD).foldl (consume poly) c ^^^ (v >>> n) := by
  induction n with
  | zero => simp [bitSteps]
  | succ n ih =>
    have hs : ∀ c, bitSteps poly (n + 1) c = bitStep poly (bitSteps poly n c) := fun c =>
      Function.iterate_succ_apply' _ n c
    have hbit : (v >>> n).getLsbD 0 = v.getLsbD n := by
      rw [BitVec.getLsbD_ushiftRight, Nat.add_zero]
    rw [hs, ih, bitStep_xor_word, hbit, ← BitVec.shiftRight_add, List.range_succ, List.map_append,
      List.foldl_append]
    rfl

theorem byteStep_eq_consume (hw : 8 ≤ w) (c : BitVec w) (b : UInt8) :
    byteStep poly c b = (byteBits b).foldl (consume poly) c := by
  have hbits : (List.range 8).map (BitVec.ofNat w b.toNat).getLsbD = byteBits b := by
    apply List.map_congr_left
    intro i hi
    have hi : i < w := lt_of_lt_of_le (List.mem_range.1 hi) hw
    rw [BitVec.getLsbD_ofNat, decide_eq_true hi, Bool.true_and]
  rw [byteStep, bitSteps_xor_word, hbits, ofNat_byte_shiftRight, BitVec.xor_zero]

/-- **A bit at a time.**  The register after a message is the one that consumed its bits. -/
theorem feed_eq_consume (hw : 8 ≤ w) (c : BitVec w) (bs : List UInt8) :
    feed poly c bs = (bits bs).foldl (consume poly) c := by
  induction bs generalizing c with
  | nil => rfl
  | cons b bs ih =>
    rw [feed_cons, ih, byteStep_eq_consume hw, bits, bits, List.flatMap_cons, List.foldl_append]

/-! ### Short messages -/

theorem ofNat_xor_shiftLeft {b v : ℕ} (hb : b < 256) :
    BitVec.ofNat w b ^^^ BitVec.ofNat w (v * 256) = BitVec.ofNat w (b + 256 * v) := by
  have hor : b ^^^ v * 256 = b + 256 * v := by
    apply Nat.eq_of_testBit_eq
    intro i
    rw [Nat.add_comm, show 256 * v = 2 ^ 8 * v from rfl, Nat.testBit_two_pow_mul_add _ hb,
      Nat.testBit_xor, show v * 256 = v * 2 ^ 8 from rfl, Nat.testBit_mul_two_pow]
    split_ifs with hi
    · simp [Nat.not_le.2 hi]
    · have hz : b.testBit i = false := Nat.testBit_lt_two_pow (lt_of_lt_of_le hb
        (Nat.pow_le_pow_right (show 0 < 2 by omega) (Nat.le_of_not_lt hi)))
      simp [hz, Nat.le_of_not_lt hi]
  rw [← BitVec.ofNat_xor, hor]

/-- A word moved up by a byte is moved back down by eight shifts. -/
theorem bitSteps_shiftLeft {v : ℕ} (hv : v * 256 < 2 ^ w) :
    bitSteps poly 8 (BitVec.ofNat w (v * 256)) = BitVec.ofNat w v := by
  rw [bitSteps_of_low_zero]
  · apply BitVec.eq_of_toNat_eq
    rw [BitVec.toNat_ushiftRight, BitVec.toNat_ofNat, BitVec.toNat_ofNat, Nat.mod_eq_of_lt hv,
      Nat.mod_eq_of_lt (by omega), Nat.shiftRight_eq_div_pow]
    exact Nat.mul_div_left v (by norm_num)
  · intro i hi
    rw [BitVec.getLsbD_ofNat, show v * 256 = v * 2 ^ 8 from rfl, Nat.testBit_mul_two_pow]
    simp [Nat.not_le.2 hi]

/-- Feeding no more than `w` bits shifts their exclusive or with the register. -/
theorem feed_eq_bitSteps (c : BitVec w) (bs : List UInt8) (h : 8 * bs.length ≤ w) :
    feed poly c bs = bitSteps poly (8 * bs.length) (c ^^^ BitVec.ofNat w (value bs)) := by
  induction bs generalizing c with
  | nil => simp [bitSteps]
  | cons b bs ih =>
    rw [List.length_cons] at h
    have hv : value bs * 256 < 2 ^ w := by
      have h1 := value_lt bs
      have h2 : (2 : ℕ) ^ (8 * bs.length + 8) ≤ 2 ^ w :=
        Nat.pow_le_pow_right (by norm_num) (by omega)
      rw [pow_add, pow_mul] at h2
      norm_num at h2 h1 ⊢
      omega
    have hshift : bitSteps poly 8 (BitVec.ofNat w (value bs * 256)) = BitVec.ofNat w (value bs) :=
      bitSteps_shiftLeft hv
    rw [feed_cons, ih _ (by omega), byteStep, ← hshift,
      ← bitSteps_xor, ← bitSteps_add, BitVec.xor_assoc, ofNat_xor_shiftLeft b.toNat_lt, value_cons,
      List.length_cons, Nat.mul_add]

/-- **Bursts are detected.**  Two messages that differ only in a window of at most `w` bits leave
different registers, whatever precedes and follows the window. -/
theorem feed_burst (hp : poly.msb = true) {c : BitVec w} {pre as bs post : List UInt8}
    (hlen : as.length = bs.length) (hw : 8 * as.length ≤ w)
    (h : feed poly c (pre ++ as ++ post) = feed poly c (pre ++ bs ++ post)) : as = bs := by
  rw [feed_append, feed_append _ (pre ++ bs)] at h
  have hmid := feed_injective hp post h
  simp only [feed_append] at hmid
  rw [feed_eq_bitSteps _ as hw, feed_eq_bitSteps _ bs (by omega), hlen] at hmid
  have hword := (BitVec.xor_right_inj _).1 (bitSteps_injective hp _ hmid)
  have hbound : ∀ xs : List UInt8, 8 * xs.length ≤ w → value xs < 2 ^ w := fun xs hx =>
    lt_of_lt_of_le (value_lt xs) (by
      rw [show (256 : ℕ) = 2 ^ 8 from rfl, ← pow_mul]
      exact Nat.pow_le_pow_right (by norm_num) hx)
  have hval := congrArg BitVec.toNat hword
  rw [BitVec.toNat_ofNat, BitVec.toNat_ofNat, Nat.mod_eq_of_lt (hbound as hw),
    Nat.mod_eq_of_lt (hbound bs (by omega))] at hval
  rw [← digits_value as, ← digits_value bs, hlen, hval]

end Crc

end LiteSpeedStore
