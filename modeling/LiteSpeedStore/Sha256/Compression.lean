import LiteSpeedStore.Sha256
import LiteSpeedStore.Theory.Fips180

/-!
# The compression of a block

`SHA256::transform` computes the compression function of the standard.

* `SHA256.roundConstants_getD`, `SHA256.hashValue_reset` : the tables of the source hold the roots
  of primes that the standard prescribes.
* `SHA256.round_toHash` : a round is a step.
* `SHA256.schedule_getD` : the loops of the source fill in the message schedule.
* `SHA256.transform_state` : the whole block.
-/

namespace LiteSpeedStore

namespace SHA256

open BigEndian Fips180

/-- The working variables as a hash value. -/
def Working.toHash (v : Working) : Hash :=
  ⟨v.a.toBitVec, v.b.toBitVec, v.c.toBitVec, v.d.toBitVec, v.e.toBitVec, v.f.toBitVec,
    v.g.toBitVec, v.h.toBitVec⟩

/-- The working variables start with the state words. -/
def working (s : Vector UInt32 8) : Working := ⟨s[0], s[1], s[2], s[3], s[4], s[5], s[6], s[7]⟩

/-- The hash value in the state words. -/
def hashValue (s : Vector UInt32 8) : Hash := (working s).toHash

theorem getD_eq_getElem? {α : Type*} {n : ℕ} (w : Vector α n) (i : ℕ) (d : α) :
    w.getD i d = w[i]?.getD d := by
  rw [Vector.getD, Array.getD_eq_getD_getElem?, Vector.getElem?_toArray]

theorem getD_toList {α : Type*} {n : ℕ} (w : Vector α n) (i : ℕ) (d : α) :
    w.toList.getD i d = w.getD i d := by
  rw [getD_eq_getElem?, List.getD_eq_getElem?_getD, Vector.getElem?_toList]

/-! ### Constants -/

theorem roundConstants_eq :
    roundConstants.toList.map UInt32.toBitVec = primes.map (rootBits 3) := by
  rw [primes_eq]
  decide +kernel

theorem roundConstants_getD (t : ℕ) : (roundConstants.getD t 0).toBitVec = K t := by
  have hzero : rootBits 3 0 = UInt32.toBitVec 0 := by decide
  rw [K, ← List.getD_map (f := rootBits 3), ← roundConstants_eq, hzero, List.getD_map, getD_toList]

theorem hashValue_reset : hashValue reset.state = H0 := by decide +kernel

/-! ### Rounds -/

/-- The two shifts of `rotr` make a rotation. -/
theorem rotr_toBitVec (x n : UInt32) (h0 : 0 < n.toNat) (h : n.toNat < 32) :
    (rotr x n).toBitVec = x.toBitVec.rotateRight n.toNat := by
  have hleft : (32 - n).toNat % 32 = 32 - n.toNat := by
    rw [UInt32.toNat_sub_of_le _ _ (UInt32.le_iff_toNat_le.2 h.le)]
    exact Nat.mod_eq_of_lt (by change 32 - n.toNat < 32; omega)
  rw [rotr, BitVec.rotateRight_def, Nat.mod_eq_of_lt h, ← hleft]
  nth_rewrite 1 [← Nat.mod_eq_of_lt h]
  rfl

theorem bigSigma0_toBitVec (x : UInt32) :
    (rotr x 2 ^^^ rotr x 13 ^^^ rotr x 22).toBitVec = bigSigma0 x.toBitVec := by
  rw [UInt32.toBitVec_xor, UInt32.toBitVec_xor, rotr_toBitVec x 2 (by decide) (by decide),
    rotr_toBitVec x 13 (by decide) (by decide), rotr_toBitVec x 22 (by decide) (by decide)]
  rfl

theorem bigSigma1_toBitVec (x : UInt32) :
    (rotr x 6 ^^^ rotr x 11 ^^^ rotr x 25).toBitVec = bigSigma1 x.toBitVec := by
  rw [UInt32.toBitVec_xor, UInt32.toBitVec_xor, rotr_toBitVec x 6 (by decide) (by decide),
    rotr_toBitVec x 11 (by decide) (by decide), rotr_toBitVec x 25 (by decide) (by decide)]
  rfl

theorem smallSigma0_toBitVec (x : UInt32) :
    (rotr x 7 ^^^ rotr x 18 ^^^ (x >>> 3)).toBitVec = smallSigma0 x.toBitVec := by
  rw [UInt32.toBitVec_xor, UInt32.toBitVec_xor, rotr_toBitVec x 7 (by decide) (by decide),
    rotr_toBitVec x 18 (by decide) (by decide)]
  rfl

theorem smallSigma1_toBitVec (x : UInt32) :
    (rotr x 17 ^^^ rotr x 19 ^^^ (x >>> 10)).toBitVec = smallSigma1 x.toBitVec := by
  rw [UInt32.toBitVec_xor, UInt32.toBitVec_xor, rotr_toBitVec x 17 (by decide) (by decide),
    rotr_toBitVec x 19 (by decide) (by decide)]
  rfl

/-- A round is a step of the standard. -/
theorem round_toHash (v : Working) (k w : UInt32) :
    (round v k w).toHash = step v.toHash k.toBitVec w.toBitVec := by
  simp only [round, Working.toHash, step, UInt32.toBitVec_add, bigSigma0_toBitVec,
    bigSigma1_toBitVec]
  rfl

/-! ### The schedule -/

/-- A loop that fills a vector: what every entry gets from those before it, all of them have. -/
theorem getD_foldl_setIfInBounds {α : Type*} {n : ℕ} {f : Vector α n → ℕ → α} {P : ℕ → α → Prop}
    {d : α} {s k : ℕ} (hn : s + k ≤ n) {w : Vector α n} (hw : ∀ j < s, P j (w.getD j d))
    (hf : ∀ w i, s ≤ i → i < s + k → (∀ j < i, P j (w.getD j d)) → P i (f w i)) :
    ∀ j < s + k,
      P j (((List.range' s k).foldl (fun w i => w.setIfInBounds i (f w i)) w).getD j d) := by
  induction k with
  | zero => exact hw
  | succ k ih =>
    intro j hj
    have ih := ih (by omega) fun w i hs hi => hf w i hs (by omega)
    rw [List.range'_concat, Nat.one_mul, List.foldl_append, List.foldl_cons, List.foldl_nil,
      getD_eq_getElem?, Vector.getElem?_setIfInBounds]
    by_cases hjk : s + k = j
    · rw [if_pos hjk, if_pos (by omega), Option.getD_some, ← hjk]
      exact hf _ _ (by omega) (by omega) ih
    · rw [if_neg hjk, ← getD_eq_getElem?]
      exact ih j (by omega)

/-- Word `i` of a block. -/
def blockWord (p : Vector UInt8 64) (i : ℕ) : UInt32 :=
  (p.getD (i * 4) 0).toUInt32 <<< 24 ||| (p.getD (i * 4 + 1) 0).toUInt32 <<< 16
    ||| (p.getD (i * 4 + 2) 0).toUInt32 <<< 8 ||| (p.getD (i * 4 + 3) 0).toUInt32

/-- Entry `i` of the schedule, from those before it. -/
def nextWord (w : Vector UInt32 64) (i : ℕ) : UInt32 :=
  let s0 := rotr (w.getD (i - 15) 0) 7 ^^^ rotr (w.getD (i - 15) 0) 18 ^^^ (w.getD (i - 15) 0 >>> 3)
  let s1 := rotr (w.getD (i - 2) 0) 17 ^^^ rotr (w.getD (i - 2) 0) 19 ^^^ (w.getD (i - 2) 0 >>> 10)
  w.getD (i - 16) 0 + s0 + w.getD (i - 7) 0 + s1

theorem schedule_eq (p : Vector UInt8 64) :
    schedule p = (List.range' 16 48).foldl (fun w i => w.setIfInBounds i (nextWord w i))
      ((List.range' 0 16).foldl (fun w i => w.setIfInBounds i (blockWord p i))
        (Vector.replicate 64 0)) := by
  rw [← List.range_eq_range']
  rfl

theorem toNat_shiftLeft_of_le (b : UInt8) {k : UInt32} (h : k.toNat ≤ 24) :
    (b.toUInt32 <<< k).toNat = b.toNat * 2 ^ k.toNat := by
  have hlt : b.toNat * 2 ^ k.toNat < 2 ^ 8 * 2 ^ 24 :=
    Nat.mul_lt_mul_of_lt_of_le b.toNat_lt (Nat.pow_le_pow_right (by norm_num) h) (by positivity)
  have hk : k.toNat % 32 = k.toNat := Nat.mod_eq_of_lt (by omega)
  rw [UInt32.toNat_shiftLeft, UInt8.toNat_toUInt32, hk, Nat.shiftLeft_eq]
  exact Nat.mod_eq_of_lt hlt

/-- Four bytes shifted into their places are the number that they write. -/
theorem shifted_bytes (a b c d : UInt8) :
    (a.toUInt32 <<< 24 ||| b.toUInt32 <<< 16 ||| c.toUInt32 <<< 8 ||| d.toUInt32).toNat =
      ofBits (bits [a, b, c, d]) := by
  have ha := a.toNat_lt
  have hb := b.toNat_lt
  have hc := c.toNat_lt
  have hd := d.toNat_lt
  have hor : ∀ (k : ℕ) {n m : ℕ}, n % 2 ^ k = 0 → m < 2 ^ k → n ||| m = n + m := by
    intro k n m hn hm
    rw [← Nat.div_add_mod' n (2 ^ k), hn, Nat.add_zero, ← Nat.shiftLeft_eq,
      Nat.shiftLeft_add_eq_or_of_lt hm]
  have hab := hor 24 (n := a.toNat * 2 ^ 24) (m := b.toNat * 2 ^ 16) (by omega) (by omega)
  have habc := hor 16 (n := a.toNat * 2 ^ 24 + b.toNat * 2 ^ 16) (m := c.toNat * 2 ^ 8) (by omega)
    (by omega)
  have habcd := hor 8 (n := a.toNat * 2 ^ 24 + b.toNat * 2 ^ 16 + c.toNat * 2 ^ 8) (m := d.toNat)
    (by omega) (by omega)
  rw [UInt32.toNat_or, UInt32.toNat_or, UInt32.toNat_or, toNat_shiftLeft_of_le a (by decide),
    toNat_shiftLeft_of_le b (by decide), toNat_shiftLeft_of_le c (by decide), UInt8.toNat_toUInt32]
  change a.toNat * 2 ^ 24 ||| b.toNat * 2 ^ 16 ||| c.toNat * 2 ^ 8 ||| d.toNat = _
  rw [hab, habc, habcd]
  simp only [ofBits_bits_cons, List.length_cons, List.length_nil, bits_nil, ofBits_nil]
  ring

theorem take_four_drop {l : List UInt8} {i : ℕ} (h : i + 4 ≤ l.length) :
    (l.drop i).take 4 = [l.getD i 0, l.getD (i + 1) 0, l.getD (i + 2) 0, l.getD (i + 3) 0] := by
  rw [List.drop_eq_getElem_cons (by omega), List.drop_eq_getElem_cons (by omega),
    List.drop_eq_getElem_cons (by omega), List.drop_eq_getElem_cons (by omega)]
  simp only [List.take_succ_cons, List.take_zero]
  rw [List.getD_eq_getElem, List.getD_eq_getElem, List.getD_eq_getElem, List.getD_eq_getElem]

/-- The words that the first loop reads are those of the block. -/
theorem blockWord_toBitVec (p : Vector UInt8 64) {i : ℕ} (h : i < 16) :
    (blockWord p i).toBitVec = (words (bits p.toList)).getD i 0 := by
  have hlen : p.toList.length = 64 := Vector.length_toList ..
  have hpiece : (chunks 4 p.toList).getD i [] = [p.getD (i * 4) 0, p.getD (i * 4 + 1) 0,
      p.getD (i * 4 + 2) 0, p.getD (i * 4 + 3) 0] := by
    rw [getD_chunks (by omega) (by norm_num), Nat.mul_comm, take_four_drop (by omega)]
    simp only [getD_toList]
  have hword : (words (bits p.toList)).getD i 0 =
      BitVec.ofNat 32 (ofBits (bits ((chunks 4 p.toList).getD i []))) := by
    rw [words, chunks_bits 4, List.map_map]
    exact List.getD_map (f := fun b => BitVec.ofNat 32 (ofBits (bits b))) (chunks 4 p.toList) []
  rw [hword, hpiece, ← shifted_bytes]
  apply BitVec.eq_of_toNat_eq
  rw [BitVec.toNat_ofNat]
  exact (Nat.mod_eq_of_lt (UInt32.toNat_lt _)).symm

/-- The second loop follows the recurrence. -/
theorem nextWord_toBitVec {M : List Word} {w : Vector UInt32 64} {i : ℕ}
    (hw : ∀ j < i + 16, (w.getD j 0).toBitVec = W M j) :
    (nextWord w (i + 16)).toBitVec = W M (i + 16) := by
  have h15 : i + 16 - 15 = i + 1 := by omega
  have h2 : i + 16 - 2 = i + 14 := by omega
  have h7 : i + 16 - 7 = i + 9 := by omega
  rw [nextWord, W_add, h15, h2, h7, Nat.add_sub_cancel, UInt32.toBitVec_add, UInt32.toBitVec_add,
    UInt32.toBitVec_add, smallSigma0_toBitVec, smallSigma1_toBitVec, hw _ (by omega),
    hw _ (by omega), hw _ (by omega), hw _ (by omega)]
  ac_rfl

theorem schedule_getD (p : Vector UInt8 64) {t : ℕ} (h : t < 64) :
    ((schedule p).getD t 0).toBitVec = W (words (bits p.toList)) t := by
  let P : ℕ → UInt32 → Prop := fun j x => x.toBitVec = W (words (bits p.toList)) j
  have hblock : ∀ (w : Vector UInt32 64) i, 0 ≤ i → i < 0 + 16 → (∀ j < i, P j (w.getD j 0)) →
      P i (blockWord p i) := by
    intro _ i _ hi _
    change (blockWord p i).toBitVec = W (words (bits p.toList)) i
    rw [blockWord_toBitVec p (by omega), W_of_lt _ (by omega)]
  have hnext : ∀ (w : Vector UInt32 64) i, 16 ≤ i → i < 16 + 48 → (∀ j < i, P j (w.getD j 0)) →
      P i (nextWord w i) := by
    intro w i hi _ hw
    obtain ⟨i, rfl⟩ := Nat.exists_eq_add_of_le' hi
    exact nextWord_toBitVec hw
  have hfirst := getD_foldl_setIfInBounds (P := P) (s := 0) (k := 16) (by norm_num)
    (w := Vector.replicate 64 0) (by omega) hblock
  have hall := getD_foldl_setIfInBounds (P := P) (s := 16) (k := 48) le_rfl hfirst hnext
  rw [schedule_eq]
  exact hall t h

/-! ### The block -/

/-- The rounds, as long as they find the schedule in `w`. -/
theorem rounds_toHash {w : Vector UInt32 64} {M : List Word}
    (hw : ∀ t < 64, (w.getD t 0).toBitVec = W M t) (v : Working) {n : ℕ} (hn : n ≤ 64) :
    ((List.range n).foldl (fun v i => round v (roundConstants.getD i 0) (w.getD i 0)) v).toHash =
      (List.range n).foldl (fun v t => step v (K t) (W M t)) v.toHash := by
  induction n with
  | zero => rfl
  | succ n ih =>
    rw [List.range_succ, List.foldl_append, List.foldl_append, List.foldl_cons, List.foldl_cons,
      List.foldl_nil, List.foldl_nil, round_toHash, ih (by omega), roundConstants_getD, hw n hn]

/-- **`transform` is the compression function.** -/
theorem transform_state (ctx : SHA256) :
    hashValue ctx.transform.state = compress (hashValue ctx.state) (bits ctx.buffer.toList) := by
  have hrounds := rounds_toHash (fun t => schedule_getD ctx.buffer) (working ctx.state) le_rfl
  change _ = compress (working ctx.state).toHash _
  rw [compress, ← hrounds]
  rfl

end SHA256

end LiteSpeedStore
