import LiteSpeedStore.Theory.BigEndian
import Mathlib.Data.Nat.NthRoot.Defs
import Mathlib.Data.Nat.Prime.Basic

/-!
# SHA-256

The hash of FIPS 180-4 on bit strings, a whole message at a time: the message is padded to blocks
of 512 bits, and each block is compressed into the hash value.

* `Fips180.compress` : 64 steps with the schedule `Fips180.W` and the constants `Fips180.K`.
* `Fips180.pad` : a one, the fewest zeros that leave room for the length, and the length.
* `Fips180.sha256` : the digest.
* `Fips180.primes_eq` : the primes behind the constants, by trial division.
-/

namespace LiteSpeedStore

namespace Fips180

open BigEndian

/-- The words of the computation, added modulo `2 ^ 32`. -/
abbrev Word := BitVec 32

/-! ### Functions on words -/

/-- The bits of `y` where `x` has ones, those of `z` elsewhere. -/
def Ch (x y z : Word) : Word := (x &&& y) ^^^ (~~~x &&& z)

/-- The majority of the bits. -/
def Maj (x y z : Word) : Word := (x &&& y) ^^^ (x &&& z) ^^^ (y &&& z)

def bigSigma0 (x : Word) : Word := x.rotateRight 2 ^^^ x.rotateRight 13 ^^^ x.rotateRight 22

def bigSigma1 (x : Word) : Word := x.rotateRight 6 ^^^ x.rotateRight 11 ^^^ x.rotateRight 25

def smallSigma0 (x : Word) : Word := x.rotateRight 7 ^^^ x.rotateRight 18 ^^^ (x >>> 3)

def smallSigma1 (x : Word) : Word := x.rotateRight 17 ^^^ x.rotateRight 19 ^^^ (x >>> 10)

/-! ### Constants -/

/-- The first 64 primes. -/
def primes : List ℕ := (List.range 312).filter Nat.Prime

/-- The first 32 bits of the fractional part of the `n`th root of `p`. -/
def rootBits (n p : ℕ) : Word := BitVec.ofNat 32 (Nat.nthRoot n (p * 2 ^ (32 * n)))

/-- The constant of step `t`. -/
def K (t : ℕ) : Word := rootBits 3 (primes.getD t 0)

/-- A hash value, and the working variables of the compression. -/
structure Hash where
  (a b c d e f g h : Word)
  deriving DecidableEq

/-- The words of a hash value. -/
def Hash.toList (H : Hash) : List Word := [H.a, H.b, H.c, H.d, H.e, H.f, H.g, H.h]

/-- The initial hash value. -/
def H0 : Hash :=
  ⟨rootBits 2 2, rootBits 2 3, rootBits 2 5, rootBits 2 7, rootBits 2 11, rootBits 2 13,
    rootBits 2 17, rootBits 2 19⟩

/-! ### Compression -/

/-- The message schedule of a block with the words `M`. -/
def W (M : List Word) : ℕ → Word
  | t + 16 => smallSigma1 (W M (t + 14)) + W M (t + 9) + smallSigma0 (W M (t + 1)) + W M t
  | t => M.getD t 0

/-- One step of the compression. -/
def step (v : Hash) (k w : Word) : Hash :=
  let t1 := v.h + bigSigma1 v.e + Ch v.e v.f v.g + k + w
  let t2 := bigSigma0 v.a + Maj v.a v.b v.c
  ⟨t1 + t2, v.a, v.b, v.c, v.d + t1, v.e, v.f, v.g⟩

/-- The words of a block. -/
def words (block : List Bool) : List Word :=
  (chunks 32 block).map fun l => BitVec.ofNat 32 (ofBits l)

/-- Compresses a block into the hash value. -/
def compress (H : Hash) (block : List Bool) : Hash :=
  let v := (List.range 64).foldl (fun v t => step v (K t) (W (words block) t)) H
  ⟨H.a + v.a, H.b + v.b, H.c + v.c, H.d + v.d, H.e + v.e, H.f + v.f, H.g + v.g, H.h + v.h⟩

/-! ### Padding -/

theorem exists_zeros (l : ℕ) : ∃ k, (l + 1 + k) % 512 = 448 := ⟨447 + 511 * l, by omega⟩

/-- The zeros in the padding of a message of `l` bits. -/
def zeros (l : ℕ) : ℕ := Nat.find (exists_zeros l)

/-- The padded message. -/
def pad (m : List Bool) : List Bool :=
  m ++ true :: (List.replicate (zeros m.length) false ++ toBits 64 m.length)

/-- The digest of a message. -/
def sha256 (m : List Bool) : List Bool :=
  ((chunks 512 (pad m)).foldl compress H0).toList.flatMap fun w => toBits 32 w.toNat

theorem zeros_eq {l k : ℕ} (hk : k < 512) (h : (l + 1 + k) % 512 = 448) : zeros l = k := by
  have hle : zeros l ≤ k := Nat.find_min' (exists_zeros l) h
  have hspec : (l + 1 + zeros l) % 512 = 448 := Nat.find_spec (exists_zeros l)
  omega

theorem W_add (M : List Word) (t : ℕ) :
    W M (t + 16) =
      smallSigma1 (W M (t + 14)) + W M (t + 9) + smallSigma0 (W M (t + 1)) + W M t := rfl

theorem W_of_lt (M : List Word) {t : ℕ} (h : t < 16) : W M t = M.getD t 0 := by
  unfold W
  split
  · omega
  · rfl

/-- A number below 324 is prime when no number from 2 to 17 divides it properly. -/
theorem prime_iff {p : ℕ} (hp : p < 324) :
    p.Prime ↔ 2 ≤ p ∧ ∀ d ∈ List.range' 2 16, d ∣ p → d = p := by
  constructor
  · intro h
    refine ⟨h.two_le, fun d hd hdvd => ?_⟩
    have h2 : 2 ≤ d := (List.mem_range'_1.1 hd).1
    exact (h.eq_one_or_self_of_dvd d hdvd).resolve_left (by omega)
  · rintro ⟨h2, h⟩
    rw [Nat.prime_def_le_sqrt]
    refine ⟨h2, fun d hd hle hdvd => ?_⟩
    have hlt : d < 18 := lt_of_le_of_lt hle (Nat.sqrt_lt.2 (by omega))
    have heq : d = p := h d (List.mem_range'_1.2 ⟨hd, by omega⟩) hdvd
    have hself : p.sqrt < p := Nat.sqrt_lt_self h2
    omega

theorem primes_eq :
    primes = [2, 3, 5, 7, 11, 13, 17, 19, 23, 29, 31, 37, 41, 43, 47, 53, 59, 61, 67, 71, 73, 79,
      83, 89, 97, 101, 103, 107, 109, 113, 127, 131, 137, 139, 149, 151, 157, 163, 167, 173, 179,
      181, 191, 193, 197, 199, 211, 223, 227, 229, 233, 239, 241, 251, 257, 263, 269, 271, 277, 281,
      283, 293, 307, 311] := by
  have htrial : primes = (List.range 312).filter fun p =>
      2 ≤ p ∧ ∀ d ∈ List.range' 2 16, d ∣ p → d = p := by
    apply List.filter_congr
    intro p hp
    rw [decide_eq_decide]
    exact prime_iff (lt_of_lt_of_le (List.mem_range.1 hp) (by decide))
  rw [htrial]
  decide +kernel

end Fips180

end LiteSpeedStore
