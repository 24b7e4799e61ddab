import LiteSpeedStore.Endian
import Mathlib.Data.Vector.Defs

/-!
# The hash of the log chain

`SHA256.hpp`: the streaming SHA-256 that links every log entry to the one before it.  The context
keeps the state words, a block buffer with its fill, and the number of bits already hashed, and
`update` and `digest` follow the source byte by byte.

`SHA256.update_append` says that feeding two pieces is feeding their concatenation.  Nothing else
about SHA-256 is used by the proofs about the log.  `Sha256.Streaming` shows that the digest is the
one of the standard.
-/

namespace LiteSpeedStore

/-- A 32-byte SHA-256 digest. -/
abbrev Sha256Digest := Vector UInt8 32

/-- The hashing context. -/
structure SHA256 where
  /-- The eight state words. -/
  state : Vector UInt32 8
  /-- The block being filled. -/
  buffer : Vector UInt8 64
  /-- Bytes in the block. -/
  bufLen : ℕ
  /-- Bits in the blocks already hashed. -/
  bitLen : UInt64

namespace SHA256

/-- The round constants. -/
def roundConstants : Vector UInt32 64 := #v[
  0x428a2f98, 0x71374491, 0xb5c0fbcf, 0xe9b5dba5, 0x3956c25b, 0x59f111f1, 0x923f82a4, 0xab1c5ed5,
  0xd807aa98, 0x12835b01, 0x243185be, 0x550c7dc3, 0x72be5d74, 0x80deb1fe, 0x9bdc06a7, 0xc19bf174,
  0xe49b69c1, 0xefbe4786, 0x0fc19dc6, 0x240ca1cc, 0x2de92c6f, 0x4a7484aa, 0x5cb0a9dc, 0x76f988da,
  0x983e5152, 0xa831c66d, 0xb00327c8, 0xbf597fc7, 0xc6e00bf3, 0xd5a79147, 0x06ca6351, 0x14292967,
  0x27b70a85, 0x2e1b2138, 0x4d2c6dfc, 0x53380d13, 0x650a7354, 0x766a0abb, 0x81c2c92e, 0x92722c85,
  0xa2bfe8a1, 0xa81a664b, 0xc24b8b70, 0xc76c51a3, 0xd192e819, 0xd6990624, 0xf40e3585, 0x106aa070,
  0x19a4c116, 0x1e376c08, 0x2748774c, 0x34b0bcb5, 0x391c0cb3, 0x4ed8aa4a, 0x5b9cca4f, 0x682e6ff3,
  0x748f82ee, 0x78a5636f, 0x84c87814, 0x8cc70208, 0x90befffa, 0xa4506ceb, 0xbef9a3f7, 0xc67178f2]

/-- Rotation to the right. -/
def rotr (x n : UInt32) : UInt32 := (x >>> n) ||| (x <<< (32 - n))

/-- A fresh context. -/
def reset : SHA256 where
  state := #v[0x6a09e667, 0xbb67ae85, 0x3c6ef372, 0xa54ff53a,
    0x510e527f, 0x9b05688c, 0x1f83d9ab, 0x5be0cd19]
  buffer := Vector.replicate 64 0
  bufLen := 0
  bitLen := 0

/-- The message schedule of the block `p`. -/
def schedule (p : Vector UInt8 64) : Vector UInt32 64 :=
  let w := (List.range 16).foldl (fun (w : Vector UInt32 64) i =>
    w.setIfInBounds i ((p.getD (i * 4) 0).toUInt32 <<< 24 ||| (p.getD (i * 4 + 1) 0).toUInt32 <<< 16
      ||| (p.getD (i * 4 + 2) 0).toUInt32 <<< 8 ||| (p.getD (i * 4 + 3) 0).toUInt32))
    (Vector.replicate 64 0)
  (List.range' 16 48).foldl (fun w i =>
    let s0 := rotr (w.getD (i - 15) 0) 7 ^^^ rotr (w.getD (i - 15) 0) 18 ^^^ (w.getD (i - 15) 0 >>> 3)
    let s1 := rotr (w.getD (i - 2) 0) 17 ^^^ rotr (w.getD (i - 2) 0) 19 ^^^ (w.getD (i - 2) 0 >>> 10)
    w.setIfInBounds i (w.getD (i - 16) 0 + s0 + w.getD (i - 7) 0 + s1)) w

/-- The working variables of the compression. -/
structure Working where
  (a b c d e f g h : UInt32)

/-- One round of the compression, with round constant `k` and schedule word `w`. -/
def round (v : Working) (k w : UInt32) : Working :=
  let s1 := rotr v.e 6 ^^^ rotr v.e 11 ^^^ rotr v.e 25
  let ch := (v.e &&& v.f) ^^^ (~~~v.e &&& v.g)
  let t1 := v.h + s1 + ch + k + w
  let s0 := rotr v.a 2 ^^^ rotr v.a 13 ^^^ rotr v.a 22
  let maj := (v.a &&& v.b) ^^^ (v.a &&& v.c) ^^^ (v.b &&& v.c)
  let t2 := s0 + maj
  ⟨t1 + t2, v.a, v.b, v.c, v.d + t1, v.e, v.f, v.g⟩

/-- Hashes the block in the buffer into the state. -/
def transform (ctx : SHA256) : SHA256 :=
  let w := schedule ctx.buffer
  let s := ctx.state
  let v := (List.range 64).foldl (fun v i => round v (roundConstants.getD i 0) (w.getD i 0))
    ⟨s.get 0, s.get 1, s.get 2, s.get 3, s.get 4, s.get 5, s.get 6, s.get 7⟩
  { ctx with state := #v[s.get 0 + v.a, s.get 1 + v.b, s.get 2 + v.c, s.get 3 + v.d,
      s.get 4 + v.e, s.get 5 + v.f, s.get 6 + v.g, s.get 7 + v.h] }

/-- `m_buffer[m_bufLen++] = b`. -/
def put (ctx : SHA256) (b : UInt8) : SHA256 :=
  { ctx with buffer := ctx.buffer.setIfInBounds ctx.bufLen b, bufLen := ctx.bufLen + 1 }

/-- One byte of `update`. -/
def updateByte (ctx : SHA256) (b : UInt8) : SHA256 :=
  let ctx := ctx.put b
  if ctx.bufLen = 64 then
    { ctx.transform with bitLen := ctx.bitLen + 512, bufLen := 0 }
  else ctx

/-- Feeds `data` into the running hash. -/
def update (ctx : SHA256) (data : Bytes) : SHA256 := data.foldl updateByte ctx

/-- Fills the buffer with zeros up to `n` bytes. -/
def padTo (ctx : SHA256) (n : ℕ) : SHA256 :=
  (List.range (n - ctx.bufLen)).foldl (fun ctx _ => ctx.put 0) ctx

/-- Finalizes and returns the digest. -/
def digest (ctx : SHA256) : Sha256Digest :=
  let totalBits := ctx.bitLen + UInt64.ofNat ctx.bufLen * 8
  let ctx := ctx.put 0x80
  let ctx := if ctx.bufLen > 56 then { (ctx.padTo 64).transform with bufLen := 0 } else ctx
  let ctx := ctx.padTo 56
  let ctx := [7, 6, 5, 4, 3, 2, 1, 0].foldl (fun (ctx : SHA256) i =>
    ctx.put (totalBits >>> UInt64.ofNat (i * 8)).toUInt8) ctx
  let s := ctx.transform.state
  Vector.ofFn fun i =>
    let word := s.getD (i.val / 4) 0
    (word >>> UInt32.ofNat (24 - 8 * (i.val % 4))).toUInt8

/-- The hash of one buffer. -/
def hash (data : Bytes) : Sha256Digest := (reset.update data).digest

example : hash "abc".toUTF8.toList = #v[
    0xba, 0x78, 0x16, 0xbf, 0x8f, 0x01, 0xcf, 0xea, 0x41, 0x41, 0x40, 0xde, 0x5d, 0xae, 0x22, 0x23,
    0xb0, 0x03, 0x61, 0xa3, 0x96, 0x17, 0x7a, 0x9c, 0xb4, 0x10, 0xff, 0x61, 0xf2, 0x00, 0x15,
    0xad] := by
  decide +kernel

theorem update_append (ctx : SHA256) (as bs : Bytes) :
    (ctx.update as).update bs = ctx.update (as ++ bs) := List.foldl_append.symm

end SHA256

end LiteSpeedStore
