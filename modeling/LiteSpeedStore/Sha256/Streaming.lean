import LiteSpeedStore.Sha256.Compression
import Mathlib.Data.List.OfFn

/-!
# The streaming hash

A context that was fed some bytes has compressed the whole blocks among them and holds the rest in
its buffer.  `digest` completes the padding of the standard, in one block more or in two.

* `SHA256.Streamed.update` : what `update` keeps, for any bytes.
* `SHA256.Streamed.bits_digest` : the digest of what was fed is its SHA-256.
* `SHA256.update?_eq`, `SHA256.digest?_eq` : with every write to the buffer checked, none is refused.
* `SHA256.digest_streaming` : all of it for any chunks.
-/

namespace LiteSpeedStore

namespace SHA256

open BigEndian Fips180

/-- The context holds the hash value `H` of the blocks so far and the bytes `rest` behind them. -/
structure Holds (ctx : SHA256) (H : Hash) (rest : Bytes) : Prop where
  state : hashValue ctx.state = H
  bufLen : ctx.bufLen = rest.length
  le : rest.length ≤ 64
  buffer : ctx.buffer.toList.take rest.length = rest

variable {ctx : SHA256} {H : Hash} {rest : Bytes}

theorem Holds.put (h : Holds ctx H rest) (hlt : rest.length < 64) (b : UInt8) :
    Holds (ctx.put b) H (rest ++ [b]) where
  state := h.state
  bufLen := by rw [List.length_append, ← h.bufLen]; rfl
  le := by rw [List.length_append]; exact hlt
  buffer := by
    have hlen : rest.length < ctx.buffer.toList.length := by rw [Vector.length_toList]; exact hlt
    have htake : (ctx.buffer.toList.take rest.length ++ [b]).length = rest.length + 1 := by
      rw [h.buffer, List.length_append]; rfl
    rw [SHA256.put, Vector.toList_setIfInBounds, h.bufLen, List.set_eq_take_append_cons_drop,
      if_pos hlen, List.length_append, List.length_singleton, List.append_cons, ← htake,
      List.take_left, h.buffer]

theorem Holds.puts (h : Holds ctx H rest) {l : Bytes} (hle : rest.length + l.length ≤ 64) :
    Holds (l.foldl SHA256.put ctx) H (rest ++ l) := by
  induction l generalizing ctx rest with
  | nil => rw [List.append_nil]; exact h
  | cons b l ih =>
    rw [List.length_cons] at hle
    have hput := h.put (by omega) b
    rw [List.append_cons]
    exact ih hput (by rw [List.length_append, List.length_singleton]; omega)

/-- A full block is compressed, and the buffer starts again. -/
theorem Holds.transform (h : Holds ctx H rest) (hfull : rest.length = 64) (bitLen : UInt64) :
    Holds { ctx.transform with bitLen := bitLen, bufLen := 0 } (compress H (bits rest)) [] where
  state := by
    have hbuf : ctx.buffer.toList = rest := by
      rw [← h.buffer, hfull, List.take_of_length_le (by rw [Vector.length_toList])]
    rw [← h.state, ← hbuf]
    exact transform_state ctx
  bufLen := rfl
  le := by simp
  buffer := rfl

/-! ### Feeding -/

/-- The hash value of whole blocks. -/
def hashBlocks (blocks : List Bytes) : Hash := (blocks.map bits).foldl compress H0

theorem hashBlocks_append (as bs : List Bytes) :
    hashBlocks (as ++ bs) = (bs.map bits).foldl compress (hashBlocks as) := by
  rw [hashBlocks, List.map_append, List.foldl_append, hashBlocks]

theorem hashBlocks_concat (blocks : List Bytes) (b : Bytes) :
    hashBlocks (blocks ++ [b]) = compress (hashBlocks blocks) (bits b) :=
  hashBlocks_append blocks [b]

/-- The context was fed whole blocks and the bytes `rest` of the next. -/
structure Streamed (ctx : SHA256) (blocks : List Bytes) (rest : Bytes) : Prop where
  holds : Holds ctx (hashBlocks blocks) rest
  full : ∀ b ∈ blocks, b.length = 64
  lt : rest.length < 64
  bitLen : ctx.bitLen = UInt64.ofNat (512 * blocks.length)

theorem streamed_reset : Streamed reset [] [] where
  holds := ⟨hashValue_reset, rfl, by simp, rfl⟩
  full := by simp
  lt := by simp
  bitLen := rfl

variable {blocks : List Bytes}

theorem full_concat (h : ∀ b ∈ blocks, b.length = 64) {last : Bytes} (hlast : last.length = 64) :
    ∀ b ∈ blocks ++ [last], b.length = 64 :=
  List.forall_mem_append.2 ⟨h, List.forall_mem_singleton.2 hlast⟩

theorem Streamed.updateByte (h : Streamed ctx blocks rest) (b : UInt8) :
    ∃ blocks' rest', blocks'.flatten ++ rest' = blocks.flatten ++ rest ++ [b] ∧
      Streamed (ctx.updateByte b) blocks' rest' := by
  have hput := h.holds.put h.lt b
  have hlen : (rest ++ [b]).length = rest.length + 1 := List.length_append
  by_cases hfull : (ctx.put b).bufLen = 64
  · -- the byte completes a block
    rw [SHA256.updateByte, if_pos hfull]
    rw [hput.bufLen] at hfull
    refine ⟨blocks ++ [rest ++ [b]], [], by simp, ?_, full_concat h.full hfull, by simp, ?_⟩
    · rw [hashBlocks_concat]
      exact hput.transform hfull _
    · change ctx.bitLen + 512 = _
      rw [h.bitLen, List.length_append, List.length_singleton, Nat.mul_succ, UInt64.ofNat_add]
      rfl
  · rw [SHA256.updateByte, if_neg hfull]
    refine ⟨blocks, rest ++ [b], by simp, hput, h.full, ?_, h.bitLen⟩
    have hle := hput.le
    rw [hput.bufLen] at hfull
    omega

/-- Whatever is fed, the context holds what is left over of the whole blocks. -/
theorem Streamed.update (h : Streamed ctx blocks rest) (data : Bytes) :
    ∃ blocks' rest', blocks'.flatten ++ rest' = blocks.flatten ++ rest ++ data ∧
      Streamed (ctx.update data) blocks' rest' := by
  induction data generalizing ctx blocks rest with
  | nil => exact ⟨blocks, rest, by simp, h⟩
  | cons b data ih =>
    obtain ⟨blocks', rest', hcat, h'⟩ := h.updateByte b
    obtain ⟨blocks'', rest'', hcat', h''⟩ := ih h'
    refine ⟨blocks'', rest'', ?_, h''⟩
    rw [hcat', hcat, ← List.append_cons]

/-! ### Finishing -/

/-- The digest in the state words. -/
def output (s : Vector UInt32 8) : Sha256Digest :=
  Vector.ofFn fun i =>
    let word := s.getD (i.val / 4) 0
    (word >>> UInt32.ofNat (24 - 8 * (i.val % 4))).toUInt8

/-- The padding in bytes: the marker, zeros, and the length, of which only 64 bits are written. -/
theorem bits_padded (d : Bytes) {n : ℕ} (hn : n = 8 * d.length % 2 ^ 64) :
    bits (d ++ 0x80 :: (List.replicate ((119 - d.length % 64) % 64) 0 ++ bytes 8 n)) =
      pad (bits d) := by
  have hzeros : zeros (8 * d.length) = 7 + 8 * ((119 - d.length % 64) % 64) :=
    zeros_eq (by omega) (by omega)
  have hone : toBits 8 (0x80 : UInt8).toNat = true :: List.replicate 7 false := by decide
  rw [Fips180.pad, length_bits, bits_append, bits_cons, bits_append, bits_replicate_zero,
    bits_bytes, hone, hzeros, ← List.replicate_append_replicate, List.cons_append,
    List.append_assoc, hn, toBits_mod (by norm_num)]

theorem padTo_eq (ctx : SHA256) (n : ℕ) :
    ctx.padTo n = (List.replicate (n - ctx.bufLen) 0).foldl SHA256.put ctx := by
  have h : ∀ (k : ℕ) (c : SHA256), (List.range k).foldl (fun c _ => c.put 0) c =
      (List.replicate k 0).foldl SHA256.put c := by
    intro k
    induction k with
    | zero => intro c; rfl
    | succ k ih =>
      intro c
      rw [List.range_succ, List.foldl_append, ih, List.replicate_succ', List.foldl_append]
      rfl
  exact h _ ctx

theorem length_append_zeros {l : Bytes} {n : ℕ} (h : l.length ≤ n) :
    (l ++ List.replicate (n - l.length) 0).length = n := by
  rw [List.length_append, List.length_replicate]
  omega

theorem Holds.padTo (h : Holds ctx H rest) {n : ℕ} (hle : rest.length ≤ n) (hn : n ≤ 64) :
    Holds (ctx.padTo n) H (rest ++ List.replicate (n - rest.length) 0) := by
  rw [padTo_eq, h.bufLen]
  exact h.puts (by rw [List.length_replicate]; omega)

theorem lengthByte_eq (n : UInt64) {i : ℕ} (h : i < 8) :
    (n >>> UInt64.ofNat (i * 8)).toUInt8 = UInt8.ofNat (n.toNat / 256 ^ i) := by
  have hi : (UInt64.ofNat (i * 8)).toNat % 64 = i * 8 := by
    rw [UInt64.toNat_ofNat']
    omega
  apply UInt8.toNat_inj.1
  rw [UInt64.toNat_toUInt8, UInt64.toNat_shiftRight, hi, Nat.shiftRight_eq_div_pow, Nat.mul_comm,
    pow_mul, UInt8.toNat_ofNat']
  rfl

theorem lengthBytes_eq (n : UInt64) (ctx : SHA256) :
    [7, 6, 5, 4, 3, 2, 1, 0].foldl (fun (ctx : SHA256) i =>
      ctx.put (n >>> UInt64.ofNat (i * 8)).toUInt8) ctx =
      (bytes 8 n.toNat).foldl SHA256.put ctx := by
  have hbytes : bytes 8 n.toNat = [7, 6, 5, 4, 3, 2, 1, 0].map fun i =>
      (n >>> UInt64.ofNat (i * 8)).toUInt8 := by
    have hmap : bytes 8 n.toNat = [7, 6, 5, 4, 3, 2, 1, 0].map fun i =>
        UInt8.ofNat (n.toNat / 256 ^ i) := rfl
    rw [hmap]
    apply List.map_congr_left
    intro i hi
    have hlt : i < 8 := by
      simp only [List.mem_cons, List.not_mem_nil, or_false] at hi
      omega
    rw [lengthByte_eq n hlt]
  rw [hbytes, List.foldl_map]

theorem wordByte_eq (w : UInt32) {j : ℕ} (h : j < 4) :
    (w >>> UInt32.ofNat (24 - 8 * j)).toUInt8 = UInt8.ofNat (w.toNat / 256 ^ (3 - j)) := by
  have hj : (UInt32.ofNat (24 - 8 * j)).toNat % 32 = 8 * (3 - j) := by
    rw [UInt32.toNat_ofNat']
    omega
  apply UInt8.toNat_inj.1
  rw [UInt32.toNat_toUInt8, UInt32.toNat_shiftRight, hj, Nat.shiftRight_eq_div_pow, pow_mul,
    UInt8.toNat_ofNat']
  rfl

theorem toList_eq_ofFn (s : Vector UInt32 8) :
    s.toList = List.ofFn fun i : Fin 8 => s.getD i 0 := by
  apply List.ext_getElem (by simp)
  intro i _ _
  rw [List.getElem_ofFn, ← getD_toList, List.getD_eq_getElem]

/-- The digest writes the state words one after the other. -/
theorem toList_output (s : Vector UInt32 8) :
    (output s).toList = s.toList.flatMap fun w => bytes 4 w.toNat := by
  have hword : ∀ w : UInt32, (List.ofFn fun j : Fin 4 =>
      (w >>> UInt32.ofNat (24 - 8 * j.val)).toUInt8) = bytes 4 w.toNat := by
    intro w
    simp only [wordByte_eq w (Fin.isLt _)]
    rfl
  have hindex : ∀ (i : Fin 8) (j : Fin 4),
      (i.val * 4 + j.val) / 4 = i.val ∧ (i.val * 4 + j.val) % 4 = j.val := by
    omega
  rw [output, Vector.toList_ofFn, List.ofFn_mul (m := 8) (n := 4), toList_eq_ofFn, List.flatMap,
    List.map_ofFn]
  congr 2
  funext i
  simp only [(hindex i _).1, (hindex i _).2, hword]
  rfl

theorem toList_hashValue (s : Vector UInt32 8) :
    (hashValue s).toList = s.toList.map UInt32.toBitVec := by
  have hget : ∀ i : Fin 8, s.getD i 0 = s.get i := by
    intro i
    rw [← getD_toList, List.getD_eq_getElem _ _ (by simp)]
    rfl
  rw [toList_eq_ofFn, List.map_ofFn]
  simp only [Function.comp_def, hget]
  rfl

theorem bits_output (s : Vector UInt32 8) :
    bits (output s).toList = (hashValue s).toList.flatMap fun w => toBits 32 w.toNat := by
  rw [toList_output, bits, List.flatMap_assoc, toList_hashValue, List.flatMap_map]
  exact congrArg (List.flatMap · s.toList) (funext fun w => bits_bytes 4 w.toNat)

/-! ### The digest -/

/-- A block without room for the length is completed with zeros and compressed. -/
def makeRoom (ctx : SHA256) : SHA256 :=
  if ctx.bufLen > 56 then { (ctx.padTo 64).transform with bufLen := 0 } else ctx

theorem digest_eq (ctx : SHA256) :
    ctx.digest = output
      ((bytes 8 (ctx.bitLen + UInt64.ofNat ctx.bufLen * 8).toNat).foldl SHA256.put
        ((ctx.put 0x80).makeRoom.padTo 56)).transform.state := by
  rw [← lengthBytes_eq]
  rfl

/-- The marker and the zeros that follow it fill the buffer up to the place of the length, in this
block or in the next. -/
theorem Holds.pad (h : Holds ctx H rest) (hlt : rest.length < 64) :
    ∃ (blocks : List Bytes) (rest' : Bytes),
      blocks.flatten ++ rest' = rest ++ 0x80 :: List.replicate ((119 - rest.length) % 64) 0 ∧
      (∀ b ∈ blocks, b.length = 64) ∧ rest'.length = 56 ∧
      Holds ((ctx.put 0x80).makeRoom.padTo 56) ((blocks.map bits).foldl compress H) rest' := by
  have hmark := h.put hlt 0x80
  have hlen : (rest ++ [(0x80 : UInt8)]).length = rest.length + 1 := List.length_append
  by_cases hroom : (ctx.put 0x80).bufLen > 56
  · -- the length goes into a block of its own
    rw [makeRoom, if_pos hroom]
    rw [hmark.bufLen, hlen] at hroom
    have hle : (rest ++ [(0x80 : UInt8)]).length ≤ 64 := by omega
    have hfull := hmark.padTo hle le_rfl
    have hempty := hfull.transform (length_append_zeros hle)
      ((ctx.put 0x80).padTo 64).transform.bitLen
    have hnext := hempty.padTo (n := 56) (by simp) (by norm_num)
    have hz : (119 - rest.length) % 64 = 64 - (rest.length + 1) + 56 := by omega
    refine ⟨[rest ++ [0x80] ++ List.replicate (64 - (rest ++ [(0x80 : UInt8)]).length) 0],
      List.replicate 56 0, ?_, ?_, List.length_replicate, ?_⟩
    · rw [hlen, hz, ← List.replicate_append_replicate]
      simp
    · intro b hb
      rw [List.mem_singleton.1 hb]
      exact length_append_zeros hle
    · rw [List.map_singleton, List.foldl_cons, List.foldl_nil]
      exact hnext
  · rw [makeRoom, if_neg hroom]
    rw [hmark.bufLen, hlen] at hroom
    have hz : 56 - (rest.length + 1) = (119 - rest.length) % 64 := by omega
    have hle : (rest ++ [(0x80 : UInt8)]).length ≤ 56 := by omega
    refine ⟨[], rest ++ [0x80] ++ List.replicate (56 - (rest ++ [(0x80 : UInt8)]).length) 0, ?_,
      by simp, length_append_zeros hle, hmark.padTo hle (by norm_num)⟩
    rw [hlen, hz]
    simp

theorem length_flatten_full {blocks : List Bytes} (h : ∀ b ∈ blocks, b.length = 64) :
    blocks.flatten.length = 64 * blocks.length := by
  induction blocks with
  | nil => rfl
  | cons b blocks ih =>
    have hb : b.length = 64 := h b List.mem_cons_self
    rw [List.flatten_cons, List.length_append, hb, ih fun c hc => h c (List.mem_cons_of_mem b hc),
      List.length_cons, Nat.mul_succ, Nat.add_comm]

/-- The counter and the fill of the buffer make the length of what was fed. -/
theorem Streamed.totalBits (h : Streamed ctx blocks rest) :
    (ctx.bitLen + UInt64.ofNat ctx.bufLen * 8).toNat =
      8 * (blocks.flatten ++ rest).length % 2 ^ 64 := by
  have hlen := length_flatten_full h.full
  rw [h.bitLen, h.holds.bufLen, UInt64.toNat_add, UInt64.toNat_mul, UInt64.toNat_ofNat',
    UInt64.toNat_ofNat', List.length_append, hlen]
  change (512 * blocks.length % 2 ^ 64 + rest.length % 2 ^ 64 * 8 % 2 ^ 64) % 2 ^ 64 = _
  omega

/-- **The digest of what was fed is its SHA-256.** -/
theorem Streamed.bits_digest (h : Streamed ctx blocks rest) :
    bits ctx.digest.toList = sha256 (bits (blocks.flatten ++ rest)) := by
  obtain ⟨more, rest', hcat, hmore, hlen, hpad⟩ := h.holds.pad h.lt
  have hfill : (blocks.flatten ++ rest).length % 64 = rest.length := by
    have hblocks := length_flatten_full h.full
    have hlt := h.lt
    rw [List.length_append, hblocks]
    omega
  let tail := bytes 8 (ctx.bitLen + UInt64.ofNat ctx.bufLen * 8).toNat
  have hlast : (rest' ++ tail).length = 64 := by rw [List.length_append, hlen]; rfl
  have hall := full_concat (List.forall_mem_append.2 ⟨h.full, hmore⟩) hlast
  have hflatten : (blocks ++ more ++ [rest' ++ tail]).flatten = blocks.flatten ++ rest ++
      0x80 :: (List.replicate ((119 - rest.length) % 64) 0 ++ tail) := by
    calc (blocks ++ more ++ [rest' ++ tail]).flatten
        = blocks.flatten ++ (more.flatten ++ rest') ++ tail := by simp
      _ = blocks.flatten ++ rest ++
          0x80 :: (List.replicate ((119 - rest.length) % 64) 0 ++ tail) := by rw [hcat]; simp
  have hpadded : pad (bits (blocks.flatten ++ rest)) =
      bits (blocks ++ more ++ [rest' ++ tail]).flatten := by
    rw [hflatten, ← bits_padded _ h.totalBits, hfill]
  have hfinal : hashValue (tail.foldl SHA256.put
      ((ctx.put 0x80).makeRoom.padTo 56)).transform.state =
      hashBlocks (blocks ++ more ++ [rest' ++ tail]) := by
    have hput := hpad.puts (l := tail) (by rw [← List.length_append, hlast])
    rw [hashBlocks_concat, hashBlocks_append]
    exact (hput.transform hlast 0).state
  rw [digest_eq, bits_output, sha256, hpadded, chunks_bits 64, chunks_flatten (by norm_num) hall,
    hfinal]
  rfl

/-! ### Chunks -/

theorem foldl_update (ctx : SHA256) (chunks : List Bytes) :
    chunks.foldl SHA256.update ctx = ctx.update chunks.flatten := by
  induction chunks generalizing ctx with
  | nil => rfl
  | cons c chunks ih => rw [List.foldl_cons, ih, update_append, List.flatten_cons]

theorem streamed_chunks (chunks : List Bytes) :
    ∃ blocks rest, blocks.flatten ++ rest = chunks.flatten ∧
      Streamed (chunks.foldl SHA256.update reset) blocks rest := by
  obtain ⟨blocks, rest, hcat, h⟩ := streamed_reset.update chunks.flatten
  rw [foldl_update]
  exact ⟨blocks, rest, hcat, h⟩

/-- The hash of one buffer. -/
theorem bits_hash (data : Bytes) : bits (hash data).toList = sha256 (bits data) := by
  obtain ⟨blocks, rest, hcat, h⟩ := streamed_reset.update data
  rw [hash, h.bits_digest, hcat]
  rfl

/-! ### Writes to the buffer -/

/-- `put`, refused where `m_bufLen` is out of range. -/
def put? (ctx : SHA256) (b : UInt8) : Option SHA256 :=
  if ctx.bufLen < 64 then some (ctx.put b) else none

/-- `updateByte` with the write checked. -/
def updateByte? (ctx : SHA256) (b : UInt8) : Option SHA256 := do
  let ctx ← ctx.put? b
  if ctx.bufLen = 64 then
    some { ctx.transform with bitLen := ctx.bitLen + 512, bufLen := 0 }
  else some ctx

/-- `update` with every write checked. -/
def update? (ctx : SHA256) (data : Bytes) : Option SHA256 := data.foldlM updateByte? ctx

/-- `padTo` with every write checked. -/
def padTo? (ctx : SHA256) (n : ℕ) : Option SHA256 :=
  (List.range (n - ctx.bufLen)).foldlM (fun ctx _ => ctx.put? 0) ctx

/-- `makeRoom` with every write checked. -/
def makeRoom? (ctx : SHA256) : Option SHA256 :=
  if ctx.bufLen > 56 then (ctx.padTo? 64).map fun ctx => { ctx.transform with bufLen := 0 }
  else some ctx

/-- `digest` with every write checked. -/
def digest? (ctx : SHA256) : Option Sha256Digest := do
  let totalBits := ctx.bitLen + UInt64.ofNat ctx.bufLen * 8
  let ctx ← ctx.put? 0x80
  let ctx ← ctx.makeRoom?
  let ctx ← ctx.padTo? 56
  let ctx ← [7, 6, 5, 4, 3, 2, 1, 0].foldlM (fun (ctx : SHA256) i =>
    ctx.put? (totalBits >>> UInt64.ofNat (i * 8)).toUInt8) ctx
  some (output ctx.transform.state)

theorem updateByte?_eq (h : ctx.bufLen < 64) (b : UInt8) :
    ctx.updateByte? b = some (ctx.updateByte b) ∧ (ctx.updateByte b).bufLen < 64 := by
  have hput : ctx.put? b = some (ctx.put b) := if_pos h
  rw [updateByte?, hput, Option.bind_eq_bind, Option.bind_some, SHA256.updateByte]
  by_cases hfull : (ctx.put b).bufLen = 64
  · simp only [if_pos hfull]
    exact ⟨trivial, by simp⟩
  · simp only [if_neg hfull]
    refine ⟨trivial, ?_⟩
    have hlen : (ctx.put b).bufLen = ctx.bufLen + 1 := rfl
    omega

theorem update?_eq (h : ctx.bufLen < 64) (data : Bytes) :
    ctx.update? data = some (ctx.update data) ∧ (ctx.update data).bufLen < 64 := by
  induction data generalizing ctx with
  | nil => exact ⟨rfl, h⟩
  | cons b data ih =>
    obtain ⟨hstep, hlt⟩ := updateByte?_eq h b
    obtain ⟨hrun, hlt'⟩ := ih hlt
    refine ⟨?_, hlt'⟩
    rw [update?, List.foldlM_cons, hstep]
    exact hrun

theorem foldlM_update? (chunks : List Bytes) :
    chunks.foldlM update? reset = some (chunks.foldl SHA256.update reset) := by
  have h : ∀ ctx : SHA256, ctx.bufLen < 64 →
      chunks.foldlM update? ctx = some (chunks.foldl SHA256.update ctx) := by
    induction chunks with
    | nil => exact fun _ _ => rfl
    | cons c chunks ih =>
      intro ctx hctx
      obtain ⟨hrun, hlt⟩ := update?_eq hctx c
      rw [List.foldlM_cons, hrun]
      exact ih _ hlt
  exact h reset (by decide)

/-- Writes that fit are never refused, and each moves the fill by one. -/
theorem foldlM_put? {α : Type*} (f : α → UInt8) (ctx : SHA256) {l : List α}
    (h : ctx.bufLen + l.length ≤ 64) :
    l.foldlM (fun ctx x => ctx.put? (f x)) ctx = some (l.foldl (fun ctx x => ctx.put (f x)) ctx) ∧
      (l.foldl (fun ctx x => ctx.put (f x)) ctx).bufLen = ctx.bufLen + l.length := by
  induction l generalizing ctx with
  | nil => exact ⟨rfl, rfl⟩
  | cons x l ih =>
    rw [List.length_cons] at h
    have hput : ctx.put? (f x) = some (ctx.put (f x)) := if_pos (by omega)
    have hlen : (ctx.put (f x)).bufLen = ctx.bufLen + 1 := rfl
    obtain ⟨hrun, hfill⟩ := ih (ctx.put (f x)) (by rw [hlen]; omega)
    refine ⟨?_, ?_⟩
    · rw [List.foldlM_cons, hput]
      exact hrun
    · rw [List.foldl_cons, hfill, hlen, List.length_cons]
      omega

theorem padTo?_eq {n : ℕ} (hle : ctx.bufLen ≤ n) (hn : n ≤ 64) :
    ctx.padTo? n = some (ctx.padTo n) ∧ (ctx.padTo n).bufLen = n := by
  obtain ⟨hrun, hfill⟩ := foldlM_put? (fun _ => 0) ctx (l := List.range (n - ctx.bufLen))
    (by rw [List.length_range]; omega)
  refine ⟨hrun, ?_⟩
  rw [List.length_range] at hfill
  rw [SHA256.padTo, hfill]
  omega

theorem makeRoom?_eq (h : ctx.bufLen ≤ 64) :
    ctx.makeRoom? = some ctx.makeRoom ∧ ctx.makeRoom.bufLen ≤ 56 := by
  rw [makeRoom?, makeRoom]
  by_cases hlong : ctx.bufLen > 56
  · rw [if_pos hlong, if_pos hlong, (padTo?_eq h le_rfl).1]
    exact ⟨rfl, by simp⟩
  · rw [if_neg hlong, if_neg hlong]
    exact ⟨rfl, by omega⟩

theorem digest?_eq (h : ctx.bufLen < 64) : ctx.digest? = some ctx.digest := by
  have hmark : ctx.put? 0x80 = some (ctx.put 0x80) := if_pos h
  obtain ⟨hroom, hle⟩ := makeRoom?_eq (show (ctx.put 0x80).bufLen ≤ 64 from h)
  obtain ⟨hzeros, hfill⟩ := padTo?_eq hle (by norm_num)
  obtain ⟨hlength, -⟩ := foldlM_put? (fun i =>
    ((ctx.bitLen + UInt64.ofNat ctx.bufLen * 8) >>> UInt64.ofNat (i * 8)).toUInt8)
    ((ctx.put 0x80).makeRoom.padTo 56) (l := [7, 6, 5, 4, 3, 2, 1, 0]) (by rw [hfill]; rfl)
  simp only [digest?, hmark, hroom, hzeros, hlength, Option.bind_eq_bind, Option.bind_some]
  rfl

/-- **The streaming hash is SHA-256.**  Feeding any chunks in order leaves the SHA-256 of their
concatenation, however it is cut; between the chunks the buffer is never full, and no write to it
is out of range. -/
theorem digest_streaming (chunks : List Bytes) :
    bits (chunks.foldl SHA256.update reset).digest.toList = sha256 (bits chunks.flatten) ∧
      (∀ chunks' : List Bytes, chunks'.flatten = chunks.flatten →
        (chunks'.foldl SHA256.update reset).digest = (chunks.foldl SHA256.update reset).digest) ∧
      (chunks.foldl SHA256.update reset).bufLen < 64 ∧
      (chunks.foldlM update? reset).bind digest? =
        some (chunks.foldl SHA256.update reset).digest := by
  obtain ⟨blocks, rest, hcat, h⟩ := streamed_chunks chunks
  have hlt : (chunks.foldl SHA256.update reset).bufLen < 64 := by
    rw [h.holds.bufLen]
    exact h.lt
  refine ⟨?_, ?_, hlt, ?_⟩
  · rw [h.bits_digest, hcat]
  · intro chunks' hchunks
    rw [foldl_update, foldl_update, hchunks]
  · rw [foldlM_update?, Option.bind_some, digest?_eq hlt]

end SHA256

end LiteSpeedStore
