import LiteSpeedStore.Wal.Basic

/-!
# One entry of the log

`LogRecord.encode` is what `append` writes for a record after a given chain, and `readEntry` is the
decision the loop body of `walkChain` takes on the bytes from an entry's offset to the end of the
file.

* `fixedFields_exact` : a 33-byte fixed part is the one that its own fields produce.
* `readEntry_encode` : an entry that `append` wrote is read back, whatever follows it.
* `readEntry_exact` : an entry that is accepted is, byte for byte, the one `append` writes for the
  record it delivers.
* `readEntry_take` : a proper prefix of an entry is torn.
* `wp_walkEntry` : the loop body of `walkChain` computes `readEntry`.
-/

namespace LiteSpeedStore

open Prog LittleEndian WAL

/-! ### The fixed part -/

/-- The low half of a timestamp. -/
theorem low_join (high low : UInt32) :
    ((high.toUInt64 <<< 32 ||| low.toUInt64) &&& 0xFFFFFFFF).toUInt32 = low := by
  apply UInt32.toNat_inj.1
  have hh := high.toNat_lt
  have hl := low.toNat_lt
  have hs : high.toNat <<< 32 % 2 ^ 64 = high.toNat <<< 32 := by
    rw [Nat.shiftLeft_eq]; omega
  rw [UInt64.toNat_toUInt32, UInt64.toNat_and, UInt64.toNat_or, UInt64.toNat_shiftLeft,
    UInt32.toNat_toUInt64, UInt32.toNat_toUInt64, show (32 : UInt64).toNat % 64 = 32 from rfl, hs,
    Nat.or_comm, or_shiftLeft hl, show (0xFFFFFFFF : UInt64).toNat = 2 ^ 32 - 1 from rfl,
    Nat.and_two_pow_sub_one_eq_mod]
  omega

/-- The high half of a timestamp. -/
theorem high_join (high low : UInt32) :
    (((high.toUInt64 <<< 32 ||| low.toUInt64) >>> 32) &&& 0xFFFFFFFF).toUInt32 = high := by
  apply UInt32.toNat_inj.1
  have hh := high.toNat_lt
  have hl := low.toNat_lt
  have hs : high.toNat <<< 32 % 2 ^ 64 = high.toNat <<< 32 := by
    rw [Nat.shiftLeft_eq]; omega
  rw [UInt64.toNat_toUInt32, UInt64.toNat_and, UInt64.toNat_shiftRight, UInt64.toNat_or,
    UInt64.toNat_shiftLeft, UInt32.toNat_toUInt64, UInt32.toNat_toUInt64,
    show (32 : UInt64).toNat % 64 = 32 from rfl, hs, Nat.or_comm, or_shiftLeft hl,
    show (0xFFFFFFFF : UInt64).toNat = 2 ^ 32 - 1 from rfl, Nat.and_two_pow_sub_one_eq_mod,
    Nat.shiftRight_eq_div_pow]
  omega

/-- A timestamp is rejoined from its halves. -/
theorem join_halves (ts : UInt64) :
    ((ts >>> 32) &&& 0xFFFFFFFF).toUInt32.toUInt64 <<< 32 |||
      (ts &&& 0xFFFFFFFF).toUInt32.toUInt64 = ts := by
  apply UInt64.toNat_inj.1
  have ht := ts.toNat_lt
  have hl : (ts.toNat % 2 ^ 32) % 2 ^ 32 < 2 ^ 32 := Nat.mod_lt _ (by norm_num)
  have hs : (ts.toNat / 2 ^ 32 % 2 ^ 32 % 2 ^ 32) <<< 32 % 2 ^ 64 =
      (ts.toNat / 2 ^ 32 % 2 ^ 32 % 2 ^ 32) <<< 32 := by
    rw [Nat.shiftLeft_eq]; omega
  rw [UInt64.toNat_or, UInt64.toNat_shiftLeft, UInt32.toNat_toUInt64, UInt32.toNat_toUInt64,
    UInt64.toNat_toUInt32, UInt64.toNat_toUInt32, UInt64.toNat_and, UInt64.toNat_and,
    UInt64.toNat_shiftRight, show (32 : UInt64).toNat % 64 = 32 from rfl,
    show (0xFFFFFFFF : UInt64).toNat = 2 ^ 32 - 1 from rfl, Nat.and_two_pow_sub_one_eq_mod,
    Nat.and_two_pow_sub_one_eq_mod, Nat.shiftRight_eq_div_pow, hs, Nat.or_comm, or_shiftLeft hl]
  omega

/-- The fixed part, field by field. -/
theorem fixedFields_eq (seq : UInt64) (ts : Int64) (epoch : UInt64) (kl vl : UInt32)
    (type : RecordType) :
    fixedFields seq ts epoch kl vl type =
      digits 8 seq.toNat ++ (digits 4 (ts.toUInt64 &&& 0xFFFFFFFF).toUInt32.toNat ++
        (digits 4 ((ts.toUInt64 >>> 32) &&& 0xFFFFFFFF).toUInt32.toNat ++
          (digits 8 epoch.toNat ++ (digits 4 kl.toNat ++ (digits 4 vl.toNat ++ [type.byte]))))) := by
  simp only [fixedFields, putLE32_eq, putLE64_eq, List.nil_append, List.append_assoc]

@[simp] theorem length_fixedFields (seq : UInt64) (ts : Int64) (epoch : UInt64) (kl vl : UInt32)
    (type : RecordType) : (fixedFields seq ts epoch kl vl type).length = entryFixedSize := by
  simp [fixedFields_eq, entryFixedSize, offType, offValueLen, offKeyLen, offEpoch, offTsHigh,
    offTsLow, offSeq]

section Fields

variable (seq : UInt64) (ts : Int64) (epoch : UInt64) (kl vl : UInt32) (type : RecordType)

theorem fixedFields_seq :
    getLE64 ((fixedFields seq ts epoch kl vl type).drop offSeq) = seq := by
  rw [fixedFields_eq, offSeq, List.drop_zero, getLE64_digits_append]

theorem fixedFields_tsLow : getLE32 ((fixedFields seq ts epoch kl vl type).drop offTsLow) =
    (ts.toUInt64 &&& 0xFFFFFFFF).toUInt32 := by
  rw [fixedFields_eq, List.drop_left' (by simp [offTsLow, offSeq]), getLE32_digits_append]

theorem fixedFields_tsHigh : getLE32 ((fixedFields seq ts epoch kl vl type).drop offTsHigh) =
    ((ts.toUInt64 >>> 32) &&& 0xFFFFFFFF).toUInt32 := by
  rw [fixedFields_eq, ← List.append_assoc, List.drop_left' (by simp [offTsHigh, offTsLow, offSeq]),
    getLE32_digits_append]

theorem fixedFields_epoch :
    getLE64 ((fixedFields seq ts epoch kl vl type).drop offEpoch) = epoch := by
  rw [fixedFields_eq, ← List.append_assoc, ← List.append_assoc,
    List.drop_left' (by simp [offEpoch, offTsHigh, offTsLow, offSeq]), getLE64_digits_append]

theorem fixedFields_keyLen :
    getLE32 ((fixedFields seq ts epoch kl vl type).drop offKeyLen) = kl := by
  rw [fixedFields_eq, ← List.append_assoc, ← List.append_assoc, ← List.append_assoc,
    List.drop_left' (by simp [offKeyLen, offEpoch, offTsHigh, offTsLow, offSeq]),
    getLE32_digits_append]

theorem fixedFields_valueLen :
    getLE32 ((fixedFields seq ts epoch kl vl type).drop offValueLen) = vl := by
  rw [fixedFields_eq, ← List.append_assoc, ← List.append_assoc, ← List.append_assoc,
    ← List.append_assoc,
    List.drop_left' (by simp [offValueLen, offKeyLen, offEpoch, offTsHigh, offTsLow, offSeq]),
    getLE32_digits_append]

theorem fixedFields_type : (fixedFields seq ts epoch kl vl type).getD offType 0 = type.byte := by
  rw [fixedFields_eq, ← List.append_assoc, ← List.append_assoc, ← List.append_assoc,
    ← List.append_assoc, ← List.append_assoc, List.getD_append_right _ _ _ _ (by
      simp [offType, offValueLen, offKeyLen, offEpoch, offTsHigh, offTsLow, offSeq])]
  simp [offType, offValueLen, offKeyLen, offEpoch, offTsHigh, offTsLow, offSeq]

end Fields

theorem take_append_drop_take (b : Bytes) (i n : ℕ) :
    (b.drop i).take n ++ b.drop (i + n) = b.drop i := by
  rw [← List.drop_drop, List.take_append_drop]

/-- A fixed part read from a file is the one its fields produce. -/
theorem fixedFields_exact {fixed : Bytes} (h : fixed.length = entryFixedSize) :
    fixedFields (getLE64 (fixed.drop offSeq))
      ((getLE32 (fixed.drop offTsHigh)).toUInt64 <<< 32 |||
        (getLE32 (fixed.drop offTsLow)).toUInt64).toInt64
      (getLE64 (fixed.drop offEpoch)) (getLE32 (fixed.drop offKeyLen))
      (getLE32 (fixed.drop offValueLen)) ⟨fixed.getD offType 0⟩ = fixed := by
  simp only [entryFixedSize, offType, offValueLen, offKeyLen, offEpoch, offTsHigh, offTsLow, offSeq]
    at h ⊢
  have hlast : [fixed.getD (0 + 8 + 4 + 4 + 8 + 4 + 4) 0] =
      fixed.drop (0 + 8 + 4 + 4 + 8 + 4 + 4) := by
    rw [List.getD_eq_getElem _ _ (by omega), List.drop_eq_getElem_cons (by omega),
      List.drop_of_length_le (by omega)]
  rw [fixedFields_eq, UInt64.toUInt64_toInt64, low_join, high_join, hlast,
    digits_getLE64 (by simp [h]), digits_getLE32 (by simp [h]), digits_getLE32 (by simp [h]),
    digits_getLE64 (by simp [h]), digits_getLE32 (by simp [h]), digits_getLE32 (by simp [h]),
    take_append_drop_take, take_append_drop_take, take_append_drop_take, take_append_drop_take,
    take_append_drop_take, take_append_drop_take, List.drop_zero]

/-! ### Writing an entry -/

theorem kMaxFieldSize_toNat : kMaxFieldSize.toNat = 1048576 := rfl

namespace LogRecord

/-- The record is within the limits that `append` enforces. -/
def Fits (r : LogRecord) : Prop :=
  r.key.length ≤ kMaxFieldSize.toNat ∧ r.value.length ≤ kMaxFieldSize.toNat

instance (r : LogRecord) : Decidable r.Fits := inferInstanceAs (Decidable (_ ∧ _))

variable (prev : Sha256Digest) (seq : UInt64) (r : LogRecord)

/-- The fixed part of the record's entry. -/
def fixed : Bytes :=
  fixedFields seq r.timestamp r.epoch (UInt32.ofNat r.key.length) (UInt32.ofNat r.value.length) r.type

/-- The chain hash of the record's entry after the chain with head `prev`. -/
def hash : Sha256Digest := chainHash prev (r.fixed seq) r.key r.value

/-- What the CRC of the record's entry covers. -/
def body : Bytes := r.fixed seq ++ r.key ++ r.value ++ (r.hash prev seq).toList

/-- The record's entry: the bytes that `append` writes. -/
def encode : Bytes := putLE32 [] (CRC32.calculate (r.body prev seq)) ++ r.body prev seq

@[simp] theorem length_fixed : (r.fixed seq).length = entryFixedSize := length_fixedFields ..

theorem length_body :
    (r.body prev seq).length = entryFixedSize + r.key.length + r.value.length + hashSize := by
  simp [body, hashSize]; omega

@[simp] theorem length_encode : (r.encode prev seq).length = r.size := by
  rw [encode, List.length_append, length_putLE32, length_body, size]
  simp [crcSize]; omega

theorem size_ge : crcSize + entryFixedSize + hashSize ≤ r.size := by
  simp only [size]; omega

theorem size_pos : 0 < r.size := by simp only [size, crcSize]; omega

variable {r}

theorem toNat_keyLen (h : r.Fits) : (UInt32.ofNat r.key.length).toNat = r.key.length := by
  have := h.1
  rw [kMaxFieldSize_toNat] at this
  rw [UInt32.toNat_ofNat']; omega

theorem toNat_valueLen (h : r.Fits) : (UInt32.ofNat r.value.length).toNat = r.value.length := by
  have := h.2
  rw [kMaxFieldSize_toNat] at this
  rw [UInt32.toNat_ofNat']; omega

end LogRecord

/-- The sum of 64-bit integers does not wrap. -/
theorem neededSize_eq (kl vl : UInt32) :
    neededSize kl vl = crcSize + entryFixedSize + hashSize + kl.toNat + vl.toNat := by
  have h1 := kl.toNat_lt
  have h2 := vl.toNat_lt
  simp only [neededSize, crcSize, entryFixedSize, offType, offValueLen, offKeyLen, offEpoch,
    offTsHigh, offTsLow, offSeq, hashSize]
  omega

theorem neededSize_keyLen {r : LogRecord} (h : r.Fits) :
    neededSize (UInt32.ofNat r.key.length) (UInt32.ofNat r.value.length) = r.size := by
  rw [neededSize_eq, LogRecord.toNat_keyLen h, LogRecord.toNat_valueLen h]
  simp only [LogRecord.size]
  omega

/-! ### Reading an entry -/

/-- The loop body of `walkChain` on the bytes from an entry's offset to the end of the file. -/
def readEntry (prevHash : Sha256Digest) (expectedSeq : UInt64) (rest : Bytes) : EntryOutcome :=
  if rest.length < crcSize + entryFixedSize then .torn
  else
    let fixed := (rest.drop crcSize).take entryFixedSize
    let keyLen := getLE32 (fixed.drop offKeyLen)
    let valueLen := getLE32 (fixed.drop offValueLen)
    if keyLen > kMaxFieldSize ∨ valueLen > kMaxFieldSize then .failed .malformed
    else if neededSize keyLen valueLen > rest.length then .torn
    else
      let key := (rest.drop (crcSize + entryFixedSize)).take keyLen.toNat
      let value := (rest.drop (crcSize + entryFixedSize + keyLen.toNat)).take valueLen.toNat
      let hashBytes :=
        (rest.drop (crcSize + entryFixedSize + keyLen.toNat + valueLen.toNat)).take hashSize
      verifyEntry prevHash expectedSeq (getLE32 (rest.take crcSize)) fixed key value hashBytes

theorem drop_take_middle {as bs cs : Bytes} {i n : ℕ} (hi : as.length = i) (hn : bs.length = n) :
    ((as ++ bs ++ cs).drop i).take n = bs := by
  rw [List.append_assoc, List.drop_left' hi, List.take_left' hn]

section ReadEntry

variable {prev : Sha256Digest} {seq : UInt64} {r : LogRecord} {rest : Bytes}

/-- The bytes that an entry of the log starts with decide its fields, whatever follows. -/
theorem encode_append_eq (tail : Bytes) : r.encode prev seq ++ tail =
    putLE32 [] (CRC32.calculate (r.body prev seq)) ++ r.fixed seq ++
      (r.key ++ r.value ++ (r.hash prev seq).toList ++ tail) := by
  simp only [LogRecord.encode, LogRecord.body, List.append_assoc]

theorem fixed_keyLen : getLE32 ((r.fixed seq).drop offKeyLen) = UInt32.ofNat r.key.length :=
  fixedFields_keyLen ..

theorem fixed_valueLen :
    getLE32 ((r.fixed seq).drop offValueLen) = UInt32.ofNat r.value.length :=
  fixedFields_valueLen ..

theorem Fits.not_over (h : r.Fits) : ¬(UInt32.ofNat r.key.length > kMaxFieldSize ∨
    UInt32.ofNat r.value.length > kMaxFieldSize) := by
  have h1 := h.1
  have h2 := h.2
  rw [gt_iff_lt, gt_iff_lt, UInt32.lt_iff_toNat_lt, UInt32.lt_iff_toNat_lt, r.toNat_keyLen h,
    r.toNat_valueLen h]
  omega

/-- The loop body checks an entry that `append` wrote as it stands, whatever follows it. -/
theorem readEntry_verify (h : r.Fits) (prev' : Sha256Digest) (seq' : UInt64) (tail : Bytes) :
    readEntry prev' seq' (r.encode prev seq ++ tail) =
      verifyEntry prev' seq' (CRC32.calculate (r.body prev seq)) (r.fixed seq) r.key r.value
        (r.hash prev seq).toList := by
  have hcrc : ∀ v : UInt32, (putLE32 [] v).length = crcSize := fun v => by simp [crcSize]
  have hlen : (r.encode prev seq ++ tail).length = r.size + tail.length := by simp
  have hsize := r.size_ge
  have hfixed : ((r.encode prev seq ++ tail).drop crcSize).take entryFixedSize = r.fixed seq := by
    rw [encode_append_eq]
    exact drop_take_middle (hcrc _) (by simp)
  have hkey : ((r.encode prev seq ++ tail).drop (crcSize + entryFixedSize)).take r.key.length =
      r.key := by
    rw [encode_append_eq, List.append_assoc r.key, List.append_assoc r.key, ← List.append_assoc]
    exact drop_take_middle (by simp [crcSize]) rfl
  have hvalue : ((r.encode prev seq ++ tail).drop
      (crcSize + entryFixedSize + r.key.length)).take r.value.length = r.value := by
    rw [encode_append_eq, List.append_assoc (r.key ++ r.value), ← List.append_assoc,
      ← List.append_assoc (_ ++ r.fixed seq)]
    exact drop_take_middle (by simp [crcSize]; omega) rfl
  have hhash : ((r.encode prev seq ++ tail).drop
      (crcSize + entryFixedSize + r.key.length + r.value.length)).take hashSize =
      (r.hash prev seq).toList := by
    rw [encode_append_eq, ← List.append_assoc, ← List.append_assoc (_ ++ r.fixed seq)]
    exact drop_take_middle (by simp [crcSize]; omega) (by simp [hashSize])
  have hstored : getLE32 ((r.encode prev seq ++ tail).take crcSize) =
      CRC32.calculate (r.body prev seq) := by
    rw [encode_append_eq, List.append_assoc, List.take_left' (hcrc _), putLE32_eq, List.nil_append,
      ← List.append_nil (digits 4 _), getLE32_digits_append]
  rw [readEntry, if_neg (by omega)]
  simp only [hfixed, fixed_keyLen, fixed_valueLen, if_neg (Fits.not_over h), neededSize_keyLen h,
    r.toNat_keyLen h, r.toNat_valueLen h, hkey, hvalue, hhash, hstored]
  rw [if_neg (by omega)]

/-- **An entry that `append` wrote is read back**, whatever follows it. -/
theorem readEntry_encode (h : r.Fits) (tail : Bytes) :
    readEntry prev seq (r.encode prev seq ++ tail) = .entry r (r.hash prev seq) := by
  rw [readEntry_verify h]
  simp only [verifyEntry, LogRecord.body, LogRecord.hash, LogRecord.fixed, ne_eq, not_true_eq_false,
    if_false, fixedFields_seq, fixedFields_type, fixedFields_tsHigh, fixedFields_tsLow,
    fixedFields_epoch, join_halves, Int64.toInt64_toUInt64]

/-- An entry at another place of the chain is refused, whether the chain hash trips or the sequence
number. -/
theorem readEntry_displaced (h : r.Fits) {prev' : Sha256Digest} {seq' : UInt64} (hne : seq ≠ seq')
    (tail : Bytes) : readEntry prev' seq' (r.encode prev seq ++ tail) = .failed .tampered := by
  rw [readEntry_verify h, verifyEntry]
  have hseq : getLE64 ((r.fixed seq).drop offSeq) = seq := fixedFields_seq ..
  simp only [hseq, ne_eq, hne, not_false_eq_true, if_true, ite_self]

/-- **An entry that is accepted is the one that `append` writes** for the record it delivers. -/
theorem readEntry_exact {computed : Sha256Digest} (h : readEntry prev seq rest = .entry r computed) :
    r.Fits ∧ computed = r.hash prev seq ∧ r.size ≤ rest.length ∧
      r.encode prev seq ++ rest.drop r.size = rest := by
  simp only [readEntry, verifyEntry] at h
  split_ifs at h with hshort hover hneed hcrc hhash hseq
  simp only [EntryOutcome.entry.injEq] at h
  obtain ⟨rfl, rfl⟩ := h
  rw [not_or] at hover
  rw [not_not] at hcrc hhash hseq
  rw [neededSize_eq] at hneed
  set fixed := (rest.drop crcSize).take entryFixedSize with hfixed
  set kl := getLE32 (fixed.drop offKeyLen) with hkl
  set vl := getLE32 (fixed.drop offValueLen) with hvl
  have hklen : ((rest.drop (crcSize + entryFixedSize)).take kl.toNat).length = kl.toNat := by
    rw [List.length_take, List.length_drop]; omega
  have hvlen : ((rest.drop (crcSize + entryFixedSize + kl.toNat)).take vl.toNat).length =
      vl.toNat := by
    rw [List.length_take, List.length_drop]; omega
  have hflen : fixed.length = entryFixedSize := by
    rw [hfixed, List.length_take, List.length_drop]; omega
  have hmax : ∀ v : UInt32, ¬v > kMaxFieldSize → v.toNat ≤ kMaxFieldSize.toNat := fun v hv => by
    rw [gt_iff_lt, UInt32.lt_iff_toNat_lt] at hv; omega
  have hfx : LogRecord.fixed seq ⟨⟨fixed.getD offType 0⟩,
      (rest.drop (crcSize + entryFixedSize)).take kl.toNat,
      (rest.drop (crcSize + entryFixedSize + kl.toNat)).take vl.toNat,
      ((getLE32 (fixed.drop offTsHigh)).toUInt64 <<< 32 |||
        (getLE32 (fixed.drop offTsLow)).toUInt64).toInt64, getLE64 (fixed.drop offEpoch)⟩ =
      fixed := by
    rw [LogRecord.fixed, hklen, hvlen, UInt32.ofNat_toNat, UInt32.ofNat_toNat, ← hseq, hkl, hvl,
      fixedFields_exact hflen]
  refine ⟨⟨?_, ?_⟩, ?_, ?_, ?_⟩
  · exact hklen.trans_le (hmax _ hover.1)
  · exact hvlen.trans_le (hmax _ hover.2)
  · rw [LogRecord.hash, hfx]
  · simp only [LogRecord.size, hklen, hvlen]; omega
  · have hcrcb : putLE32 [] (getLE32 (rest.take crcSize)) = rest.take crcSize := by
      rw [putLE32_eq, List.nil_append, digits_getLE32 (by
        rw [List.length_take]; simp only [crcSize] at hshort ⊢; omega), List.take_take]
      rfl
    simp only [LogRecord.encode, LogRecord.body, LogRecord.hash, hfx, LogRecord.size, hklen, hvlen]
    rw [hhash, hcrc, hcrcb, List.append_assoc, List.append_assoc, List.append_assoc,
      List.append_assoc, take_append_drop_take, take_append_drop_take, take_append_drop_take,
      hfixed, take_append_drop_take, List.take_append_drop]

theorem readEntry_failed {status : RecoveryStatus}
    (h : readEntry prev seq rest = .failed status) : status = .malformed ∨ status = .tampered := by
  simp only [readEntry, verifyEntry] at h
  split_ifs at h <;> cases h <;> simp

/-- **A proper prefix of an entry is torn.** -/
theorem readEntry_take (h : r.Fits) {k : ℕ} (hk : k < r.size) :
    readEntry prev seq ((r.encode prev seq).take k) = .torn := by
  have hlen : ((r.encode prev seq).take k).length = k := by
    rw [List.length_take, LogRecord.length_encode]; omega
  rw [readEntry, hlen]
  split_ifs with hshort
  · rfl
  · have hfixed : (((r.encode prev seq).take k).drop crcSize).take entryFixedSize = r.fixed seq := by
      rw [List.drop_take, List.take_take, Nat.min_eq_left (by omega),
        ← List.append_nil (r.encode _ _), encode_append_eq]
      exact drop_take_middle (by simp [crcSize]) (by simp)
    simp only [hfixed, fixed_keyLen, fixed_valueLen, if_neg (Fits.not_over h), neededSize_keyLen h]
    rw [if_pos hk]

end ReadEntry

/-- **The loop body of `walkChain` computes `readEntry`** on a file that is not changed meanwhile
and whose reads do not fail. -/
theorem wp_walkEntry {F : Faults} {fd : Path} {fs : FileSystem} {b : Bytes}
    {Q : EntryOutcome → FileSystem → Prop} {C : FileSystem → Prop} {pos : ℕ} {prev : Sha256Digest}
    {seq : UInt64} (hr : ∀ pos len, ¬F.mayFail (.read fd pos len)) (hfs : fs fd = some b)
    (hpos : pos ≤ b.length) (hC : C fs) (hQ : Q (readEntry prev seq (b.drop pos)) fs) :
    wp F.env (walkEntry fd b.length pos prev seq) Q C fs := by
  have hslice : ∀ i n, slice b (pos + i) n =
      if n = 0 ∨ i + n ≤ (b.drop pos).length then some (((b.drop pos).drop i).take n) else none := by
    intro i n
    have he : (n = 0 ∨ pos + i + n ≤ b.length) ↔ (n = 0 ∨ i + n ≤ (b.drop pos).length) := by
      rw [List.length_drop]; omega
    rw [slice, List.drop_drop]
    simp only [he]
  have hrem : (b.drop pos).length = b.length - pos := List.length_drop
  rw [walkEntry]
  refine wp_readExact_bind hr hfs hC ?_
  rw [← Nat.add_zero pos, hslice, Nat.add_zero, List.drop_zero, Nat.zero_add]
  by_cases h4 : crcSize ≤ (b.drop pos).length
  swap
  · rw [if_neg (by simp only [crcSize] at h4 ⊢; omega)]
    rw [readEntry, if_pos (by omega)] at hQ
    exact ⟨hC, hQ⟩
  rw [if_pos (.inr h4)]
  refine wp_readExact_bind hr hfs hC ?_
  rw [hslice]
  by_cases h37 : crcSize + entryFixedSize ≤ (b.drop pos).length
  swap
  · rw [if_neg (by simp only [entryFixedSize] at h37 ⊢; omega)]
    rw [readEntry, if_pos (by omega)] at hQ
    exact ⟨hC, hQ⟩
  rw [if_pos (.inr h37)]
  rw [readEntry, if_neg (by omega)] at hQ
  dsimp only at hQ ⊢
  rw [← hrem]
  generalize ((b.drop pos).drop crcSize).take entryFixedSize = fixed at hQ ⊢
  by_cases hover : getLE32 (fixed.drop offKeyLen) > kMaxFieldSize ∨
      getLE32 (fixed.drop offValueLen) > kMaxFieldSize
  · rw [if_pos hover] at hQ ⊢
    exact ⟨hC, hQ⟩
  rw [if_neg hover] at hQ ⊢
  by_cases hneed : neededSize (getLE32 (fixed.drop offKeyLen)) (getLE32 (fixed.drop offValueLen)) >
      (b.drop pos).length
  · rw [if_pos hneed] at hQ ⊢
    exact ⟨hC, hQ⟩
  rw [if_neg hneed] at hQ ⊢
  rw [neededSize_eq] at hneed
  refine wp_readExact_bind hr hfs hC ?_
  rw [Nat.add_assoc pos, hslice, if_pos (.inr (by omega))]
  refine wp_readExact_bind hr hfs hC ?_
  rw [Nat.add_assoc pos, hslice, if_pos (.inr (by omega))]
  refine wp_readExact_bind hr hfs hC ?_
  rw [Nat.add_assoc pos, hslice, if_pos (.inr (by omega))]
  exact ⟨hC, hQ⟩

end LiteSpeedStore
