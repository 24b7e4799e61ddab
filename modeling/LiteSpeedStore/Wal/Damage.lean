import LiteSpeedStore.Wal.Reader

/-!
# Damaged logs

What `verify` and `recover` report for a log one of whose entries was overwritten in place.

* `run_stopped` : a log whose entry `i` is refused is reported there, and left alone.
* `edit_tampered` : a changed CRC, and a change within four consecutive bytes that the CRC covers,
  are refused at their entry.
* `length_damage_iff` : when overwritten lengths are refused at their entry, and so do not cost the
  entries behind it.
-/

namespace LiteSpeedStore

open Prog WAL

/-! ### Overwriting -/

/-- The bytes of `b` with `new` written over those at `pos`. -/
def overwrite (b : Bytes) (pos : ℕ) (new : Bytes) : Bytes :=
  b.take pos ++ new ++ b.drop (pos + new.length)

section Overwrite

variable {b b' new : Bytes} {pos : ℕ}

theorem length_overwrite (h : pos + new.length ≤ b.length) :
    (overwrite b pos new).length = b.length := by
  simp only [overwrite, List.length_append, List.length_take, List.length_drop]
  omega

/-- Other bytes than those that stood there make another file. -/
theorem overwrite_ne (hpos : pos ≤ b.length) (h : (b.drop pos).take new.length ≠ new) :
    overwrite b pos new ≠ b := by
  intro heq
  have hnew := congrArg (fun x => (x.drop pos).take new.length) heq
  simp only [overwrite, List.append_assoc, List.drop_left' (List.length_take_of_le hpos),
    List.take_left] at hnew
  exact h hnew.symm

theorem overwrite_append_right (b b' new : Bytes) (pos : ℕ) :
    overwrite (b ++ b') (b.length + pos) new = b ++ overwrite b' pos new := by
  rw [overwrite, overwrite, List.take_length_add_append, Nat.add_assoc,
    List.drop_length_add_append, List.append_assoc, List.append_assoc, List.append_assoc]

theorem overwrite_append_left (h : pos + new.length ≤ b.length) :
    overwrite (b ++ b') pos new = overwrite b pos new ++ b' := by
  rw [overwrite, overwrite, List.take_append_of_le_length (by omega),
    List.drop_append_of_le_length h, List.append_assoc, List.append_assoc, List.append_assoc]

end Overwrite

/-! ### A log that is refused at an entry -/

/-- The failure reported at entry `i` of a log. -/
def refusal (rs : List LogRecord) (i : ℕ) (status : RecoveryStatus) : RecoveryResult :=
  ⟨status, UInt64.ofNat i, UInt64.ofNat (boundary rs i), UInt64.ofNat i,
    chainHead .zero 0 (rs.take i)⟩

/-- The loop body refuses what stands at entry `i`. -/
def RefusedAt (rs : List LogRecord) (i : ℕ) (status : RecoveryStatus) (b : Bytes) : Prop :=
  ∃ rest, b = logOf (rs.take i) ++ rest ∧
    readEntry (chainHead .zero 0 (rs.take i)) (UInt64.ofNat i) rest = .failed status

section Refusal

variable {rs : List LogRecord} {i : ℕ} {status : RecoveryStatus} {b : Bytes}

theorem walkFile_refused (hfits : ∀ r ∈ rs, r.Fits) (hi : i ≤ rs.length)
    (h : RefusedAt rs i status b) :
    (walkFile b).stop = .failed status ∧ (walkFile b).records = rs.take i ∧
      (walkFile b).result b.length = refusal rs i status := by
  obtain ⟨rest, rfl, hread⟩ := h
  have hlen : (rs.take i).length = i := List.length_take_of_le hi
  rw [walkFile_logOf_append (fits_take hfits i), hlen, walk_failed hread]
  refine ⟨rfl, List.append_nil _, ?_⟩
  rw [Walk.result, List.length_append, Nat.add_sub_cancel]
  rfl

/-- A log that is refused at an entry is reported there, and left alone. -/
theorem run_stopped {p : Path} {fs : FileSystem} {wal : WAL} (hfits : ∀ r ∈ rs, r.Fits)
    (hi : i ≤ rs.length) (h : RefusedAt rs i status b) (hfd : wal.fd = some p)
    (hfs : fs p = some b) :
    run posix wal.verify fs = (refusal rs i status, fs) ∧
      ∀ {σ : Type} (visitor : Visitor σ) (m : Option UInt64) (s : σ),
        run posix (wal.recover visitor m s) fs = ((refusal rs i status, wal,
          visitEach visitor ((rs.take i).filter (epochAbove m)) s), fs) := by
  obtain ⟨hstop, hrecords, hresult⟩ := walkFile_refused hfits hi h
  refine ⟨by rw [run_verify hfd hfs, hresult], fun visitor m s => ?_⟩
  have hleft : (walkFile b).left b = b := by
    rw [Walk.left, if_neg (by rw [hstop]; exact Stop.noConfusion)]
  rw [run_recover hfd hfs, hresult, visited_eq, hrecords, hleft, FileSystem.put_eq_self hfs]
  simp only [WAL.adopt, hstop]

end Refusal

/-! ### Edits of one entry -/

section Entries

variable {prev : Sha256Digest} {seq : UInt64} {crc body tail : Bytes}

/-- The length fields of an entry whose covered part is `body`. -/
def lengthFields (body : Bytes) : Bytes := (body.drop offKeyLen).take 8

theorem getLE32_congr {p q : Bytes} (h : p.take 4 = q.take 4) : getLE32 p = getLE32 q := by
  apply UInt32.toNat_inj.1
  rw [getLE32_toNat, getLE32_toNat, h]

theorem keyLen_eq (body : Bytes) : getLE32 ((body.take entryFixedSize).drop offKeyLen) =
    getLE32 (lengthFields body) := by
  refine getLE32_congr ?_
  rw [lengthFields, List.drop_take, List.take_take, List.take_take]
  rfl

theorem valueLen_eq (body : Bytes) : getLE32 ((body.take entryFixedSize).drop offValueLen) =
    getLE32 ((lengthFields body).drop 4) := by
  refine getLE32_congr ?_
  rw [lengthFields, List.drop_take, List.drop_take, List.drop_drop, List.take_take, List.take_take]
  rfl

/-- The loop body on an entry that fits: whether it is accepted depends on the CRC first. -/
theorem readEntry_parts (prev : Sha256Digest) (seq : UInt64) (tail : Bytes)
    (hcrc : crc.length = crcSize) (hkey : ¬getLE32 (lengthFields body) > kMaxFieldSize)
    (hvalue : ¬getLE32 ((lengthFields body).drop 4) > kMaxFieldSize)
    (hlen : body.length = entryFixedSize + (getLE32 (lengthFields body)).toNat +
      (getLE32 ((lengthFields body).drop 4)).toNat + hashSize) :
    readEntry prev seq (crc ++ body ++ tail) =
      verifyEntry prev seq (getLE32 crc) (body.take entryFixedSize)
        ((body.drop entryFixedSize).take (getLE32 (lengthFields body)).toNat)
        ((body.drop (entryFixedSize + (getLE32 (lengthFields body)).toNat)).take
          (getLE32 ((lengthFields body).drop 4)).toNat)
        (body.drop (entryFixedSize + (getLE32 (lengthFields body)).toNat +
          (getLE32 ((lengthFields body).drop 4)).toNat)) := by
  -- the parts behind the CRC are parts of the body
  have hpart : ∀ j n, j + n ≤ body.length →
      ((crc ++ body ++ tail).drop (crcSize + j)).take n = (body.drop j).take n := by
    intro j n hjn
    rw [List.append_assoc, ← hcrc, List.drop_length_add_append,
      List.drop_append_of_le_length (by omega), List.take_append_of_le_length (by
        rw [List.length_drop]; omega)]
  have htotal : (crc ++ body ++ tail).length = crcSize + body.length + tail.length := by
    rw [List.length_append, List.length_append, hcrc]
  have hfixed : ((crc ++ body ++ tail).drop crcSize).take entryFixedSize =
      body.take entryFixedSize := by
    have h := hpart 0 entryFixedSize (by omega)
    rwa [Nat.add_zero, List.drop_zero] at h
  have hstored : getLE32 ((crc ++ body ++ tail).take crcSize) = getLE32 crc := by
    rw [List.append_assoc, List.take_left' hcrc]
  have hhash : ((crc ++ body ++ tail).drop (crcSize + (entryFixedSize +
      (getLE32 (lengthFields body)).toNat + (getLE32 ((lengthFields body).drop 4)).toNat))).take
      hashSize = body.drop (entryFixedSize + (getLE32 (lengthFields body)).toNat +
        (getLE32 ((lengthFields body).drop 4)).toNat) := by
    rw [hpart _ _ (by omega)]
    exact List.take_of_length_le (by rw [List.length_drop]; omega)
  rw [readEntry, if_neg (by omega)]
  simp only [hfixed, keyLen_eq, valueLen_eq, hstored]
  rw [if_neg (not_or.2 ⟨hkey, hvalue⟩), neededSize_eq, if_neg (by omega)]
  simp only [Nat.add_assoc] at hhash ⊢
  rw [hpart _ _ (by omega), hpart _ _ (by omega), hhash]

theorem parts_append (body : Bytes) (i j : ℕ) :
    body.take entryFixedSize ++ (body.drop entryFixedSize).take i ++
      (body.drop (entryFixedSize + i)).take j ++ body.drop (entryFixedSize + i + j) = body := by
  rw [List.append_assoc, List.append_assoc, take_append_drop_take, take_append_drop_take,
    List.take_append_drop]

/-- An entry whose lengths are those it was written with is refused if the CRC is wrong. -/
theorem readEntry_wrong_crc {r : LogRecord} (hfits : r.Fits) (hcrc : crc.length = crcSize)
    (hlen : body.length = (r.body prev seq).length)
    (hfields : lengthFields body = lengthFields (r.body prev seq))
    (hwrong : CRC32.calculate body ≠ getLE32 crc) :
    readEntry prev seq (crc ++ body ++ tail) = .failed .tampered := by
  have hbody : (r.body prev seq).take entryFixedSize = r.fixed seq := by
    rw [LogRecord.body, List.append_assoc, List.append_assoc, List.take_left' (by simp)]
  have hk : getLE32 (lengthFields body) = UInt32.ofNat r.key.length := by
    rw [hfields, ← keyLen_eq, hbody, fixed_keyLen]
  have hv : getLE32 ((lengthFields body).drop 4) = UInt32.ofNat r.value.length := by
    rw [hfields, ← valueLen_eq, hbody, fixed_valueLen]
  have hover := not_or.1 (Fits.not_over hfits)
  rw [readEntry_parts prev seq tail hcrc (hk ▸ hover.1) (hv ▸ hover.2) (by
    rw [hlen, LogRecord.length_body, hk, hv, r.toNat_keyLen hfits, r.toNat_valueLen hfits])]
  rw [verifyEntry, parts_append, if_pos hwrong]

end Entries

/-- A change of the log that touches only the stored CRC of entry `i`, or at most four consecutive
bytes that this CRC covers and not the lengths. -/
inductive Edit (rs : List LogRecord) (i : ℕ) (hi : i < rs.length) : Bytes → Prop
  | crc (new : Bytes) (hnew : new.length = crcSize) :
      Edit rs i hi (overwrite (logOf rs) (boundary rs i) new)
  | covered (off : ℕ) (new : Bytes) (hnew : new.length ≤ 4)
      (hoff : crcSize + off + new.length ≤ rs[i].size)
      (hlengths : off + new.length ≤ offKeyLen ∨ offType ≤ off) :
      Edit rs i hi (overwrite (logOf rs) (boundary rs i + (crcSize + off)) new)

section Edits

variable {rs : List LogRecord} {i : ℕ} {b : Bytes}

/-- A log around its entry `i`. -/
theorem logOf_around (hfits : ∀ r ∈ rs, r.Fits) (hi : i < rs.length) :
    logOf rs = logOf (rs.take i) ++
      (rs[i].encode (chainHead .zero 0 (rs.take i)) (UInt64.ofNat i) ++
        encodeLog (chainHead .zero 0 (rs.take (i + 1))) (UInt64.ofNat (i + 1))
          (rs.drop (i + 1))) := by
  have hlen : (rs.take (i + 1)).length = i + 1 := List.length_take_of_le hi
  conv_lhs => rw [logOf_split hfits (i + 1), logOf_take_succ hfits, entryBytes_eq hfits hi, hlen]
  rw [List.append_assoc]

theorem lengthFields_overwrite {body new : Bytes} {off : ℕ} (h : off + new.length ≤ body.length)
    (hlengths : off + new.length ≤ offKeyLen ∨ offType ≤ off) :
    lengthFields (overwrite body off new) = lengthFields body := by
  have htake : (body.take off).length = off := by
    rw [List.length_take]
    omega
  rw [lengthFields, lengthFields, overwrite]
  rcases hlengths with hbefore | hbehind
  · rw [List.drop_append, List.drop_of_length_le (by rw [List.length_append]; omega),
      List.nil_append, List.drop_drop, List.length_append, htake,
      Nat.add_sub_cancel' hbefore]
  · have hle : offKeyLen + 8 ≤ (body.take off).length := htake.symm ▸ hbehind
    rw [List.append_assoc, List.drop_append_of_le_length (by omega),
      List.take_append_of_le_length (by rw [List.length_drop]; omega), List.drop_take,
      List.take_take, Nat.min_eq_left (by omega)]

/-- **An edit is refused at its entry.** -/
theorem edit_tampered (hfits : ∀ r ∈ rs, r.Fits) (hi : i < rs.length) (h : Edit rs i hi b)
    (hne : b ≠ logOf rs) : RefusedAt rs i .tampered b := by
  have hfit : rs[i].Fits := hfits _ (List.getElem_mem hi)
  have haround := logOf_around hfits hi
  set head := chainHead .zero 0 (rs.take i)
  set body := rs[i].body head (UInt64.ofNat i) with hbody
  set stored := putLE32 [] (CRC32.calculate body) with hstored
  set post := encodeLog (chainHead .zero 0 (rs.take (i + 1))) (UInt64.ofNat (i + 1)) (rs.drop (i + 1))
  have hcrc : stored.length = crcSize := by simp [hstored, crcSize]
  have hget : getLE32 stored = CRC32.calculate body := by
    rw [hstored, putLE32_eq, List.nil_append, ← List.append_nil (LittleEndian.digits 4 _),
      getLE32_digits_append]
  have hlog : logOf rs = logOf (rs.take i) ++ (stored ++ (body ++ post)) := by
    rw [haround, LogRecord.encode, List.append_assoc]
  cases h with
  | crc new hnew =>
    have hedit : overwrite (logOf rs) (boundary rs i) new =
        logOf (rs.take i) ++ (new ++ (body ++ post)) := by
      have h0 : overwrite stored 0 new = new := by
        rw [overwrite, List.take_zero, List.nil_append, Nat.zero_add, hnew,
          List.drop_of_length_le hcrc.le, List.append_nil]
      rw [hlog, boundary, ← Nat.add_zero (logOf (rs.take i)).length, overwrite_append_right,
        overwrite_append_left (by omega), h0]
    refine ⟨_, hedit, ?_⟩
    rw [← List.append_assoc]
    refine readEntry_wrong_crc hfit hnew rfl rfl fun heq => hne ?_
    have hsame : new = stored := by
      have h := digits_getLE32 (p := new) (by rw [hnew, crcSize])
      rw [← heq, List.take_of_length_le (by rw [hnew, crcSize])] at h
      rw [hstored, putLE32_eq, List.nil_append]
      exact h.symm
    rw [hedit, hlog, hsame]
  | covered off new hnew hoff hlengths =>
    have hsize : body.length + crcSize = rs[i].size := by
      rw [hbody, LogRecord.length_body, LogRecord.size]
      omega
    have hwithin : off + new.length ≤ body.length := by omega
    have hedit : overwrite (logOf rs) (boundary rs i + (crcSize + off)) new =
        logOf (rs.take i) ++ (stored ++ (overwrite body off new ++ post)) := by
      rw [hlog, boundary, overwrite_append_right, ← hcrc, overwrite_append_right,
        overwrite_append_left hwithin]
    refine ⟨_, hedit, ?_⟩
    rw [← List.append_assoc]
    refine readEntry_wrong_crc hfit hcrc (length_overwrite hwithin)
      (lengthFields_overwrite hwithin hlengths) fun heq => hne ?_
    rw [hget, overwrite] at heq
    have hold : body.take off ++ (body.drop off).take new.length ++ body.drop (off + new.length) =
        body := by
      rw [List.append_assoc, take_append_drop_take, List.take_append_drop]
    have hlen : ((body.drop off).take new.length).length = new.length := by
      rw [List.length_take, List.length_drop]
      omega
    conv at heq => rhs; rw [← hold]
    have hsame := CRC32.calculate_burst hlen.symm hnew heq
    have hunchanged : overwrite body off new = body := by
      rw [overwrite]
      conv_lhs => enter [1, 2]; rw [hsame]
      exact hold
    rw [hedit, hlog, hunchanged]

end Edits

/-! ### Overwritten lengths -/

/-- The log with other lengths written into entry `i`. -/
def relength (rs : List LogRecord) (i : ℕ) (keyLen valueLen : UInt32) : Bytes :=
  overwrite (logOf rs) (boundary rs i + (crcSize + offKeyLen))
    (putLE32 (putLE32 [] keyLen) valueLen)

/-- What gives the lengths of the entry away that `rest` starts with, behind a chain with head
`prev`: a length above the cap, or an entry that ends within the file and whose CRC or chain hash
does not fit the bytes that the lengths make it cover. -/
def LengthsRefused (prev : Sha256Digest) (keyLen valueLen : UInt32) (rest : Bytes) : Prop :=
  let keyEnd := entryFixedSize + keyLen.toNat
  let valueEnd := keyEnd + valueLen.toNat
  let body := (rest.drop crcSize).take (valueEnd + hashSize)
  keyLen > kMaxFieldSize ∨ valueLen > kMaxFieldSize ∨
    (crcSize + (valueEnd + hashSize) ≤ rest.length ∧
      (CRC32.calculate body ≠ getLE32 rest ∨
        (chainHash prev (body.take entryFixedSize) ((body.drop entryFixedSize).take keyLen.toNat)
          ((body.drop keyEnd).take valueLen.toNat)).toList ≠ body.drop valueEnd))

/-- The new lengths of entry `i` are given away. -/
def GivenAway (rs : List LogRecord) (i : ℕ) (keyLen valueLen : UInt32) : Prop :=
  LengthsRefused (chainHead .zero 0 (rs.take i)) keyLen valueLen
    ((relength rs i keyLen valueLen).drop (boundary rs i))

/-- A result that reports a damaged entry at this offset. -/
def ReportedAt (offset : ℕ) (res : RecoveryResult) : Prop :=
  (res.status = .tampered ∨ res.status = .malformed) ∧ res.tamperOffset.toNat = offset

section Lengths

variable {rs : List LogRecord} {i : ℕ} {keyLen valueLen : UInt32}

theorem getLE64_congr {p q : Bytes} (h : p.take 8 = q.take 8) : getLE64 p = getLE64 q := by
  apply UInt64.toNat_inj.1
  rw [getLE64_toNat, getLE64_toNat, h]

/-- The file from entry `i` on: the entry's length fields are the new ones, and its sequence number
is what it was. -/
theorem relength_eq (keyLen valueLen : UInt32) (hfits : ∀ r ∈ rs, r.Fits) (hi : i < rs.length) :
    ∃ rest, relength rs i keyLen valueLen = logOf (rs.take i) ++ rest ∧
      crcSize + entryFixedSize ≤ rest.length ∧
      getLE32 (((rest.drop crcSize).take entryFixedSize).drop offKeyLen) = keyLen ∧
      getLE32 (((rest.drop crcSize).take entryFixedSize).drop offValueLen) = valueLen ∧
      getLE64 (((rest.drop crcSize).take entryFixedSize).drop offSeq) = UInt64.ofNat i := by
  have haround := logOf_around hfits hi
  set body := rs[i].body (chainHead .zero 0 (rs.take i)) (UInt64.ofNat i) with hbody
  set stored := putLE32 [] (CRC32.calculate body)
  set post := encodeLog (chainHead .zero 0 (rs.take (i + 1))) (UInt64.ofNat (i + 1)) (rs.drop (i + 1))
  set new := putLE32 (putLE32 [] keyLen) valueLen with hnew
  have hcrc : stored.length = crcSize := by simp [stored, crcSize]
  have hnewlen : new.length = 8 := by simp [hnew]
  have hlen : entryFixedSize ≤ body.length := by
    rw [hbody, LogRecord.length_body]
    omega
  have h33 : entryFixedSize = 33 := rfl
  have hwithin : offKeyLen + new.length ≤ body.length := by
    rw [hnewlen]
    exact (by decide : offKeyLen + 8 ≤ entryFixedSize).trans hlen
  have hlog : logOf rs = logOf (rs.take i) ++ (stored ++ (body ++ post)) := by
    rw [haround, LogRecord.encode, List.append_assoc]
  have hfile : relength rs i keyLen valueLen =
      logOf (rs.take i) ++ (stored ++ (overwrite body offKeyLen new ++ post)) := by
    rw [relength, hlog, boundary, overwrite_append_right, ← hcrc, overwrite_append_right,
      overwrite_append_left hwithin]
  have hover := length_overwrite hwithin
  have hfixed : ((stored ++ (overwrite body offKeyLen new ++ post)).drop crcSize).take
      entryFixedSize = (overwrite body offKeyLen new).take entryFixedSize := by
    rw [List.drop_left' hcrc, List.take_append_of_le_length (hover.symm ▸ hlen)]
  have htake : (body.take offKeyLen).length = offKeyLen := by
    rw [List.length_take]
    omega
  have hlengths : lengthFields (overwrite body offKeyLen new) = new := by
    rw [lengthFields, overwrite, List.append_assoc, List.drop_left' htake, List.take_left' hnewlen]
  have hdigits : new =
      LittleEndian.digits 4 keyLen.toNat ++ LittleEndian.digits 4 valueLen.toNat := by
    rw [hnew, putLE32_eq, putLE32_eq, List.nil_append]
  refine ⟨_, hfile, ?_, ?_, ?_, ?_⟩
  · rw [List.length_append, List.length_append, hcrc, hover]
    omega
  · rw [hfixed, keyLen_eq, hlengths, hdigits, getLE32_digits_append]
  · rw [hfixed, valueLen_eq, hlengths, hdigits,
      List.drop_left' (LittleEndian.length_digits 4 _), ← List.append_nil (LittleEndian.digits 4 _),
      getLE32_digits_append]
  · rw [hfixed]
    have hseq : getLE64 ((rs[i].fixed (UInt64.ofNat i)).drop offSeq) = UInt64.ofNat i :=
      fixedFields_seq ..
    rw [← hseq]
    refine getLE64_congr ?_
    have h8 : ∀ b : Bytes, (b.drop offSeq).take 8 = b.take 8 := fun _ => rfl
    rw [h8, h8, List.take_take, overwrite, List.append_assoc,
      List.take_append_of_le_length (by rw [htake]; decide), List.take_take, hbody, LogRecord.body,
      List.append_assoc, List.append_assoc, List.take_append_of_le_length
        (by simp [h33, offKeyLen, offEpoch, offTsHigh, offTsLow, offSeq])]
    rfl

/-- An entry whose lengths run past the end of the file is taken for a torn one. -/
theorem readEntry_past_end {prev : Sha256Digest} {seq : UInt64} {rest : Bytes}
    (hlen : crcSize + entryFixedSize ≤ rest.length)
    (hk : getLE32 (((rest.drop crcSize).take entryFixedSize).drop offKeyLen) = keyLen)
    (hv : getLE32 (((rest.drop crcSize).take entryFixedSize).drop offValueLen) = valueLen)
    (hover : ¬(keyLen > kMaxFieldSize ∨ valueLen > kMaxFieldSize))
    (hpast : rest.length < crcSize + (entryFixedSize + keyLen.toNat + valueLen.toNat + hashSize)) :
    readEntry prev seq rest = .torn := by
  rw [readEntry, if_neg (by omega)]
  simp only [hk, hv]
  rw [if_neg hover, neededSize_eq, if_pos (by omega)]

/-- The loop body refuses an entry with the expected sequence number exactly if its lengths are
given away. -/
theorem readEntry_failed_iff {prev : Sha256Digest} {seq : UInt64} {rest : Bytes}
    (hlen : crcSize + entryFixedSize ≤ rest.length)
    (hk : getLE32 (((rest.drop crcSize).take entryFixedSize).drop offKeyLen) = keyLen)
    (hv : getLE32 (((rest.drop crcSize).take entryFixedSize).drop offValueLen) = valueLen)
    (hseq : getLE64 (((rest.drop crcSize).take entryFixedSize).drop offSeq) = seq) :
    (∃ status, readEntry prev seq rest = .failed status) ↔
      LengthsRefused prev keyLen valueLen rest := by
  by_cases hover : keyLen > kMaxFieldSize ∨ valueLen > kMaxFieldSize
  · have hread : readEntry prev seq rest = .failed .malformed := by
      rw [readEntry, if_neg (by omega)]
      simp only [hk, hv]
      rw [if_pos hover]
    exact ⟨fun _ => hover.imp_right .inl, fun _ => ⟨_, hread⟩⟩
  have hover' := not_or.1 hover
  rw [LengthsRefused, or_iff_right hover'.1, or_iff_right hover'.2]
  by_cases hfit : crcSize + (entryFixedSize + keyLen.toNat + valueLen.toNat + hashSize) ≤ rest.length
  swap
  · rw [readEntry_past_end hlen hk hv hover (not_le.1 hfit)]
    refine ⟨?_, fun h => absurd h.1 hfit⟩
    rintro ⟨_, h⟩
    cases h
  · rw [and_iff_right hfit]
    set body := (rest.drop crcSize).take
      (entryFixedSize + keyLen.toNat + valueLen.toNat + hashSize) with hbody
    have hblen : body.length = entryFixedSize + keyLen.toNat + valueLen.toNat + hashSize := by
      rw [hbody, List.length_take, List.length_drop]
      omega
    have hfixed : (rest.drop crcSize).take entryFixedSize = body.take entryFixedSize := by
      rw [hbody, List.take_take, Nat.min_eq_left (by omega)]
    rw [hfixed, keyLen_eq] at hk
    rw [hfixed, valueLen_eq] at hv
    rw [hfixed] at hseq
    have hcrc : (rest.take crcSize).length = crcSize := by
      rw [List.length_take]
      omega
    have hstored : getLE32 (rest.take crcSize) = getLE32 rest :=
      getLE32_congr (by rw [List.take_take]; rfl)
    have hrest : rest.take crcSize ++ body ++ rest.drop (crcSize + body.length) = rest := by
      rw [hblen, hbody, List.append_assoc, take_append_drop_take, List.take_append_drop]
    have hread := readEntry_parts prev seq (rest.drop (crcSize + body.length)) hcrc
      (hk ▸ hover'.1) (hv ▸ hover'.2) (by rw [hk, hv]; exact hblen)
    rw [hrest, hk, hv, verifyEntry, parts_append, hstored, hseq] at hread
    rw [hread]
    by_cases hc : CRC32.calculate body = getLE32 rest
    · rw [if_neg (not_not.2 hc)]
      by_cases hh : (chainHash prev (body.take entryFixedSize)
          ((body.drop entryFixedSize).take keyLen.toNat)
          ((body.drop (entryFixedSize + keyLen.toNat)).take valueLen.toNat)).toList =
          body.drop (entryFixedSize + keyLen.toNat + valueLen.toNat)
      · rw [if_neg (not_not.2 hh), if_neg (not_not.2 rfl)]
        refine ⟨?_, fun h => h.elim (absurd hc) (absurd hh)⟩
        rintro ⟨_, h⟩
        cases h
      · rw [if_pos hh]
        exact ⟨fun _ => .inr hh, fun _ => ⟨_, rfl⟩⟩
    · rw [if_pos hc]
      exact ⟨fun _ => .inl hc, fun _ => ⟨_, rfl⟩⟩

theorem length_relength (hfits : ∀ r ∈ rs, r.Fits) (hi : i < rs.length) :
    (relength rs i keyLen valueLen).length = (logOf rs).length := by
  refine length_overwrite ?_
  have hsucc := boundary_succ hfits hi
  have hle : boundary rs (i + 1) ≤ (logOf rs).length :=
    boundary_length rs ▸ boundary_mono hfits hi
  have hsize := rs[i].size_ge
  have hconst : crcSize + offKeyLen + 8 ≤ crcSize + entryFixedSize + hashSize := by decide
  have hnew : (putLE32 (putLE32 [] keyLen) valueLen).length = 8 := by simp
  omega

/-- A walk that gets past entry `i` reports nothing at its offset. -/
theorem not_reported {rest : Bytes} (hfits : ∀ r ∈ rs, r.Fits) (hi : i ≤ rs.length)
    (hread : ¬∃ status, readEntry (chainHead .zero 0 (rs.take i)) (UInt64.ofNat i) rest =
      .failed status)
    (hsize : (logOf (rs.take i) ++ rest).length < 2 ^ 63) :
    ¬ReportedAt (boundary rs i) ((walkFile (logOf (rs.take i) ++ rest)).result
      (logOf (rs.take i) ++ rest).length) := by
  have hlen : (rs.take i).length = i := List.length_take_of_le hi
  rw [walkFile_logOf_append (fits_take hfits i), hlen]
  by_cases hne : rest = []
  · subst hne
    rw [walk_nil]
    rintro ⟨h, -⟩
    simp [Walk.result] at h
  cases hentry : readEntry (chainHead .zero 0 (rs.take i)) (UInt64.ofNat i) rest with
  | failed status => exact absurd ⟨status, hentry⟩ hread
  | torn =>
    rw [walk_torn hentry hne]
    rintro ⟨h, -⟩
    simp [Walk.result] at h
  | entry r computed =>
    rw [walk_entry hentry]
    obtain ⟨-, hbytes, -⟩ := walk_exact computed (UInt64.ofNat i + 1) (rest.drop r.size)
    generalize walk computed (UInt64.ofNat i + 1) (rest.drop r.size) = w at hbytes ⊢
    rintro ⟨h, hoff⟩
    cases hstop : w.stop with
    | clean => simp [Walk.result, hstop] at h
    | torn => simp [Walk.result, hstop] at h
    | failed status =>
      simp only [Walk.result, hstop, boundary] at hoff
      have hrest := congrArg List.length hbytes
      have hsize0 := r.size_pos
      have hle := (readEntry_exact hentry).2.2.1
      rw [List.length_append, List.length_drop] at hrest
      rw [List.length_append] at hsize hoff
      rw [UInt64.toNat_ofNat_of_lt' (by rw [UInt64.size]; omega)] at hoff
      omega

/-- **When a damaged length costs no entries.**  `verify` and `recover` report overwritten lengths at
their entry and leave the file alone exactly if one of the lengths exceeds the cap, or the entry
still ends within the file and its CRC or chain hash does not fit what the lengths make it cover.
Lengths under the cap that run past the end of the file are taken for a torn tail. -/
theorem length_damage_iff {p : Path} {fs : FileSystem} {wal : WAL} (hfits : ∀ r ∈ rs, r.Fits)
    (hi : i < rs.length) (hsize : (logOf rs).length < 2 ^ 63) (hfd : wal.fd = some p)
    (hfs : fs p = some (relength rs i keyLen valueLen)) :
    (ReportedAt (boundary rs i) (run posix wal.verify fs).1 ∧ (run posix wal.verify fs).2 = fs ∧
      ∀ (σ : Type) (visitor : Visitor σ) (m : Option UInt64) (s : σ),
        ReportedAt (boundary rs i) (run posix (wal.recover visitor m s) fs).1.1 ∧
          (run posix (wal.recover visitor m s) fs).2 = fs) ↔
      GivenAway rs i keyLen valueLen := by
  obtain ⟨rest, hfile, hlen, hk, hv, hseq⟩ := relength_eq keyLen valueLen hfits hi
  have hsize' : (logOf (rs.take i) ++ rest).length < 2 ^ 63 := by
    rw [← hfile, length_relength hfits hi]
    exact hsize
  have hdrop : (relength rs i keyLen valueLen).drop (boundary rs i) = rest := by
    rw [hfile, boundary, List.drop_left' rfl]
  rw [GivenAway, hdrop, ← readEntry_failed_iff hlen hk hv hseq]
  constructor
  · rintro ⟨hreported, -⟩
    by_contra hread
    rw [run_verify hfd hfs, hfile] at hreported
    exact not_reported hfits hi.le hread hsize' hreported
  · rintro ⟨status, hread⟩
    obtain ⟨hverify, hrecover⟩ := run_stopped hfits hi.le ⟨rest, hfile, hread⟩ hfd hfs
    have hreported : ReportedAt (boundary rs i) (refusal rs i status) := by
      refine ⟨(readEntry_failed hread).symm, UInt64.toNat_ofNat_of_lt' ?_⟩
      rw [List.length_append, ← boundary] at hsize'
      rw [UInt64.size]
      omega
    rw [hverify]
    refine ⟨hreported, rfl, fun σ visitor m s => ?_⟩
    rw [hrecover]
    exact ⟨hreported, rfl⟩

theorem length_damage_iff_over :
    let rs : List LogRecord := [⟨.put, [107], [118], 7, 0⟩, ⟨.put, [107], [119], 8, 0⟩]
    ReportedAt (boundary rs 0) (run posix (WAL.fresh "a" 1).verify
      (FileSystem.put (fun _ => none) "a" (relength rs 0 1 0xFFFFFFFF))).1 := by
  intro rs
  have hfits : ∀ r ∈ rs, r.Fits := by decide
  exact ((length_damage_iff hfits (by decide) (by rw [length_logOf hfits]; decide) rfl
    (FileSystem.put_self ..)).2 (.inr (.inl (by decide)))).1

/-- A length under the cap that runs past the end of the file: the log is taken for torn, and
`recover` cuts off both of its entries. -/
theorem length_damage_cut :
    let rs : List LogRecord := [⟨.put, [107], [118], 7, 0⟩, ⟨.put, [107], [119], 8, 0⟩]
    let fs := FileSystem.put (fun _ => none) "a" (relength rs 0 1 1000)
    (run posix (WAL.fresh "a" 1).verify fs).1.status = .truncatedTail ∧
      (run posix ((WAL.fresh "a" 1).recover (fun _ key _ _ keys => key :: keys) none []) fs).2 "a" =
        some (logOf []) := by
  intro rs fs
  have hfits : ∀ r ∈ rs, r.Fits := by decide
  have hi : 0 < rs.length := by decide
  obtain ⟨rest, hfile, hlen, hk, hv, -⟩ := relength_eq 1 1000 hfits hi
  have hsize : rest.length = 142 := by
    have h := congrArg List.length hfile
    rw [length_relength hfits hi, length_logOf hfits, List.length_append, List.take_zero,
      length_logOf (by simp)] at h
    simp only [rs, LogRecord.size, List.map_cons, List.map_nil, List.sum_cons, List.sum_nil] at h
    have hconst : crcSize = 4 ∧ entryFixedSize = 33 ∧ hashSize = 32 := ⟨rfl, rfl, rfl⟩
    simp only [List.length_cons, List.length_nil] at h
    omega
  have hread : readEntry .zero 0 rest = .torn :=
    readEntry_past_end hlen hk hv (by decide) (by rw [hsize]; decide)
  have hwalk : walkFile (relength rs 0 1 1000) = ⟨[], .zero, 0, rest, .torn⟩ := by
    have hne : rest ≠ [] := by
      rintro rfl
      cases hsize
    rw [hfile, List.take_zero, walkFile_logOf_append (by simp)]
    change ({ walk .zero 0 rest with records := [] ++ (walk .zero 0 rest).records } : Walk) = _
    rw [walk_torn hread hne]
    rfl
  have hfs : fs "a" = some (relength rs 0 1 1000) := FileSystem.put_self ..
  rw [run_verify rfl hfs, run_recover rfl hfs, hwalk]
  refine ⟨rfl, ?_⟩
  dsimp only
  rw [FileSystem.put_self, Walk.left, if_pos rfl, hfile, List.take_zero, List.length_append,
    Nat.add_sub_cancel, List.take_left' rfl]

end Lengths

end LiteSpeedStore
