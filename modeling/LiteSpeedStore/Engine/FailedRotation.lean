import LiteSpeedStore.Engine.FailedSnapshot
import LiteSpeedStore.Wal.Damage

/-!
# A rotation that fails

Behind the saved image `reset` empties the log and writes a new header.  When one of its calls fails,
the object goes on with the sequence number and the head of the old log, whatever there is in the
file by then.

* `failed_rotation` : what a rotation that fails leaves behind.
* `headerless_refused` : an entry at the start of a file is no header.
* `failed_rotation_iff` : the failures that lose nothing.
* `failed_rotation_loses` : a value that locks the store.
-/

namespace LiteSpeedStore

open Prog StorageEngine

/-- The failure points of `reset`. -/
inductive RotationPoint where
  | ftruncate
  | lseek
  | writeHeader
  | fsyncHeader
deriving DecidableEq

namespace RotationPoint

/-- The calls that fail at this point. -/
def Fails (p : Path) : RotationPoint → Call → Prop
  | ftruncate, c => c = .ftruncate p 0
  | lseek, c => c = .lseek p 0 .set
  | writeHeader, c => ∃ data, c = .write p data
  | fsyncHeader, c => c = .fsync p

/-- Only this point may fail, and a write may stop anywhere. -/
def faults (p : Path) (point : RotationPoint) : Faults := ⟨point.Fails p, 0⟩

/-- What a failure at this point makes of the files. -/
def Leaves (p : Path) (fs fs' : FileSystem) : RotationPoint → Prop
  | ftruncate => fs' = fs
  | lseek => fs' = fs.put p []
  | writeHeader => ∃ k < kHeaderSize, fs' = fs.put p (walHeader.take k)
  | fsyncHeader => fs' = fs.put p walHeader

end RotationPoint

variable {host : ByteOrder} {p : Path} {maxHistoryPerKey : ℕ} {fs fs' : FileSystem}
  {engine engine' : StorageEngine} {wal : WAL} {rs : List LogRecord} {orders : Orders}
  {point : RotationPoint} {data : Data}

/-- The engine when the image is in place and the log could not be started anew. -/
def StorageEngine.unrotated (engine : StorageEngine) (wal : WAL) : StorageEngine :=
  { engine with snapshotEpoch := some wal.epoch, wal := some (wal.setEpoch (wal.epoch + 1)) }

/-- **A rotation that failed** leaves the new image in place, and the object where it was in the old
log. -/
theorem failed_rotation (h : Attached p maxHistoryPerKey fs rs engine wal)
    (hthrew : Exec (point.faults p).env (engine.snapshot orders) fs
      (.error engine.rotationFailure, engine') fs') :
    engine' = engine.unrotated wal ∧ point.Leaves p (engine.saved wal orders fs) fs' := by
  have hw : wp (point.faults p).env (engine.snapshot orders)
      (fun result fs' => result.1 = .error engine.rotationFailure →
        result.2 = engine.unrotated wal ∧ point.Leaves p (engine.saved wal orders fs) fs')
      (fun _ => True) fs := by
    have hsaved : ∀ {P : Prop}, (.error engine.saveFailure : Except Exception Unit) =
        .error engine.rotationFailure → P := fun h =>
      absurd (Except.error.inj h) (saveFailure_ne _ _)
    refine wp_snapshotAny h.log h.fd h.path h.file (fun _ _ => trivial) trivial
      (fun _ _ => trivial) (fun h => by cases h) (fun _ _ _ => hsaved) (fun _ => hsaved) ?_ ?_ ?_ ?_
    · intro hmay _
      cases point with
      | ftruncate => exact ⟨rfl, rfl⟩
      | writeHeader => exact absurd hmay (by rintro ⟨_, ⟨⟩⟩)
      | _ => exact absurd hmay (by rintro ⟨⟩)
    · intro hmay _
      cases point with
      | lseek => exact ⟨rfl, rfl⟩
      | writeHeader => exact absurd hmay (by rintro ⟨_, ⟨⟩⟩)
      | _ => exact absurd hmay (by rintro ⟨⟩)
    · rintro ⟨d, hmay⟩ k - hk -
      cases point with
      | writeHeader => exact ⟨rfl, k, hk, rfl⟩
      | _ => exact absurd hmay (by rintro ⟨⟩)
    · intro hmay _
      cases point with
      | fsyncHeader => exact ⟨rfl, rfl⟩
      | writeHeader => exact absurd hmay (by rintro ⟨_, ⟨⟩⟩)
      | _ => exact absurd hmay (by rintro ⟨⟩)
  exact wp_exec hw hthrew rfl

/-! ### Failures that lose nothing -/

/-- The object is where the file ends, and the image covers what is in the file. -/
theorem related_unrotated {rs' : List LogRecord}
    (hstands : StandsFor True host maxHistoryPerKey (fs.image p) rs engine.data)
    (hattached : Attached p maxHistoryPerKey fs rs engine wal)
    (hepoch : wal.epoch = nextEpoch (fs.image p)) (hlimits : engine.WithinLimits)
    (hsame : (engine.saved wal orders fs).SameBut p fs') (hsub : ∀ r ∈ rs', r ∈ rs)
    (hattached' : Attached p maxHistoryPerKey fs' rs' (engine.unrotated wal)
      (wal.setEpoch (wal.epoch + 1))) :
    Related True host p maxHistoryPerKey ⟨some (engine.unrotated wal), fs'⟩ engine.data := by
  have himage : fs'.image p = some (engine.image wal orders) := by
    rw [image_sameBut hsame, image_saved orders hattached hstands.good hlimits]
  have hepochs : ∀ r ∈ rs', r.epoch ≤ wal.epoch := by
    intro r hr
    rw [hepoch]
    exact hstands.epochs trivial r (hsub r hr)
  refine ⟨rs', ?_, rfl, _, hattached', ?_⟩
  · dsimp only
    rw [himage]
    exact .save hstands.good hepochs (hlimits.epochs wal hattached.log)
  · dsimp only
    rw [himage]
    rfl

/-! ### Failures that lock the store -/

/-- A value whose key cannot be taken for the lengths of an entry. -/
def lockingPut : Mutation := .put (List.replicate 16 255) ⟨[], 0, 0⟩

theorem lockingPut_fits : lockingPut.Fits := by decide

/-- **An entry at the start of a file is no header**; or the log behind it is refused. -/
theorem headerless_refused (epoch : UInt64) (prev : Sha256Digest) (seq : UInt64) :
    Refused ((lockingPut.entry host epoch).encode prev seq) := by
  generalize hr : lockingPut.entry host epoch = r
  have hkey : r.key = List.replicate 16 255 := by rw [← hr]; rfl
  have hlen : 4 + 33 + 16 + 32 ≤ (r.encode prev seq).length := by
    rw [LogRecord.length_encode, LogRecord.size, hkey, List.length_replicate]
    simp only [crcSize, entryFixedSize, hashSize, offType, offValueLen, offKeyLen, offEpoch,
      offTsHigh, offTsLow, offSeq]
    omega
  -- where the lengths of an entry behind a header would be, there is a part of the key
  have hbehind : ((r.encode prev seq).drop 44).take 4 = List.replicate 4 255 := by
    have hfixed : (putLE32 [] (CRC32.calculate (r.body prev seq)) ++ r.fixed seq).length = 37 := by
      rw [List.length_append, LogRecord.length_fixed, length_putLE32]
      rfl
    have hsplit : r.encode prev seq ++ [] = _ := encode_append_eq []
    rw [List.append_nil, List.append_nil] at hsplit
    rw [hsplit, show 44 = 37 + 7 from rfl, ← List.drop_drop, List.drop_left' hfixed, hkey,
      List.append_assoc, List.drop_append_of_le_length (by decide),
      List.take_append_of_le_length (by decide)]
    decide
  have hkeyLen : getLE32 (((((r.encode prev seq).drop kHeaderSize).drop crcSize).take
      entryFixedSize).drop offKeyLen) = 0xFFFFFFFF := by
    rw [getLE32_congr (q := List.replicate 4 255)]
    · decide
    · rw [List.drop_take, List.drop_drop, List.drop_drop, List.take_take]
      exact hbehind
  refine ⟨List.ne_nil_of_length_pos (by omega), fun _ => ⟨.malformed, ?_⟩⟩
  have hshort : ¬((r.encode prev seq).drop kHeaderSize).length < crcSize + entryFixedSize := by
    rw [List.length_drop]
    simp only [kHeaderSize, crcSize, entryFixedSize, offType, offValueLen, offKeyLen, offEpoch,
      offTsHigh, offTsLow, offSeq]
    omega
  have hread : readEntry .zero 0 ((r.encode prev seq).drop kHeaderSize) = .failed .malformed := by
    rw [readEntry, if_neg hshort]
    dsimp only
    rw [hkeyLen, if_pos (.inl (by decide))]
  rw [walkFile, walk_failed hread]

/-- An entry of the old chain behind a new header is out of place. -/
theorem misplaced_refused {r : LogRecord} (hfits : r.Fits) (prev : Sha256Digest) {seq : UInt64}
    (hne : seq ≠ 0) : Refused (walHeader ++ r.encode prev seq) := by
  refine ⟨List.append_ne_nil_of_left_ne_nil (by decide) _, fun _ => ⟨.tampered, ?_⟩⟩
  have hread : readEntry .zero 0 (r.encode prev seq ++ []) = .failed .tampered :=
    readEntry_displaced hfits hne []
  rw [List.append_nil] at hread
  rw [walkFile_header, walk_failed hread]

/-! ### All failures -/

/-- If a change behind these bytes makes the log one that is refused, the store can lose what it
holds. -/
theorem not_keeps_change {b : Bytes} {op : Op} {μ : Mutation} (hop : op.mutation = some μ)
    (hμ : μ.Fits) (hwal : engine.wal = some wal) (hfd : wal.fd = some p) (hfile : fs p = some b)
    (hbad : Refused (b ++ (μ.entry host wal.epoch).encode wal.headHash wal.seq)) :
    ¬Keeps host p maxHistoryPerKey ⟨some engine, fs⟩ data := by
  intro hkeeps
  have hset : run posix (engine.call host ⟨Order.any, Order.any⟩ op) fs = _ :=
    run_change hop hwal hfd hfile hμ
  have hne : op ≠ .snapshot := by
    rintro rfl
    cases hop
  have hreturned : (sound host p maxHistoryPerKey).step ⟨some engine, fs⟩
      (.returned op (op.answer engine.data)) _ :=
    step_sound (fun h => hne (Option.some.inj h)) (.returned (exec_of_run Faults.allows_posix hset))
  obtain ⟨data', -, hreopens⟩ := hkeeps _ _ (.single hreturned)
  refine not_reopens ?_ hreopens
  dsimp only
  rw [FileSystem.bytes_put]
  exact hbad

/-- The value that locks the store. -/
theorem not_keeps_locking {b : Bytes} (hwal : engine.wal = some wal) (hfd : wal.fd = some p)
    (hfile : fs p = some b)
    (hbad : Refused (b ++ (lockingPut.entry host wal.epoch).encode wal.headHash wal.seq)) :
    ¬Keeps host p maxHistoryPerKey ⟨some engine, fs⟩ data :=
  have hop : (Op.set (List.replicate 16 255) [] 0 0).mutation = some lockingPut := rfl
  not_keeps_change hop lockingPut_fits hwal hfd hfile hbad

theorem ofNat_length_ne_zero (hfits : ∀ r ∈ rs, r.Fits) (hsize : (logOf rs).length < 2 ^ 63)
    (hne : rs ≠ []) : UInt64.ofNat rs.length ≠ 0 := by
  intro h
  have hlt := length_records_lt hfits hsize rfl
  have hzero := congrArg UInt64.toNat h
  rw [UInt64.toNat_ofNat', Nat.mod_eq_of_lt hlt, UInt64.toNat_zero] at hzero
  exact hne (List.length_eq_zero_iff.1 hzero)

/-- What follows from a rotation that failed, in a state in which the engine is in step with its
files. -/
theorem keeps_unrotated_iff
    (h : Related True host p maxHistoryPerKey ⟨some engine, fs⟩ data)
    (hlimits : engine.WithinLimits) (hsize : (fs.bytes p).length < 2 ^ 63)
    (hthrew : Exec (point.faults p).env (engine.snapshot orders) fs
      (.error engine.rotationFailure, engine') fs') :
    Keeps host p maxHistoryPerKey ⟨some engine', fs'⟩ data ↔
      point = .ftruncate ∨ point = .fsyncHeader ∧ fs.bytes p = walHeader := by
  obtain ⟨rs, hstands, rfl, wal, hattached, hepoch⟩ := h
  obtain ⟨rfl, hleaves⟩ := failed_rotation hattached hthrew
  have hfd : (wal.setEpoch (wal.epoch + 1)).fd = some p := hattached.fd
  have hsame := fun b => FileSystem.sameBut_put p (engine.saved wal orders fs) b
  have hbytes : fs.bytes p = logOf rs := FileSystem.bytes_of_some hattached.file
  cases point with
  | ftruncate =>
    -- the old log is still there, and the object at its end
    obtain rfl := hleaves
    refine ⟨fun _ => .inl rfl, fun _ => Related.keeps ?_⟩
    exact related_unrotated hstands hattached hepoch hlimits (FileSystem.sameBut_refl p _)
      (fun r hr => hr) ⟨hattached.fits, by rw [saved_self orders hattached, hattached.file], rfl,
        hfd, hattached.seq, hattached.head, hattached.path, hattached.cap⟩
  | lseek =>
    obtain rfl := hleaves
    refine ⟨fun hkeeps => absurd hkeeps (not_keeps_locking rfl hfd (FileSystem.put_self ..) ?_), ?_⟩
    · rw [List.nil_append]
      exact headerless_refused ..
    · rintro (⟨⟨⟩⟩ | ⟨⟨⟨⟩⟩, -⟩)
  | writeHeader =>
    obtain ⟨k, hk, rfl⟩ := hleaves
    refine ⟨fun hkeeps => ?_, by rintro (⟨⟨⟩⟩ | ⟨⟨⟨⟩⟩, -⟩)⟩
    rcases Nat.eq_zero_or_pos k with rfl | hpos
    · refine absurd hkeeps (not_keeps_locking rfl hfd (FileSystem.put_self ..) ?_)
      rw [List.take_zero, List.nil_append]
      exact headerless_refused ..
    · -- not even what was there can be restored
      obtain ⟨data', -, hreopens⟩ := hkeeps _ _ (.nil _)
      refine absurd hreopens (not_reopens ?_)
      dsimp only
      rw [FileSystem.bytes_put]
      exact partialHeader_refused hpos hk
  | fsyncHeader =>
    obtain rfl := hleaves
    constructor
    · intro hkeeps
      refine .inr ⟨rfl, ?_⟩
      by_contra hne
      have hrs : rs ≠ [] := by
        rintro rfl
        exact hne (by rw [hbytes, logOf_nil])
      refine not_keeps_locking rfl hfd (FileSystem.put_self ..) ?_ hkeeps
      refine misplaced_refused (entry_fits lockingPut_fits _) _ ?_
      rw [setEpoch_seq, hattached.seq]
      exact ofNat_length_ne_zero hattached.fits (hbytes ▸ hsize) hrs
    · rintro (⟨⟨⟩⟩ | ⟨-, hempty⟩)
      -- the object is at the start of a chain, as in a new file
      have hrs : rs = [] := by
        rw [← hattached.logged.records, hempty, ← logOf_nil, ← List.append_nil (logOf []),
          walkFile_tornTail (by simp) (tornTail_nil [])]
      subst hrs
      refine Related.keeps (related_unrotated hstands hattached hepoch hlimits (hsame _)
        (fun r hr => hr) ⟨by simp, ?_, rfl, hfd, hattached.seq, hattached.head, hattached.path,
          hattached.cap⟩)
      rw [FileSystem.put_self, logOf_nil]

/-- A snapshot throws when its log cannot be started anew. -/
theorem exec_snapshot_of_reset {F : Faults} (hwal : engine.wal = some wal)
    (hreset : Exec F.env (wal.setEpoch (wal.epoch + 1)).reset (engine.saved wal orders fs)
      (false, wal.setEpoch (wal.epoch + 1)) fs') :
    Exec F.env (engine.snapshot orders) fs (.error engine.rotationFailure, engine.unrotated wal)
      fs' := by
  rw [snapshot, hwal]
  exact exec_bind.2 ⟨true, _, Snapshot.exec_save _, exec_bind.2 ⟨_, _, hreset, .ret _ _⟩⟩

/-- The log cannot be emptied. -/
theorem exec_reset_ftruncate (hfd : wal.fd = some p) :
    Exec (RotationPoint.ftruncate.faults p).env wal.reset fs (false, wal) fs := by
  have hfail : (RotationPoint.ftruncate.faults p).env.step (.ftruncate p 0) fs false fs :=
    Faults.step_fail rfl rfl
  rw [WAL.reset, hfd]
  exact .call (Faults.step_ok rfl) (.call hfail (.ret _ _))

/-- The log is emptied, and the header stops after `k` bytes. -/
theorem exec_reset_cut {b : Bytes} {k : ℕ} (hfd : wal.fd = some p) (hfs : fs p = some b)
    (hk : k < kHeaderSize) : Exec (RotationPoint.writeHeader.faults p).env wal.reset fs (false, wal)
      (fs.put p (walHeader.take k)) := by
  have hwrite : Exec (RotationPoint.writeHeader.faults p).env (writeExact p walHeader) _ false _ :=
    exec_writeExact_cut (fun d => ⟨d, rfl⟩) rfl (FileSystem.put_self fs p []) hk
  rw [FileSystem.put_put, List.nil_append] at hwrite
  have hheader : Exec (RotationPoint.writeHeader.faults p).env (WAL.writeHeader p) (fs.put p [])
      false (fs.put p (walHeader.take k)) := exec_bind.2 ⟨false, _, hwrite, .ret _ _⟩
  have htrunc : posix (.ftruncate p 0) fs = (true, fs.put p []) := by
    simp only [posix, lt_irrefl, if_false, FileSystem.bytes_of_some hfs, Int.toNat_zero,
      resize_of_le (Nat.zero_le _), List.take_zero]
  rw [WAL.reset, hfd]
  refine .call (Faults.step_ok rfl) (.call (Faults.step_ok htrunc) (.call (Faults.step_ok rfl) ?_))
  have hrest : Exec (RotationPoint.writeHeader.faults p).env (do
      let written ← WAL.writeHeader p
      if written then ret (true, wal.rewound) else ret (false, wal)) (fs.put p []) (false, wal)
      (fs.put p (walHeader.take k)) := exec_bind.2 ⟨false, _, hheader, .ret _ _⟩
  rw [WAL.rewound, hfd] at hrest
  exact hrest

end LiteSpeedStore
