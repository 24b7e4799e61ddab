import LiteSpeedStore.Wal.Reader
import LiteSpeedStore.Sha256.Streaming
import LiteSpeedStore.Theory.HashChain

/-!
# Checkpoints bind the log

The chain hash of an entry covers everything in the entry but the CRC, which it determines.  A log
is therefore bound by the number of its entries and its head, and by its last entry, as long as
SHA-256 has no collision among what was hashed.

* `bits_entry_hash` : the chain hash of an entry is a SHA-256.
* `payload_inj` : what is hashed behind the previous digest decides the record and its sequence
  number.
* `checkpoint_binding` : two logs that verify with one checkpoint have the same entries.
-/

namespace LiteSpeedStore

open Prog WAL

/-- What the chain hash of an entry covers behind the previous digest. -/
def LogRecord.payload (seq : UInt64) (r : LogRecord) : Bytes := r.fixed seq ++ r.key ++ r.value

/-- The payloads along a chain. -/
def payloads : UInt64 → List LogRecord → List Bytes
  | _, [] => []
  | seq, r :: rs => r.payload seq :: payloads (seq + 1) rs

/-- The string that is hashed for an entry. -/
def chainLink (prev : Sha256Digest) (payload : Bytes) : Bytes := prev.toList ++ payload

/-- What the walk along a log hashes for the entries that verify. -/
def hashedInputs (b : Bytes) : List Bytes :=
  HashChain.inputs chainLink SHA256.hash .zero (payloads 0 (walkFile b).records)

section Payloads

variable {r r' : LogRecord} {seq seq' : UInt64} {prev : Sha256Digest} {rs rs' : List LogRecord}

/-- The four updates hash one string. -/
theorem hash_eq : r.hash prev seq = SHA256.hash (chainLink prev (r.payload seq)) := by
  rw [LogRecord.hash, chainHash, SHA256.update_append, SHA256.update_append, SHA256.update_append,
    SHA256.hash, chainLink, LogRecord.payload, List.append_assoc]

/-- The chain hash of an entry is the SHA-256 of the digest before it and the payload. -/
theorem bits_entry_hash : BigEndian.bits (r.hash prev seq).toList =
    Fips180.sha256 (BigEndian.bits (chainLink prev (r.payload seq))) := by
  rw [hash_eq, SHA256.bits_hash]

theorem chainHead_eq :
    chainHead prev seq rs = HashChain.head chainLink SHA256.hash prev (payloads seq rs) := by
  induction rs generalizing prev seq with
  | nil => rfl
  | cons r rs ih => rw [chainHead, ih, hash_eq, payloads, HashChain.head]

theorem length_payloads : (payloads seq rs).length = rs.length := by
  induction rs generalizing seq with
  | nil => rfl
  | cons r rs ih => rw [payloads, List.length_cons, ih, List.length_cons]

theorem payloads_concat : payloads seq (rs ++ [r]) =
    payloads seq rs ++ [r.payload (seq + UInt64.ofNat rs.length)] := by
  induction rs generalizing seq with
  | nil => simp [payloads]
  | cons r' rs ih =>
    rw [List.cons_append, payloads, ih, payloads, add_succ_ofNat, List.cons_append,
      List.length_cons]

theorem chainLink_injective : Function.Injective2 chainLink := by
  intro d d' x x' h
  obtain ⟨hd, hx⟩ := List.append_inj h (by rw [Vector.length_toList, Vector.length_toList])
  exact ⟨Vector.toList_inj.1 hd, hx⟩

/-- The hashed string is unambiguous: the lengths of key and value are part of it. -/
theorem payload_inj (hr : r.Fits) (hr' : r'.Fits) (h : r.payload seq = r'.payload seq') :
    seq = seq' ∧ r = r' := by
  rw [LogRecord.payload, LogRecord.payload, List.append_assoc, List.append_assoc] at h
  obtain ⟨hfixed, hrest⟩ := List.append_inj h (by simp)
  have hfields : ∀ f : Bytes → UInt32, f (r.fixed seq) = f (r'.fixed seq') :=
    fun f => congrArg f hfixed
  have hkey := congrArg UInt32.toNat (hfields fun b => getLE32 (b.drop offKeyLen))
  have hvalue := congrArg UInt32.toNat (hfields fun b => getLE32 (b.drop offValueLen))
  have hlow := hfields fun b => getLE32 (b.drop offTsLow)
  have hhigh := hfields fun b => getLE32 (b.drop offTsHigh)
  have hseq := congrArg (fun b : Bytes => getLE64 (b.drop offSeq)) hfixed
  have hepoch := congrArg (fun b : Bytes => getLE64 (b.drop offEpoch)) hfixed
  have htype := congrArg (fun b : Bytes => b.getD offType 0) hfixed
  simp only [fixed_keyLen, fixed_valueLen, LogRecord.toNat_keyLen hr, LogRecord.toNat_keyLen hr',
    LogRecord.toNat_valueLen hr, LogRecord.toNat_valueLen hr'] at hkey hvalue
  simp only [LogRecord.fixed, fixedFields_seq, fixedFields_epoch] at hseq hepoch
  simp only [LogRecord.fixed, fixedFields_type] at htype
  have htime : r.timestamp = r'.timestamp := by
    rw [← Int64.toInt64_toUInt64 r.timestamp, ← Int64.toInt64_toUInt64 r'.timestamp,
      ← join_halves r.timestamp.toUInt64, ← join_halves r'.timestamp.toUInt64]
    simp only [LogRecord.fixed, fixedFields_tsLow, fixedFields_tsHigh] at hlow hhigh
    rw [hlow, hhigh]
  obtain ⟨hk, hv⟩ := List.append_inj hrest hkey
  refine ⟨hseq, ?_⟩
  cases r
  cases r'
  simp only [LogRecord.mk.injEq]
  exact ⟨congrArg RecordType.mk htype, hk, hv, htime, hepoch⟩

theorem payloads_inj (hrs : ∀ r ∈ rs, r.Fits) (hrs' : ∀ r ∈ rs', r.Fits)
    (h : payloads seq rs = payloads seq' rs') : rs = rs' := by
  induction rs generalizing rs' seq seq' with
  | nil =>
    cases rs' with
    | nil => rfl
    | cons => cases h
  | cons r rs ih =>
    cases rs' with
    | nil => cases h
    | cons r' rs' =>
      obtain ⟨hhead, htail⟩ := List.cons_eq_cons.1 h
      obtain ⟨-, rfl⟩ :=
        payload_inj (hrs r List.mem_cons_self) (hrs' r' List.mem_cons_self) hhead
      rw [ih (fun r hr => hrs r (List.mem_cons_of_mem _ hr))
        (fun r hr => hrs' r (List.mem_cons_of_mem _ hr)) htail]

/-- A chain of entries ends with its head. -/
theorem head_suffix (hne : rs ≠ []) : (chainHead prev seq rs).toList <:+ encodeLog prev seq rs := by
  induction rs generalizing prev seq with
  | nil => exact absurd rfl hne
  | cons r rs ih =>
    rw [chainHead, encodeLog]
    cases rs with
    | nil =>
      rw [chainHead, encodeLog, List.append_nil, LogRecord.encode, LogRecord.body,
        ← List.append_assoc]
      exact List.suffix_append ..
    | cons r' rs => exact (ih (List.cons_ne_nil _ _)).trans (List.suffix_append ..)

end Payloads

section Checkpoints

variable {b b' : Bytes} {rs : List LogRecord}

theorem hashedInputs_eq (hfits : ∀ r ∈ rs, r.Fits)
    (hb : b.drop kHeaderSize = (logOf rs).drop kHeaderSize) :
    hashedInputs b = HashChain.inputs chainLink SHA256.hash .zero (payloads 0 rs) := by
  rw [hashedInputs, walkFile_chain hfits hb]

/-- Chains with as many entries and one head are equal. -/
theorem records_eq_of_head {ss : List LogRecord} (hfits : ∀ r ∈ rs, r.Fits)
    (hfits' : ∀ r ∈ ss, r.Fits)
    (hfree : HashChain.CollisionFree SHA256.hash
      (HashChain.inputs chainLink SHA256.hash .zero (payloads 0 rs))
      (HashChain.inputs chainLink SHA256.hash .zero (payloads 0 ss)))
    (hlen : rs.length = ss.length) (h : chainHead .zero 0 rs = chainHead .zero 0 ss) : rs = ss := by
  rw [chainHead_eq, chainHead_eq] at h
  have hlen' : (payloads 0 rs).length = (payloads 0 ss).length := by
    rw [length_payloads, length_payloads, hlen]
  exact payloads_inj hfits hfits' (HashChain.head_inj chainLink_injective hfree hlen' h).2

/-- Nonempty chains with one head have as many entries, because the last sequence number is
hashed. -/
theorem length_eq_of_head {ss : List LogRecord} (hfits : ∀ r ∈ rs, r.Fits)
    (hfits' : ∀ r ∈ ss, r.Fits)
    (hfree : HashChain.CollisionFree SHA256.hash
      (HashChain.inputs chainLink SHA256.hash .zero (payloads 0 rs))
      (HashChain.inputs chainLink SHA256.hash .zero (payloads 0 ss)))
    (hne : rs ≠ []) (hne' : ss ≠ []) (hlt : rs.length < 2 ^ 64) (hlt' : ss.length < 2 ^ 64)
    (h : chainHead .zero 0 rs = chainHead .zero 0 ss) : rs.length = ss.length := by
  obtain ⟨rs, r, rfl⟩ := List.eq_nil_or_concat' rs |>.resolve_left hne
  obtain ⟨ss, s, rfl⟩ := List.eq_nil_or_concat' ss |>.resolve_left hne'
  rw [chainHead_eq, chainHead_eq, payloads_concat, payloads_concat] at h
  rw [payloads_concat, payloads_concat] at hfree
  obtain ⟨-, hlast⟩ := HashChain.concat_inj chainLink_injective hfree h
  obtain ⟨hseq, -⟩ := payload_inj (hfits r (by simp)) (hfits' s (by simp)) hlast
  rw [UInt64.zero_add, UInt64.zero_add] at hseq
  have hnat := congrArg UInt64.toNat hseq
  rw [List.length_append, List.length_singleton] at hlt hlt' ⊢
  rw [UInt64.toNat_ofNat_of_lt' (Nat.lt_of_succ_lt hlt),
    UInt64.toNat_ofNat_of_lt' (Nat.lt_of_succ_lt hlt')] at hnat
  rw [hnat, List.length_append, List.length_singleton]

/-- The last entry of a log ends with the head. -/
theorem head_suffix_entry (hfits : ∀ r ∈ rs, r.Fits) (hne : rs ≠ []) :
    (chainHead .zero 0 rs).toList <:+ entryBytes rs (rs.length - 1) ∧
      kHeaderSize < (entryBytes rs (rs.length - 1)).length := by
  obtain ⟨ks, r, rfl⟩ := List.eq_nil_or_concat' rs |>.resolve_left hne
  have hlast : entryBytes (ks ++ [r]) ((ks ++ [r]).length - 1) =
      encodeLog (chainHead .zero 0 ks) (UInt64.ofNat ks.length) [r] := by
    rw [List.length_append, List.length_singleton, Nat.add_sub_cancel,
      entryBytes_eq hfits (by simp), List.take_left' rfl, encodeLog, encodeLog, List.append_nil]
    simp only [List.getElem_append_right (le_refl ks.length), Nat.sub_self, List.getElem_cons_zero]
  rw [hlast, chainHead_append, UInt64.zero_add]
  refine ⟨head_suffix (List.cons_ne_nil _ _), ?_⟩
  have hsize := r.size_ge
  rw [length_encodeLog, List.map_singleton, List.sum_singleton]
  exact lt_of_lt_of_le (by decide) hsize

/-- **Checkpoint binding.**  Two log files that verify with the same number of entries and the same
head have the same bytes behind the header, if SHA-256 has no collision among what the two walks
hash.  A file that verifies and matches the checkpoint exported by the writer of a log, or that ends
in the last entry of that log, has the entries of that log.  (The sizes of files are limited by
`off_t`.) -/
theorem checkpoint_binding {p p' : Path} {fs fs' : FileSystem} {wal wal' : WAL}
    (hfd : wal.fd = some p) (hfs : fs p = some b) (hsize : b.length < 2 ^ 63)
    (hfd' : wal'.fd = some p') (hfs' : fs' p' = some b') (hsize' : b'.length < 2 ^ 63)
    (hfree : HashChain.CollisionFree SHA256.hash (hashedInputs b) (hashedInputs b'))
    (hok : (run posix wal.verify fs).1.status = .ok)
    (hok' : (run posix wal'.verify fs').1.status = .ok) :
    ((run posix wal.verify fs).1.entriesVerified = (run posix wal'.verify fs').1.entriesVerified →
      (run posix wal.verify fs).1.headHash = (run posix wal'.verify fs').1.headHash →
      b.drop kHeaderSize = b'.drop kHeaderSize) ∧
    ∀ rs : List LogRecord, (∀ r ∈ rs, r.Fits) → b = logOf rs →
      (∀ (q : Path) (syncEveryN : ℕ) (fs₀ : FileSystem) (w : WAL), fs₀.bytes q = [] →
        (run posix (writeLog q syncEveryN rs) fs₀).1 = .ok w →
        ⟨(run posix wal'.verify fs').1.entriesVerified, (run posix wal'.verify fs').1.headHash⟩ =
          w.head →
        b'.drop kHeaderSize = b.drop kHeaderSize) ∧
      (rs ≠ [] → entryBytes rs (rs.length - 1) <:+ b' →
        b'.drop kHeaderSize = b.drop kHeaderSize) := by
  rw [run_verify hfd hfs] at hok
  rw [run_verify hfd' hfs'] at hok'
  rw [run_verify hfd hfs, run_verify hfd' hfs']
  obtain ⟨hfits, hb⟩ := records_of_clean (verify_ok_iff_clean.1 hok)
  obtain ⟨hfits', hb'⟩ := records_of_clean (verify_ok_iff_clean.1 hok')
  have hlt := length_records_lt hfits hsize hb
  have hlt' := length_records_lt hfits' hsize' hb'
  have hw := walkFile_chain hfits hb
  have hw' := walkFile_chain hfits' hb'
  rw [hashedInputs, hashedInputs] at hfree
  generalize (walkFile b).records = ss at *
  generalize (walkFile b').records = ss' at *
  -- one number of entries and one head make the chains equal
  have hbind : UInt64.ofNat ss.length = UInt64.ofNat ss'.length →
      chainHead .zero 0 ss = chainHead .zero 0 ss' →
      b.drop kHeaderSize = b'.drop kHeaderSize := by
    intro hcount hhead
    have hnat := congrArg UInt64.toNat hcount
    rw [UInt64.toNat_ofNat_of_lt' hlt, UInt64.toNat_ofNat_of_lt' hlt'] at hnat
    rw [hb, hb', records_eq_of_head hfits hfits' hfree hnat hhead]
  rw [hw, hw']
  refine ⟨hbind, fun rs hrs hlog => ⟨fun q n fs₀ w hnew hrun hcp => ?_, fun hne hsuffix => ?_⟩⟩
  · subst hlog
    have hrecords : rs = ss := by
      have h := congrArg Walk.records ((walkFile_chain hrs rfl).symm.trans hw)
      exact h
    subst hrecords
    obtain ⟨w', hres, -, hhead, -⟩ := wp_run Faults.allows_posix (wp_writeLog (n := 0) hrs hnew)
    rw [hrun, Except.ok.injEq] at hres
    rw [hres, hhead, Checkpoint.mk.injEq] at hcp
    exact (hbind hcp.1.symm hcp.2.symm).symm
  · subst hlog
    have hrecords : rs = ss := by
      have h := congrArg Walk.records ((walkFile_chain hrs rfl).symm.trans hw)
      exact h
    subst hrecords
    obtain ⟨hhead, hlong⟩ := head_suffix_entry hrs hne
    rw [drop_logOf hfits'] at hb'
    have hne' : ss' ≠ [] := by
      rintro rfl
      have hlen := congrArg List.length hb'
      rw [List.length_drop, encodeLog, List.length_nil] at hlen
      have := hsuffix.length_le
      omega
    have hhead' : (chainHead .zero 0 ss').toList <:+ b' :=
      (head_suffix hne').trans (hb' ▸ List.drop_suffix ..)
    have heq : (chainHead .zero 0 rs).toList = (chainHead .zero 0 ss').toList :=
      (List.suffix_of_suffix_length_le (hhead.trans hsuffix) hhead' (by simp)).eq_of_length (by simp)
    have hheads := Vector.toList_inj.1 heq
    have hcount := length_eq_of_head hrs hfits' hfree hne hne' hlt hlt' hheads
    exact (hbind (by rw [hcount]) hheads).symm

theorem checkpoint_binding_flags :
    let log := logOf [⟨.put, [107], [118], -1, 0⟩]
    let flagged := List.replicate kHeaderSize 1 ++ log.drop kHeaderSize
    let verified := (run posix (WAL.fresh "a" 1).verify (FileSystem.put (fun _ => none) "a" log)).1
    let verified' :=
      (run posix (WAL.fresh "a" 1).verify (FileSystem.put (fun _ => none) "a" flagged)).1
    verified.entriesVerified = verified'.entriesVerified → verified.headHash = verified'.headHash →
      log.drop kHeaderSize = flagged.drop kHeaderSize := by
  intro log flagged
  have hfits : ∀ r ∈ [(⟨.put, [107], [118], -1, 0⟩ : LogRecord)], r.Fits := by decide
  have hlen : log.length = 87 := by
    rw [length_logOf hfits]
    rfl
  have hdrop : flagged.drop kHeaderSize = log.drop kHeaderSize := List.drop_left' rfl
  have hok : ∀ b : Bytes, b.drop kHeaderSize = log.drop kHeaderSize →
      (run posix (WAL.fresh "a" 1).verify (FileSystem.put (fun _ => none) "a" b)).1.status = .ok :=
    fun b hb => by
      rw [run_verify rfl (FileSystem.put_self ..), walkFile_chain hfits hb]
      rfl
  refine (checkpoint_binding rfl (FileSystem.put_self ..) (by omega) rfl (FileSystem.put_self ..) ?_
    ?_ (hok log rfl) (hok flagged hdrop)).1
  · rw [List.length_append, List.length_drop, hlen]
    decide
  · rw [hashedInputs_eq hfits rfl, hashedInputs_eq hfits hdrop]
    simp [HashChain.CollisionFree, payloads, HashChain.inputs]

end Checkpoints

end LiteSpeedStore
