import LiteSpeedStore.Engine.Rules
import LiteSpeedStore.Wal.Damage

/-!
# Opening a damaged log

An engine refuses to open a log in which an entry is refused, whatever the snapshot holds.

* `open_refused` : the constructor throws, and leaves the files alone.
* `edit_refused` : in-place edits are caught at their entry.
-/

namespace LiteSpeedStore

open Prog StorageEngine WAL

variable {rs : List LogRecord} {i : ℕ} {status : RecoveryStatus} {b : Bytes} {p : Path}
  {fs : FileSystem}

/-- A log that is refused at an entry cannot be opened. -/
theorem open_refused (host : ByteOrder) (maxHistoryPerKey n : ℕ) (orders : Orders)
    (hfits : ∀ r ∈ rs, r.Fits) (hi : i ≤ rs.length) (h : RefusedAt rs i status b)
    (hfs : fs p = some b) : ∃ what,
    run posix (StorageEngine.construct host p maxHistoryPerKey n orders) fs =
      (.error (.runtimeError what), fs) := by
  have hstop := (walkFile_refused hfits hi h).1
  have hbytes := FileSystem.bytes_of_some hfs
  -- the header is not touched
  have hvalid : ValidHeader b := by
    obtain ⟨rest, rfl, -⟩ := h
    rw [logOf_eq (fits_take hfits i), List.append_assoc]
    exact validHeader_append _
  have hne : fs.bytes p ≠ [] := by
    rw [hbytes]
    exact hvalid.ne_nil
  have hopens : ∀ {fs' b'}, Opens fs fs' p b' → b' = b ∧ fs' = fs := by
    rintro fs' b' ⟨rfl, ⟨hempty, -⟩ | ⟨rfl, -⟩⟩
    · exact absurd hempty hne
    · rw [hbytes, FileSystem.put_eq_self hfs]
      exact ⟨rfl, rfl⟩
  have hw : wp (Faults.none 0).env (StorageEngine.construct host p maxHistoryPerKey n orders)
      (fun result fs' => ∃ what, (result, fs') = (.error (.runtimeError what), fs))
      (fun _ => True) fs := by
    refine wp_engineConstruct (Faults.none_readsOk 0 p) (fun _ => Faults.none_mayFail)
      Faults.none_mayFail trivial (fun _ _ _ => trivial)
      (fun _ _ _ => ⟨trivial, trivial⟩) (fun hempty => absurd hempty hne)
      (fun hempty => absurd hempty hne) ?_ ?_ ?_
    · rw [hbytes]
      exact fun _ hbad => absurd hvalid hbad
    · intro fs' b' image hopened _ hgood
      obtain ⟨rfl, -⟩ := hopens hopened
      exact absurd hstop (hgood status)
    · intro fs' b' hopened s _ what
      obtain ⟨-, rfl⟩ := hopens hopened
      exact ⟨what, rfl⟩
  exact wp_run Faults.allows_posix hw

/-- **In-place edits are caught at their entry.**  A change that touches only the stored CRC of an
entry, or at most four consecutive bytes that it covers and not the lengths, is reported as
tampering at the start of this entry by `verify` and `recover`, which leaves the file alone, and no
engine opens on it. -/
theorem edit_refused {wal : WAL} (hfits : ∀ r ∈ rs, r.Fits) (hi : i < rs.length)
    (hedit : Edit rs i hi b) (hne : b ≠ logOf rs) (hfd : wal.fd = some p) (hfs : fs p = some b) :
    ((run posix wal.verify fs).1.status = .tampered ∧
      (run posix wal.verify fs).1.entriesVerified = UInt64.ofNat i ∧
      (run posix wal.verify fs).1.tamperOffset = UInt64.ofNat (boundary rs i)) ∧
    (∀ {σ : Type} (visitor : Visitor σ) (m : Option UInt64) (s : σ),
      (run posix (wal.recover visitor m s) fs).1.1.status = .tampered ∧
      (run posix (wal.recover visitor m s) fs).1.1.entriesVerified = UInt64.ofNat i ∧
      (run posix (wal.recover visitor m s) fs).1.1.tamperOffset = UInt64.ofNat (boundary rs i) ∧
      (run posix (wal.recover visitor m s) fs).2 = fs) ∧
    ∀ host maxHistoryPerKey n orders, ∃ what,
      run posix (StorageEngine.construct host p maxHistoryPerKey n orders) fs =
        (.error (.runtimeError what), fs) := by
  have hrefused := edit_tampered hfits hi hedit hne
  obtain ⟨hverify, hrecover⟩ := run_stopped hfits hi.le hrefused hfd hfs
  refine ⟨?_, fun visitor m s => ?_, fun host maxHistoryPerKey n orders =>
    open_refused host maxHistoryPerKey n orders hfits hi.le hrefused hfs⟩
  · rw [hverify]
    exact ⟨rfl, rfl, rfl⟩
  · rw [hrecover]
    exact ⟨rfl, rfl, rfl, rfl⟩

/-- The sequence number of the first entry, with another first byte. -/
theorem edit_refused_seq :
    let rs : List LogRecord := [⟨.put, [107], [118], -1, 0⟩, ⟨.delete, [107], [], 5, 0⟩]
    let b := overwrite (logOf rs) (boundary rs 0 + (crcSize + offSeq)) [7]
    (run posix (WAL.fresh "a" 1).verify fun _ => some b).1.status = .tampered := by
  intro rs b
  have hfits : ∀ r ∈ rs, r.Fits := by decide
  have hedit : Edit rs 0 (by decide) b :=
    .covered offSeq [7] (by decide) (by decide) (.inl (by decide))
  have hcrc : ∀ v : UInt32, (putLE32 [] v).length = crcSize := fun v => by simp [crcSize]
  have hseq : ((logOf rs).drop (boundary rs 0 + (crcSize + offSeq))).take 1 = [0] := by
    rw [boundary_zero, logOf_eq hfits, ← List.drop_drop, List.drop_left' length_walHeader,
      encodeLog, LogRecord.encode, List.append_assoc, offSeq, Nat.add_zero, List.drop_left' (hcrc _),
      LogRecord.body, List.append_assoc, List.append_assoc, List.append_assoc]
    rfl
  have hne : b ≠ logOf rs := by
    refine overwrite_ne ?_ (by rw [List.length_singleton, hseq]; decide)
    rw [boundary_zero, length_logOf hfits]
    decide
  exact (edit_refused hfits _ hedit hne rfl rfl).1.1

end LiteSpeedStore
