import LiteSpeedStore.PowerCut
import LiteSpeedStore.Engine.Calls

/-!
# The methods on a disk

What the methods of the log and of the snapshot do to a disk on which nothing fails.  Writing and
looking change only what the processes see; each `fsync`, each cut and each rename is a step of its
own.

* `wp_constructNewOnDisk`, `wp_appendOnDisk`, `wp_resetOnDisk`, `wp_closeOnDisk` : the log.
* `wp_saveOnDisk` : the snapshot.
-/

namespace LiteSpeedStore

open Prog WAL

theorem LooksAt.quiet {p : Path} {c : Call} (h : LooksAt p c) : c.Quiet := by
  cases c with
  | openAppend q => exact h.elim
  | openTrunc q => exact h.elim
  | fsync q => exact h.elim
  | ftruncate q m => exact h.elim
  | rename src dst => exact h.elim
  | _ => trivial

section Rules

variable {n : ℕ} {α : Type} {p : Path} {d : Disk} {b : Bytes} {wal : WAL} {Q : α → Disk → Prop}
  {C : Disk → Prop}

/-- An `fsync` in front of the rest of a program. -/
theorem wp_syncOnDisk {q : Path} {f : Bool → Io α} (hC : C d)
    (h : wp (Disk.env n) (f true) Q C (d.flushed q)) :
    wp (Disk.env n) (sys (.fsync q) >>= f) Q C d := wp_onDisk rfl hC h

/-- The rule of `writeExact`. -/
theorem wp_writeOnDisk {data : Bytes} {f : Bool → Io α} (hfs : d.fs p = some b)
    (hC : ∀ k, (Faults.none n).Cut data.length k →
      C { d with fs := d.fs.put p (b ++ data.take k) })
    (h : wp (Disk.env n) (f true) Q C { d with fs := d.fs.put p (b ++ data) }) :
    wp (Disk.env n) (writeExact p data >>= f) Q C d := by
  have hcalls : (writeExact p data).Only (Call.Gentle p (d.synced p) fun fs' =>
      ∃ k, (Faults.none n).Cut data.length k ∧ fs' = d.fs.put p (b ++ data.take k)) _ :=
    only_writeExact (fun _ => .inl trivial) data
  have hwrites : wp (Faults.none n).env (writeExact p data)
      (fun done fs' => done = true ∧ fs' = d.fs.put p (b ++ data))
      (fun fs' => ∃ k, (Faults.none n).Cut data.length k ∧ fs' = d.fs.put p (b ++ data.take k))
      d.fs :=
    wp_writeExact hfs (fun k hk => ⟨k, hk, rfl⟩) ⟨rfl, rfl⟩
      fun _ _ _ hmay => absurd hmay.choose_spec Faults.none_mayFail
  refine wp_quietly_bind hcalls hwrites ?_ ?_
  · rintro fs' ⟨k, hk, rfl⟩
    exact hC k hk
  · rintro done fs' ⟨rfl, rfl⟩
    exact h

/-- The rule of `writeHeader`. -/
theorem wp_headerOnDisk {f : Bool → Io α} (hfs : d.fs p = some [])
    (hC : ∀ k, (Faults.none n).Cut kHeaderSize k →
      C { d with fs := d.fs.put p (walHeader.take k) })
    (h : wp (Disk.env n) (f true) Q C ({ d with fs := d.fs.put p walHeader }.flushed p)) :
    wp (Disk.env n) (writeHeader p >>= f) Q C d := by
  rw [wp_bind, writeHeader]
  refine wp_writeOnDisk hfs hC ?_
  rw [if_pos rfl, ← bind_ret (sys _)]
  exact wp_syncOnDisk (hC kHeaderSize (.inr (.inl rfl))) ⟨wp_here h, h⟩

/-- The constructor on a file that is absent or empty. -/
theorem wp_constructNewOnDisk {m : ℕ} {f : Except Exception WAL → Io α} {d₁ : Disk}
    (hnew : d.fs.bytes p = []) (hd₁ : d.after (d.fs.put p []) (.openAppend p) = d₁) (hC : C d)
    (hCnew : ∀ k, (Faults.none n).Cut kHeaderSize k →
      C { d₁ with fs := d.fs.put p (walHeader.take k) })
    (h : wp (Disk.env n) (f (.ok (.fresh p m))) Q C
      ({ d₁ with fs := d.fs.put p walHeader }.flushed p)) :
    wp (Disk.env n) (construct p m >>= f) Q C d := by
  have hfs : d₁.fs = d.fs.put p [] := by rw [← hd₁, Disk.after_fs]
  have hC0 : C d₁ := by
    have h0 := hCnew 0 (.inl rfl)
    rwa [List.take_zero, ← hfs] at h0
  rw [wp_bind, construct]
  refine wp_onDisk rfl hC ?_
  simp only [posix, if_true, hnew, hd₁]
  refine wp_onDisk rfl hC0 ?_
  simp only [posix, hfs, FileSystem.bytes_put, List.length_nil, if_true]
  refine wp_headerOnDisk (d := { d₁ with fs := d.fs.put p [] }) (FileSystem.put_self ..) ?_ ?_
  · intro k hk
    rw [FileSystem.put_put]
    exact hCnew k hk
  · rw [FileSystem.put_put, if_pos rfl]
    exact ⟨wp_here h, h⟩

/-- The constructor on a file with a header. -/
theorem wp_constructOldOnDisk {m : ℕ} {f : Except Exception WAL → Io α}
    (hvalid : ValidHeader (d.fs.bytes p)) (h : wp (Disk.env n) (f (.ok (.fresh p m))) Q C d) :
    wp (Disk.env n) (construct p m >>= f) Q C d := by
  have hC := wp_here h
  have hfs := file_of_header hvalid
  have hput := FileSystem.put_eq_self hfs
  rw [wp_bind, construct]
  refine wp_onDisk rfl hC ?_
  simp only [posix, if_true, Disk.after, hfs, Option.isSome_some, hput]
  refine wp_onDisk rfl hC ?_
  simp only [posix, Disk.after, List.length_eq_zero_iff, hvalid.ne_nil, if_false]
  have hlooks : (validateHeader p).Only (Call.Gentle p (d.synced p) fun fs' => fs' = d.fs) _ :=
    only_validateHeader fun _ hc => .inl hc.quiet
  have hvalidates : wp (Faults.none n).env (validateHeader p)
      (fun valid fs' => valid = true ∧ fs' = d.fs) (fun fs' => fs' = d.fs) d.fs :=
    wp_validateHeader (Faults.none_readsOk n p) hfs rfl ⟨decide_eq_true hvalid, rfl⟩
  refine wp_quietly_bind hlooks hvalidates ?_ ?_
  · rintro fs' rfl
    exact hC
  · rintro valid fs' ⟨rfl, rfl⟩
    rw [if_pos rfl]
    exact ⟨hC, h⟩

/-- The rule of `append` for a record within the limits. -/
theorem wp_appendOnDisk {r : LogRecord} {f : Except Exception Unit × WAL → Io α}
    (hfd : wal.fd = some p) (hfs : d.fs p = some b) (hfits : r.Fits) (hepoch : r.epoch = wal.epoch)
    (hC : ∀ k, (Faults.none n).Cut r.size k →
      C { d with fs := d.fs.put p (b ++ (r.encode wal.headHash wal.seq).take k) })
    (hdue : wal.pendingWrites + 1 ≥ wal.syncEveryN →
      wp (Disk.env n) (f (.ok (), (wal.pushed r).synced)) Q C
        ({ d with fs := d.fs.put p (b ++ r.encode wal.headHash wal.seq) }.flushed p))
    (hlater : ¬wal.pendingWrites + 1 ≥ wal.syncEveryN →
      wp (Disk.env n) (f (.ok (), (wal.pushed r).synced)) Q C
        { d with fs := d.fs.put p (b ++ r.encode wal.headHash wal.seq) }) :
    wp (Disk.env n) (wal.append r.type r.key r.value r.timestamp >>= f) Q C d := by
  have hover : ¬(r.key.length > kMaxFieldSize.toNat ∨ r.value.length > kMaxFieldSize.toNat) := by
    rw [not_or, not_lt, not_lt]
    exact hfits
  have hlen : (r.encode wal.headHash wal.seq).length = r.size := LogRecord.length_encode ..
  have hCall : C { d with fs := d.fs.put p (b ++ r.encode wal.headHash wal.seq) } := by
    simpa only [← hlen, List.take_length] using hC r.size (.inr (.inl rfl))
  have hfixed : fixedFields wal.seq r.timestamp wal.epoch (UInt32.ofNat r.key.length)
      (UInt32.ofNat r.value.length) r.type = r.fixed wal.seq := by rw [← hepoch]; rfl
  rw [wp_bind, append, if_neg hover, hfd]
  simp only [hfixed]
  change wp (Disk.env n) (writeExact p (r.encode wal.headHash wal.seq) >>= _) _ C d
  refine wp_writeOnDisk hfs (by rwa [hlen]) ?_
  rw [if_pos rfl]
  rw [WAL.synced] at hdue hlater
  by_cases h : wal.pendingWrites + 1 ≥ wal.syncEveryN
  · rw [if_pos (c := (wal.pushed r).pendingWrites ≥ (wal.pushed r).syncEveryN) h] at hdue
    rw [if_pos h]
    refine wp_syncOnDisk hCall ?_
    rw [if_pos rfl, ← hfd]
    exact ⟨wp_here (hdue h), hdue h⟩
  · rw [if_neg (c := (wal.pushed r).pendingWrites ≥ (wal.pushed r).syncEveryN) h] at hlater
    rw [if_neg h, ← hfd]
    exact ⟨hCall, hlater h⟩

/-- The rule of `reset`. -/
theorem wp_resetOnDisk {f : Bool × WAL → Io α} {d₁ : Disk} (hfd : wal.fd = some p)
    (hfs : d.fs p = some b) (hd₁ : (d.flushed p).cut (d.fs.put p []) p 0 = d₁) (hC : C d)
    (hCsync : C (d.flushed p))
    (hCnew : ∀ k, (Faults.none n).Cut kHeaderSize k →
      C { d₁ with fs := d.fs.put p (walHeader.take k) })
    (h : wp (Disk.env n) (f (true, wal.rewound)) Q C
      ({ d₁ with fs := d.fs.put p walHeader }.flushed p)) :
    wp (Disk.env n) (wal.reset >>= f) Q C d := by
  have hfs₁ : d₁.fs = d.fs.put p [] := by rw [← hd₁, Disk.cut_fs]
  have hC0 : C d₁ := by
    have h0 := hCnew 0 (.inl rfl)
    rwa [List.take_zero, ← hfs₁] at h0
  have hcut : (d.flushed p).after (d.fs.put p []) (.ftruncate p 0) = d₁ := by
    rw [Disk.after, if_neg (lt_irrefl _), ← hd₁]
    rfl
  rw [wp_bind, reset, hfd]
  refine wp_syncOnDisk hC ?_
  refine wp_onDisk rfl hCsync ?_
  simp only [posix, lt_irrefl, if_false, if_true, Disk.flushed_fs, FileSystem.bytes_of_some hfs,
    Int.toNat_zero, resize_of_le (Nat.zero_le _), List.take_zero, hcut]
  refine wp_onDisk rfl hC0 ?_
  simp only [posix, if_true, hfs₁]
  refine wp_headerOnDisk (d := { d₁ with fs := d.fs.put p [] }) (FileSystem.put_self ..) ?_ ?_
  · intro k hk
    rw [FileSystem.put_put]
    exact hCnew k hk
  · rw [FileSystem.put_put, if_pos rfl, ← hfd]
    exact ⟨wp_here h, h⟩

/-- The rule of `close`. -/
theorem wp_closeOnDisk {f : WAL → Io α} (hfd : wal.fd = some p)
    (hkept : ∀ wal', wp (Disk.env n) (f wal') Q C d)
    (hsynced : wal.pendingWrites > 0 → ∀ wal', wp (Disk.env n) (f wal') Q C (d.flushed p)) :
    wp (Disk.env n) (wal.close >>= f) Q C d := by
  have hC := wp_here (hkept wal)
  rw [wp_bind, close, hfd]
  dsimp only
  split_ifs with hpending
  · have hC' := wp_here (hsynced hpending wal)
    refine wp_syncOnDisk hC ?_
    refine wp_onDisk rfl hC' ?_
    exact ⟨hC', hsynced hpending _⟩
  · refine wp_onDisk rfl hC ?_
    exact ⟨hC, hkept _⟩

/-- The rule of `recover` on a log with nothing but a torn entry behind its records. -/
theorem wp_recoverOnDisk {host : ByteOrder} {orders : StorageEngine.Orders} {engine : StorageEngine}
    {rs : List LogRecord} {tail : Bytes} {f : Except Exception Unit × StorageEngine → Io α}
    (hwal : engine.wal = some wal) (hfd : wal.fd = some p) (hfits : ∀ r ∈ rs, r.Fits)
    (htorn : TornTail rs tail) (hfile : d.fs p = some (logOf rs ++ tail))
    (hsynced : d.synced p ≤ (logOf rs).length) (hC : C d)
    (h : ∀ engine', wp (Disk.env n) (f (.ok (), engine')) Q C
      { d with fs := d.fs.put p (logOf rs) }) :
    wp (Disk.env n) (engine.recover host orders >>= f) Q C d := by
  have hleft := left_tornTail hfits htorn
  have hcalls : (engine.recover host orders).Only (Call.Gentle p (d.synced p) fun fs' =>
      fs' = d.fs ∨ fs' = d.fs.put p (logOf rs)) fun _ => True := by
    refine (only_engineRecover (fun _ hc => .inl hc.quiet) (fun m _ => .inr ⟨⟨m, rfl⟩, ?_⟩)
      (.inl trivial) (.inl trivial) hwal hfd).mono (fun _ hc => hc) fun _ _ => trivial
    rintro fs' (rfl | rfl)
    · rw [FileSystem.bytes_of_some hfile, List.length_append]
      omega
    · rwa [FileSystem.bytes_put]
  have hrecovers : wp (Faults.none n).env (engine.recover host orders)
      (fun result fs' => result.1 = .ok () ∧ fs' = d.fs.put p (logOf rs))
      (fun fs' => fs' = d.fs ∨ fs' = d.fs.put p (logOf rs)) d.fs := by
    refine wp_engineRecover hwal hfd (Faults.none_readsOk n p) (fun _ => Faults.none_mayFail) hfile
      (.inl rfl) (.inr (by rw [hleft])) ?_ ?_
    · exact fun image _ _ => ⟨rfl, by rw [hleft]⟩
    · exact fun image _ s hstop => absurd hstop (stop_tornTail hfits htorn s)
  refine wp_quietly_bind hcalls hrecovers ?_ ?_
  · rintro fs' (rfl | rfl)
    · exact hC
    · exact wp_here (h engine)
  · rintro ⟨result, engine'⟩ fs' ⟨rfl, rfl⟩
    exact h engine'

/-- The rule of `save`. -/
theorem wp_saveOnDisk {path : Path} {image : SnapshotImage} {it : Iteration image.state}
    {f : Bool → Io α} {d₁ d₂ d₃ : Disk}
    (hd₁ : d.after (d.fs.put (Snapshot.tmpPath path) []) (.openTrunc (Snapshot.tmpPath path)) = d₁)
    (hd₂ : { d₁ with fs := d.fs.put (Snapshot.tmpPath path) (Snapshot.fileBuf image it) }.flushed
      (Snapshot.tmpPath path) = d₂)
    (hd₃ : d₂.moved (d.fs.renamed path (Snapshot.fileBuf image it)) (Snapshot.tmpPath path) path =
      d₃) (hC : C d)
    (hCtmp : ∀ file, C { d₁ with fs := d.fs.put (Snapshot.tmpPath path) file })
    (hCsync : C d₂) (hCmoved : C d₃)
    (h : wp (Disk.env n) (f true) Q C (d₃.flushed (Snapshot.parentDir path))) :
    wp (Disk.env n) (Snapshot.save path image it >>= f) Q C d := by
  have hfs₁ : d₁.fs = d.fs.put (Snapshot.tmpPath path) [] := by rw [← hd₁, Disk.after_fs]
  have hfs₂ : d₂.fs = d.fs.put (Snapshot.tmpPath path) (Snapshot.fileBuf image it) := by
    rw [← hd₂]
    rfl
  have hC1 : C d₁ := by
    have h1 := hCtmp []
    rwa [← hfs₁] at h1
  have hC' := wp_here h
  have hmoved : { d₂ with
      fs := d.fs.put (Snapshot.tmpPath path) (Snapshot.fileBuf image it) }.moved
        (d.fs.renamed path (Snapshot.fileBuf image it)) (Snapshot.tmpPath path) path = d₃ := by
    rw [← hfs₂]
    exact hd₃
  rw [wp_bind, Snapshot.save]
  refine wp_onDisk rfl hC ?_
  simp only [posix, if_true, hd₁]
  refine wp_writeOnDisk (by rw [hfs₁, FileSystem.put_self]) (fun k _ => ?_) ?_
  · rw [hfs₁, FileSystem.put_put]
    exact hCtmp _
  · rw [hfs₁, FileSystem.put_put, List.nil_append, if_pos rfl]
    refine wp_syncOnDisk (hCtmp _) ?_
    rw [hd₂, if_pos rfl]
    refine wp_onDisk rfl hCsync ?_
    simp only [posix, Disk.after, if_true]
    refine wp_onDisk rfl hCsync ?_
    simp only [posix, Disk.after, hfs₂, FileSystem.put_self, Option.isSome_some, if_true]
    rw [← FileSystem.renamed, hmoved, Snapshot.fsyncParentDir]
    refine wp_onDisk rfl hCmoved ?_
    simp only [posix, Disk.after, if_true]
    refine wp_syncOnDisk hCmoved ?_
    exact wp_onDisk rfl hC' ⟨hC', h⟩

end Rules

end LiteSpeedStore
