import LiteSpeedStore.Engine.Rules
import LiteSpeedStore.Theory.Checkpoint

/-!
# What the files say, and engines in step with them

`contents` is the data that an image and the records of a log stand for: recovery restores it.
`Logged` says which records a log file holds, whatever a crash has left behind them, and `Attached`
that an engine stands at the end of its log.  As long as nothing on the log file fails, the calls of
an engine keep the two together.

* `wp_open` : opening restores the contents.
* `wp_changeLogged` : `set` and `remove` add a record; interrupted, they have added it or not.
* `wp_recoverSteady` : `recover` restores the contents again.
* `wp_snapshotAttached` : `snapshot` replaces image and log; where it is interrupted, and what is
  there then.
-/

namespace LiteSpeedStore

open Prog StorageEngine

/-! ### The contents of the files -/

section Contents

variable (host : ByteOrder) (maxHistoryPerKey : ℕ)

/-- The histories that an image, or none, stands for. -/
noncomputable def imageData : Option SnapshotImage → Data
  | some image => importSnapshotState maxHistoryPerKey image.state (Order.any image.state)
  | none => ∅

/-- One more record of the log. -/
def replayRecord (data : Data) (r : LogRecord) : Data :=
  replayEntry host maxHistoryPerKey r.type r.key r.value r.timestamp data

/-- **The data that an image and a log stand for.** -/
noncomputable def contents (image : Option SnapshotImage) (rs : List LogRecord) : Data :=
  Checkpoint.restore LogRecord.epoch (replayRecord host maxHistoryPerKey) (epochOf image)
    (imageData maxHistoryPerKey image) rs

/-- The records that an image does not cover. -/
abbrev Uncovered (image : Option SnapshotImage) (r : LogRecord) : Prop :=
  Checkpoint.behind LogRecord.epoch (epochOf image) r

variable {host maxHistoryPerKey}

theorem uncovered_none (r : LogRecord) : Uncovered none r := rfl

theorem uncovered_some {image : SnapshotImage} {r : LogRecord} :
    Uncovered (some image) r ↔ image.epoch < r.epoch := by
  rw [Uncovered, Checkpoint.behind, epochOf, Option.map_some, Option.all_some]
  exact decide_eq_true_iff

/-- The order in which the keys of an image are visited does not matter. -/
theorem baseOf_eq (orders : Orders) (image : Option SnapshotImage) :
    baseOf maxHistoryPerKey orders image = imageData maxHistoryPerKey image := by
  cases image with
  | none => rfl
  | some image =>
    refine Finmap.ext_lookup fun key => ?_
    rw [baseOf, imageData, lookup_import, lookup_import]

/-- Recovery restores the contents. -/
theorem visited_contents (orders : Orders) (image : Option SnapshotImage) (w : Walk) :
    w.visited (some (replayEntry host maxHistoryPerKey)) (epochOf image)
      (baseOf maxHistoryPerKey orders image) = contents host maxHistoryPerKey image w.records := by
  rw [visited_eq, baseOf_eq]
  rfl

/-- A change that the image does not cover is one more change. -/
theorem contents_concat {image : Option SnapshotImage} {rs : List LogRecord} {epoch : UInt64}
    {μ : Mutation} (h : Uncovered image (μ.entry host epoch)) :
    contents host maxHistoryPerKey image (rs ++ [μ.entry host epoch]) =
      μ.apply maxHistoryPerKey (contents host maxHistoryPerKey image rs) := by
  rw [contents, Checkpoint.restore_concat h, replayRecord, replayEntry_entry]
  rfl

/-- A record that the image covers is not replayed. -/
theorem contents_concat_covered {image : Option SnapshotImage} {rs : List LogRecord} {r : LogRecord}
    (h : ¬Uncovered image r) :
    contents host maxHistoryPerKey image (rs ++ [r]) = contents host maxHistoryPerKey image rs :=
  Checkpoint.restore_concat_covered h

/-- Changes of an epoch that the image does not cover are made again. -/
theorem contents_append {image : Option SnapshotImage} {epoch : UInt64}
    (h : ∀ r : LogRecord, r.epoch = epoch → Uncovered image r) (rs : List LogRecord)
    (μs : List Mutation) : contents host maxHistoryPerKey image (rs ++ μs.map (·.entry host epoch)) =
      μs.foldl (Mutation.apply maxHistoryPerKey) (contents host maxHistoryPerKey image rs) := by
  induction μs generalizing rs with
  | nil => rw [List.map_nil, List.append_nil, List.foldl_nil]
  | cons μ μs ih =>
    rw [List.map_cons, ← List.singleton_append, ← List.append_assoc, ih,
      contents_concat (h _ (Mutation.entry_epoch ..)), List.foldl_cons]

/-- Under an image that covers the whole log, only the image counts. -/
theorem contents_covered {image : Option SnapshotImage} {rs : List LogRecord}
    (h : ∀ r ∈ rs, ¬Uncovered image r) :
    contents host maxHistoryPerKey image rs = imageData maxHistoryPerKey image :=
  Checkpoint.restore_covered h

end Contents

/-! ### The log file -/

variable {host : ByteOrder} {maxHistoryPerKey : ℕ} {p : Path} {fs fs' : FileSystem} {F : Faults}
  {rs : List LogRecord} {engine : StorageEngine} {wal : WAL} {C : FileSystem → Prop}

/-- The file is the log of these records, with nothing but a torn entry behind them; a file that is
empty or absent is a log that was not begun. -/
structure Logged (p : Path) (fs : FileSystem) (rs : List LogRecord) : Prop where
  fits : ∀ r ∈ rs, r.Fits
  file : fs.bytes p = [] ∧ rs = [] ∨ ∃ tail, fs p = some (logOf rs ++ tail) ∧ TornTail rs tail

/-- The engine stands at the end of the log of these records. -/
structure Attached (p : Path) (maxHistoryPerKey : ℕ) (fs : FileSystem) (rs : List LogRecord)
    (engine : StorageEngine) (wal : WAL) : Prop where
  fits : ∀ r ∈ rs, r.Fits
  file : fs p = some (logOf rs)
  log : engine.wal = some wal
  fd : wal.fd = some p
  seq : wal.seq = UInt64.ofNat rs.length
  head : wal.headHash = chainHead .zero 0 rs
  path : engine.snapshotPath = makeSnapshotPath p
  cap : engine.maxHistoryPerKey = maxHistoryPerKey

theorem Attached.logged (h : Attached p maxHistoryPerKey fs rs engine wal) : Logged p fs rs :=
  ⟨h.fits, .inr ⟨[], by rw [List.append_nil, h.file], tornTail_nil rs⟩⟩

/-- The engine and the log file are all that it depends on. -/
theorem Attached.congr (h : Attached p maxHistoryPerKey fs rs engine wal) (hfs : fs' p = fs p) :
    Attached p maxHistoryPerKey fs' rs engine wal :=
  ⟨h.fits, by rw [hfs, h.file], h.log, h.fd, h.seq, h.head, h.path, h.cap⟩

theorem Logged.congr (h : Logged p fs rs) (hfs : fs' p = fs p) : Logged p fs' rs := by
  refine ⟨h.fits, ?_⟩
  rw [FileSystem.bytes, hfs]
  exact h.file

theorem length_logOf_pos (hfits : ∀ r ∈ rs, r.Fits) : 0 < (logOf rs).length := by
  rw [length_logOf hfits]
  exact Nat.lt_add_right _ (by decide)

theorem Logged.eq_nil (h : Logged p fs rs) (hempty : fs.bytes p = []) : rs = [] := by
  rcases h.file with h' | ⟨tail, hfile, -⟩
  · exact h'.2
  · have hpos := length_logOf_pos h.fits
    rw [FileSystem.bytes_of_some hfile, List.append_eq_nil_iff] at hempty
    rw [hempty.1] at hpos
    exact absurd hpos (lt_irrefl 0)

/-- The records of the log can be read off its file. -/
theorem Logged.records (h : Logged p fs rs) : (walkFile (fs.bytes p)).records = rs := by
  rcases h.file with ⟨hempty, rfl⟩ | ⟨tail, hfile, htorn⟩
  · rw [hempty, walkFile, List.drop_nil, walk_nil]
  · rw [FileSystem.bytes_of_some hfile, walkFile_tornTail h.fits htorn]

/-- What the constructor of the log finds, or makes. -/
theorem Logged.opens {b : Bytes} (h : Logged p fs rs) (hopens : Opens fs fs' p b) :
    ∃ tail, b = logOf rs ++ tail ∧ TornTail rs tail := by
  rcases hopens.2 with ⟨hempty, rfl⟩ | ⟨rfl, hvalid⟩
  · obtain rfl := h.eq_nil hempty
    exact ⟨[], by rw [logOf_nil, List.append_nil], tornTail_nil _⟩
  · obtain ⟨tail, hfile, htorn⟩ := h.file.resolve_left fun h' => hvalid.ne_nil h'.1
    exact ⟨tail, FileSystem.bytes_of_some hfile, htorn⟩

theorem Logged.validHeader (h : Logged p fs rs) (hne : fs.bytes p ≠ []) :
    ValidHeader (fs.bytes p) := by
  obtain ⟨tail, hfile, -⟩ := h.file.resolve_left fun h' => hne h'.1
  rw [FileSystem.bytes_of_some hfile, logOf_eq h.fits, List.append_assoc]
  exact validHeader_append _

/-! ### Files on which nothing fails -/

/-- Nothing fails on the file, and a header is written in one piece. -/
structure Faults.Reliable (F : Faults) (fd : Path) : Prop where
  reads : F.ReadsOk fd
  openAppend : ¬F.mayFail (.openAppend fd)
  write : ¬∃ d, F.mayFail (.write fd d)
  fsync : ¬F.mayFail (.fsync fd)
  ftruncate : ∀ n, ¬F.mayFail (.ftruncate fd n)
  close : ¬F.mayFail (.close fd)
  atomic : kHeaderSize ≤ F.atomic

theorem Faults.none_reliable : (Faults.none kHeaderSize).Reliable p where
  reads := none_readsOk _ p
  openAppend := none_mayFail
  write h := none_mayFail h.choose_spec
  fsync := none_mayFail
  ftruncate _ := none_mayFail
  close := none_mayFail
  atomic := le_rfl

/-- The header is there or not. -/
theorem Faults.Reliable.cut (hF : F.Reliable p) {k : ℕ} (hk : F.Cut kHeaderSize k) :
    walHeader.take k = [] ∨ walHeader.take k = logOf [] := by
  rcases hk with rfl | rfl | ⟨hlt, -⟩
  · exact .inl List.take_zero
  · exact .inr (by rw [logOf_nil]; rfl)
  · exact absurd hF.atomic (not_le.2 hlt)

theorem Logged.ofCut (hF : F.Reliable p) {k : ℕ} (hk : F.Cut kHeaderSize k) :
    Logged p (fs.put p (walHeader.take k)) [] := by
  refine ⟨by simp, ?_⟩
  rcases hF.cut hk with h | h
  · exact .inl ⟨by rw [h, FileSystem.bytes_put], rfl⟩
  · exact .inr ⟨[], by rw [h, FileSystem.put_self, List.append_nil], tornTail_nil _⟩

/-- Nothing fails on the file, but a header can be written in pieces. -/
structure Faults.Steady (F : Faults) (fd : Path) : Prop where
  reads : F.ReadsOk fd
  openAppend : ¬F.mayFail (.openAppend fd)
  write : ¬∃ d, F.mayFail (.write fd d)
  fsync : ¬F.mayFail (.fsync fd)
  ftruncate : ∀ n, ¬F.mayFail (.ftruncate fd n)
  close : ¬F.mayFail (.close fd)

theorem Faults.Reliable.steady (hF : F.Reliable p) : F.Steady p :=
  ⟨hF.reads, hF.openAppend, hF.write, hF.fsync, hF.ftruncate, hF.close⟩

theorem Faults.none_steady {n : ℕ} : (Faults.none n).Steady p where
  reads := none_readsOk _ p
  openAppend := none_mayFail
  write h := none_mayFail h.choose_spec
  fsync := none_mayFail
  ftruncate _ := none_mayFail
  close := none_mayFail

/-- The file holds a part of a header, because a write of it can stop there. -/
def TornHeader (F : Faults) (p : Path) (fs : FileSystem) : Prop :=
  ∃ k, 0 < k ∧ k < kHeaderSize ∧ F.Cut kHeaderSize k ∧ fs p = some (walHeader.take k)

theorem Faults.Reliable.not_tornHeader (hF : F.Reliable p) : ¬TornHeader F p fs := by
  rintro ⟨k, hpos, hlt, hcut, -⟩
  have hatomic := hF.atomic
  rcases hcut with rfl | rfl | ⟨hshort, -⟩ <;> omega

/-- A file that no log was written to. -/
theorem logged_empty (h : fs.bytes p = []) : Logged p fs [] := ⟨by simp, .inl ⟨h, rfl⟩⟩

/-- A log without entries. -/
theorem logged_header (fs : FileSystem) : Logged p (fs.put p walHeader) [] := by
  refine ⟨by simp, .inr ⟨[], ?_, tornTail_nil _⟩⟩
  rw [FileSystem.put_self, List.append_nil, logOf_nil]

/-- A write of the header that was interrupted anywhere. -/
theorem Logged.ofAnyCut {k : ℕ} (hk : F.Cut kHeaderSize k) :
    Logged p (fs.put p (walHeader.take k)) [] ∨ TornHeader F p (fs.put p (walHeader.take k)) := by
  rcases Nat.eq_zero_or_pos k with rfl | hpos
  · exact .inl (logged_empty (by rw [FileSystem.bytes_put, List.take_zero]))
  rcases Nat.lt_or_ge k kHeaderSize with hlt | hge
  · exact .inr ⟨k, hpos, hlt, hk, FileSystem.put_self ..⟩
  · rw [List.take_of_length_le (by rwa [length_walHeader])]
    exact .inl (logged_header fs)

theorem Loads.congr {path : Path} {image : Option SnapshotImage} (h : Loads F fs' path image)
    (hfs : fs' path = fs path) : Loads F fs path image := by
  rwa [Loads, hfs] at h

/-- The image that is loaded when nothing fails. -/
def FileSystem.image (fs : FileSystem) (p : Path) : Option SnapshotImage :=
  (fs (makeSnapshotPath p)).bind Snapshot.parse

theorem loads_none {n : ℕ} {image : Option SnapshotImage}
    (h : Loads (Faults.none n) fs (makeSnapshotPath p) image) : image = fs.image p := by
  unfold FileSystem.image
  rcases h with ⟨habsent, rfl⟩ | ⟨file, hfile, rfl⟩ | ⟨hmay, -⟩ | ⟨hmay, -⟩
  · rw [habsent]
    rfl
  · rw [hfile]
    rfl
  · exact absurd hmay Faults.none_mayFail
  · exact absurd hmay Faults.none_mayFail

theorem image_congr (h : fs' (makeSnapshotPath p) = fs (makeSnapshotPath p)) :
    fs'.image p = fs.image p := by
  rw [FileSystem.image, h, FileSystem.image]

theorem image_sameBut (h : fs.SameBut p fs') : fs'.image p = fs.image p :=
  image_congr (h _ (snapshotPath_ne p).symm)

/-- An engine that has walked along the log stands at its end, with the contents of the files. -/
theorem attached_recovered {tail : Bytes} (host : ByteOrder) (orders : Orders)
    (image : Option SnapshotImage) (engine : StorageEngine) (wal : WAL) (hfits : ∀ r ∈ rs, r.Fits)
    (htorn : TornTail rs tail) (hfile : fs p = some (logOf rs)) (hfd : wal.fd = some p)
    (hpath : engine.snapshotPath = makeSnapshotPath p) :
    let w := walkFile (logOf rs ++ tail)
    let wal' := (wal.setEpoch (nextEpoch image)).adopt w
    let engine' := engine.recovered host orders wal image w
    Attached p engine.maxHistoryPerKey fs rs engine' wal' ∧ wal'.epoch = nextEpoch image ∧
      engine'.data = contents host engine.maxHistoryPerKey image rs := by
  intro w wal' engine'
  have hwal' : wal' = { wal.setEpoch (nextEpoch image) with
      seq := UInt64.ofNat rs.length, headHash := chainHead .zero 0 rs } :=
    adopt_tornTail hfits htorn _
  have hrecords : w.records = rs := by
    unfold w
    rw [walkFile_tornTail hfits htorn]
  have hdata : engine'.data = contents host engine.maxHistoryPerKey image w.records :=
    visited_contents orders image w
  rw [hrecords] at hdata
  refine ⟨⟨hfits, hfile, rfl, ?_, ?_, ?_, hpath, rfl⟩, ?_, hdata⟩
  · rw [hwal']
    exact hfd
  · rw [hwal']
  · rw [hwal']
  · rw [hwal']
    rfl

/-- Opening restores the contents of the files, whatever image is loaded; interrupted, it may have
left a part of a header. -/
theorem wp_openSteady {n : ℕ} {orders : Orders} (hF : F.Steady p) (h : Logged p fs rs) :
    wp F.env (StorageEngine.construct host p maxHistoryPerKey n orders)
      (fun result fs' => fs.SameBut p fs' ∧ ∃ engine wal image, result = .ok engine ∧
        Loads F fs (makeSnapshotPath p) image ∧
        Attached p maxHistoryPerKey fs' rs engine wal ∧ wal.epoch = nextEpoch image ∧
        engine.data = contents host maxHistoryPerKey image rs)
      (fun fs' => fs.SameBut p fs' ∧ (Logged p fs' rs ∨ TornHeader F p fs')) fs := by
  have hsame : ∀ b, fs.SameBut p (fs.put p b) := fun b => FileSystem.sameBut_put p fs b
  refine wp_engineConstruct hF.reads hF.ftruncate hF.openAppend
    ⟨FileSystem.sameBut_refl p fs, .inl h⟩ ?_ ?_ (fun _ hmay => absurd hmay hF.write)
    (fun _ hmay => absurd hmay hF.fsync) (fun hne hbad => absurd (h.validHeader hne) hbad) ?_ ?_
  · -- a new log gets its header
    intro hempty k hk
    obtain rfl := h.eq_nil hempty
    exact ⟨hsame _, Logged.ofAnyCut hk⟩
  · -- a torn entry is still there, or cut off
    intro fs' b hopens
    obtain ⟨tail, rfl, htorn⟩ := h.opens hopens
    rw [hopens.1, left_tornTail h.fits htorn, FileSystem.put_put]
    refine ⟨⟨hsame _, .inl ⟨h.fits, .inr ⟨tail, FileSystem.put_self .., htorn⟩⟩⟩,
      hsame _, .inl ⟨h.fits, .inr ⟨[], ?_, tornTail_nil rs⟩⟩⟩
    rw [FileSystem.put_self, List.append_nil]
  · intro fs' b image hopens hloads hstop
    obtain ⟨tail, rfl, htorn⟩ := h.opens hopens
    have hsnap : fs' (makeSnapshotPath p) = fs (makeSnapshotPath p) := by
      rw [hopens.1, FileSystem.put_of_ne (snapshotPath_ne p).symm]
    obtain ⟨hattached, hepoch, hdata⟩ := attached_recovered host orders image
      (.fresh p maxHistoryPerKey n) (.fresh p n) h.fits htorn
      (FileSystem.put_self fs' p (logOf rs)) rfl rfl
    rw [left_tornTail h.fits htorn]
    refine ⟨?_, _, _, image, rfl, hloads.congr hsnap, hattached, hepoch, hdata⟩
    rw [hopens.1, FileSystem.put_put]
    exact hsame _
  · intro fs' b hopens s hstop
    obtain ⟨tail, rfl, htorn⟩ := h.opens hopens
    exact absurd hstop (stop_tornTail h.fits htorn s)

/-- A process starts to count the unsynced appends at 0, whatever is in the file. -/
theorem wp_openCount {n : ℕ} {orders : Orders} (hF : F.Steady p) :
    wp F.env (StorageEngine.construct host p maxHistoryPerKey n orders)
      (fun result _ => ∀ engine, result = .ok engine → ∃ wal, engine.wal = some wal ∧
        wal.syncEveryN = (WAL.fresh p n).syncEveryN ∧ wal.pendingWrites = 0)
      (fun _ => True) fs := by
  refine wp_engineConstruct hF.reads hF.ftruncate hF.openAppend trivial
    (fun _ _ _ => trivial) (fun _ _ _ => ⟨trivial, trivial⟩) ?_ ?_ ?_ ?_ ?_
  · rintro - - _ - - e engine ⟨⟩
  · rintro - - e engine ⟨⟩
  · rintro - - e engine ⟨⟩
  · rintro fs' b image - - - engine ⟨⟩
    refine ⟨_, rfl, ?_, ?_⟩
    · rw [adopt_syncEveryN]
      rfl
    · rw [adopt_pendingWrites]
      rfl
  · rintro fs' b - s - e engine ⟨⟩

/-- No call changes after how many appends the log is synced. -/
theorem wp_callCount {op : Op} {orders : Orders} {b : Bytes} (hF : F.Steady p)
    (hwal : engine.wal = some wal) (hfd : wal.fd = some p)
    (hpath : engine.snapshotPath = makeSnapshotPath p) (hfile : fs p = some b) :
    wp F.env (engine.call host orders op)
      (fun result _ => ∃ wal', result.2.wal = some wal' ∧ wal'.syncEveryN = wal.syncEveryN)
      (fun _ => True) fs := by
  have hchange : ∀ {op : Op} {μ}, op.mutation = some μ → wp F.env (engine.call host orders op)
      (fun result _ => ∃ wal', result.2.wal = some wal' ∧ wal'.syncEveryN = wal.syncEveryN)
      (fun _ => True) fs := by
    intro op μ hop
    refine wp_change hop hwal hfd hfile (fun _ => ⟨trivial, fun _ => ⟨wal, hwal, rfl⟩⟩)
      (fun _ _ _ => trivial) (fun _ => ⟨_, rfl, ?_⟩) (fun _ hmay => absurd hmay hF.write)
      (fun _ hmay => absurd hmay hF.fsync)
    rw [synced_syncEveryN]
    rfl
  cases op with
  | set key value duration now => exact hchange rfl
  | remove key now => exact hchange rfl
  | snapshot =>
    rw [StorageEngine.call, wp_bind]
    have hkept : ∃ wal', engine.wal = some wal' ∧ wal'.syncEveryN = wal.syncEveryN :=
      ⟨wal, hwal, rfl⟩
    refine wp_snapshot hwal hfd hpath hF.reads hfile (fun _ _ => trivial) trivial
      (fun _ _ => trivial) ⟨trivial, _, rfl, rfl⟩ (fun _ _ _ => ⟨trivial, hkept⟩)
      (fun _ => ⟨trivial, hkept⟩) (fun hmay => absurd hmay (hF.ftruncate 0))
      (fun hmay => absurd hmay hF.write) (fun hmay => absurd hmay hF.fsync)
  | recover =>
    rw [StorageEngine.call, wp_bind]
    refine wp_engineRecover hwal hfd hF.reads hF.ftruncate hfile trivial trivial ?_ ?_
    · intro image _ _
      refine ⟨trivial, _, rfl, ?_⟩
      rw [adopt_syncEveryN]
      rfl
    · intro image _ s _ e
      refine ⟨trivial, _, rfl, ?_⟩
      rw [adopt_syncEveryN]
      rfl

/-- **Opening restores the contents of the files**, whatever image is loaded. -/
theorem wp_open {n : ℕ} {orders : Orders} (hF : F.Reliable p) (h : Logged p fs rs) :
    wp F.env (StorageEngine.construct host p maxHistoryPerKey n orders)
      (fun result fs' => fs.SameBut p fs' ∧ ∃ engine wal image, result = .ok engine ∧
        Loads F fs (makeSnapshotPath p) image ∧
        Attached p maxHistoryPerKey fs' rs engine wal ∧ wal.epoch = nextEpoch image ∧
        engine.data = contents host maxHistoryPerKey image rs)
      (fun fs' => fs.SameBut p fs' ∧ Logged p fs' rs) fs :=
  wp_mono (wp_openSteady hF.steady h) (fun _ _ h => h)
    fun _ h => h.imp_right fun h => h.resolve_right hF.not_tornHeader

/-- Every opening of the store at `p` gives this data. -/
def Reopens (host : ByteOrder) (p : Path) (maxHistoryPerKey : ℕ) (fs : FileSystem) (data : Data) :
    Prop :=
  ∀ n orders result fs', Exec (Faults.none kHeaderSize).env
    (StorageEngine.construct host p maxHistoryPerKey n orders) fs result fs' →
    ∃ engine, result = .ok engine ∧ engine.data = data

/-- Opening gives the contents of the files and nothing else. -/
theorem reopens_iff {data : Data} (h : Logged p fs rs) :
    Reopens host p maxHistoryPerKey fs data ↔
      contents host maxHistoryPerKey (fs.image p) rs = data := by
  constructor
  · intro hreopens
    obtain ⟨-, engine, wal, image, hok, hloads, -, -, hdata⟩ := wp_run Faults.allows_posix
      (wp_open (n := 1) Faults.none_reliable h)
    obtain ⟨engine', hok', hdata'⟩ := hreopens 1 ⟨Order.any, Order.any⟩ _ _
      (exec_run Faults.allows_posix _ fs)
    obtain rfl := Except.ok.inj (hok.symm.trans hok')
    rw [← loads_none hloads, ← hdata, hdata']
  · rintro rfl n orders result fs' hx
    obtain ⟨-, engine, wal, image, hok, hloads, -, -, hdata⟩ :=
      wp_exec (wp_open Faults.none_reliable h) hx
    rw [← loads_none hloads]
    exact ⟨engine, hok, hdata⟩

/-- Opening the store gives one result. -/
theorem Reopens.unique {data data' : Data} (h : Reopens host p maxHistoryPerKey fs data)
    (h' : Reopens host p maxHistoryPerKey fs data') : data = data' := by
  have hx := exec_run (E := (Faults.none kHeaderSize).env) Faults.allows_posix
    (StorageEngine.construct host p maxHistoryPerKey 1 ⟨Order.any, Order.any⟩) fs
  obtain ⟨engine, hok, rfl⟩ := h _ _ _ _ hx
  obtain ⟨engine', hok', rfl⟩ := h' _ _ _ _ hx
  obtain rfl := Except.ok.inj (hok.symm.trans hok')
  rfl

/-- No engine opens on this log: the header is not valid, or an entry is refused. -/
def Refused (b : Bytes) : Prop :=
  b ≠ [] ∧ (ValidHeader b → ∃ s, (walkFile b).stop = .failed s)

/-- The rule of opening a log that is refused: it throws, and leaves the files alone. -/
theorem wp_openRefused {n : ℕ} {orders : Orders} (hF : F.Reliable p)
    (h : Refused (fs.bytes p)) :
    wp F.env (StorageEngine.construct host p maxHistoryPerKey n orders)
      (fun result fs' => fs' = fs ∧ ∃ e, result = .error e) (fun fs' => fs' = fs) fs := by
  obtain ⟨hne, hfailed⟩ := h
  have hopens : ∀ {fs' b}, Opens fs fs' p b → fs' = fs ∧ ∃ s, (walkFile b).stop = .failed s := by
    rintro fs' b ⟨rfl, ⟨hempty, -⟩ | ⟨rfl, hvalid⟩⟩
    · exact absurd hempty hne
    · exact ⟨(Opens.ofValid hvalid).1.symm, hfailed hvalid⟩
  refine wp_engineConstruct hF.reads hF.ftruncate hF.openAppend rfl
    (fun hempty => absurd hempty hne) ?_ (fun hempty => absurd hempty hne)
    (fun hempty => absurd hempty hne) (fun _ _ e => ⟨rfl, e, rfl⟩) ?_ ?_
  · intro fs' b hopened
    obtain ⟨rfl, s, hstop⟩ := hopens hopened
    have hleft : (walkFile b).left b = b := by
      rw [Walk.left, if_neg (by rw [hstop]; exact Stop.noConfusion)]
    refine ⟨rfl, ?_⟩
    rw [hleft]
    exact hopened.1.symm
  · intro fs' b image hopened _ hgood
    obtain ⟨-, s, hstop⟩ := hopens hopened
    exact absurd hstop (hgood s)
  · intro fs' b hopened s _ what
    exact ⟨(hopens hopened).1, _, rfl⟩

theorem not_reopens {data : Data} (h : Refused (fs.bytes p)) :
    ¬Reopens host p maxHistoryPerKey fs data := by
  intro hreopens
  have hx := exec_run (E := (Faults.none kHeaderSize).env) Faults.allows_posix
    (StorageEngine.construct host p maxHistoryPerKey 1 ⟨Order.any, Order.any⟩) fs
  obtain ⟨-, e, herror⟩ := wp_exec (wp_openRefused Faults.none_reliable h) hx
  obtain ⟨engine, hok, -⟩ := hreopens _ _ _ _ hx
  rw [hok] at herror
  cases herror

/-- A part of a header is no header. -/
theorem partialHeader_refused {k : ℕ} (hpos : 0 < k) (hlt : k < kHeaderSize) :
    Refused (walHeader.take k) := by
  have hlen : (walHeader.take k).length = k :=
    List.length_take_of_le (by rw [length_walHeader]; exact hlt.le)
  refine ⟨fun h => ?_, fun h => ?_⟩
  · rw [h, List.length_nil] at hlen
    omega
  · have := h.1
    omega

theorem run_open (host : ByteOrder) (maxHistoryPerKey n : ℕ) (orders : Orders)
    (h : Logged p fs rs) : ∃ engine wal fs',
    run posix (StorageEngine.construct host p maxHistoryPerKey n orders) fs = (.ok engine, fs') ∧
      fs.SameBut p fs' ∧ Attached p maxHistoryPerKey fs' rs engine wal ∧
      wal.epoch = nextEpoch (fs.image p) ∧
      engine.data = contents host maxHistoryPerKey (fs.image p) rs := by
  obtain ⟨hsame, engine, wal, image, hok, hloads, hattached, hepoch, hdata⟩ :=
    wp_run Faults.allows_posix (wp_open Faults.none_reliable h)
  rw [loads_none hloads] at hepoch hdata
  exact ⟨engine, wal, _, Prod.ext hok rfl, hsame, hattached, hepoch, hdata⟩

/-- **`recover` restores the contents of the files again**, and stays where it is in the log. -/
theorem wp_recoverSteady {orders : Orders} (hF : F.Steady p)
    (h : Attached p maxHistoryPerKey fs rs engine wal) :
    wp F.env (engine.recover host orders)
      (fun result fs' => fs' = fs ∧ result.1 = .ok () ∧ ∃ wal' image,
        Loads F fs (makeSnapshotPath p) image ∧
        Attached p maxHistoryPerKey fs rs result.2 wal' ∧ wal'.epoch = nextEpoch image ∧
        result.2.data = contents host maxHistoryPerKey image rs)
      (fun fs' => fs' = fs) fs := by
  have hfile : fs p = some (logOf rs ++ []) := by rw [List.append_nil, h.file]
  have hleft : fs.put p ((walkFile (logOf rs ++ [])).left (logOf rs ++ [])) = fs := by
    rw [left_tornTail h.fits (tornTail_nil rs), FileSystem.put_eq_self h.file]
  refine wp_engineRecover h.log h.fd hF.reads hF.ftruncate hfile rfl hleft ?_ ?_
  · intro image hloads _
    obtain ⟨hattached, hepoch, hdata⟩ := attached_recovered host orders image engine wal h.fits
      (tornTail_nil rs) h.file h.fd h.path
    rw [h.cap] at hattached hdata
    rw [h.path] at hloads
    exact ⟨hleft, rfl, _, image, hloads, hattached, hepoch, hdata⟩
  · intro image hloads s hstop
    exact absurd hstop (stop_tornTail h.fits (tornTail_nil rs) s)

/-- A log with one more record. -/
theorem Attached.concat {r : LogRecord} (h : Attached p maxHistoryPerKey fs rs engine wal)
    (hfit : r.Fits) (data : Data) :
    Attached p maxHistoryPerKey (fs.put p (logOf rs ++ r.encode wal.headHash wal.seq)) (rs ++ [r])
      { engine with data, wal := some (wal.pushed r).synced } (wal.pushed r).synced where
  fits := fits_concat h.fits hfit
  file := by rw [FileSystem.put_self, logOf_concat h.fits hfit, h.seq, h.head]
  log := rfl
  fd := by rw [synced_fd, pushed_fd, h.fd]
  seq := synced_pushed_seq _ _ h.seq
  head := synced_pushed_headHash _ _ h.seq h.head
  path := h.path
  cap := h.cap

/-- The record is in the log also when it is not synced. -/
theorem Attached.pushed {r : LogRecord} (h : Attached p maxHistoryPerKey fs rs engine wal)
    (hfit : r.Fits) (data : Data) :
    Attached p maxHistoryPerKey (fs.put p (logOf rs ++ r.encode wal.headHash wal.seq)) (rs ++ [r])
      { engine with data, wal := some (wal.pushed r) } (wal.pushed r) := by
  have hsynced := h.concat hfit data
  refine ⟨hsynced.fits, hsynced.file, rfl, h.fd, ?_, ?_, h.path, h.cap⟩
  · rw [← hsynced.seq, synced_seq]
  · rw [← hsynced.head, synced_headHash]

/-- **`set` and `remove` add one record to the log** and change the data by it, or refuse what is
too long; interrupted, they have added the record or not. -/
theorem wp_changeSteady {orders : Orders} {op : Op} {μ : Mutation} (hF : F.Steady p)
    (hop : op.mutation = some μ) (h : Attached p maxHistoryPerKey fs rs engine wal) :
    wp F.env (engine.call host orders op)
      (fun result fs' => fs.SameBut p fs' ∧
        (¬μ.Fits ∧ fs' = fs ∧ result.2 = engine ∧ (∃ e, result.1 = .error (.lengthError e)) ∨
        μ.Fits ∧ result.1 = .ok (op.answer engine.data) ∧
          result.2.data = μ.apply maxHistoryPerKey engine.data ∧ ∃ wal', wal'.epoch = wal.epoch ∧
            Attached p maxHistoryPerKey fs' (rs ++ [μ.entry host wal.epoch]) result.2 wal'))
      (fun fs' => fs.SameBut p fs' ∧
        (Logged p fs' rs ∨ μ.Fits ∧ Logged p fs' (rs ++ [μ.entry host wal.epoch]))) fs := by
  have hsame : ∀ b, fs.SameBut p (fs.put p b) := fun b => FileSystem.sameBut_put p fs b
  have hrefl := FileSystem.sameBut_refl p fs
  refine wp_change hop h.log h.fd h.file ?_ ?_ ?_ (fun _ hmay => absurd hmay hF.write)
    (fun _ hmay => absurd hmay hF.fsync)
  · exact fun hμ => ⟨⟨hrefl, .inl h.logged⟩, fun e => ⟨hrefl, .inl ⟨hμ, rfl, rfl, e, rfl⟩⟩⟩
  · intro hμ k hk
    have hfit : (μ.entry host wal.epoch).Fits := entry_fits hμ _
    refine ⟨hsame _, ?_⟩
    rcases Nat.lt_or_ge k (μ.entry host wal.epoch).size with hlt | hge
    · -- a part of the record is torn
      refine .inl ⟨h.fits, .inr ⟨_, FileSystem.put_self .., ?_⟩⟩
      rw [h.head, h.seq]
      exact tornTail_take hfit hlt
    · rw [List.take_of_length_le (by rwa [LogRecord.length_encode])]
      exact .inr ⟨hμ, (h.concat hfit engine.data).logged⟩
  · intro hμ
    have hfit : (μ.entry host wal.epoch).Fits := entry_fits hμ _
    refine ⟨hsame _, .inr ⟨hμ, rfl, by rw [h.cap], (wal.pushed _).synced, ?_, h.concat hfit _⟩⟩
    rw [synced_epoch, pushed_epoch]

theorem wp_changeLogged {orders : Orders} {op : Op} {μ : Mutation} (hF : F.Reliable p)
    (hop : op.mutation = some μ) (h : Attached p maxHistoryPerKey fs rs engine wal) :
    wp F.env (engine.call host orders op)
      (fun result fs' => fs.SameBut p fs' ∧
        (¬μ.Fits ∧ fs' = fs ∧ result.2 = engine ∧ (∃ e, result.1 = .error (.lengthError e)) ∨
        μ.Fits ∧ result.1 = .ok (op.answer engine.data) ∧
          result.2.data = μ.apply maxHistoryPerKey engine.data ∧ ∃ wal', wal'.epoch = wal.epoch ∧
            Attached p maxHistoryPerKey fs' (rs ++ [μ.entry host wal.epoch]) result.2 wal'))
      (fun fs' => fs.SameBut p fs' ∧
        (Logged p fs' rs ∨ μ.Fits ∧ Logged p fs' (rs ++ [μ.entry host wal.epoch]))) fs :=
  wp_changeSteady hF.steady hop h

/-! ### Snapshots -/

/-- The files once the image is in place. -/
def StorageEngine.saved (engine : StorageEngine) (wal : WAL) (orders : Orders) (fs : FileSystem) :
    FileSystem :=
  fs.renamed engine.snapshotPath (engine.imageFile wal orders)

/-- What a `snapshot` that returned has left. -/
theorem snapshot_returned {engine' : StorageEngine} {b : Bytes} {orders : Orders}
    (hwal : engine.wal = some wal) (hfd : wal.fd = some p)
    (hpath : engine.snapshotPath = makeSnapshotPath p) (hfile : fs p = some b)
    (hx : Exec F.env (engine.snapshot orders) fs (.ok (), engine') fs') :
    engine' = { engine with
      snapshotEpoch := some wal.epoch, wal := some (wal.setEpoch (wal.epoch + 1)).rewound } ∧
    fs' = (engine.saved wal orders fs).put p walHeader := by
  have hw : wp F.env (engine.snapshot orders) (fun result fs' => result.1 = .ok () →
      result.2 = { engine with
        snapshotEpoch := some wal.epoch, wal := some (wal.setEpoch (wal.epoch + 1)).rewound } ∧
      fs' = (engine.saved wal orders fs).put p walHeader) (fun _ => True) fs := by
    refine wp_snapshotAny hwal hfd hpath hfile (fun _ _ => trivial) trivial (fun _ _ => trivial)
      (fun _ => ⟨rfl, rfl⟩) ?_ ?_ ?_ ?_ ?_ ?_
    · rintro - - - ⟨⟩
    · rintro - ⟨⟩
    · rintro - ⟨⟩
    · rintro - ⟨⟩
    · rintro - k - - ⟨⟩
    · rintro - ⟨⟩
  exact wp_exec hw hx rfl

theorem saved_self (orders : Orders) (h : Attached p maxHistoryPerKey fs rs engine wal) :
    engine.saved wal orders fs p = fs p :=
  Snapshot.renamed_of_ne (h.path ▸ snapshotPath_ne p) (h.path ▸ tmpPath_ne_wal p)

theorem sameBut_tmp {p : Path} (h : fs.SameBut (Snapshot.tmpPath (makeSnapshotPath p)) fs') :
    fs' p = fs p ∧ fs' (makeSnapshotPath p) = fs (makeSnapshotPath p) :=
  ⟨h _ (tmpPath_ne_wal p), h _ (Snapshot.tmpPath_ne _).symm⟩

/-- The engine at the start of a new log. -/
theorem Attached.rewound (h : Attached p maxHistoryPerKey fs rs engine wal) (fs' : FileSystem) :
    Attached p maxHistoryPerKey (fs'.put p walHeader) []
      { engine with
        snapshotEpoch := some wal.epoch, wal := some (wal.setEpoch (wal.epoch + 1)).rewound }
      (wal.setEpoch (wal.epoch + 1)).rewound := by
  refine ⟨by simp, ?_, rfl, h.fd, rfl, rfl, h.path, h.cap⟩
  rw [FileSystem.put_self, logOf_nil]

/-- `snapshot` puts an image in place and then starts a new log; interrupted, it has done neither,
the first, or both, or it has left a part of a header. -/
theorem wp_snapshotSteady {orders : Orders} (hF : F.Steady p)
    (hsave : ¬Snapshot.SaveFails F (makeSnapshotPath p))
    (hdir : ¬Snapshot.SyncFails F (makeSnapshotPath p))
    (h : Attached p maxHistoryPerKey fs rs engine wal) :
    wp F.env (engine.snapshot orders)
      (fun result fs' => (engine.saved wal orders fs).SameBut p fs' ∧ result.1 = .ok () ∧
        result.2.data = engine.data ∧ ∃ wal', wal'.epoch = wal.epoch + 1 ∧
          Attached p maxHistoryPerKey fs' [] result.2 wal')
      (fun fs' => fs.SameBut (Snapshot.tmpPath (makeSnapshotPath p)) fs' ∨
        (engine.saved wal orders fs).SameBut p fs' ∧
          (Logged p fs' rs ∨ Logged p fs' [] ∨ TornHeader F p fs')) fs := by
  rw [← h.path] at hsave hdir
  have hsame : ∀ b, (engine.saved wal orders fs).SameBut p ((engine.saved wal orders fs).put p b) :=
    fun b => FileSystem.sameBut_put p _ b
  refine wp_snapshot h.log h.fd h.path hF.reads h.file ?_ ?_ ?_ ?_
    (fun hmay => absurd hmay hsave) (fun hmay => absurd hmay hdir)
    (fun hmay => absurd hmay (hF.ftruncate 0)) (fun hmay => absurd hmay hF.write)
    (fun hmay => absurd hmay hF.fsync)
  · exact fun fs' hsame => .inl (h.path ▸ hsame)
  · exact .inr ⟨FileSystem.sameBut_refl p _, .inl (h.logged.congr (saved_self orders h))⟩
  · exact fun k hk => .inr ⟨hsame _, .inr (Logged.ofAnyCut hk)⟩
  · exact ⟨hsame _, rfl, rfl, _, rfl, h.rewound _⟩

/-- **`snapshot` puts an image in place and then starts a new log**; interrupted, it has done
neither, the first, or both. -/
theorem wp_snapshotAttached {orders : Orders} (hF : F.Reliable p)
    (hsave : ¬Snapshot.SaveFails F (makeSnapshotPath p))
    (hdir : ¬Snapshot.SyncFails F (makeSnapshotPath p))
    (h : Attached p maxHistoryPerKey fs rs engine wal) :
    wp F.env (engine.snapshot orders)
      (fun result fs' => (engine.saved wal orders fs).SameBut p fs' ∧ result.1 = .ok () ∧
        result.2.data = engine.data ∧ ∃ wal', wal'.epoch = wal.epoch + 1 ∧
          Attached p maxHistoryPerKey fs' [] result.2 wal')
      (fun fs' => fs.SameBut (Snapshot.tmpPath (makeSnapshotPath p)) fs' ∨
        (engine.saved wal orders fs).SameBut p fs' ∧ (Logged p fs' rs ∨ Logged p fs' [])) fs :=
  wp_mono (wp_snapshotSteady hF.steady hsave hdir h) (fun _ _ h => h) fun _ h =>
    h.imp_right fun h => h.imp_right fun h => h.imp_right fun h =>
      h.resolve_right hF.not_tornHeader

end LiteSpeedStore
