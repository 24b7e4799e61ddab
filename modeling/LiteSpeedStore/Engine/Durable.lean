import LiteSpeedStore.Engine.OnDisk
import LiteSpeedStore.Engine.TornHeader

/-!
# What a power cut leaves of the data

After a power cut the engine finds one of the logs and one of the images that the disk can be left
with.  `Held` is the invariant that the methods keep: whichever it finds, the data it restores
satisfies a condition.  Each lemma is one change of the disk: a write, an `fsync`, a cut, a rename.

* `Held.put_record`, `Held.synced` : a record is written, and is on the disk.
* `Held.moved`, `Held.settled` : a new image gets its name, and has it on the disk.
* `Held.emptied`, `Held.header` : the log starts again.
-/

namespace LiteSpeedStore

open Prog

/-! ### Images and logs -/

/-- The images that may be found after a power cut. -/
def Disk.images (d : Disk) (p : Path) : Set (Option SnapshotImage) :=
  {image | ∃ o ∈ d.entry (makeSnapshotPath p) :: d.lost (makeSnapshotPath p), ∃ file,
    Survives o file ∧ image = file.bind Snapshot.parse}

/-- The records that may be found in the log, if its name is kept. -/
def Disk.logs (d : Disk) (p : Path) : Set (List LogRecord) :=
  {rs | ∃ fs', Survives (d.entry p) (fs' p) ∧ Logged p fs' rs}

variable {host : ByteOrder} {p : Path} {maxHistoryPerKey : ℕ} {A A' : Data → Prop} {d d' : Disk}
  {rs rs' : List LogRecord} {data data' : Data}

theorem Logged.unique {fs : FileSystem} (h : Logged p fs rs) (h' : Logged p fs rs') : rs = rs' := by
  rw [← h.records, h'.records]

theorem image_mem (d : Disk) (p : Path) : d.fs.image p ∈ d.images p :=
  ⟨_, List.mem_cons_self, _, survives_self d _, rfl⟩

theorem log_mem (h : Logged p d.fs rs) : rs ∈ d.logs p := ⟨d.fs, survives_self d p, h⟩

/-- A part of a record behind the log. -/
theorem logged_part {fs : FileSystem} {r : LogRecord} {k : ℕ} (hfits : ∀ r ∈ rs, r.Fits)
    (hfit : r.Fits) (hk : k < r.size) (hfile : fs p = some (logOf rs ++
      (r.encode (chainHead .zero 0 rs) (UInt64.ofNat rs.length)).take k)) : Logged p fs rs :=
  ⟨hfits, .inr ⟨_, hfile, tornTail_take hfit hk⟩⟩

/-- One more record behind the log. -/
theorem logged_record {fs : FileSystem} {r : LogRecord} (hfits : ∀ r ∈ rs, r.Fits) (hfit : r.Fits)
    (hfile : fs p = some (logOf rs ++
      r.encode (chainHead .zero 0 rs) (UInt64.ofNat rs.length))) : Logged p fs (rs ++ [r]) := by
  refine ⟨fits_concat hfits hfit, .inr ⟨[], ?_, tornTail_nil _⟩⟩
  rw [hfile, logOf_concat hfits hfit, List.append_nil]

theorem images_same (h : Disk.Same (makeSnapshotPath p) d d') : d'.images p ⊆ d.images p := by
  rintro image ⟨o, ho, file, hfile, rfl⟩
  rw [h.entry] at ho
  exact ⟨o, List.cons_subset_cons _ h.lost ho, file, hfile, rfl⟩

theorem image_same (h : Disk.Same (makeSnapshotPath p) d d') : d'.fs.image p = d.fs.image p :=
  image_congr h.fs

/-! ### The invariant -/

/-- Whatever a power cut leaves, the data that is restored satisfies `A`, unless a part of a header
is left; as long as there is none, the files hold these records and this data. -/
structure Held (host : ByteOrder) (p : Path) (maxHistoryPerKey : ℕ) (A : Data → Prop) (d : Disk)
    (rs : List LogRecord) (data : Data) : Prop where
  logged : Logged p d.fs rs
  /-- A torn entry is not synced. -/
  covered : d.synced p ≤ (logOf rs).length
  whole : ∀ fs', Survives (d.entry p) (fs' p) →
    TornHeader (Faults.none 0) p fs' ∨ ∃ rs', Logged p fs' rs'
  names : ∀ o ∈ d.lost p, o = none
  saved : ∀ file, Survives (d.entry (makeSnapshotPath p)) file → file = d.fs (makeSnapshotPath p)
  next : ∀ image ∈ d.images p, ∀ i ∈ image, i.epoch < nextEpoch (d.fs.image p)
  old : ∀ rs' ∈ d.logs p, ∀ r ∈ rs', r.epoch ≤ nextEpoch (d.fs.image p)
  outcomes : Checkpoint.Outcomes LogRecord.epoch (replayRecord host maxHistoryPerKey) epochOf
    (imageData maxHistoryPerKey) A (d.logs p) (d.images p) rs data

namespace Held

theorem mono (h : Held host p maxHistoryPerKey A d rs data) (hA : ∀ x, A x → A' x) :
    Held host p maxHistoryPerKey A' d rs data :=
  { h with outcomes := h.outcomes.mono hA }

/-- The data is what the files hold. -/
theorem contents_eq (h : Held host p maxHistoryPerKey A d rs data) :
    contents host maxHistoryPerKey (d.fs.image p) rs = data := h.outcomes.agree _ (image_mem d p)

theorem holds (h : Held host p maxHistoryPerKey A d rs data) : A data := by
  rw [← h.contents_eq]
  exact h.outcomes.held _ (log_mem h.logged) _ (image_mem d p)

/-- What may be found in the log. -/
theorem found (h : Held host p maxHistoryPerKey A d rs data) {fs' : FileSystem}
    (hfs' : Survives (d.entry p) (fs' p)) :
    TornHeader (Faults.none 0) p fs' ∨ ∃ rs' ∈ d.logs p, Logged p fs' rs' :=
  (h.whole fs' hfs').imp_right (Exists.imp fun _ hrs' => ⟨⟨fs', hfs', hrs'⟩, hrs'⟩)

/-- A record of the epoch behind the image is not covered by any image. -/
theorem uncovered (h : Held host p maxHistoryPerKey A d rs data) {r : LogRecord}
    (hr : r.epoch = nextEpoch (d.fs.image p)) : ∀ image ∈ d.images p, Uncovered image r := by
  intro image himage
  cases image with
  | none => exact uncovered_none r
  | some i =>
    rw [uncovered_some, hr]
    exact h.next _ himage i rfl

/-- The log changes, and the image does not. -/
theorem relog {logs : Set (List LogRecord)} (h : Held host p maxHistoryPerKey A d rs data)
    (hsame : Disk.Same (makeSnapshotPath p) d d') (hlogged : Logged p d'.fs rs')
    (hcovered : d'.synced p ≤ (logOf rs').length) (hnames : ∀ o ∈ d'.lost p, o = none)
    (hwhole : ∀ fs', Survives (d'.entry p) (fs' p) →
      TornHeader (Faults.none 0) p fs' ∨ ∃ rs'' ∈ logs, Logged p fs' rs'')
    (hold : ∀ rs'' ∈ logs, ∀ r ∈ rs'', r.epoch ≤ nextEpoch (d.fs.image p))
    (houtcomes : Checkpoint.Outcomes LogRecord.epoch (replayRecord host maxHistoryPerKey) epochOf
      (imageData maxHistoryPerKey) A' logs (d.images p) rs' data') :
    Held host p maxHistoryPerKey A' d' rs' data' := by
  have himage := image_same hsame
  have hlogs : d'.logs p ⊆ logs := by
    rintro rs₁ ⟨fs', hfs', hlogged₁⟩
    rcases hwhole fs' hfs' with htorn | ⟨rs₂, hmem, hlogged₂⟩
    · exact absurd htorn.part hlogged₁.not_part
    · rwa [hlogged₁.unique hlogged₂]
  refine ⟨hlogged, hcovered, fun fs' hfs' => ?_, hnames, ?_, ?_, ?_, ?_⟩
  · exact (hwhole fs' hfs').imp_right (Exists.imp fun _ hrs => hrs.2)
  · intro file hfile
    rw [hsame.entry] at hfile
    rw [h.saved file hfile, hsame.fs]
  · intro image hmem
    rw [himage]
    exact h.next image (images_same hsame hmem)
  · intro rs₁ hmem
    rw [himage]
    exact hold rs₁ (hlogs hmem)
  · exact houtcomes.sub hlogs (images_same hsame)

/-- Nothing changes for the log and the image. -/
theorem same (h : Held host p maxHistoryPerKey A d rs data) (hp : Disk.Same p d d')
    (hsnap : Disk.Same (makeSnapshotPath p) d d') : Held host p maxHistoryPerKey A d' rs data := by
  refine h.relog hsnap (h.logged.congr hp.fs) ?_ (fun o ho => h.names o (hp.lost ho)) ?_ h.old
    h.outcomes
  · rw [hp.synced]
    exact h.covered
  · rw [hp.entry]
    exact fun fs' hfs' => h.found hfs'

/-! ### Writing -/

/-- A part of a record is written. -/
theorem put_part {r : LogRecord} {k : ℕ} (h : Held host p maxHistoryPerKey A d rs data)
    (hfile : d.fs p = some (logOf rs)) (hfit : r.Fits) (hk : k < r.size) :
    Held host p maxHistoryPerKey A { d with fs := d.fs.put p (logOf rs ++
      (r.encode (chainHead .zero 0 rs) (UInt64.ofNat rs.length)).take k) } rs data := by
  have hlogged : ∀ {fs' : FileSystem} {j}, j ≤ k → fs' p = some (logOf rs ++
      (r.encode (chainHead .zero 0 rs) (UInt64.ofNat rs.length)).take j) → Logged p fs' rs :=
    fun hj hfs' => logged_part h.logged.fits hfit (hj.trans_lt hk) hfs'
  refine h.relog (.put (snapshotPath_ne p).symm d _) (hlogged le_rfl (FileSystem.put_self ..))
    h.covered h.names (fun fs' hfs' => ?_) h.old h.outcomes
  rcases survives_append hfile hfs' with hold | ⟨j, hj⟩
  · exact h.found hold
  · rw [List.take_take] at hj
    exact .inr ⟨rs, log_mem h.logged, hlogged (Nat.min_le_right ..) hj⟩

/-- A record is written. -/
theorem put_record {μ : Mutation} {e : UInt64} (h : Held host p maxHistoryPerKey A d rs data)
    (hfile : d.fs p = some (logOf rs)) (hμ : μ.Fits) (he : e = nextEpoch (d.fs.image p)) :
    Held host p maxHistoryPerKey (fun x => A x ∨ x = μ.apply maxHistoryPerKey data)
      { d with fs := d.fs.put p (logOf rs ++
        (μ.entry host e).encode (chainHead .zero 0 rs) (UInt64.ofNat rs.length)) }
      (rs ++ [μ.entry host e]) (μ.apply maxHistoryPerKey data) := by
  have hfit : (μ.entry host e).Fits := entry_fits hμ e
  have hepoch : (μ.entry host e).epoch = nextEpoch (d.fs.image p) := by rw [Mutation.entry_epoch, he]
  have happly : replayRecord host maxHistoryPerKey data (μ.entry host e) =
      μ.apply maxHistoryPerKey data := replayEntry_entry ..
  have hlogged : Logged p (d.fs.put p (logOf rs ++ (μ.entry host e).encode (chainHead .zero 0 rs)
      (UInt64.ofNat rs.length))) (rs ++ [μ.entry host e]) :=
    logged_record h.logged.fits hfit (FileSystem.put_self ..)
  have houtcomes := h.outcomes.append (h.uncovered hepoch)
  rw [happly] at houtcomes
  refine h.relog (.put (snapshotPath_ne p).symm d _) hlogged ?_ h.names (fun fs' hfs' => ?_) ?_
    houtcomes
  · rw [logOf_concat h.logged.fits hfit, List.length_append]
    exact h.covered.trans (Nat.le_add_right ..)
  · rcases survives_append hfile hfs' with hold | ⟨j, hj⟩
    · exact (h.found hold).imp_right (Exists.imp fun _ hrs' => hrs'.imp_left .inr)
    · rcases Nat.lt_or_ge j (μ.entry host e).size with hlt | hge
      · exact .inr ⟨rs, .inr (log_mem h.logged), logged_part h.logged.fits hfit hlt hj⟩
      · rw [List.take_of_length_le (by rwa [LogRecord.length_encode])] at hj
        exact .inr ⟨_, .inl rfl, logged_record h.logged.fits hfit hj⟩
  · rintro rs' (rfl | hmem) r hr
    · rcases List.mem_append.1 hr with hr | hr
      · exact h.old rs (log_mem h.logged) r hr
      · rw [List.mem_singleton.1 hr, hepoch]
        exact UInt64.le_refl _
    · exact h.old rs' hmem r hr

/-- A torn entry is cut off. -/
theorem shorten {tail : Bytes} (h : Held host p maxHistoryPerKey A d rs data)
    (hfile : d.fs p = some (logOf rs ++ tail)) :
    Held host p maxHistoryPerKey A { d with fs := d.fs.put p (logOf rs) } rs data := by
  have hlogged : Logged p (d.fs.put p (logOf rs)) rs :=
    ⟨h.logged.fits, .inr ⟨[], by rw [List.append_nil, FileSystem.put_self], tornTail_nil rs⟩⟩
  exact h.relog (.put (snapshotPath_ne p).symm d _) hlogged h.covered h.names
    (fun fs' hfs' => h.found (survives_shorten hfile h.covered hfs')) h.old h.outcomes

/-! ### Syncing -/

/-- The `fsync` of any file or directory leaves less to chance. -/
theorem flushed (h : Held host p maxHistoryPerKey A d rs data) (hfile : d.fs p = some (logOf rs))
    (q : Path) : Held host p maxHistoryPerKey A (d.flushed q) rs data := by
  have hlogs : (d.flushed q).logs p ⊆ d.logs p := by
    rintro rs' ⟨fs', hfs', hlogged⟩
    exact ⟨fs', survives_of_flushed hfs', hlogged⟩
  have himages : (d.flushed q).images p ⊆ d.images p := by
    rintro image ⟨o, ho, file, hfile, rfl⟩
    rcases List.mem_cons.1 ho with rfl | ho
    · exact ⟨_, List.mem_cons_self, file, survives_of_flushed hfile, rfl⟩
    · exact ⟨o, List.mem_cons_of_mem _ (Disk.lost_flushed ho), file, hfile, rfl⟩
  refine ⟨h.logged, ?_, fun fs' hfs' => h.whole fs' (survives_of_flushed hfs'),
    fun o ho => h.names o (Disk.lost_flushed ho),
    fun file hfile => h.saved file (survives_of_flushed hfile),
    fun image hmem => h.next image (himages hmem), fun rs' hmem => h.old rs' (hlogs hmem),
    h.outcomes.sub hlogs himages⟩
  by_cases hq : p = q
  · subst hq
    rw [Disk.synced_flushed, FileSystem.bytes_of_some hfile]
  · have hsynced : (d.flushed q).synced p = d.synced p := Function.update_of_ne hq ..
    rw [hsynced]
    exact h.covered

/-- The log is synced. -/
theorem synced (h : Held host p maxHistoryPerKey A d rs data) (hfile : d.fs p = some (logOf rs)) :
    Held host p maxHistoryPerKey (fun x => x = data) (d.flushed p) rs data := by
  refine h.relog (.flushed (snapshotPath_ne p).symm d) h.logged ?_ ?_ (fun fs' hfs' => ?_) ?_
    (h.outcomes.sync (subset_refl {rs}))
  · rw [Disk.synced_flushed, FileSystem.bytes_of_some hfile]
  · exact fun o ho => h.names o (Disk.lost_flushed ho)
  · exact .inr ⟨rs, rfl, h.logged.congr (survives_flushed hfs')⟩
  · rintro rs' rfl
    exact h.old rs' (log_mem h.logged)

/-! ### Images -/

/-- A synced image gets its name. -/
theorem moved {fs' : FileSystem} {src : Path} {file : Bytes} {image : SnapshotImage}
    (h : Held host p maxHistoryPerKey A d rs data) (hsrc : p ≠ src)
    (hne : makeSnapshotPath p ≠ src) (hwhole : ∀ f, Survives (d.entry src) f → f = some file)
    (hp : fs' p = d.fs p) (hfile : fs' (makeSnapshotPath p) = some file)
    (hparse : Snapshot.parse file = some image) (hepoch : image.epoch = nextEpoch (d.fs.image p))
    (hroom : image.epoch.toNat + 1 < 2 ^ 64)
    (hdata : imageData maxHistoryPerKey (some image) = data) :
    Held host p maxHistoryPerKey (fun x => A x ∨ x = data)
      (d.moved fs' src (makeSnapshotPath p)) rs data := by
  have hsame : Disk.Same p d (d.moved fs' src (makeSnapshotPath p)) :=
    .moved hsrc (snapshotPath_ne p) hp
  have himage : (d.moved fs' src (makeSnapshotPath p)).fs.image p = some image := by
    rw [FileSystem.image, Disk.moved_fs, hfile, Option.bind_some, hparse]
  have hnext : nextEpoch (d.fs.image p) < nextEpoch (some image) := by
    rw [← hepoch]
    exact lt_add_one_of_room hroom
  have hsurvives : ∀ f, Survives ((d.moved fs' src (makeSnapshotPath p)).entry
      (makeSnapshotPath p)) f → f = some file := by
    have hsource := hwhole _ (survives_self d src)
    exact fun f hf => hwhole f (survives_moved (by rw [hfile, hsource]) hf)
  have hlogs : (d.moved fs' src (makeSnapshotPath p)).logs p ⊆ d.logs p := by
    rintro rs' ⟨fs₁, hfs₁, hlogged⟩
    rw [hsame.entry] at hfs₁
    exact ⟨fs₁, hfs₁, hlogged⟩
  have hlost : (d.moved fs' src (makeSnapshotPath p)).lost (makeSnapshotPath p) =
      d.entry (makeSnapshotPath p) :: d.lost (makeSnapshotPath p) := by
    rw [Disk.moved]
    dsimp only
    rw [Function.update_of_ne hne, Function.update_self]
  have himages : (d.moved fs' src (makeSnapshotPath p)).images p ⊆
      insert (some image) (d.images p) := by
    rintro image' ⟨o, ho, f, hf, rfl⟩
    rw [hlost] at ho
    rcases List.mem_cons.1 ho with rfl | ho
    · left
      rw [hsurvives f hf, Option.bind_some, hparse]
    · exact .inr ⟨o, ho, f, hf, rfl⟩
  -- the new image covers whatever the log may hold
  have hcovers : ∀ rs' ∈ d.logs p, ∀ r ∈ rs', ¬Uncovered (some image) r := by
    intro rs' hmem r hr
    rw [uncovered_some, UInt64.not_lt, hepoch]
    exact h.old rs' hmem r hr
  refine ⟨h.logged.congr hp, ?_, fun fs₁ hfs₁ => ?_, fun o ho => h.names o (hsame.lost ho), ?_, ?_,
    ?_, ?_⟩
  · rw [hsame.synced]
    exact h.covered
  · rw [hsame.entry] at hfs₁
    exact h.whole fs₁ hfs₁
  · intro f hf
    rw [hsurvives f hf, Disk.moved_fs, hfile]
  · rw [himage]
    intro image' hmem i hi
    rcases himages hmem with rfl | hmem
    · obtain rfl := Option.some.inj hi
      exact lt_add_one_of_room hroom
    · exact UInt64.lt_trans (h.next image' hmem i hi) hnext
  · rw [himage]
    exact fun rs' hmem r hr =>
      UInt64.le_trans (h.old rs' (hlogs hmem) r hr) (UInt64.le_of_lt hnext)
  · exact (h.outcomes.save hdata (hcovers rs (log_mem h.logged)) hcovers).sub hlogs himages

/-- The directory is synced: only the image as it is now will be found. -/
theorem settled (h : Held host p maxHistoryPerKey A d rs data) :
    (d.flushed (Snapshot.parentDir (makeSnapshotPath p))).images p ⊆ {d.fs.image p} := by
  rintro image ⟨o, ho, file, hfile, rfl⟩
  rw [Disk.lost_flushed_parentDir, List.mem_singleton] at ho
  subst ho
  rw [h.saved file (survives_of_flushed hfile), Set.mem_singleton_iff, FileSystem.image]

/-! ### A new log -/

/-- The file of a new log is there. -/
theorem created (h : Held host p maxHistoryPerKey A d [] data) (hnone : d.fs p = none) :
    Held host p maxHistoryPerKey A (d.created (d.fs.put p []) p) [] data := by
  have hlogged : ∀ {fs' : FileSystem}, fs' p = some [] → Logged p fs' [] := fun hfs' =>
    logged_empty (FileSystem.bytes_of_some hfs')
  have hsynced : (d.created (d.fs.put p []) p).synced p = 0 := Function.update_self ..
  have hlost : (d.created (d.fs.put p []) p).lost p = d.entry p :: d.lost p :=
    Function.update_self ..
  refine h.relog
    (.created (snapshotPath_ne p).symm (FileSystem.put_of_ne (snapshotPath_ne p).symm ..))
    (hlogged (FileSystem.put_self ..)) ?_ ?_ (fun fs' hfs' => ?_) h.old h.outcomes
  · rw [hsynced]
    exact Nat.zero_le _
  · rw [hlost, Disk.entry, hnone]
    exact List.forall_mem_cons.2 ⟨rfl, h.names⟩
  · exact .inr ⟨[], log_mem h.logged, hlogged (survives_created hfs')⟩

/-- The log is synced and then emptied, under images that cover it. -/
theorem emptied (h : Held host p maxHistoryPerKey A d rs data) (hfile : d.fs p = some (logOf rs))
    (hcovered : ∀ image ∈ d.images p, ∀ r ∈ rs, ¬Uncovered image r) :
    Held host p maxHistoryPerKey (fun x => x = data)
      ((d.flushed p).cut (d.fs.put p []) p 0) [] data := by
  have hne := (snapshotPath_ne p).symm
  have hsync := h.synced hfile
  have hput : d.fs.put p [] (makeSnapshotPath p) = d.fs (makeSnapshotPath p) :=
    FileSystem.put_of_ne hne ..
  have hempty : ∀ {fs' : FileSystem}, fs' p = some [] → Logged p fs' [] := fun hfs' =>
    logged_empty (FileSystem.bytes_of_some hfs')
  refine hsync.relog (.cut hne hput) (hempty (by rw [Disk.cut_fs, FileSystem.put_self])) ?_ ?_
    (fun fs' hfs' => ?_) ?_ (hsync.outcomes.rewind fun image hmem =>
      hcovered image (images_same (.flushed hne d) hmem))
  · rw [Disk.synced_emptied]
    exact Nat.zero_le _
  · rw [Disk.lost_cut]
    exact hsync.names
  · rcases survives_emptied hfile hfs' with hold | hnew
    · exact .inr ⟨rs, .inr (log_mem hsync.logged), h.logged.congr (by rw [hold, hfile])⟩
    · exact .inr ⟨[], .inl rfl, hempty hnew⟩
  · rintro rs' (rfl | hmem)
    · simp
    · exact hsync.old rs' hmem

/-- A new log gets its header. -/
theorem header {fs : FileSystem} {k : ℕ} (h : Held host p maxHistoryPerKey A d [] data)
    (hempty : d.fs = fs.put p []) (hk : (Faults.none kHeaderSize).Cut kHeaderSize k) :
    Held host p maxHistoryPerKey A { d with fs := fs.put p (walHeader.take k) } [] data := by
  have hfile : d.fs p = some [] := by rw [hempty, FileSystem.put_self]
  have hput : fs.put p (walHeader.take k) = d.fs.put p ([] ++ walHeader.take k) := by
    rw [hempty, FileSystem.put_put, List.nil_append]
  rw [hput]
  refine h.relog (.put (snapshotPath_ne p).symm d _) (.ofCut Faults.none_reliable hk) h.covered
    h.names (fun fs' hfs' => ?_) h.old h.outcomes
  rcases survives_append hfile hfs' with hold | ⟨j, hj⟩
  · exact h.found hold
  · rw [List.nil_append, List.take_take] at hj
    have hcut : (Faults.none 0).Cut kHeaderSize (min j k) := by
      rcases Nat.lt_or_ge (min j k) kHeaderSize with hlt | hge
      · exact .inr (.inr ⟨by decide, hlt⟩)
      · exact .inr (.inl (le_antisymm ((Nat.min_le_right ..).trans hk.le) hge))
    have hlogged : Logged p (fs'.put p (walHeader.take (min j k))) [] ∨ _ := Logged.ofAnyCut hcut
    rw [FileSystem.put_eq_self hj] at hlogged
    exact hlogged.symm.imp_right fun hlogged => ⟨[], log_mem h.logged, hlogged⟩

/-- The header of a new log is synced. -/
theorem begun {fs : FileSystem} (h : Held host p maxHistoryPerKey A d [] data)
    (hempty : d.fs = fs.put p []) : Held host p maxHistoryPerKey (fun x => x = data)
      ({ d with fs := fs.put p walHeader }.flushed p) [] data := by
  have hwhole := h.header hempty (k := kHeaderSize) (.inr (.inl rfl))
  rw [show walHeader.take kHeaderSize = walHeader from rfl] at hwhole
  refine hwhole.synced ?_
  rw [logOf_nil]
  exact FileSystem.put_self ..

/-- A store that was never written to. -/
theorem new {fs : FileSystem} (hnew : fs.bytes p = []) (hnone : fs (makeSnapshotPath p) = none)
    (hA : A ∅) : Held host p maxHistoryPerKey A (Disk.new fs) [] ∅ := by
  have hlogged : ∀ {fs' : FileSystem}, fs' p = fs p → Logged p fs' [] := fun hfs' =>
    logged_empty (by rw [FileSystem.bytes, hfs', ← FileSystem.bytes, hnew])
  have hlogs : ∀ rs ∈ (Disk.new fs).logs p, rs = [] := by
    rintro rs ⟨fs', hfs', hrs⟩
    exact hrs.unique (hlogged (survives_new hfs'))
  have himages : ∀ image ∈ (Disk.new fs).images p, image = none := by
    rintro image ⟨o, ho, file, hfile, rfl⟩
    rw [List.mem_singleton.1 ho] at hfile
    rw [survives_new hfile, hnone, Option.bind_none]
  refine ⟨hlogged rfl, ?_, fun fs' hfs' => ?_, fun o ho => absurd ho List.not_mem_nil,
    fun file hfile => survives_new hfile, ?_, ?_, ?_, ?_⟩
  · rw [Disk.new]
    dsimp only
    rw [hnew]
    exact Nat.zero_le _
  · exact .inr ⟨[], hlogged (survives_new hfs')⟩
  · intro image hmem i hi
    rw [himages image hmem] at hi
    cases hi
  · intro rs hmem
    rw [hlogs rs hmem]
    simp
  · intro image hmem
    rw [himages image hmem]
    rfl
  · intro rs hrs image hmem
    rw [hlogs rs hrs, himages image hmem]
    exact hA

end Held

end LiteSpeedStore
