import LiteSpeedStore.Engine.GroupCommit

/-!
# Names on the disk

The constructor of the log makes a file and syncs it, but not its directory.  Until a snapshot syncs
the directory a power cut can take the name of the log, and with it every call that has returned.

* `durable_names_iff` : which power cuts a store that syncs every append survives.
* `durable_names_loses` : the name of the log is lost, and a `set` that had returned.
-/

namespace LiteSpeedStore

open Prog StorageEngine

variable {host : ByteOrder} {p : Path} {maxHistoryPerKey syncEveryN : ℕ} {fs fs' : FileSystem}
  {data data' x : Data} {w : DiskWorld} {events : List Event} {event : Event}

/-- Events that change nothing can be observed on any data. -/
theorem kept_unchanged (h : (store maxHistoryPerKey).step data event data')
    (hchange : event.changes = 0) (x : Data) : (store maxHistoryPerKey).step x event x := by
  cases h with
  | opened => exact .opened x
  | openCrashed => exact .openCrashed x
  | @returned op _ hwithin =>
    cases op with
    | set key value duration now => exact absurd hchange one_ne_zero
    | remove key now => exact absurd hchange one_ne_zero
    | snapshot => exact .returned x hwithin
    | recover => exact .returned x hwithin
  | refused _ what hwithin => exact .refused x what hwithin
  | undone => exact .undone x _
  | done => exact .undone x _
  | closed => exact .closed x
  | closeCrashed => exact .closeCrashed x

theorem run_unchanged (h : (store maxHistoryPerKey).Run data events data')
    (hchanges : (events.map Event.changes).sum = 0) (x : Data) :
    (store maxHistoryPerKey).Run x events x := by
  induction h with
  | nil => exact .nil x
  | cons hstep _ ih =>
    rw [List.map_cons, List.sum_cons, Nat.add_eq_zero_iff] at hchanges
    exact .cons (kept_unchanged hstep hchanges.1 x) (ih hchanges.2)

/-- What loses no change is the data of the store. -/
theorem Loses.run (h : Loses maxHistoryPerKey 0 events x)
    (hkept : (store maxHistoryPerKey).Run ∅ events data) :
    (store maxHistoryPerKey).Run ∅ events x := by
  obtain ⟨before, after, rfl, hrun, hle⟩ := h
  obtain ⟨data₁, -, hafter⟩ := hkept.split
  exact hrun.append (run_unchanged hafter (Nat.le_zero.1 hle) x)

/-- Without a log, the image is all there is. -/
theorem reopens_unnamed (h : fs p = none) :
    Reopens host p maxHistoryPerKey fs (imageData maxHistoryPerKey (fs.image p)) := by
  have hlogged : Logged p fs [] :=
    logged_empty (by rw [FileSystem.bytes, h, Option.getD_none])
  exact (reopens_iff hlogged).2 rfl

/-- **Names on the disk.**  In a run from a directory without the files, in which every append is
synced, a power cut loses no change that has returned if and only if it leaves no part of a header,
and keeps the name of the log or an image that has all the changes. -/
theorem durable_names_iff (hnone : fs p = none) (himage : fs (makeSnapshotPath p) = none)
    (hrun : (onDisk host p maxHistoryPerKey 1).Run ⟨none, Disk.new fs, 0⟩ events w)
    (hcut : PowerCut w.disk fs') :
    (∃ data, (store maxHistoryPerKey).Run ∅ events data ∧ Reopens host p maxHistoryPerKey fs' data) ↔
      ¬PartOfHeader p fs' ∧ ((fs' p).isSome ∨
        (store maxHistoryPerKey).Run ∅ events (imageData maxHistoryPerKey (fs'.image p))) := by
  have hnew : fs.bytes p = [] := by rw [FileSystem.bytes, hnone, Option.getD_none]
  have hstart : Durable host p maxHistoryPerKey 1 [] ⟨none, Disk.new fs, 0⟩ ∅ := .new hnew himage
  obtain ⟨data, hdurable⟩ := onDisk_durable le_rfl hstart hrun
  rw [List.nil_append] at hdurable
  -- every change was synced
  have hunsynced : w.unsynced = 0 := Nat.le_zero.1 (counted_durable le_rfl hstart (Nat.zero_le _)
    (hrun.restrict fun _ _ _ _ _ _ _ => .inr (Nat.le_add_left ..)))
  obtain ⟨rs, hheld⟩ := hdurable.held
  -- the name is kept, or nothing is
  have hname : (fs' p).isSome → Survives (w.disk.entry p) (fs' p) := by
    intro hsome
    obtain ⟨o, ho, hsurvives⟩ := hcut p
    rcases List.mem_cons.1 ho with rfl | ho
    · exact hsurvives
    · rw [hheld.names o ho] at hsurvives
      rw [show fs' p = none from hsurvives] at hsome
      cases hsome
  cases hfile : fs' p with
  | none =>
    have hreopens : Reopens host p maxHistoryPerKey fs' _ := reopens_unnamed hfile
    have hwhole : ¬PartOfHeader p fs' := by
      rintro ⟨hpos, -⟩
      rw [FileSystem.bytes, hfile] at hpos
      exact absurd hpos (lt_irrefl 0)
    constructor
    · rintro ⟨data', hkept, hreopens'⟩
      rw [hreopens'.unique hreopens] at hkept
      exact ⟨hwhole, .inr hkept⟩
    · rintro ⟨-, hsome | hkept⟩
      · cases hsome
      · exact ⟨_, hkept, hreopens⟩
  | some b =>
    have hsurvives := hname (by rw [hfile]; rfl)
    constructor
    · rintro ⟨data', -, hreopens⟩
      refine ⟨fun hpart => ?_, .inl rfl⟩
      rcases hheld.whole fs' hsurvives with htorn | ⟨rs', hlogged⟩
      · exact not_reopens (tornHeader_refused htorn) hreopens
      · exact hlogged.not_part hpart
    · rintro ⟨hwhole, -⟩
      obtain ⟨data', hloses, hreopens⟩ := hdurable.loses hcut hsurvives hwhole
      rw [hunsynced] at hloses
      exact ⟨data', hloses.run hdurable.kept, hreopens⟩

/-- The log is the only file, and its name is not on the disk. -/
structure Unnamed (p : Path) (d : Disk) : Prop where
  lost : none ∈ d.lost p
  only : ∀ q, q ≠ p → d.fs q = none

/-- A power cut can take the name of the log. -/
theorem Unnamed.cut {d : Disk} (h : Unnamed p d) : PowerCut d fun _ => none := by
  intro q
  by_cases hq : q = p
  · subst hq
    exact ⟨none, List.mem_cons_of_mem _ h.lost, rfl⟩
  · refine ⟨_, List.mem_cons_self, ?_⟩
    rw [Disk.entry, h.only q hq]
    rfl

theorem Unnamed.put {d : Disk} (h : Unnamed p d) (b : Bytes) :
    Unnamed p { d with fs := d.fs.put p b } :=
  ⟨h.lost, fun q hq => (FileSystem.put_of_ne hq ..).trans (h.only q hq)⟩

/-- The `fsync` of the log does not help. -/
theorem Unnamed.flushed {d : Disk} (h : Unnamed p d) (hdir : Snapshot.parentDir p ≠ p) :
    Unnamed p (d.flushed p) := by
  refine ⟨?_, h.only⟩
  have hlost : (d.flushed p).lost p = d.lost p := if_neg hdir
  rw [hlost]
  exact h.lost

/-- The constructor makes the log, and does not sync its directory. -/
theorem wp_openUnnamed {d : Disk} {orders : Orders} (hdir : Snapshot.parentDir p ≠ p)
    (h : ∀ q, d.fs q = none) :
    wp (Disk.env kHeaderSize) (StorageEngine.construct host p maxHistoryPerKey syncEveryN orders)
      (fun _ => Unnamed p) (fun _ => True) d := by
  have hnone := h p
  have hunnamed : Unnamed p (d.created (d.fs.put p []) p) := by
    refine ⟨?_, fun q hq => (FileSystem.put_of_ne hq ..).trans (h q)⟩
    have hlost : (d.created (d.fs.put p []) p).lost p = d.entry p :: d.lost p :=
      Function.update_self ..
    rw [hlost, Disk.entry, hnone]
    exact List.mem_cons_self
  have hput := hunnamed.put walHeader
  rw [Disk.created_fs, FileSystem.put_put] at hput
  exact wp_openNew hnone fun _ => hput.flushed hdir

/-- `set` and `remove` do not sync it either. -/
theorem wp_changeUnnamed {d : Disk} {engine : StorageEngine} {wal : WAL} {rs : List LogRecord}
    {orders : Orders} {op : Op} {μ : Mutation} (hdir : Snapshot.parentDir p ≠ p)
    (hop : op.mutation = some μ) (hμ : μ.Fits)
    (hattached : Attached p maxHistoryPerKey d.fs rs engine wal) (h : Unnamed p d) :
    wp (Disk.env kHeaderSize) (engine.call host orders op)
      (fun result d' => result.1 = .ok (op.answer engine.data) ∧ Unnamed p d') (fun _ => True) d := by
  have hfit : (μ.entry host wal.epoch).Fits := entry_fits hμ _
  rw [call_accepted hop hattached.log hμ]
  exact wp_appendOnDisk hattached.fd hattached.file hfit (Mutation.entry_epoch ..)
    (fun _ _ => trivial) (fun _ => ⟨trivial, rfl, (h.put _).flushed hdir⟩)
    fun _ => ⟨trivial, rfl, h.put _⟩

/-- A `set` on a new store. -/
theorem exists_set_unnamed (host : ByteOrder) (maxHistoryPerKey : ℕ) {key value : Bytes}
    {duration : UInt64} {now : Int64} (hdir : Snapshot.parentDir p ≠ p)
    (hfits : (Mutation.put key ⟨value, duration, now⟩).Fits) :
    ∃ w, (onDisk host p maxHistoryPerKey 1).Run ⟨none, Disk.new fun _ => none, 0⟩
        [.opened, .returned (.set key value duration now) none] w ∧
      Unnamed p w.disk ∧ (w.disk.fs p).isSome ∧ ¬PartOfHeader p w.disk.fs := by
  have hstart : Durable host p maxHistoryPerKey 1 [] ⟨none, Disk.new fun _ => none, 0⟩ ∅ :=
    .new rfl rfl
  obtain ⟨result₁, d₁, hopen⟩ : ∃ result d', Exec (Disk.env kHeaderSize)
      (StorageEngine.construct host p maxHistoryPerKey 1 ⟨Order.any, Order.any⟩)
      (Disk.new fun _ => none) result d' := ⟨_, _, exec_run Disk.allows_posix _ _⟩
  obtain ⟨-, engine, rfl, -⟩ := wp_exec (wp_openRelated hstart.related) (exec_fs hopen)
  have hunnamed := wp_exec (wp_openUnnamed hdir fun _ => rfl) hopen
  obtain ⟨u₁, hopened, -⟩ := exists_step 0 (by rintro ⟨⟩) (.opened hopen)
  obtain ⟨data₁, hdurable₁⟩ := hstart.step le_rfl hopened
  obtain ⟨rs, -, -, wal, hattached, -⟩ := hdurable₁.related
  obtain ⟨⟨result, engine'⟩, d', hset⟩ : ∃ result d', Exec (Disk.env kHeaderSize)
      (engine.call host ⟨Order.any, Order.any⟩ (.set key value duration now)) d₁ result d' :=
    ⟨_, _, exec_run Disk.allows_posix _ _⟩
  have hop : (Op.set key value duration now).mutation = some (.put key ⟨value, duration, now⟩) := rfl
  obtain ⟨rfl, hunnamed'⟩ := wp_exec (wp_changeUnnamed hdir hop hfits hattached hunnamed) hset
  obtain ⟨u₂, hreturned, -⟩ := exists_step u₁ (by rintro ⟨⟩) (.returned hset)
  obtain ⟨data₂, hdurable₂⟩ := hdurable₁.step le_rfl hreturned
  obtain ⟨rs', -, -, wal', hattached', -⟩ := id hdurable₂.related
  refine ⟨_, .cons hopened (.single hreturned), hunnamed', ?_, hdurable₂.related.not_part⟩
  rw [show d'.fs p = some (logOf rs') from hattached'.file]
  rfl

theorem durable_names_iff_set : ∃ w, (onDisk .little "a" 0 1).Run
      ⟨none, Disk.new fun _ => none, 0⟩ [.opened, .returned (.set [107] [118] 0 5) none] w ∧
    PowerCut w.disk w.disk.fs ∧ ∃ data,
      (store 0).Run ∅ [.opened, .returned (.set [107] [118] 0 5) none] data ∧
      Reopens .little "a" 0 w.disk.fs data := by
  obtain ⟨w, hrun, -, hsome, hwhole⟩ := exists_set_unnamed .little 0 (p := "a") (by decide)
    (show (Mutation.put [107] ⟨[118], 0, 5⟩).Fits by decide)
  have hcut : PowerCut w.disk w.disk.fs := fun q => ⟨_, List.mem_cons_self, survives_self w.disk q⟩
  exact ⟨w, hrun, hcut, (durable_names_iff rfl rfl hrun hcut).2 ⟨hwhole, .inl hsome⟩⟩

/-- The first `set` of a store returns, and a power cut takes the name of the log. -/
theorem durable_names_loses : ∃ w fs', (onDisk .little "a" 0 1).Run
      ⟨none, Disk.new fun _ => none, 0⟩ [.opened, .returned (.set [107] [118] 0 5) none] w ∧
    PowerCut w.disk fs' ∧ ¬PartOfHeader "a" fs' ∧ ∀ data,
      (store 0).Run ∅ [.opened, .returned (.set [107] [118] 0 5) none] data →
      ¬Reopens .little "a" 0 fs' data := by
  obtain ⟨w, hrun, hunnamed, -, -⟩ := exists_set_unnamed .little 0 (p := "a") (by decide)
    (show (Mutation.put [107] ⟨[118], 0, 5⟩).Fits by decide)
  refine ⟨w, _, hrun, hunnamed.cut, by decide, fun data hkept hreopens => ?_⟩
  have hempty : Reopens .little "a" 0 (fun _ => none) ∅ := reopens_unnamed rfl
  obtain rfl := hreopens.unique hempty
  cases hkept with
  | cons hopened hkept =>
    cases hopened
    cases hkept with
    | cons hset hkept =>
      cases hset
      -- the value would be there
      have hstays := store_keeps hkept (by simp) (lookup_set ..)
      rw [Finmap.lookup_empty] at hstays
      cases hstays

end LiteSpeedStore
