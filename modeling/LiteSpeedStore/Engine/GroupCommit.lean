import LiteSpeedStore.Engine.DurableCalls

/-!
# Group commit

The log is synced after every `syncEveryN` appends of an object, so that a power cut loses fewer
calls than that.  The object counts its own appends: those that a process has left unsynced when it
died are not in the count of the next one.

* `onDisk` : the machine of the store on a disk, with the number of unsynced calls.
* `onDisk_durable` : what a power cut loses in any state of a run.
* `group_commit_bound` : the runs in which every unsynced call is counted.
* `group_commit_loses` : a run with `syncEveryN = 2` in which two calls are lost.
-/

namespace LiteSpeedStore

open Prog StorageEngine

/-- The process, if it has the store open, and the disk. -/
structure DiskWorld where
  engine : Option StorageEngine
  disk : Disk
  /-- How many changes have returned since the log was last synced. -/
  unsynced : ℕ

/-- What the processes see of it. -/
def DiskWorld.seen (w : DiskWorld) : World := ⟨w.engine, w.disk.fs⟩

/-- The event is the return of a change. -/
def Event.changes : Event → ℕ
  | .returned op _ => op.mutation.elim 0 fun _ => 1
  | _ => 0

section Machine

variable (host : ByteOrder) (p : Path) (maxHistoryPerKey syncEveryN : ℕ)

/-- The steps of the processes on a disk on which nothing fails. -/
inductive DiskStep : Option StorageEngine × Disk → Event → Option StorageEngine × Disk → Prop
  | opened {d d' : Disk} {orders : Orders} {engine : StorageEngine} :
      Exec (Disk.env kHeaderSize)
        (StorageEngine.construct host p maxHistoryPerKey syncEveryN orders) d (.ok engine) d' →
      DiskStep (none, d) .opened (some engine, d')
  | openFailed {d d' : Disk} {orders : Orders} {e : Exception} :
      Exec (Disk.env kHeaderSize)
        (StorageEngine.construct host p maxHistoryPerKey syncEveryN orders) d (.error e) d' →
      DiskStep (none, d) (.openFailed e) (none, d')
  | openCrashed {d d' : Disk} {orders : Orders} :
      Crash (Disk.env kHeaderSize)
        (StorageEngine.construct host p maxHistoryPerKey syncEveryN orders) d d' →
      DiskStep (none, d) .openCrashed (none, d')
  | returned {d d' : Disk} {engine engine' : StorageEngine} {orders : Orders} {op : Op}
      {answer : Option Bool} :
      Exec (Disk.env kHeaderSize) (engine.call host orders op) d (.ok answer, engine') d' →
      DiskStep (some engine, d) (.returned op answer) (some engine', d')
  | threw {d d' : Disk} {engine engine' : StorageEngine} {orders : Orders} {op : Op}
      {e : Exception} :
      Exec (Disk.env kHeaderSize) (engine.call host orders op) d (.error e, engine') d' →
      DiskStep (some engine, d) (.threw op e) (some engine', d')
  | crashed {d d' : Disk} {engine : StorageEngine} {orders : Orders} {op : Op} :
      Crash (Disk.env kHeaderSize) (engine.call host orders op) d d' →
      DiskStep (some engine, d) (.crashed op) (none, d')
  | closed {d d' : Disk} {engine : StorageEngine} :
      Exec (Disk.env kHeaderSize) engine.destroy d () d' →
      DiskStep (some engine, d) .closed (none, d')
  | closeCrashed {d d' : Disk} {engine : StorageEngine} :
      Crash (Disk.env kHeaderSize) engine.destroy d d' →
      DiskStep (some engine, d) .closeCrashed (none, d')

/-- The machine of the store at `p` on a disk, with the snapshots within the limits. -/
def onDisk : Lts DiskWorld Event where
  step w event w' := (event.op = some .snapshot → w.seen.WithinLimits) ∧
    DiskStep host p maxHistoryPerKey syncEveryN (w.engine, w.disk) event (w'.engine, w'.disk) ∧
    w'.unsynced =
      if w'.disk.syncs p = w.disk.syncs p then w.unsynced + event.changes else 0

end Machine

/-- The data after all but some of the events, of which at most `k` are the return of a change. -/
def Loses (maxHistoryPerKey k : ℕ) (events : List Event) (data : Data) : Prop :=
  ∃ before after, events = before ++ after ∧ (store maxHistoryPerKey).Run ∅ before data ∧
    (after.map Event.changes).sum ≤ k

variable {host : ByteOrder} {p : Path} {maxHistoryPerKey syncEveryN k : ℕ} {A : Data → Prop}
  {fs fs' : FileSystem} {data : Data} {w w' : DiskWorld} {events : List Event} {event : Event}

theorem Loses.now (h : (store maxHistoryPerKey).Run ∅ events data) :
    Loses maxHistoryPerKey k events data := ⟨events, [], by simp, h, Nat.zero_le _⟩

theorem Loses.concat (h : Loses maxHistoryPerKey k events data) (event : Event) :
    Loses maxHistoryPerKey (k + event.changes) (events ++ [event]) data := by
  obtain ⟨before, after, rfl, hrun, hle⟩ := h
  refine ⟨before, after ++ [event], List.append_assoc .., hrun, ?_⟩
  rw [List.map_append, List.sum_append, List.map_singleton, List.sum_singleton]
  exact Nat.add_le_add_right hle _

/-- The processes see a step of the machine. -/
theorem onDisk_seen (h : (onDisk host p maxHistoryPerKey syncEveryN).step w event w') :
    (sound host p maxHistoryPerKey).step w.seen event w'.seen := by
  obtain ⟨engine, d, u⟩ := w
  obtain ⟨engine', d', u'⟩ := w'
  obtain ⟨hlimits, hstep, -⟩ := h
  refine ⟨hlimits, ?_⟩
  dsimp only at hstep
  cases hstep with
  | opened hx => exact .opened (exec_fs hx)
  | openFailed hx => exact .openFailed (exec_fs hx)
  | openCrashed hx => exact .openCrashed (crash_fs hx)
  | returned hx => exact .returned (exec_fs hx)
  | threw hx => exact .threw (exec_fs hx)
  | crashed hx => exact .crashed (crash_fs hx)
  | closed hx => exact .closed (exec_fs hx)
  | closeCrashed hx => exact .closeCrashed (crash_fs hx)

/-- The files and the data of an open engine are those of the invariant. -/
theorem Related.attached {engine : StorageEngine} {rs : List LogRecord}
    (h : Related True host p maxHistoryPerKey ⟨some engine, fs⟩ data) (hlogged : Logged p fs rs) :
    engine.data = data ∧ Good maxHistoryPerKey data ∧ ∃ wal,
      Attached p maxHistoryPerKey fs rs engine wal ∧ wal.epoch = nextEpoch (fs.image p) := by
  obtain ⟨rs', hstands, hdata, wal, hattached, hepoch⟩ := h
  obtain rfl := hattached.logged.unique hlogged
  exact ⟨hdata, hstands.good, wal, hattached, hepoch⟩

theorem Related.contents_eq {w : World} {rs : List LogRecord}
    (h : Related True host p maxHistoryPerKey w data) (hlogged : Logged p w.fs rs) :
    contents host maxHistoryPerKey (w.fs.image p) rs = data := by
  obtain ⟨_ | engine, fs⟩ := w
  · obtain ⟨rs', hstands, hlogged'⟩ := h
    rw [hlogged.unique hlogged']
    exact hstands.restored
  · obtain ⟨rs', hstands, hlogged'⟩ := h.left
    rw [hlogged.unique hlogged']
    exact hstands.restored

/-- The rule of a call in a state of a run. -/
theorem wp_callRelated {engine : StorageEngine} {d : Disk} {rs : List LogRecord} {op : Op}
    {orders : Orders} (hrelated : Related True host p maxHistoryPerKey ⟨some engine, d.fs⟩ data)
    (h : Held host p maxHistoryPerKey A d rs data)
    (hlimits : some op = some .snapshot → World.WithinLimits ⟨some engine, d.fs⟩) :
    wp (Disk.env kHeaderSize) (engine.call host orders op)
      (fun result d' => Safe host p maxHistoryPerKey A d d' ∧
        ∀ wal ∈ engine.wal, op.mutation.isSome → wal.pendingWrites + 1 ≥ wal.syncEveryN →
          (∃ answer, result.1 = .ok answer) → d'.syncs p ≠ d.syncs p)
      (Safe host p maxHistoryPerKey A d) d := by
  obtain ⟨rfl, hgood, wal, hattached, hepoch⟩ := hrelated.attached h.logged
  refine wp_mono (wp_callDurable h hattached hepoch hgood fun hop => ?_) ?_ fun _ h' => h'
  · exact hlimits (congrArg some hop) engine rfl
  · rintro result d' ⟨hsafe, hsync⟩
    refine ⟨hsafe, fun wal' hwal' => ?_⟩
    obtain rfl : wal = wal' := Option.some.inj (hattached.log.symm.trans hwal')
    exact hsync

/-- A step leaves to a power cut what could have been left before, or the data as it is then. -/
theorem step_safe {rs : List LogRecord} (hrelated : Related True host p maxHistoryPerKey w.seen data)
    (h : Held host p maxHistoryPerKey A w.disk rs data)
    (hstep : (onDisk host p maxHistoryPerKey syncEveryN).step w event w') :
    Safe host p maxHistoryPerKey A w.disk w'.disk := by
  obtain ⟨engine, d, u⟩ := w
  obtain ⟨engine', d', u'⟩ := w'
  obtain ⟨hlimits, hstep, -⟩ := hstep
  dsimp only at hstep h ⊢
  cases hstep with
  | opened hx => exact (wp_exec (wp_constructDurable h) hx :)
  | openFailed hx => exact (wp_exec (wp_constructDurable h) hx :)
  | openCrashed hx => exact wp_crash (wp_constructDurable h) hx
  | returned hx => exact (wp_exec (wp_callRelated hrelated h hlimits) hx).1
  | threw hx => exact (wp_exec (wp_callRelated hrelated h hlimits) hx).1
  | crashed hx => exact wp_crash (wp_callRelated hrelated h hlimits) hx
  | closed hx =>
    obtain ⟨-, -, wal, hattached, -⟩ := hrelated.attached h.logged
    exact (wp_exec (wp_destroyDurable h hattached) hx :)
  | closeCrashed hx =>
    obtain ⟨-, -, wal, hattached, -⟩ := hrelated.attached h.logged
    exact wp_crash (wp_destroyDurable h hattached) hx

/-- The engine syncs its log after `syncEveryN` appends. -/
def DiskWorld.Every (w : DiskWorld) (syncEveryN : ℕ) : Prop :=
  ∀ engine ∈ w.engine, ∀ wal ∈ engine.wal, wal.syncEveryN = syncEveryN

theorem step_every (hN : 1 ≤ syncEveryN) (hrelated : Related True host p maxHistoryPerKey w.seen data)
    (h : w.Every syncEveryN)
    (hstep : (onDisk host p maxHistoryPerKey syncEveryN).step w event w') : w'.Every syncEveryN := by
  obtain ⟨engine, d, u⟩ := w
  obtain ⟨engine', d', u'⟩ := w'
  obtain ⟨-, hstep, -⟩ := hstep
  dsimp only at hstep
  have hcall : ∀ {engine engine' : StorageEngine} {op orders result}, Related True host p
      maxHistoryPerKey ⟨some engine, d.fs⟩ data → (∀ wal ∈ engine.wal, wal.syncEveryN = syncEveryN) →
      Exec (Disk.env kHeaderSize) (engine.call host orders op) d (result, engine') d' →
      ∀ wal ∈ engine'.wal, wal.syncEveryN = syncEveryN := by
    intro engine engine' op orders result hrelated hevery hx wal' hwal'
    obtain ⟨rs, -, -, wal, hattached, -⟩ := hrelated
    obtain ⟨wal'', hwal'', hsame⟩ := wp_exec (wp_callCount Faults.none_steady hattached.log
      hattached.fd hattached.path hattached.file) (exec_fs hx)
    obtain rfl : wal'' = wal' := Option.some.inj (hwal''.symm.trans hwal')
    rw [hsame, hevery wal hattached.log]
  cases hstep with
  | opened hx =>
    intro engine hengine wal hwal
    obtain rfl := Option.some.inj hengine
    obtain ⟨wal', hwal', hevery, -⟩ := wp_exec (wp_openCount Faults.none_steady) (exec_fs hx) _ rfl
    obtain rfl : wal' = wal := Option.some.inj (hwal'.symm.trans hwal)
    rw [hevery, WAL.fresh, if_neg (not_lt.2 hN)]
  | returned hx =>
    intro engine hengine
    obtain rfl := Option.some.inj hengine
    exact hcall hrelated (h _ rfl) hx
  | threw hx =>
    intro engine hengine
    obtain rfl := Option.some.inj hengine
    exact hcall hrelated (h _ rfl) hx
  | _ => rintro engine ⟨⟩

/-- What a power cut can lose in a state, after these events, and with this data. -/
structure Durable (host : ByteOrder) (p : Path) (maxHistoryPerKey syncEveryN : ℕ)
    (events : List Event) (w : DiskWorld) (data : Data) : Prop where
  kept : (store maxHistoryPerKey).Run ∅ events data
  related : Related True host p maxHistoryPerKey w.seen data
  every : w.Every syncEveryN
  held : ∃ rs, Held host p maxHistoryPerKey (Loses maxHistoryPerKey w.unsynced events) w.disk rs data

/-- The step lemma. -/
theorem Durable.step (hN : 1 ≤ syncEveryN)
    (h : Durable host p maxHistoryPerKey syncEveryN events w data)
    (hstep : (onDisk host p maxHistoryPerKey syncEveryN).step w event w') :
    ∃ data', Durable host p maxHistoryPerKey syncEveryN (events ++ [event]) w' data' := by
  obtain ⟨rs, hheld⟩ := h.held
  have hrefines : Lts.Simulation (sound host p maxHistoryPerKey) (store maxHistoryPerKey)
      (Related True host p maxHistoryPerKey) :=
    machine_refines fun _ _ hlimits hop => ⟨trivial, hlimits hop⟩
  obtain ⟨data', hkept, hrelated⟩ := hrefines h.related (onDisk_seen hstep)
  have hrun := h.kept.append (.single hkept)
  obtain ⟨rs', data'', hheld'⟩ := step_safe h.related hheld hstep
  have hdata : data'' = data' := by
    rw [← hheld'.contents_eq]
    exact hrelated.contents_eq hheld'.logged
  subst hdata
  refine ⟨data'', hrun, hrelated, step_every hN h.related h.every hstep, rs', hheld'.mono ?_⟩
  rintro x (⟨hsyncs, hx⟩ | rfl)
  · rw [hstep.2.2, if_pos hsyncs]
    exact hx.concat event
  · exact .now hrun

/-- A store that was never written to. -/
theorem Durable.new (hnew : fs.bytes p = []) (hnone : fs (makeSnapshotPath p) = none) :
    Durable host p maxHistoryPerKey syncEveryN [] ⟨none, Disk.new fs, 0⟩ ∅ where
  kept := .nil ∅
  related := .empty hnew hnone
  every := by rintro engine ⟨⟩
  held := ⟨[], .new hnew hnone (.now (.nil ∅))⟩

/-- **What a power cut can lose in any state of a run.** -/
theorem onDisk_durable (hN : 1 ≤ syncEveryN)
    (h : Durable host p maxHistoryPerKey syncEveryN events w data) {events' : List Event}
    (hrun : (onDisk host p maxHistoryPerKey syncEveryN).Run w events' w') :
    ∃ data', Durable host p maxHistoryPerKey syncEveryN (events ++ events') w' data' := by
  induction hrun generalizing events data with
  | nil => exact ⟨data, by rwa [List.append_nil]⟩
  | cons hstep _ ih =>
    obtain ⟨data', h'⟩ := h.step hN hstep
    obtain ⟨data'', h''⟩ := ih h'
    exact ⟨data'', by rwa [List.append_assoc, List.singleton_append] at h''⟩

/-- Whatever a power cut leaves, if it leaves the name of the log and not just a part of a header. -/
theorem Durable.loses (h : Durable host p maxHistoryPerKey syncEveryN events w data)
    (hcut : PowerCut w.disk fs') (hname : Survives (w.disk.entry p) (fs' p))
    (hwhole : ¬PartOfHeader p fs') : ∃ data', Loses maxHistoryPerKey w.unsynced events data' ∧
      Reopens host p maxHistoryPerKey fs' data' := by
  obtain ⟨rs, hheld⟩ := h.held
  obtain ⟨o, ho, hsurvives⟩ := hcut (makeSnapshotPath p)
  rcases hheld.found hname with htorn | ⟨rs', hmem, hlogged⟩
  · exact absurd htorn.part hwhole
  · exact ⟨_, hheld.outcomes.held rs' hmem _ ⟨o, ho, _, hsurvives, rfl⟩, (reopens_iff hlogged).2 rfl⟩

/-! ### The count -/

/-- Every unsynced change is in the count of the log object, or the next one is synced. -/
def DiskWorld.Counted (w : DiskWorld) (syncEveryN : ℕ) : Prop :=
  ∀ engine ∈ w.engine, ∀ wal ∈ engine.wal,
    w.unsynced ≤ wal.pendingWrites ∨ syncEveryN ≤ wal.pendingWrites + 1

/-- The runs in which the changes are made by objects that have counted the unsynced ones. -/
def counted (host : ByteOrder) (p : Path) (maxHistoryPerKey syncEveryN : ℕ) :
    Lts DiskWorld Event :=
  (onDisk host p maxHistoryPerKey syncEveryN).restrict fun w event =>
    0 < event.changes → w.Counted syncEveryN

theorem Event.changes_le (event : Event) : event.changes ≤ 1 := by
  cases event with
  | returned op answer => cases op <;> simp [Event.changes, Op.mutation]
  | _ => exact Nat.zero_le _

/-- A change that is not synced leaves room for fewer than `syncEveryN` unsynced ones. -/
theorem Durable.room (h : Durable host p maxHistoryPerKey syncEveryN events w data)
    (hchange : 0 < event.changes) (hcounted : w.Counted syncEveryN)
    (hstep : (onDisk host p maxHistoryPerKey syncEveryN).step w event w')
    (hsyncs : w'.disk.syncs p = w.disk.syncs p) : w.unsynced + 1 < syncEveryN := by
  obtain ⟨rs, hheld⟩ := h.held
  have hrelated := h.related
  have hevery := h.every
  obtain ⟨engine, d, u⟩ := w
  obtain ⟨engine', d', u'⟩ := w'
  obtain ⟨hlimits, hstep, -⟩ := hstep
  dsimp only at hstep hsyncs hheld ⊢
  cases hstep with
  | @returned _ _ engine _ _ op answer hx =>
    obtain ⟨-, -, wal, hattached, -⟩ := hrelated.attached hheld.logged
    obtain ⟨-, hsync⟩ := wp_exec (wp_callRelated hrelated hheld hlimits) hx
    have hmutation : op.mutation.isSome := by
      cases op with
      | set key value duration now => rfl
      | remove key now => rfl
      | _ => exact absurd hchange (lt_irrefl 0)
    -- the `fsync` was not due
    have hlater : ¬wal.pendingWrites + 1 ≥ wal.syncEveryN := fun hdue =>
      hsync wal hattached.log hmutation hdue ⟨answer, rfl⟩ hsyncs
    have hN : wal.syncEveryN = syncEveryN := hevery engine rfl wal hattached.log
    have hcount : u ≤ wal.pendingWrites ∨ syncEveryN ≤ wal.pendingWrites + 1 :=
      hcounted engine rfl wal hattached.log
    omega
  | _ => exact absurd hchange (lt_irrefl 0)

/-- Fewer than `syncEveryN` changes are unsynced. -/
theorem Durable.bound (h : Durable host p maxHistoryPerKey syncEveryN events w data)
    (hle : w.unsynced ≤ syncEveryN - 1)
    (hstep : (counted host p maxHistoryPerKey syncEveryN).step w event w') :
    w'.unsynced ≤ syncEveryN - 1 := by
  obtain ⟨hcounted, hstep⟩ := hstep
  rw [hstep.2.2]
  split_ifs with hsyncs
  · rcases Nat.eq_zero_or_pos event.changes with hzero | hpos
    · rwa [hzero, Nat.add_zero]
    · have hroom := h.room hpos (hcounted hpos) hstep hsyncs
      have hone := event.changes_le
      omega
  · exact Nat.zero_le _

theorem counted_durable (hN : 1 ≤ syncEveryN)
    (h : Durable host p maxHistoryPerKey syncEveryN events w data)
    (hle : w.unsynced ≤ syncEveryN - 1) {events' : List Event}
    (hrun : (counted host p maxHistoryPerKey syncEveryN).Run w events' w') :
    w'.unsynced ≤ syncEveryN - 1 := by
  induction hrun generalizing events data with
  | nil => exact hle
  | cons hstep _ ih =>
    obtain ⟨data', h'⟩ := h.step hN hstep.2
    exact ih h' (h.bound hle hstep)

/-- **Group commit.**  In a run from a new store in which every change is made by an object that has
counted all the unsynced ones, or that syncs it, a power cut at any moment loses fewer than
`syncEveryN` of the changes that have returned, and they are the last ones; unless it leaves only a
part of a header. -/
theorem group_commit_bound (hN : 1 ≤ syncEveryN) (hnew : fs.bytes p = [])
    (hnone : fs (makeSnapshotPath p) = none)
    (hrun : (counted host p maxHistoryPerKey syncEveryN).Run ⟨none, Disk.new fs, 0⟩ events w)
    (hcut : PowerCut w.disk fs') (hname : Survives (w.disk.entry p) (fs' p))
    (hwhole : ¬PartOfHeader p fs') :
    ∃ before after data, events = before ++ after ∧ (store maxHistoryPerKey).Run ∅ before data ∧
      (after.map Event.changes).sum ≤ syncEveryN - 1 ∧
      Reopens host p maxHistoryPerKey fs' data := by
  have hstart : Durable host p maxHistoryPerKey syncEveryN [] ⟨none, Disk.new fs, 0⟩ ∅ :=
    .new hnew hnone
  obtain ⟨data, hdurable⟩ := onDisk_durable hN hstart hrun.of_restrict
  have hle := counted_durable hN hstart (Nat.zero_le _) hrun
  obtain ⟨data', ⟨before, after, hevents, hkept, hlost⟩, hreopens⟩ := hdurable.loses hcut hname hwhole
  exact ⟨before, after, data', hevents, hkept, hlost.trans hle, hreopens⟩

/-! ### A log object that has not counted -/

/-- Only the header of the log is synced, and there is no image. -/
structure Dirty (p : Path) (d : Disk) : Prop where
  file : ∃ rs, (∀ r ∈ rs, r.Fits) ∧ d.fs p = some (logOf rs)
  synced : d.synced p = kHeaderSize
  image : d.fs (makeSnapshotPath p) = none

/-- A power cut can take everything but the header. -/
theorem Dirty.cut {d : Disk} (h : Dirty p d) : PowerCut d (d.fs.put p walHeader) ∧
    Survives (d.entry p) (d.fs.put p walHeader p) := by
  obtain ⟨rs, hfits, hfile⟩ := h.file
  have hname : Survives (d.entry p) (d.fs.put p walHeader p) := by
    rw [entry_of_some hfile, FileSystem.put_self]
    refine ⟨_, List.mem_cons_self, kHeaderSize, h.synced.le, ?_⟩
    rw [logOf_eq hfits, List.take_left' length_walHeader]
  refine ⟨fun q => ?_, hname⟩
  by_cases hq : q = p
  · subst hq
    exact ⟨_, List.mem_cons_self, hname⟩
  · rw [FileSystem.put_of_ne hq]
    exact ⟨_, List.mem_cons_self, survives_self d q⟩

theorem Dirty.reopens {d : Disk} (h : Dirty p d) :
    Reopens host p maxHistoryPerKey (d.fs.put p walHeader) ∅ := by
  refine (reopens_iff (logged_header d.fs)).2 ?_
  rw [FileSystem.image, FileSystem.put_of_ne (snapshotPath_ne p).symm, h.image, Option.bind_none]
  rfl

theorem not_partOfHeader (fs : FileSystem) : ¬PartOfHeader p (fs.put p walHeader) := by
  rintro ⟨-, hlt⟩
  rw [FileSystem.bytes_put, length_walHeader] at hlt
  exact absurd hlt (lt_irrefl _)

/-- The constructor makes a new log and syncs its header. -/
theorem wp_openNew {d : Disk} {orders : Orders} {Q : Except Exception StorageEngine → Disk → Prop}
    (hnone : d.fs p = none) (hQ : ∀ result, Q result
      ({ d.created (d.fs.put p []) p with fs := d.fs.put p walHeader }.flushed p)) :
    wp (Disk.env kHeaderSize) (StorageEngine.construct host p maxHistoryPerKey syncEveryN orders)
      Q (fun _ => True) d := by
  have hcreated : d.after (d.fs.put p []) (.openAppend p) = d.created (d.fs.put p []) p := by
    rw [Disk.after, hnone, if_neg (by decide)]
  have hlog : d.fs.put p walHeader p = some (logOf [] ++ []) := by
    rw [FileSystem.put_self, List.append_nil, logOf_nil]
  have hkeep : ∀ d' : Disk, d'.fs = d.fs.put p walHeader →
      ({ d' with fs := d'.fs.put p (logOf []) } : Disk) = d' := by
    rintro d' hd'
    rw [FileSystem.put_eq_self (by rw [hd', FileSystem.put_self, logOf_nil])]
  rw [StorageEngine.construct]
  refine wp_constructNewOnDisk (by rw [FileSystem.bytes, hnone]; rfl) hcreated trivial
    (fun _ _ => trivial) ?_
  change wp _ ((StorageEngine.fresh p maxHistoryPerKey syncEveryN).recover host orders >>=
    StorageEngine.opened) _ _ _
  refine wp_recoverOnDisk rfl rfl (by simp) (tornTail_nil []) hlog ?_ trivial fun engine' => ?_
  · rw [Disk.synced_flushed, FileSystem.bytes_put, logOf_nil]
  · rw [hkeep _ rfl]
    exact ⟨trivial, hQ _⟩

/-- The constructor syncs the header of a new log, and nothing else. -/
theorem wp_openDirty {d : Disk} {orders : Orders} (himage : d.fs (makeSnapshotPath p) = none)
    (h : d.fs p = none ∨ Dirty p d) :
    wp (Disk.env kHeaderSize) (StorageEngine.construct host p maxHistoryPerKey syncEveryN orders)
      (fun _ => Dirty p) (fun _ => True) d := by
  have hsnap := (snapshotPath_ne p).symm
  rcases h with hnone | hdirty
  · refine wp_openNew hnone fun _ => ⟨⟨[], by simp, ?_⟩, ?_, ?_⟩
    · rw [logOf_nil]
      exact FileSystem.put_self ..
    · rw [Disk.synced_flushed, FileSystem.bytes_put]
      exact length_walHeader
    · exact (FileSystem.put_of_ne hsnap ..).trans himage
  · obtain ⟨rs, hfits, hfile⟩ := hdirty.file
    have hlog : d.fs p = some (logOf rs ++ []) := by rw [List.append_nil, hfile]
    have hvalid : ValidHeader (d.fs.bytes p) := by
      rw [FileSystem.bytes_of_some hfile, logOf_eq hfits]
      exact validHeader_append _
    have hkeep : ({ d with fs := d.fs.put p (logOf rs) } : Disk) = d := by
      rw [FileSystem.put_eq_self hfile]
    rw [StorageEngine.construct]
    refine wp_constructOldOnDisk hvalid ?_
    change wp _ ((StorageEngine.fresh p maxHistoryPerKey syncEveryN).recover host orders >>=
      StorageEngine.opened) _ _ _
    refine wp_recoverOnDisk rfl rfl hfits
      (tornTail_nil rs) hlog ?_ trivial ?_
    · rw [hdirty.synced, logOf_eq hfits, List.length_append, length_walHeader]
      exact Nat.le_add_right ..
    · intro engine'
      rw [hkeep]
      exact ⟨trivial, hdirty⟩

/-- A change that is not synced leaves it at that. -/
theorem wp_changeDirty {d : Disk} {engine : StorageEngine} {wal : WAL} {rs : List LogRecord}
    {orders : Orders} {op : Op} {μ : Mutation} (hop : op.mutation = some μ) (hμ : μ.Fits)
    (hattached : Attached p maxHistoryPerKey d.fs rs engine wal) (h : Dirty p d)
    (hlater : ¬wal.pendingWrites + 1 ≥ wal.syncEveryN) :
    wp (Disk.env kHeaderSize) (engine.call host orders op)
      (fun result d' => result.1 = .ok (op.answer engine.data) ∧ Dirty p d') (fun _ => True) d := by
  have hfit : (μ.entry host wal.epoch).Fits := entry_fits hμ _
  rw [call_accepted hop hattached.log hμ]
  refine wp_appendOnDisk hattached.fd hattached.file hfit (Mutation.entry_epoch ..)
    (fun _ _ => trivial) (fun hdue => absurd hdue hlater) fun _ => ?_
  refine ⟨trivial, rfl, ⟨rs ++ [μ.entry host wal.epoch], fits_concat hattached.fits hfit, ?_⟩,
    h.synced, ?_⟩
  · rw [logOf_concat hattached.fits hfit, hattached.head, hattached.seq]
    exact FileSystem.put_self ..
  · exact (FileSystem.put_of_ne (snapshotPath_ne p).symm ..).trans h.image

/-- A step of a process is one of the machine. -/
theorem exists_step {engine engine' : Option StorageEngine} {d d' : Disk} (u : ℕ)
    (hne : event.op ≠ some .snapshot)
    (h : DiskStep host p maxHistoryPerKey syncEveryN (engine, d) event (engine', d')) :
    ∃ u', (onDisk host p maxHistoryPerKey syncEveryN).step ⟨engine, d, u⟩ event
      ⟨engine', d', u'⟩ ∧ u' ≤ u + event.changes := by
  refine ⟨if d'.syncs p = d.syncs p then u + event.changes else 0,
    ⟨fun hop => absurd hop hne, h, rfl⟩, ?_⟩
  split_ifs
  · exact le_rfl
  · exact Nat.zero_le _

/-- A process opens the store. -/
theorem exists_opened {d : Disk} {u : ℕ}
    (hrelated : Related True host p maxHistoryPerKey ⟨none, d.fs⟩ data)
    (himage : d.fs (makeSnapshotPath p) = none) (h : d.fs p = none ∨ Dirty p d) :
    ∃ engine d' u', (onDisk host p maxHistoryPerKey syncEveryN).step ⟨none, d, u⟩ .opened
      ⟨some engine, d', u'⟩ ∧ Dirty p d' ∧ u' ≤ u ∧ ∀ wal ∈ engine.wal, wal.pendingWrites = 0 := by
  have hx := exec_run (E := Disk.env kHeaderSize) Disk.allows_posix
    (StorageEngine.construct host p maxHistoryPerKey syncEveryN ⟨Order.any, Order.any⟩) d
  obtain ⟨-, engine, hok, -⟩ := wp_exec (wp_openRelated hrelated) (exec_fs hx)
  have hdirty := wp_exec (wp_openDirty himage h) hx
  obtain ⟨wal, hwal, -, hpending⟩ := wp_exec (wp_openCount Faults.none_steady) (exec_fs hx) engine hok
  rw [hok] at hx
  obtain ⟨u', hstep, hle⟩ := exists_step u (by rintro ⟨⟩) (.opened hx)
  refine ⟨engine, _, u', hstep, hdirty, hle, fun wal' hwal' => ?_⟩
  obtain rfl : wal = wal' := Option.some.inj (hwal.symm.trans hwal')
  exact hpending

/-- A process sets a value, and the log is not synced. -/
theorem exists_set_unsynced {engine : StorageEngine} {d : Disk} {u : ℕ} {key value : Bytes}
    {duration : UInt64} {now : Int64}
    (hdurable : Durable host p maxHistoryPerKey syncEveryN events ⟨some engine, d, u⟩ data)
    (h : Dirty p d) (hpending : ∀ wal ∈ engine.wal, wal.pendingWrites = 0) (hN : 1 < syncEveryN)
    (hfits : (Mutation.put key ⟨value, duration, now⟩).Fits) :
    ∃ engine' d' u', (onDisk host p maxHistoryPerKey syncEveryN).step ⟨some engine, d, u⟩
      (.returned (.set key value duration now) none) ⟨some engine', d', u'⟩ ∧ Dirty p d' := by
  obtain ⟨⟨result, engine'⟩, d', hx⟩ : ∃ result d', Exec (Disk.env kHeaderSize)
      (engine.call host ⟨Order.any, Order.any⟩ (.set key value duration now)) d result d' :=
    ⟨_, _, exec_run Disk.allows_posix _ _⟩
  obtain ⟨rs, -, -, wal, hattached, -⟩ := hdurable.related
  have hevery : wal.syncEveryN = syncEveryN := hdurable.every engine rfl wal hattached.log
  have hlater : ¬wal.pendingWrites + 1 ≥ wal.syncEveryN := by
    rw [hpending wal hattached.log, hevery]
    omega
  have hop : (Op.set key value duration now).mutation = some (.put key ⟨value, duration, now⟩) := rfl
  obtain ⟨rfl, hdirty⟩ := wp_exec (wp_changeDirty hop hfits hattached h hlater) hx
  obtain ⟨u', hstep, -⟩ := exists_step u (by rintro ⟨⟩) (.returned hx)
  exact ⟨engine', d', u', hstep, hdirty⟩

theorem lookup_set (data : Data) (key value : Bytes) (duration : UInt64) (now : Int64) :
    ((Op.apply maxHistoryPerKey data (.set key value duration now)).lookup key).isSome := by
  change ((appendCapped maxHistoryPerKey data key _).lookup key).isSome
  rw [lookup_appendCapped, if_pos rfl]
  rfl

/-- A key that is there stays, if no event removes it. -/
theorem store_keeps {data data' : Data} {key : Bytes}
    (hrun : (store maxHistoryPerKey).Run data events data')
    (hkeep : ∀ event ∈ events, ∀ op, event.op = some op → ∀ key' now, op ≠ .remove key' now)
    (h : (data.lookup key).isSome) : (data'.lookup key).isSome := by
  have hop : ∀ {data : Data} {op : Op}, (∀ key' now, op ≠ .remove key' now) →
      (data.lookup key).isSome → ((op.apply maxHistoryPerKey data).lookup key).isSome := by
    intro data op hne h
    cases op with
    | set key' value duration now =>
      change ((appendCapped maxHistoryPerKey data key' _).lookup key).isSome
      rw [lookup_appendCapped]
      split_ifs
      · rfl
      · exact h
    | remove key' now => exact absurd rfl (hne key' now)
    | snapshot => exact h
    | recover => exact h
  induction hrun with
  | nil => exact h
  | cons hstep _ ih =>
    obtain ⟨hhead, htail⟩ := List.forall_mem_cons.1 hkeep
    refine ih htail ?_
    cases hstep with
    | returned _ hwithin => exact hop (hhead _ rfl) h
    | done _ hwithin => exact hop (hhead _ rfl) h
    | _ => exact h

theorem group_commit_bound_two : ∃ w fs₁, (counted .little "a" 0 2).Run
      ⟨none, Disk.new fun _ => none, 0⟩ [.opened, .returned (.set [107] [118] 0 5) none] w ∧
    PowerCut w.disk fs₁ ∧ Survives (w.disk.entry "a") (fs₁ "a") ∧ ¬PartOfHeader "a" fs₁ ∧
    ∃ before after data, [.opened, .returned (.set [107] [118] 0 5) none] = before ++ after ∧
      (store 0).Run ∅ before data ∧ (after.map Event.changes).sum ≤ 1 ∧
      Reopens .little "a" 0 fs₁ data := by
  have hnew : FileSystem.bytes (fun _ => none) "a" = [] := rfl
  have hstart : Durable .little "a" 0 2 [] ⟨none, Disk.new fun _ => none, 0⟩ ∅ := .new hnew rfl
  obtain ⟨engine, d₁, u₁, hopened, hdirty₁, hu₁, hpending⟩ :=
    exists_opened hstart.related rfl (.inl rfl)
  obtain ⟨data₁, hdurable₁⟩ := hstart.step (by decide) hopened
  have hfits : (Mutation.put [107] ⟨[118], 0, 5⟩).Fits := by decide
  obtain ⟨engine₂, d₂, u₂, hset, hdirty₂⟩ :=
    exists_set_unsynced hdurable₁ hdirty₁ hpending (by decide) hfits
  have hcounted : DiskWorld.Counted ⟨some engine, d₁, u₁⟩ 2 :=
    fun _ _ _ _ => .inl (hu₁.trans (Nat.zero_le _))
  have hrun : (counted .little "a" 0 2).Run ⟨none, Disk.new fun _ => none, 0⟩
      [.opened, .returned (.set [107] [118] 0 5) none] ⟨some engine₂, d₂, u₂⟩ :=
    .cons ⟨fun h => absurd h (lt_irrefl 0), hopened⟩ (.single ⟨fun _ => hcounted, hset⟩)
  obtain ⟨hcut, hname⟩ := hdirty₂.cut
  exact ⟨_, _, hrun, hcut, hname, not_partOfHeader _,
    group_commit_bound (by decide) hnew rfl hrun hcut hname (not_partOfHeader _)⟩

/-- With `syncEveryN = 2` a process sets a value and dies, another one sets a value: a power cut
loses both. -/
theorem group_commit_loses : ∃ events w fs₁, (onDisk .little "a" 0 2).Run
      ⟨none, Disk.new fun _ => none, 0⟩ events w ∧
    PowerCut w.disk fs₁ ∧ Survives (w.disk.entry "a") (fs₁ "a") ∧ ¬PartOfHeader "a" fs₁ ∧
    ∀ before after data, events = before ++ after → (store 0).Run ∅ before data →
      Reopens .little "a" 0 fs₁ data → 1 < (after.map Event.changes).sum := by
  have hnew : FileSystem.bytes (fun _ => none) "a" = [] := rfl
  have hstart : Durable .little "a" 0 2 [] ⟨none, Disk.new fun _ => none, 0⟩ ∅ := .new hnew rfl
  have hfits : (Mutation.put [107] ⟨[118], 0, 5⟩).Fits := by decide
  obtain ⟨engine₁, d₁, u₁, hopened₁, hdirty₁, -, hpending₁⟩ :=
    exists_opened hstart.related rfl (.inl rfl)
  obtain ⟨_, hdurable₁⟩ := hstart.step (by decide) hopened₁
  obtain ⟨engine₂, d₂, u₂, hset₂, hdirty₂⟩ :=
    exists_set_unsynced hdurable₁ hdirty₁ hpending₁ (by decide) hfits
  obtain ⟨_, hdurable₂⟩ := hdurable₁.step (by decide) hset₂
  obtain ⟨u₃, hdied, -⟩ := exists_step u₂ (by rintro ⟨⟩) (.closeCrashed (.here engine₂.destroy d₂))
  obtain ⟨_, hdurable₃⟩ := hdurable₂.step (by decide) hdied
  obtain ⟨engine₄, d₄, u₄, hopened₄, hdirty₄, -, hpending₄⟩ :=
    exists_opened hdurable₃.related hdirty₂.image (.inr hdirty₂)
  obtain ⟨_, hdurable₄⟩ := hdurable₃.step (by decide) hopened₄
  obtain ⟨engine₅, d₅, u₅, hset₅, hdirty₅⟩ :=
    exists_set_unsynced hdurable₄ hdirty₄ hpending₄ (by decide) hfits
  obtain ⟨hcut, hname⟩ := hdirty₅.cut
  refine ⟨_, _, _, .cons hopened₁ (.cons hset₂ (.cons hdied (.cons hopened₄ (.single hset₅)))), hcut,
    hname, not_partOfHeader _, ?_⟩
  intro before after data hevents hkept hreopens
  obtain rfl := hreopens.unique hdirty₅.reopens
  rcases before with _ | ⟨e₁, _ | ⟨e₂, rest⟩⟩
  · rw [List.nil_append] at hevents
    subst hevents
    decide
  · obtain ⟨-, htail⟩ := List.cons.inj hevents
    change _ = after at htail
    subst htail
    decide
  · -- the value of the first process would still be there
    obtain ⟨rfl, htail⟩ := List.cons.inj hevents
    obtain ⟨rfl, hrest⟩ := List.cons.inj htail
    change _ = rest ++ after at hrest
    cases hkept with
    | cons hopened hkept =>
      cases hopened
      cases hkept with
      | cons hset hkept =>
        cases hset
        have hstays := store_keeps hkept (fun event hevent op hop => ?_) (lookup_set ..)
        · rw [Finmap.lookup_empty] at hstays
          cases hstays
        · have hmem : event ∈ rest ++ after := List.mem_append_left _ hevent
          rw [← hrest] at hmem
          simp only [List.mem_cons, List.not_mem_nil, or_false] at hmem
          rcases hmem with rfl | rfl | rfl
          · cases hop
          · cases hop
          · obtain rfl := Option.some.inj hop
            rintro key' now ⟨⟩

end LiteSpeedStore
