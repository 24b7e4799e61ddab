import LiteSpeedStore.Engine.Restart
import LiteSpeedStore.Snapshot.Accepted

/-!
# Epochs at their limit

The epoch of an image is read from its file, whatever it is.  The log behind the image gets the next
epoch, and recovery skips the entries that are not above the epoch of the image; at the end of the
64-bit integers the next epoch is 0, and recovery skips everything.

* `Fenced` : the log has the changes since the image was put in place, all in the next epoch.
* `fenced_step` : the calls that return keep it.
* `reopens_fenced` : what reopening gives then.
* `fence_iff` : reopening gives the data of the engine as long as no change is made in epoch 0.
-/

namespace LiteSpeedStore

open Prog StorageEngine

/-- The calls that change the data or save it, when they return. -/
def returning (F : Faults) (host : ByteOrder) : Lts (StorageEngine × FileSystem) Op where
  step s op s' := op ≠ .recover ∧ ∃ orders answer,
    Exec F.env (s.1.call host orders op) s.2 (.ok answer, s'.1) s'.2

/-- These calls, where the counts of a snapshot fit. -/
def counting (F : Faults) (host : ByteOrder) : Lts (StorageEngine × FileSystem) Op :=
  (returning F host).restrict fun s op => op = .snapshot → s.1.CountsFit

/-- These calls, where also no change is made in epoch 0. -/
def fencing (F : Faults) (host : ByteOrder) : Lts (StorageEngine × FileSystem) Op :=
  (counting F host).restrict fun s op => op ≠ .snapshot → ∀ wal ∈ s.1.wal, wal.epoch ≠ 0

/-- The image is in place, and the log has these changes since then, in the epoch behind it. -/
structure Fenced (host : ByteOrder) (p : Path) (maxHistoryPerKey : ℕ) (image : SnapshotImage)
    (μs : List Mutation) (wal : WAL) (s : StorageEngine × FileSystem) : Prop where
  saved : s.2.image p = some image
  attached : Attached p maxHistoryPerKey s.2 (μs.map (·.entry host wal.epoch)) s.1 wal
  epoch : wal.epoch = image.epoch + 1
  data : s.1.data =
    μs.foldl (Mutation.apply maxHistoryPerKey) (imageData maxHistoryPerKey (some image))
  storable : Storable maxHistoryPerKey s.1.data

section Fences

variable {host : ByteOrder} {p : Path} {maxHistoryPerKey : ℕ} {image : SnapshotImage}
  {μs : List Mutation} {wal : WAL} {s s' : StorageEngine × FileSystem} {F : Faults} {op : Op}

/-- The next epoch is behind an epoch unless it is 0. -/
theorem lt_add_one_iff (e : UInt64) : e < e + 1 ↔ e + 1 ≠ 0 := by
  have he := e.toNat_lt
  rw [UInt64.lt_iff_toNat_lt, ne_eq, ← UInt64.toNat_inj, UInt64.toNat_add, UInt64.toNat_one,
    UInt64.toNat_zero]
  omega

/-- What the files stand for: the changes count unless their epoch is 0. -/
theorem contents_fenced (h : Fenced host p maxHistoryPerKey image μs wal s) :
    contents host maxHistoryPerKey (some image) (μs.map (·.entry host wal.epoch)) =
      if wal.epoch = 0 then imageData maxHistoryPerKey (some image) else s.1.data := by
  have hfence := lt_add_one_iff image.epoch
  rw [← h.epoch] at hfence
  split_ifs with hwrap
  · refine contents_covered fun r hr => ?_
    obtain ⟨μ, -, rfl⟩ := List.mem_map.1 hr
    rw [uncovered_some, Mutation.entry_epoch, hfence]
    exact not_not.2 hwrap
  · have hbehind : ∀ r : LogRecord, r.epoch = wal.epoch → Uncovered (some image) r := by
      intro r hr
      rw [uncovered_some, hr]
      exact hfence.2 hwrap
    have happend : contents host maxHistoryPerKey (some image)
        ([] ++ μs.map (·.entry host wal.epoch)) = _ := contents_append hbehind [] μs
    have hnone : contents host maxHistoryPerKey (some image) [] =
        imageData maxHistoryPerKey (some image) := contents_covered (by simp)
    rw [List.nil_append, hnone] at happend
    rw [happend, h.data]

/-- **What reopening gives.** -/
theorem reopens_fenced (h : Fenced host p maxHistoryPerKey image μs wal s) :
    Reopens host p maxHistoryPerKey s.2 s.1.data ↔
      wal.epoch ≠ 0 ∨ s.1.data = imageData maxHistoryPerKey (some image) := by
  rw [reopens_iff h.attached.logged, h.saved, contents_fenced h]
  by_cases hwrap : wal.epoch = 0
  · rw [if_pos hwrap]
    simp only [hwrap, ne_eq, not_true_eq_false, false_or]
    exact eq_comm
  · rw [if_neg hwrap]
    simp only [ne_eq, hwrap, not_false_eq_true, true_or]

/-- Setting and removing add a change. -/
theorem fenced_change {μ : Mutation} (h : Fenced host p maxHistoryPerKey image μs wal s)
    (hop : op.mutation = some μ) (hstep : (returning F host).step s op s') :
    ∃ wal', wal'.epoch = wal.epoch ∧ Fenced host p maxHistoryPerKey image (μs ++ [μ]) wal' s' := by
  obtain ⟨engine, fs⟩ := s
  obtain ⟨engine', fs'⟩ := s'
  obtain ⟨-, orders, answer, hx⟩ := hstep
  have hattached : Attached p maxHistoryPerKey fs _ engine wal := h.attached
  have hw : wp F.env (engine.call host orders op) (fun result fs' => result.1 = .ok answer →
      μ.Fits ∧ result.2 = { engine with
        data := μ.apply engine.maxHistoryPerKey engine.data
        wal := some (wal.pushed (μ.entry host wal.epoch)).synced } ∧
      fs' = fs.put p (logOf (μs.map (·.entry host wal.epoch)) ++
        (μ.entry host wal.epoch).encode wal.headHash wal.seq)) (fun _ => True) fs := by
    refine wp_change hop hattached.log hattached.fd hattached.file (fun _ => ⟨trivial, ?_⟩)
      (fun _ _ _ => trivial) (fun hμ _ => ⟨hμ, rfl, rfl⟩) ?_ ?_
    · rintro e ⟨⟩
    · rintro - - k - - e ⟨⟩
    · rintro - - e ⟨⟩
  obtain ⟨hμ, hengine, rfl⟩ := wp_exec hw hx rfl
  obtain rfl : engine' = _ := hengine
  have hfit : (μ.entry host wal.epoch).Fits := entry_fits hμ _
  have hcap : engine.maxHistoryPerKey = maxHistoryPerKey := hattached.cap
  have hepoch : (wal.pushed (μ.entry host wal.epoch)).synced.epoch = wal.epoch := by
    rw [synced_epoch, pushed_epoch]
  refine ⟨_, hepoch, ?_, ?_, ?_, ?_, ?_⟩
  · exact (image_sameBut (FileSystem.sameBut_put p fs _)).trans h.saved
  · rw [hepoch, List.map_append, List.map_singleton]
    exact hattached.concat hfit _
  · rw [hepoch, h.epoch]
  · rw [List.foldl_append, ← h.data, List.foldl_cons, List.foldl_nil, ← hcap]
  · rw [hcap]
    exact h.storable.apply hμ.storable

/-- Saving puts another image in place. -/
theorem fenced_snapshot (h : Fenced host p maxHistoryPerKey image μs wal s)
    (hcounts : s.1.CountsFit) (hstep : (returning F host).step s .snapshot s') :
    ∃ image' wal', Fenced host p maxHistoryPerKey image' [] wal' s' := by
  obtain ⟨engine, fs⟩ := s
  obtain ⟨engine', fs'⟩ := s'
  obtain ⟨-, orders, answer, hx⟩ := hstep
  have hattached : Attached p maxHistoryPerKey fs _ engine wal := h.attached
  rw [StorageEngine.call] at hx
  obtain ⟨⟨result, engine''⟩, fs'', hx, hret⟩ := exec_bind.1 hx
  cases result with
  | error e => cases hret
  | ok u =>
    cases hret
    obtain ⟨hengine, rfl⟩ := snapshot_returned hattached.log hattached.fd hattached.path
      hattached.file hx
    obtain rfl : engine' = _ := hengine
    have himage : (engine.saved wal orders fs).image p = some (engine.image wal orders) :=
      image_storable orders hattached.path h.storable hcounts
    exact ⟨engine.image wal orders, (wal.setEpoch (wal.epoch + 1)).rewound,
      (image_sameBut (FileSystem.sameBut_put p _ _)).trans himage, hattached.rewound _, rfl,
      (import_export h.storable _ _).symm, h.storable⟩

/-- The calls that return leave an image and the changes since then, in the epoch behind it. -/
theorem fenced_step (h : Fenced host p maxHistoryPerKey image μs wal s)
    (hstep : (counting F host).step s op s') : ∃ image' μs' wal',
      Fenced host p maxHistoryPerKey image' μs' wal' s' ∧
      (op ≠ .snapshot → wal'.epoch = wal.epoch) ∧ (op = .snapshot → μs' = []) := by
  obtain ⟨hcounts, hstep⟩ := hstep
  cases hop : op.mutation with
  | some μ =>
    obtain ⟨wal', hepoch, hfenced⟩ := fenced_change h hop hstep
    refine ⟨image, μs ++ [μ], wal', hfenced, fun _ => hepoch, ?_⟩
    rintro rfl
    cases hop
  | none =>
    cases op with
    | snapshot =>
      obtain ⟨image', wal', hfenced⟩ := fenced_snapshot h (hcounts rfl) hstep
      exact ⟨image', [], wal', hfenced, fun hne => absurd rfl hne, fun _ => rfl⟩
    | recover => exact absurd rfl hstep.1
    | set key value duration now => cases hop
    | remove key now => cases hop

theorem fenced_run {ops : List Op} (h : Fenced host p maxHistoryPerKey image μs wal s)
    (hrun : (counting F host).Run s ops s') : ∃ image' μs' wal',
      Fenced host p maxHistoryPerKey image' μs' wal' s' := by
  refine hrun.invariant (I := fun s => ∃ image μs wal,
    Fenced host p maxHistoryPerKey image μs wal s) ⟨image, μs, wal, h⟩ ?_
  rintro s op s' ⟨image, μs, wal, h⟩ hstep
  obtain ⟨image', μs', wal', h', -⟩ := fenced_step h hstep
  exact ⟨image', μs', wal', h'⟩

/-- Without changes in epoch 0, all that there is in epoch 0 is the image. -/
theorem fenced_runFencing {ops : List Op} (h : Fenced host p maxHistoryPerKey image [] wal s)
    (hrun : (fencing F host).Run s ops s') : ∃ image' μs' wal',
      Fenced host p maxHistoryPerKey image' μs' wal' s' ∧ (wal'.epoch ≠ 0 ∨ μs' = []) := by
  refine hrun.invariant (I := fun s => ∃ image μs wal,
    Fenced host p maxHistoryPerKey image μs wal s ∧ (wal.epoch ≠ 0 ∨ μs = []))
    ⟨image, [], wal, h, .inr rfl⟩ ?_
  rintro s op s' ⟨image, μs, wal, h, -⟩ ⟨hfence, hstep⟩
  obtain ⟨image', μs', wal', h', hepoch, hnil⟩ := fenced_step h hstep
  refine ⟨image', μs', wal', h', ?_⟩
  by_cases hop : op = .snapshot
  · exact .inr (hnil hop)
  · rw [hepoch hop]
    exact .inl (hfence hop wal h.attached.log)

/-- Opening files with an image and without entries. -/
theorem fenced_open {n : ℕ} {orders : Orders} {fs fs' : FileSystem} {engine : StorageEngine}
    (himage : fs.image p = some image) (hlog : Logged p fs [])
    (hopen : Exec (Faults.none n).env
      (StorageEngine.construct host p maxHistoryPerKey n orders) fs (.ok engine) fs') :
    ∃ wal, Fenced host p maxHistoryPerKey image [] wal (engine, fs') := by
  obtain ⟨hsame, engine', wal, image', hok, hloads, hattached, hepoch, hdata⟩ :=
    wp_exec (wp_openSteady Faults.none_steady hlog) hopen
  obtain rfl := Except.ok.inj hok
  obtain rfl := loads_none hloads
  rw [himage] at hepoch hdata
  rw [contents_covered (by simp)] at hdata
  refine ⟨wal, (image_sameBut hsame).trans himage, hattached, hepoch, hdata, ?_⟩
  obtain ⟨file, -, hparse⟩ := Option.bind_eq_some_iff.1 himage
  rw [hdata]
  exact storable_import _ fun h => Snapshot.fitsState_of_parse hparse h

/-- **Epochs.**  Opened on an image and no entries, an engine makes calls that return.  As long as
no change is made in epoch 0, reopening gives the data of the engine; otherwise reopening gives the
data of the image. -/
theorem fence_iff {n : ℕ} {orders : Orders} {fs fs' : FileSystem} {engine : StorageEngine}
    (himage : fs.image p = some image) (hlog : Logged p fs [])
    (hopen : Exec (Faults.none n).env
      (StorageEngine.construct host p maxHistoryPerKey n orders) fs (.ok engine) fs') :
    (∀ ops s, (fencing F host).Run (engine, fs') ops s →
      Reopens host p maxHistoryPerKey s.2 s.1.data) ∧
    ∀ ops s, (counting F host).Run (engine, fs') ops s → ∃ wal image', s.1.wal = some wal ∧
      s.2.image p = some image' ∧ (Reopens host p maxHistoryPerKey s.2 s.1.data ↔
        wal.epoch ≠ 0 ∨ s.1.data = imageData maxHistoryPerKey (some image')) := by
  obtain ⟨wal, h₀⟩ := fenced_open himage hlog hopen
  constructor
  · intro ops s hrun
    obtain ⟨image', μs, wal', h, hchanges⟩ := fenced_runFencing h₀ hrun
    refine (reopens_fenced h).2 (hchanges.imp_right ?_)
    rintro rfl
    exact h.data
  · intro ops s hrun
    obtain ⟨image', μs, wal', h⟩ := fenced_run h₀ hrun
    exact ⟨wal', image', h.attached.log, h.saved, reopens_fenced h⟩

/-! ### An image without keys -/

theorem imageData_empty (e : UInt64) : imageData maxHistoryPerKey (some ⟨e, ∅⟩) = ∅ := by
  refine Finmap.ext_lookup fun key => ?_
  rw [imageData, lookup_import, Finmap.lookup_empty, Finmap.lookup_empty, Option.bind_none]

theorem image_fileBuf (h : Snapshot.Fits image.state) (it : Iteration image.state)
    (fs : FileSystem) :
    (fs.put (makeSnapshotPath p) (Snapshot.fileBuf image it)).image p = some image := by
  rw [FileSystem.image, FileSystem.put_self, Option.bind_some]
  exact Snapshot.parse_fileBuf h it

/-- An engine opened on an image of any epoch, and a `set` that returns. -/
theorem exists_fenced (e : UInt64) : ∃ (fs : FileSystem) (engine : StorageEngine) (fs' : FileSystem)
    (s : StorageEngine × FileSystem), fs.image "a" = some ⟨e, ∅⟩ ∧ Logged "a" fs [] ∧
    Exec (Faults.none 0).env (StorageEngine.construct .little "a" 0 1 ⟨Order.any, Order.any⟩) fs
      (.ok engine) fs' ∧
    (returning (Faults.none 0) .little).step (engine, fs') (.set [107] [118] 0 5) s := by
  have hfits : Snapshot.Fits ∅ := by
    refine ⟨by decide, fun h => ?_, fun h => ?_, fun h => ?_⟩ <;>
    · rw [Finmap.lookup_empty] at h
      cases h
  have himage : (FileSystem.put (fun _ => none) (makeSnapshotPath "a")
      (Snapshot.fileBuf ⟨e, ∅⟩ (Order.any ∅))).image "a" = some ⟨e, ∅⟩ := image_fileBuf hfits _ _
  generalize hfs : FileSystem.put (fun _ => none) (makeSnapshotPath "a")
    (Snapshot.fileBuf ⟨e, ∅⟩ (Order.any ∅)) = fs at himage
  have hnone : fs "a" = none := by
    rw [← hfs]
    exact FileSystem.put_of_ne (snapshotPath_ne "a") _ _
  have hlog : Logged "a" fs [] := logged_empty (by rw [FileSystem.bytes, hnone]; rfl)
  obtain ⟨engine, wal, fs', hopen, -, hattached, -, -⟩ :=
    run_open .little 0 1 ⟨Order.any, Order.any⟩ hlog
  have hset : run posix (engine.call .little ⟨Order.any, Order.any⟩ (.set [107] [118] 0 5)) fs' =
    _ := run_change rfl hattached.log hattached.fd hattached.file (by decide)
  exact ⟨fs, engine, fs', (_, _), himage, hlog, exec_of_run Faults.allows_posix hopen,
    by rintro ⟨⟩, _, _, exec_of_run Faults.allows_posix hset⟩

/-- What a `set` has made of it. -/
theorem data_of_set {n : ℕ} {key value : Bytes} {duration : UInt64} {now : Int64}
    (h : Fenced host p maxHistoryPerKey image μs wal s)
    (hstep : (returning (Faults.none n) host).step s (.set key value duration now) s') :
    s'.1.data = appendCapped maxHistoryPerKey s.1.data key ⟨value, duration, now⟩ := by
  obtain ⟨wal', -, h'⟩ := fenced_change h rfl hstep
  rw [h'.data, List.foldl_append, ← h.data]
  rfl

theorem fence_iff_set : ∃ (fs : FileSystem) (engine : StorageEngine) (fs' : FileSystem)
    (s : StorageEngine × FileSystem), fs.image "a" = some ⟨5, ∅⟩ ∧
    (fencing (Faults.none 0) .little).Run (engine, fs') [.set [107] [118] 0 5] s ∧
    Reopens .little "a" 0 s.2 s.1.data := by
  obtain ⟨fs, engine, fs', s, himage, hlog, hopen, hset⟩ := exists_fenced 5
  obtain ⟨wal, h⟩ := fenced_open himage hlog hopen
  have hfence : ∀ wal' ∈ engine.wal, wal'.epoch ≠ 0 := by
    intro wal' hwal'
    obtain rfl : wal = wal' := Option.some.inj (h.attached.log.symm.trans hwal')
    rw [h.epoch]
    decide
  have hrun : (fencing (Faults.none 0) .little).Run (engine, fs') [.set [107] [118] 0 5] s :=
    .single ⟨fun _ => hfence, by rintro ⟨⟩, hset⟩
  exact ⟨fs, engine, fs', s, himage, hrun, (fence_iff himage hlog hopen).1 _ s hrun⟩

/-- Behind the last epoch a `set` is lost. -/
theorem fence_wraps : ∃ (fs : FileSystem) (engine : StorageEngine) (fs' : FileSystem)
    (s : StorageEngine × FileSystem),
    fs.image "a" = some ⟨18446744073709551615, ∅⟩ ∧ Logged "a" fs [] ∧
    Exec (Faults.none 0).env (StorageEngine.construct .little "a" 0 1 ⟨Order.any, Order.any⟩) fs
      (.ok engine) fs' ∧
    (returning (Faults.none 0) .little).Run (engine, fs') [.set [107] [118] 0 5] s ∧
    ¬Reopens .little "a" 0 s.2 s.1.data := by
  obtain ⟨fs, engine, fs', s, himage, hlog, hopen, hset⟩ := exists_fenced 18446744073709551615
  refine ⟨fs, engine, fs', s, himage, hlog, hopen, .single hset, ?_⟩
  obtain ⟨wal, h⟩ := fenced_open himage hlog hopen
  obtain ⟨wal', hepoch, h'⟩ := fenced_change h rfl hset
  have hwraps : wal'.epoch = 0 := by
    rw [hepoch, h.epoch]
    decide
  rw [reopens_fenced h', imageData_empty, data_of_set h hset]
  rintro (hne | hempty)
  · exact hne hwraps
  · have hlook := congrArg (Finmap.lookup [107]) hempty
    rw [lookup_appendCapped, if_pos rfl, Finmap.lookup_empty] at hlook
    cases hlook

end Fences

end LiteSpeedStore
