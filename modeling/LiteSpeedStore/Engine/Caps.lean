import LiteSpeedStore.Engine.History
import LiteSpeedStore.Engine.Restart

/-!
# Processes with different caps

The cap on the histories is an argument of the constructor, and each process has its own.  A record
that is evicted from memory stays in the log until a snapshot, and comes back in a process with a
larger cap.

* `keepNewest` : what a cap leaves of the histories.
* `contents_newest` : what files stand for under a cap is what it leaves of all that is in them.
* `machines_refine` : a snapshot is what makes an eviction final.
* `caps_restart` : what reopening under any cap gives, after any run of processes.
-/

namespace LiteSpeedStore

open Prog StorageEngine

/-! ### What a cap leaves -/

/-- What a cap leaves of the histories. -/
def keepNewest (maxHistoryPerKey : ℕ) (data : Data) : Data :=
  Finmap.keysLookupEquiv.symm
    ⟨(data.keys, fun key => (data.lookup key).map (newest maxHistoryPerKey)), fun key => by
      rw [Option.isSome_map, Finmap.mem_keys, Finmap.lookup_isSome]⟩

section Newest

variable {host : ByteOrder} {maxHistoryPerKey : ℕ} {data : Data}

@[simp] theorem lookup_keepNewest (key : Bytes) : (keepNewest maxHistoryPerKey data).lookup key =
    (data.lookup key).map (newest maxHistoryPerKey) := by
  rw [keepNewest, Finmap.keysLookupEquiv_symm_apply_lookup]

@[simp] theorem keys_keepNewest : (keepNewest maxHistoryPerKey data).keys = data.keys := by
  rw [keepNewest, Finmap.keysLookupEquiv_symm_apply_keys]

theorem keepNewest_empty : keepNewest maxHistoryPerKey ∅ = ∅ :=
  Finmap.ext_lookup fun key => by rw [lookup_keepNewest, Finmap.lookup_empty, Option.map_none]

theorem appendHistory_unlimited (history : List Record) (record : Record) :
    appendHistory kUnlimitedHistory history record = history ++ [record] := by
  rw [appendHistory, if_neg fun h => h.1 rfl]

theorem getD_newest (history : Option (List Record)) :
    (history.map (newest maxHistoryPerKey)).getD [] = newest maxHistoryPerKey (history.getD [])
    := by
  cases history with
  | none => rw [Option.map_none, Option.getD_none, newest_nil]
  | some history => rfl

/-- A record is added under the cap, or added and then the cap is applied. -/
theorem appendCapped_newest (key : Bytes) (record : Record) :
    appendCapped maxHistoryPerKey (keepNewest maxHistoryPerKey data) key record =
      keepNewest maxHistoryPerKey (appendCapped kUnlimitedHistory data key record) := by
  refine Finmap.ext_lookup fun key' => ?_
  rw [lookup_keepNewest, lookup_appendCapped, lookup_appendCapped, lookup_keepNewest, getD_newest,
    appendHistory_newest, appendHistory_unlimited]
  split_ifs <;> rfl

theorem erase_newest (key : Bytes) : (keepNewest maxHistoryPerKey data).erase key =
    keepNewest maxHistoryPerKey (data.erase key) := by
  refine Finmap.ext_lookup fun key' => ?_
  rw [lookup_keepNewest, lookup_erase, lookup_erase, lookup_keepNewest]
  split_ifs <;> rfl

/-- **A change under the cap is the change, and then the cap.** -/
theorem apply_newest (μ : Mutation) :
    μ.apply maxHistoryPerKey (keepNewest maxHistoryPerKey data) =
      keepNewest maxHistoryPerKey (μ.apply kUnlimitedHistory data) := by
  cases μ with
  | put key record => exact appendCapped_newest key record
  | delete key timestamp => exact erase_newest key

theorem answer_newest (op : Op) :
    op.answer (keepNewest maxHistoryPerKey data) = op.answer data := by
  cases op with
  | remove key now => rw [Op.answer, Op.answer, lookup_keepNewest, Option.isSome_map]
  | _ => rfl

/-- Whatever record stands in the log, it is replayed under the cap, or replayed and then the cap is
applied. -/
theorem replayRecord_newest (data : Data) (r : LogRecord) :
    keepNewest maxHistoryPerKey (replayRecord host kUnlimitedHistory data r) =
      replayRecord host maxHistoryPerKey (keepNewest maxHistoryPerKey data) r := by
  rw [replayRecord, replayRecord, replayEntry, replayEntry]
  split_ifs
  · exact (appendCapped_newest ..).symm
  · exact (erase_newest ..).symm
  · rfl

theorem loadHistory_newest (records : List SnapshotRecord) (before : Option (List Record)) :
    loadHistory maxHistoryPerKey records (before.map (newest maxHistoryPerKey)) =
      (loadHistory kUnlimitedHistory records before).map (newest maxHistoryPerKey) := by
  induction records generalizing before with
  | nil => rfl
  | cons record records ih =>
    rw [loadHistory, List.foldl_cons, getD_newest, appendHistory_newest, ← appendHistory_unlimited]
    exact ih (some (appendHistory kUnlimitedHistory (before.getD []) _))

theorem imageData_newest (image : Option SnapshotImage) : imageData maxHistoryPerKey image =
    keepNewest maxHistoryPerKey (imageData kUnlimitedHistory image) := by
  cases image with
  | none => exact keepNewest_empty.symm
  | some image =>
    refine Finmap.ext_lookup fun key => ?_
    rw [lookup_keepNewest, imageData, imageData, lookup_import, lookup_import]
    cases image.state.lookup key with
    | none => rfl
    | some records => exact loadHistory_newest records none

/-- **What files stand for under a cap** is what the cap leaves of all that is in them. -/
theorem contents_newest (image : Option SnapshotImage) (rs : List LogRecord) :
    contents host maxHistoryPerKey image rs =
      keepNewest maxHistoryPerKey (contents host kUnlimitedHistory image rs) := by
  rw [contents, imageData_newest]
  exact Checkpoint.restore_map replayRecord_newest _ rs

theorem mem_newest {α : Type} {l : List α} {a : α} (h : a ∈ newest maxHistoryPerKey l) : a ∈ l := by
  rw [newest] at h
  split_ifs at h
  · exact h
  · exact List.mem_of_mem_drop h

theorem newest_newest {α : Type} (l : List α) :
    newest maxHistoryPerKey (newest maxHistoryPerKey l) = newest maxHistoryPerKey l := by
  by_cases hcap : maxHistoryPerKey = kUnlimitedHistory
  · rw [newest, if_pos hcap]
  · have hle := length_newest_le hcap l
    rw [newest, if_neg hcap, Nat.sub_eq_zero_of_le hle, List.drop_zero]

/-- What a cap has left stays under the cap. -/
theorem keepNewest_keepNewest : keepNewest maxHistoryPerKey (keepNewest maxHistoryPerKey data) =
    keepNewest maxHistoryPerKey data := by
  refine Finmap.ext_lookup fun key => ?_
  rw [lookup_keepNewest, lookup_keepNewest, Option.map_map]
  exact congrArg (Option.map · (data.lookup key)) (funext newest_newest)

theorem Good.newest (h : Good kUnlimitedHistory data) :
    Good maxHistoryPerKey (keepNewest maxHistoryPerKey data) := by
  have hlook : ∀ {key history}, (keepNewest maxHistoryPerKey data).lookup key = some history →
      ∃ all, data.lookup key = some all ∧ LiteSpeedStore.newest maxHistoryPerKey all = history := by
    intro key history hkey
    rwa [lookup_keepNewest, Option.map_eq_some_iff] at hkey
  refine ⟨fun hkey => ?_, fun hkey => ?_, fun hkey => ?_, fun hkey record hrecord => ?_⟩
  · obtain ⟨all, hall, rfl⟩ := hlook hkey
    exact mt newest_eq_nil.1 (h.nonempty hall)
  · obtain ⟨all, -, rfl⟩ := hlook hkey
    exact or_iff_not_imp_left.2 fun hcap => length_newest_le hcap all
  · obtain ⟨all, hall, -⟩ := hlook hkey
    exact h.key hall
  · obtain ⟨all, hall, rfl⟩ := hlook hkey
    exact h.value hall record (mem_newest hrecord)

theorem Good.unlimited (h : Good maxHistoryPerKey data) : Good kUnlimitedHistory data :=
  ⟨h.nonempty, fun _ => .inl rfl, h.key, h.value⟩

end Newest

/-! ### Processes -/

/-- The processes that use the store at `p`, each with a cap of its own.  A step is labelled with
the cap in force. -/
def machines (F : Faults) (host : ByteOrder) (p : Path) : Lts World (ℕ × Event) :=
  ⟨fun w label w' => (∀ engine ∈ w.engine, engine.maxHistoryPerKey = label.1) ∧
    (machine F host p label.1).step w label.2 w'⟩

/-- The runs in which no call fails and the snapshots are within the limits. -/
def soundMachines (host : ByteOrder) (p : Path) : Lts World (ℕ × Event) :=
  (machines (Faults.none kHeaderSize) host p).restrict fun w label =>
    label.2.op = some .snapshot → w.WithinLimits

/-- A map of histories that are not capped, and from which only a snapshot drops records: those that
the cap in force has evicted. -/
inductive Archived : Data → ℕ × Event → Data → Prop
  | kept {data data' : Data} {event : Event} (maxHistoryPerKey : ℕ)
      (h : event.op ≠ some .snapshot) :
      Kept kUnlimitedHistory data event data' → Archived data (maxHistoryPerKey, event) data'
  | snapshot (data : Data) (maxHistoryPerKey : ℕ) :
      Archived data (maxHistoryPerKey, .returned .snapshot none) (keepNewest maxHistoryPerKey data)
  | undone (data : Data) (maxHistoryPerKey : ℕ) :
      Archived data (maxHistoryPerKey, .crashed .snapshot) data
  | done (data : Data) (maxHistoryPerKey : ℕ) :
      Archived data (maxHistoryPerKey, .crashed .snapshot) (keepNewest maxHistoryPerKey data)

/-- The store as its users see it, whatever their caps are. -/
def archive : Lts Data (ℕ × Event) := ⟨Archived⟩

/-- The files are in step with the histories, and the engine if one is open with what its cap leaves
of them. -/
def Archives (host : ByteOrder) (p : Path) (w : World) (data : Data) : Prop :=
  ∃ rs, StandsFor True host kUnlimitedHistory (w.fs.image p) rs data ∧
    match w.engine with
    | none => Logged p w.fs rs
    | some engine => engine.data = keepNewest engine.maxHistoryPerKey data ∧ ∃ wal,
        Attached p engine.maxHistoryPerKey w.fs rs engine wal ∧ wal.epoch = nextEpoch (w.fs.image p)

section Machines

variable {host : ByteOrder} {p : Path} {maxHistoryPerKey : ℕ} {fs fs' : FileSystem} {data : Data}
  {engine : StorageEngine} {w w' : World} {orders : Orders} {op : Op} {label : ℕ × Event}
  {labels : List (ℕ × Event)}

theorem Archives.left (h : Archives host p ⟨some engine, fs⟩ data) :
    Archives host p ⟨none, fs⟩ data := by
  obtain ⟨rs, hstands, -, wal, hattached, -⟩ := h
  exact ⟨rs, hstands, hattached.logged⟩

theorem Archives.empty (hnew : fs.bytes p = []) (hnone : fs (makeSnapshotPath p) = none) :
    Archives host p ⟨none, fs⟩ ∅ := by
  have himage : fs.image p = none := by rw [FileSystem.image, hnone, Option.bind_none]
  refine ⟨[], ?_, logged_empty hnew⟩
  rw [himage]
  exact .empty

/-- Opening under a cap gives what the cap leaves. -/
theorem wp_openArchive {n : ℕ} (h : Archives host p ⟨none, fs⟩ data) :
    wp (Faults.none kHeaderSize).env (StorageEngine.construct host p maxHistoryPerKey n orders)
      (fun result fs' => ∃ engine, result = .ok engine ∧
        engine.maxHistoryPerKey = maxHistoryPerKey ∧ Archives host p ⟨some engine, fs'⟩ data)
      (fun fs' => Archives host p ⟨none, fs'⟩ data) fs := by
  obtain ⟨rs, hstands, hlogged⟩ := h
  refine wp_mono (wp_open Faults.none_reliable hlogged) ?_ ?_
  · rintro result fs' ⟨hsame, engine, wal, image, rfl, hloads, hattached, hepoch, hdata⟩
    obtain rfl := loads_none hloads
    have hcap := hattached.cap
    subst hcap
    refine ⟨engine, rfl, rfl, rs, ?_, ?_, wal, hattached, ?_⟩
    · rw [image_sameBut hsame]
      exact hstands
    · rw [hdata, contents_newest, hstands.restored]
    · rw [image_sameBut hsame, hepoch]
  · rintro fs' ⟨hsame, hlogged'⟩
    refine ⟨rs, ?_, hlogged'⟩
    rw [image_sameBut hsame]
    exact hstands

/-- How a call on an engine under a cap ends: it has made its change on the histories, or refused
it. -/
def ArchiveEnds (host : ByteOrder) (p : Path) (maxHistoryPerKey : ℕ) (data : Data) (op : Op)
    (result : Except Exception (Option Bool) × StorageEngine) (fs : FileSystem) : Prop :=
  (∃ answer data', result.1 = .ok answer ∧
    Archived data (maxHistoryPerKey, .returned op answer) data' ∧
    Archives host p ⟨some result.2, fs⟩ data') ∨
  ∃ e data', result.1 = .error e ∧ Archived data (maxHistoryPerKey, .threw op e) data' ∧
    Archives host p ⟨some result.2, fs⟩ data'

/-- `set` and `remove` change the histories. -/
theorem wp_changeArchive {μ : Mutation} (hop : op.mutation = some μ)
    (h : Archives host p ⟨some engine, fs⟩ data) :
    wp (Faults.none kHeaderSize).env (engine.call host orders op)
      (ArchiveEnds host p engine.maxHistoryPerKey data op)
      (fun fs' => ∃ data', Archived data (engine.maxHistoryPerKey, .crashed op) data' ∧
        Archives host p ⟨none, fs'⟩ data') fs := by
  obtain ⟨rs, hstands, hdata, wal, hattached, hepoch⟩ := id h
  have hne : op ≠ .snapshot := by
    rintro rfl
    cases hop
  have hwithin : op.Within ↔ μ.Fits := by simp [Op.Within, hop]
  have happly : op.apply kUnlimitedHistory data = μ.apply kUnlimitedHistory data := by
    rw [Op.apply, hop, Option.elim_some]
  have hstands' : μ.Fits → ∀ {fs'}, fs.SameBut p fs' → StandsFor True host kUnlimitedHistory
      (fs'.image p) (rs ++ [μ.entry host wal.epoch]) (op.apply kUnlimitedHistory data) := by
    intro hμ fs' hsame
    rw [happly, hepoch, image_sameBut hsame]
    exact hstands.change hμ
  refine wp_mono (wp_changeLogged Faults.none_reliable hop hattached) ?_ ?_
  · rintro ⟨result, engine'⟩ fs' ⟨hsame, ⟨hμ, rfl, rfl, e, rfl⟩ |
      ⟨hμ, rfl, hdata', wal', hepoch', hattached'⟩⟩
    · exact .inr ⟨_, data, rfl, .kept _ (by simpa [Event.op] using hne)
        (.refused data e (mt hwithin.1 hμ)), h⟩
    · have hcap := hattached'.cap
      refine .inl ⟨_, op.apply kUnlimitedHistory data, rfl, ?_, _, hstands' hμ hsame, ?_, wal', ?_,
        ?_⟩
      · rw [hdata, answer_newest]
        exact .kept _ (by simpa [Event.op] using hne) (.returned data (hwithin.2 hμ))
      · rw [hdata', hdata, apply_newest, happly, hcap]
      · rwa [hcap]
      · rw [hepoch', hepoch, image_sameBut hsame]
  · rintro fs' ⟨hsame, hlogged | ⟨hμ, hlogged⟩⟩
    · refine ⟨data, .kept _ (by simpa [Event.op] using hne) (.undone data op), rs, ?_, hlogged⟩
      rw [image_sameBut hsame]
      exact hstands
    · exact ⟨_, .kept _ (by simpa [Event.op] using hne) (.done data (hwithin.2 hμ)), _,
        hstands' hμ hsame, hlogged⟩

/-- `recover` applies the cap to the histories again. -/
theorem wp_recoverArchive (h : Archives host p ⟨some engine, fs⟩ data) :
    wp (Faults.none kHeaderSize).env (engine.recover host orders)
      (fun result fs' => fs' = fs ∧ result.1 = .ok () ∧ Archives host p ⟨some result.2, fs⟩ data)
      (fun fs' => fs' = fs) fs := by
  obtain ⟨rs, hstands, -, wal, hattached, hepoch⟩ := h
  refine wp_mono (wp_recoverSteady Faults.none_steady hattached) ?_ fun _ h => h
  rintro ⟨result, engine'⟩ fs' ⟨hfs, hok, wal', image, hloads, hattached', hepoch', hdata⟩
  obtain rfl := loads_none hloads
  have hcap := hattached'.cap
  rw [← hcap] at hattached' hdata
  refine ⟨hfs, hok, rs, hstands, ?_, wal', hattached', hepoch'⟩
  rw [hdata, contents_newest, hstands.restored]

/-- **A snapshot makes final what the cap has evicted.** -/
theorem wp_snapshotArchive (h : Archives host p ⟨some engine, fs⟩ data)
    (hlimits : engine.WithinLimits) :
    wp (Faults.none kHeaderSize).env (engine.snapshot orders)
      (fun result fs' => result.1 = .ok () ∧ Archives host p ⟨some result.2, fs'⟩
        (keepNewest engine.maxHistoryPerKey data))
      (fun fs' => Archives host p ⟨none, fs'⟩ data ∨
        Archives host p ⟨none, fs'⟩ (keepNewest engine.maxHistoryPerKey data)) fs := by
  obtain ⟨rs, hstands, hdata, wal, hattached, hepoch⟩ := h
  have hgood : Good engine.maxHistoryPerKey engine.data := by
    rw [hdata]
    exact hstands.good.newest
  have hroom := hlimits.epochs wal hattached.log
  have hepochs : ∀ r ∈ rs, r.epoch ≤ wal.epoch := by
    rw [hepoch]
    exact hstands.epochs trivial
  have himage : ∀ {fs'}, (engine.saved wal orders fs).SameBut p fs' →
      fs'.image p = some (engine.image wal orders) := by
    intro fs' hsame
    rw [image_sameBut hsame, image_saved orders hattached hgood hlimits]
  have hsaved : ∀ {fs' rs'}, (engine.saved wal orders fs).SameBut p fs' →
      (∀ r ∈ rs', r.epoch ≤ wal.epoch) →
      StandsFor True host kUnlimitedHistory (fs'.image p) rs' engine.data := by
    intro fs' rs' hsame hrs'
    rw [himage hsame]
    exact .save hgood.unlimited hrs' hroom
  have hstays : engine.data = keepNewest engine.maxHistoryPerKey engine.data := by
    rw [hdata, keepNewest_keepNewest]
  rw [← hdata]
  refine wp_mono (wp_snapshotAttached Faults.none_reliable saveFails_none syncFails_none hattached)
    ?_ ?_
  · rintro ⟨result, engine'⟩ fs' ⟨hsame, rfl, hdata', wal', hepoch', hattached'⟩
    have hcap := hattached'.cap
    refine ⟨rfl, [], hsaved hsame (by simp), ?_, wal', ?_, ?_⟩
    · rw [hdata', hcap]
      exact hstays
    · rwa [hcap]
    · rw [himage hsame]
      exact hepoch'
  · rintro fs' (hsame | ⟨hsame, hlogged | hlogged⟩)
    · -- the old image is still in place
      obtain ⟨hfile, hsnap⟩ := sameBut_tmp hsame
      refine .inl ⟨rs, ?_, hattached.logged.congr hfile⟩
      rw [image_congr hsnap]
      exact hstands
    · -- the new image is in place, and covers every record of the old log
      exact .inr ⟨rs, hsaved hsame hepochs, hlogged⟩
    · exact .inr ⟨[], hsaved hsame (by simp), hlogged⟩

/-- **Every call** on an engine under a cap is one on the histories. -/
theorem wp_callArchive (h : Archives host p ⟨some engine, fs⟩ data)
    (hlimits : op = .snapshot → engine.WithinLimits) :
    wp (Faults.none kHeaderSize).env (engine.call host orders op)
      (ArchiveEnds host p engine.maxHistoryPerKey data op)
      (fun fs' => ∃ data', Archived data (engine.maxHistoryPerKey, .crashed op) data' ∧
        Archives host p ⟨none, fs'⟩ data') fs := by
  cases op with
  | set key value duration now => exact wp_changeArchive rfl h
  | remove key now => exact wp_changeArchive rfl h
  | recover =>
    have hwithin : Op.recover.Within := fun _ hμ => absurd hμ (Option.not_mem_none _)
    have hundone : Archived data (engine.maxHistoryPerKey, .crashed .recover) data :=
      .kept _ (by rintro ⟨⟩) (.undone data .recover)
    rw [StorageEngine.call, wp_bind]
    refine wp_mono (wp_recoverArchive h) ?_ ?_
    · rintro ⟨result, engine'⟩ fs' ⟨rfl, rfl, harchives⟩
      exact ⟨⟨data, hundone, harchives.left⟩, .inl ⟨none, data, rfl,
        .kept _ (by rintro ⟨⟩) (.returned data hwithin), harchives⟩⟩
    · rintro fs' rfl
      exact ⟨data, hundone, h.left⟩
  | snapshot =>
    rw [StorageEngine.call, wp_bind]
    refine wp_mono (wp_snapshotArchive h (hlimits rfl)) ?_ ?_
    · rintro ⟨result, engine'⟩ fs' ⟨rfl, harchives⟩
      exact ⟨⟨_, .done data _, harchives.left⟩, .inl ⟨none, _, rfl, .snapshot data _, harchives⟩⟩
    · rintro fs' (harchives | harchives)
      · exact ⟨data, .undone data _, harchives⟩
      · exact ⟨_, .done data _, harchives⟩

/-- **Processes with different caps refine the histories that are not capped.** -/
theorem machines_refine : Lts.Simulation (soundMachines host p) archive (Archives host p) := by
  rintro w ⟨maxHistoryPerKey, event⟩ w' data h ⟨hlimits, hcap, hstep⟩
  cases hstep with
  | opened hx =>
    obtain ⟨engine, hok, -, harchives⟩ := wp_exec (wp_openArchive h) hx
    obtain rfl := Except.ok.inj hok
    exact ⟨data, .kept _ (by rintro ⟨⟩) (.opened data), harchives⟩
  | openFailed hx =>
    obtain ⟨engine, hok, -⟩ := wp_exec (wp_openArchive h) hx
    cases hok
  | openCrashed hx =>
    exact ⟨data, .kept _ (by rintro ⟨⟩) (.openCrashed data), (wp_crash (wp_openArchive h) hx :)⟩
  | returned hx =>
    obtain rfl := hcap _ rfl
    rcases wp_exec (wp_callArchive h fun hop => hlimits (by rw [← hop]; rfl) _ rfl) hx with
      ⟨answer, data', hok, harchived, harchives⟩ | ⟨e, data', herror, -⟩
    · obtain rfl := Except.ok.inj hok
      exact ⟨data', harchived, harchives⟩
    · cases herror
  | threw hx =>
    obtain rfl := hcap _ rfl
    rcases wp_exec (wp_callArchive h fun hop => hlimits (by rw [← hop]; rfl) _ rfl) hx with
      ⟨answer, data', hok, -⟩ | ⟨e, data', herror, harchived, harchives⟩
    · cases hok
    · obtain rfl := Except.error.inj herror
      exact ⟨data', harchived, harchives⟩
  | crashed hx =>
    obtain rfl := hcap _ rfl
    exact (wp_crash (wp_callArchive h fun hop => hlimits (by rw [← hop]; rfl) _ rfl) hx :)
  | closed hx =>
    obtain rfl := exec_destroy hx
    exact ⟨data, .kept _ (by rintro ⟨⟩) (.closed data), h.left⟩
  | closeCrashed hx =>
    obtain rfl := crash_destroy hx
    exact ⟨data, .kept _ (by rintro ⟨⟩) (.closeCrashed data), h.left⟩

/-- Opening under any cap gives what it leaves of the histories. -/
theorem Archives.reopens (h : Archives host p ⟨none, fs⟩ data) (maxHistoryPerKey : ℕ) :
    Reopens host p maxHistoryPerKey fs (keepNewest maxHistoryPerKey data) := by
  obtain ⟨rs, hstands, hlogged⟩ := h
  rw [reopens_iff hlogged, contents_newest, hstands.restored]

end Machines

end LiteSpeedStore
