import LiteSpeedStore.Engine.Disk
import LiteSpeedStore.Engine.Machine

/-!
# Crashes and restarts

As long as no call of the system fails, the machine refines the store: what the files stand for is
the data that the store keeps, in every state of every run, however often the process dies and
wherever it dies.

* `StandsFor` : the invariant that ties the image, the log and their epochs to the data.
* `wp_call` : every call keeps it.
* `machine_refines` : the store simulates the machine.
* `crash_restart` : what reopening gives.
-/

namespace LiteSpeedStore

open Prog StorageEngine

/-- Image and log stand for the data, and the epochs have not wrapped around.  When it is `tight`,
no record is from a later epoch than the one behind the image. -/
structure StandsFor (tight : Prop) (host : ByteOrder) (maxHistoryPerKey : ℕ)
    (image : Option SnapshotImage) (rs : List LogRecord) (data : Data) : Prop where
  restored : contents host maxHistoryPerKey image rs = data
  good : Good maxHistoryPerKey data
  epochs : tight → ∀ r ∈ rs, r.epoch ≤ nextEpoch image
  room : ∀ i ∈ image, i.epoch.toNat + 1 < 2 ^ 64

/-- The files, and the engine if one is open, are in step with the data. -/
def Related (tight : Prop) (host : ByteOrder) (p : Path) (maxHistoryPerKey : ℕ) (w : World)
    (data : Data) : Prop :=
  ∃ rs, StandsFor tight host maxHistoryPerKey (w.fs.image p) rs data ∧
    match w.engine with
    | none => Logged p w.fs rs
    | some engine => engine.data = data ∧ ∃ wal, Attached p maxHistoryPerKey w.fs rs engine wal ∧
        wal.epoch = nextEpoch (w.fs.image p)

/-- Keys and records are few enough for the counts of a snapshot. -/
structure StorageEngine.CountsFit (engine : StorageEngine) : Prop where
  keys : engine.data.keys.card < 2 ^ 32
  records : ∀ {key history}, engine.data.lookup key = some history → history.length < 2 ^ 32

/-- Everything that the snapshot's format counts in 32 bits can be counted so, and there is an epoch
left. -/
structure StorageEngine.WithinLimits (engine : StorageEngine) : Prop where
  keys : engine.data.keys.card < 2 ^ 32
  records : ∀ {key history}, engine.data.lookup key = some history → history.length < 2 ^ 32
  epochs : ∀ wal ∈ engine.wal, wal.epoch.toNat + 1 < 2 ^ 64

/-- An engine that is open is within the limits. -/
def World.WithinLimits (w : World) : Prop := ∀ engine ∈ w.engine, engine.WithinLimits

section Stands

variable {tight : Prop} {host : ByteOrder} {maxHistoryPerKey : ℕ} {image : Option SnapshotImage}
  {rs : List LogRecord} {data : Data}

theorem lt_add_one_of_room {e : UInt64} (h : e.toNat + 1 < 2 ^ 64) : e < e + 1 := by
  rw [UInt64.lt_iff_toNat_lt, UInt64.toNat_add, UInt64.toNat_one, Nat.mod_eq_of_lt h]
  exact Nat.lt_succ_self _

theorem StandsFor.empty : StandsFor tight host maxHistoryPerKey none [] ∅ where
  restored := rfl
  good := .empty
  epochs _ _ h := absurd h List.not_mem_nil
  room _ h := absurd h (Option.not_mem_none _)

/-- The epoch behind the image is not covered by it. -/
theorem StandsFor.uncovered {r : LogRecord} (h : StandsFor tight host maxHistoryPerKey image rs data)
    (hr : r.epoch = nextEpoch image) : Uncovered image r := by
  cases image with
  | none => exact uncovered_none r
  | some i =>
    rw [uncovered_some, hr]
    exact lt_add_one_of_room (h.room i rfl)

/-- A record of the epoch behind the image is one more change. -/
theorem StandsFor.change {μ : Mutation} (h : StandsFor tight host maxHistoryPerKey image rs data)
    (hμ : μ.Fits) : StandsFor tight host maxHistoryPerKey image
      (rs ++ [μ.entry host (nextEpoch image)]) (μ.apply maxHistoryPerKey data) where
  restored := by
    rw [contents_concat (h.uncovered (Mutation.entry_epoch ..)), h.restored]
  good := h.good.apply hμ
  epochs htight r hr := by
    rcases List.mem_append.1 hr with hr | hr
    · exact h.epochs htight r hr
    · rw [List.mem_singleton.1 hr, Mutation.entry_epoch]
      exact UInt64.le_refl _
  room := h.room

/-- Saving the data in the epoch of the log covers everything that is in the log. -/
theorem StandsFor.save {it : Iteration data} {epoch : UInt64} (hgood : Good maxHistoryPerKey data)
    (hepochs : ∀ r ∈ rs, r.epoch ≤ epoch) (hroom : epoch.toNat + 1 < 2 ^ 64) :
    StandsFor tight host maxHistoryPerKey (some ⟨epoch, exportSnapshotState data it⟩) rs data where
  restored := by
    have hcovered : ∀ r ∈ rs, ¬Uncovered (some ⟨epoch, exportSnapshotState data it⟩) r := by
      intro r hr
      rw [uncovered_some, UInt64.not_lt]
      exact hepochs r hr
    rw [contents_covered hcovered]
    exact import_export hgood.storable it _
  good := hgood
  epochs _ r hr := UInt64.le_trans (hepochs r hr) (UInt64.le_of_lt (lt_add_one_of_room hroom))
  room := by
    rintro i hi
    obtain rfl := Option.some.inj hi
    exact hroom

end Stands

variable {tight : Prop} {host : ByteOrder} {p : Path} {maxHistoryPerKey : ℕ} {fs fs' : FileSystem}
  {data : Data} {engine : StorageEngine} {w : World} {events : List Event}

/-- The image that is saved can be loaded, when its lengths and counts fit. -/
theorem image_storable {wal : WAL} (orders : Orders)
    (hpath : engine.snapshotPath = makeSnapshotPath p)
    (hdata : Storable maxHistoryPerKey engine.data) (hcounts : engine.CountsFit) :
    (engine.saved wal orders fs).image p = some (engine.image wal orders) := by
  rw [FileSystem.image, StorageEngine.saved, hpath, Snapshot.renamed_self, Option.bind_some,
    StorageEngine.imageFile]
  exact Snapshot.parse_fileBuf (fits_export hdata _ hcounts.keys hcounts.records) _

theorem image_saved {rs : List LogRecord} {wal : WAL} (orders : Orders)
    (h : Attached p maxHistoryPerKey fs rs engine wal) (hgood : Good maxHistoryPerKey engine.data)
    (hlimits : engine.WithinLimits) :
    (engine.saved wal orders fs).image p = some (engine.image wal orders) :=
  image_storable orders h.path hgood.storable ⟨hlimits.keys, hlimits.records⟩

/-- Opening leaves the files in step with the data; dying in between can leave a part of a header. -/
theorem wp_openTorn {m n : ℕ} {orders : Orders}
    (h : Related tight host p maxHistoryPerKey ⟨none, fs⟩ data) :
    wp (Faults.none m).env (StorageEngine.construct host p maxHistoryPerKey n orders)
      (fun result fs' => fs.SameBut p fs' ∧ ∃ engine, result = .ok engine ∧
        Related tight host p maxHistoryPerKey ⟨some engine, fs'⟩ data)
      (fun fs' => Related tight host p maxHistoryPerKey ⟨none, fs'⟩ data ∨
        TornHeader (Faults.none m) p fs') fs := by
  obtain ⟨rs, hstands, hlogged⟩ := h
  refine wp_mono (wp_openSteady Faults.none_steady hlogged) ?_ ?_
  · rintro result fs' ⟨hsame, engine, wal, image, rfl, hloads, hattached, hepoch, hdata⟩
    obtain rfl := loads_none hloads
    have himage := image_sameBut hsame
    refine ⟨hsame, engine, rfl, rs, ?_, ?_, wal, hattached, ?_⟩
    · rw [himage]
      exact hstands
    · rw [hdata, hstands.restored]
    · rw [himage, hepoch]
  · rintro fs' ⟨hsame, hlogged'⟩
    refine hlogged'.imp_left fun hlogged' => ⟨rs, ?_, hlogged'⟩
    rw [image_sameBut hsame]
    exact hstands

/-- Opening and dying in between leave the files in step with the data. -/
theorem wp_openRelated {n : ℕ} {orders : Orders}
    (h : Related tight host p maxHistoryPerKey ⟨none, fs⟩ data) :
    wp (Faults.none kHeaderSize).env (StorageEngine.construct host p maxHistoryPerKey n orders)
      (fun result fs' => fs.SameBut p fs' ∧ ∃ engine, result = .ok engine ∧
        Related tight host p maxHistoryPerKey ⟨some engine, fs'⟩ data)
      (fun fs' => Related tight host p maxHistoryPerKey ⟨none, fs'⟩ data) fs :=
  wp_mono (wp_openTorn h) (fun _ _ h => h) fun _ h =>
    h.resolve_right Faults.none_reliable.not_tornHeader

/-- An engine that is left behind has its data in the files. -/
theorem Related.left (h : Related tight host p maxHistoryPerKey ⟨some engine, fs⟩ data) :
    Related tight host p maxHistoryPerKey ⟨none, fs⟩ data := by
  obtain ⟨rs, hstands, -, wal, hattached, -⟩ := h
  exact ⟨rs, hstands, hattached.logged⟩

/-- The rule of `recover` on an engine that is in step with the files: nothing changes. -/
theorem wp_recoverTorn {m : ℕ} {orders : Orders}
    (h : Related tight host p maxHistoryPerKey ⟨some engine, fs⟩ data) :
    wp (Faults.none m).env (engine.recover host orders)
      (fun result fs' => fs' = fs ∧ result.1 = .ok () ∧
        Related tight host p maxHistoryPerKey ⟨some result.2, fs⟩ data ∧
        ∀ wal ∈ engine.wal, ∃ wal' ∈ result.2.wal, wal'.epoch = wal.epoch ∧
          wal'.seq = wal.seq ∧ wal'.headHash = wal.headHash)
      (fun fs' => fs' = fs) fs := by
  obtain ⟨rs, hstands, -, wal, hattached, hepoch⟩ := h
  refine wp_mono (wp_recoverSteady Faults.none_steady hattached) ?_ fun _ h => h
  rintro result fs' ⟨hfs, hok, wal', image, hloads, hattached', hepoch', hdata⟩
  obtain rfl := loads_none hloads
  refine ⟨hfs, hok, ⟨rs, hstands, ?_, wal', hattached', hepoch'⟩, fun wal₀ hwal₀ => ?_⟩
  · rw [hdata, hstands.restored]
  · obtain rfl : wal = wal₀ := Option.some.inj (hattached.log.symm.trans hwal₀)
    refine ⟨wal', hattached'.log, ?_, ?_, ?_⟩
    · rw [hepoch', hepoch]
    · rw [hattached'.seq, hattached.seq]
    · rw [hattached'.head, hattached.head]

theorem wp_recoverRelated {orders : Orders}
    (h : Related tight host p maxHistoryPerKey ⟨some engine, fs⟩ data) :
    wp (Faults.none kHeaderSize).env (engine.recover host orders)
      (fun result fs' => fs' = fs ∧ result.1 = .ok () ∧
        Related tight host p maxHistoryPerKey ⟨some result.2, fs⟩ data ∧
        ∀ wal ∈ engine.wal, ∃ wal' ∈ result.2.wal, wal'.epoch = wal.epoch ∧
          wal'.seq = wal.seq ∧ wal'.headHash = wal.headHash)
      (fun fs' => fs' = fs) fs :=
  wp_recoverTorn h

/-- How a call may end: it has made its change, or refused it. -/
def Ends (tight : Prop) (host : ByteOrder) (p : Path) (maxHistoryPerKey : ℕ) (data : Data) (op : Op)
    (result : Except Exception (Option Bool) × StorageEngine) (fs : FileSystem) : Prop :=
  (op.Within ∧ result.1 = .ok (op.answer data) ∧
    Related tight host p maxHistoryPerKey ⟨some result.2, fs⟩ (op.apply maxHistoryPerKey data)) ∨
  ¬op.Within ∧ (∃ what, result.1 = .error (.lengthError what)) ∧
    Related tight host p maxHistoryPerKey ⟨some result.2, fs⟩ data

/-- Where a call may be interrupted: before its change or after it. -/
def Interrupted (tight : Prop) (host : ByteOrder) (p : Path) (maxHistoryPerKey : ℕ) (data : Data)
    (op : Op) (fs : FileSystem) : Prop :=
  Related tight host p maxHistoryPerKey ⟨none, fs⟩ data ∨
    op.Within ∧ Related tight host p maxHistoryPerKey ⟨none, fs⟩ (op.apply maxHistoryPerKey data)

theorem wp_changeTorn {m : ℕ} {orders : Orders} {op : Op} {μ : Mutation} (hop : op.mutation = some μ)
    (h : Related tight host p maxHistoryPerKey ⟨some engine, fs⟩ data) :
    wp (Faults.none m).env (engine.call host orders op)
      (Ends tight host p maxHistoryPerKey data op) (Interrupted tight host p maxHistoryPerKey data op)
      fs := by
  obtain ⟨rs, hstands, rfl, wal, hattached, hepoch⟩ := id h
  have hwithin : op.Within ↔ μ.Fits := by simp [Op.Within, hop]
  have happly : op.apply maxHistoryPerKey engine.data = μ.apply maxHistoryPerKey engine.data := by
    rw [Op.apply, hop, Option.elim_some]
  have hstands' : μ.Fits → ∀ {fs'}, fs.SameBut p fs' → StandsFor tight host maxHistoryPerKey
      (fs'.image p) (rs ++ [μ.entry host wal.epoch]) (op.apply maxHistoryPerKey engine.data) := by
    intro hμ fs' hsame
    rw [happly, hepoch, image_sameBut hsame]
    exact hstands.change hμ
  refine wp_mono (wp_changeSteady Faults.none_steady hop hattached) ?_ ?_
  · rintro ⟨result, engine'⟩ fs' ⟨hsame, ⟨hμ, rfl, rfl, hthrew⟩ |
      ⟨hμ, hok, hdata, wal', hepoch', hattached'⟩⟩
    · exact .inr ⟨mt hwithin.1 hμ, hthrew, h⟩
    · refine .inl ⟨hwithin.2 hμ, hok, _, hstands' hμ hsame, ?_, wal', hattached', ?_⟩
      · rw [happly, ← hdata]
      · rw [hepoch', hepoch, image_sameBut hsame]
  · rintro fs' ⟨hsame, hlogged | ⟨hμ, hlogged⟩⟩
    · refine .inl ⟨rs, ?_, hlogged⟩
      rw [image_sameBut hsame]
      exact hstands
    · exact .inr ⟨hwithin.2 hμ, _, hstands' hμ hsame, hlogged⟩

/-- Every call keeps the files and the engine in step with the data, but for a part of a header that
a snapshot can leave behind when the process dies.  A snapshot relies on covering the whole log. -/
theorem wp_callTorn {m : ℕ} {orders : Orders} {op : Op}
    (h : Related tight host p maxHistoryPerKey ⟨some engine, fs⟩ data)
    (hsnapshot : op = .snapshot → tight ∧ engine.WithinLimits) :
    wp (Faults.none m).env (engine.call host orders op)
      (Ends tight host p maxHistoryPerKey data op)
      (fun fs' => Interrupted tight host p maxHistoryPerKey data op fs' ∨
        TornHeader (Faults.none m) p fs') fs := by
  cases op with
  | set key value duration now => exact wp_mono (wp_changeTorn rfl h) (fun _ _ h => h) fun _ => .inl
  | remove key now => exact wp_mono (wp_changeTorn rfl h) (fun _ _ h => h) fun _ => .inl
  | recover =>
    have hwithin : Op.recover.Within := fun _ hμ => absurd hμ (Option.not_mem_none _)
    rw [StorageEngine.call, wp_bind]
    refine wp_mono (wp_recoverTorn h) ?_ ?_
    · rintro ⟨result, engine'⟩ fs' ⟨rfl, rfl, hrelated, -⟩
      exact ⟨.inl (.inl hrelated.left), .inl ⟨hwithin, rfl, hrelated⟩⟩
    · rintro fs' rfl
      exact .inl (.inl h.left)
  | snapshot =>
    have hwithin : Op.snapshot.Within := fun _ hμ => absurd hμ (Option.not_mem_none _)
    obtain ⟨htight, hlimits⟩ := hsnapshot rfl
    obtain ⟨rs, hstands, rfl, wal, hattached, hepoch⟩ := id h
    have hroom := hlimits.epochs wal hattached.log
    have hepochs : ∀ r ∈ rs, r.epoch ≤ wal.epoch := by
      rw [hepoch]
      exact hstands.epochs htight
    -- the image that is in place from the rename on
    have himage : ∀ {fs'}, (engine.saved wal orders fs).SameBut p fs' →
        fs'.image p = some (engine.image wal orders) := by
      intro fs' hsame
      rw [image_sameBut hsame, image_saved orders hattached hstands.good hlimits]
    have hsaved : ∀ {fs' rs'}, (engine.saved wal orders fs).SameBut p fs' →
        (∀ r ∈ rs', r.epoch ≤ wal.epoch) →
        StandsFor tight host maxHistoryPerKey (fs'.image p) rs' engine.data := by
      intro fs' rs' hsame hrs'
      rw [himage hsame]
      exact .save hstands.good hrs' hroom
    rw [StorageEngine.call, wp_bind]
    refine wp_mono (wp_snapshotSteady Faults.none_steady saveFails_none syncFails_none hattached)
      ?_ ?_
    · rintro ⟨result, engine'⟩ fs' ⟨hsame, rfl, hdata, wal', hepoch', hattached'⟩
      have hrelated : Related tight host p maxHistoryPerKey ⟨some engine', fs'⟩ engine.data := by
        refine ⟨[], hsaved hsame (by simp), hdata, wal', hattached', ?_⟩
        rw [himage hsame]
        exact hepoch'
      exact ⟨.inl (.inl hrelated.left), .inl ⟨hwithin, rfl, hrelated⟩⟩
    · rintro fs' (hsame | ⟨hsame, hlogged | hlogged | htorn⟩)
      · -- the old image is still in place
        obtain ⟨hfile, hsnap⟩ := sameBut_tmp hsame
        refine .inl (.inl ⟨rs, ?_, hattached.logged.congr hfile⟩)
        rw [image_congr hsnap]
        exact hstands
      · -- the new image is in place, and covers every record of the old log
        exact .inl (.inl ⟨rs, hsaved hsame hepochs, hlogged⟩)
      · exact .inl (.inl ⟨[], hsaved hsame (by simp), hlogged⟩)
      · exact .inr htorn

/-- **Every call keeps the files and the engine in step with the data.**  A snapshot relies on
covering the whole log. -/
theorem wp_call {orders : Orders} {op : Op}
    (h : Related tight host p maxHistoryPerKey ⟨some engine, fs⟩ data)
    (hsnapshot : op = .snapshot → tight ∧ engine.WithinLimits) :
    wp (Faults.none kHeaderSize).env (engine.call host orders op)
      (Ends tight host p maxHistoryPerKey data op) (Interrupted tight host p maxHistoryPerKey data op)
      fs :=
  wp_mono (wp_callTorn h hsnapshot) (fun _ _ h => h) fun _ h =>
    h.resolve_right Faults.none_reliable.not_tornHeader

/-- Every step is one of the store, but for a part of a header that the death of a process can leave
behind. -/
theorem step_torn {m : ℕ} {w w' : World} {event : Event}
    (h : Related tight host p maxHistoryPerKey w data)
    (hsnapshot : event.op = some .snapshot → tight ∧ w.WithinLimits)
    (hstep : (machine (Faults.none m) host p maxHistoryPerKey).step w event w') :
    (∃ data', (store maxHistoryPerKey).step data event data' ∧
      Related tight host p maxHistoryPerKey w' data') ∨
    w'.engine = none ∧ TornHeader (Faults.none m) p w'.fs := by
  have hlimits : ∀ engine ∈ w.engine, ∀ op, event.op = some op → op = .snapshot →
      tight ∧ engine.WithinLimits := by
    rintro engine hengine op hop rfl
    obtain ⟨htight, hlimits⟩ := hsnapshot hop
    exact ⟨htight, hlimits engine hengine⟩
  cases hstep with
  | opened hx =>
    obtain ⟨-, engine, hok, hrelated⟩ := wp_exec (wp_openTorn h) hx
    obtain rfl := Except.ok.inj hok
    exact .inl ⟨data, .opened data, hrelated⟩
  | openFailed hx =>
    obtain ⟨-, engine, hok, -⟩ := wp_exec (wp_openTorn h) hx
    cases hok
  | openCrashed hx =>
    rcases wp_crash (wp_openTorn h) hx with hrelated | htorn
    · exact .inl ⟨data, .openCrashed data, hrelated⟩
    · exact .inr ⟨rfl, htorn⟩
  | returned hx =>
    rcases wp_exec (wp_callTorn h (hlimits _ rfl _ rfl)) hx with
      ⟨hwithin, hok, hrelated⟩ | ⟨-, ⟨_, he⟩, -⟩
    · obtain rfl := Except.ok.inj hok
      exact .inl ⟨_, .returned data hwithin, hrelated⟩
    · cases he
  | threw hx =>
    rcases wp_exec (wp_callTorn h (hlimits _ rfl _ rfl)) hx with
      ⟨-, hok, -⟩ | ⟨hwithin, ⟨what, he⟩, hrelated⟩
    · cases hok
    · obtain rfl := Except.error.inj he
      exact .inl ⟨data, .refused data what hwithin, hrelated⟩
  | crashed hx =>
    rcases wp_crash (wp_callTorn h (hlimits _ rfl _ rfl)) hx with
      (hrelated | ⟨hwithin, hrelated⟩) | htorn
    · exact .inl ⟨data, .undone data _, hrelated⟩
    · exact .inl ⟨_, .done data hwithin, hrelated⟩
    · exact .inr ⟨rfl, htorn⟩
  | closed hx =>
    obtain rfl := exec_destroy hx
    exact .inl ⟨data, .closed data, h.left⟩
  | closeCrashed hx =>
    obtain rfl := crash_destroy hx
    exact .inl ⟨data, .closeCrashed data, h.left⟩

/-- **The machine refines the store**, in the runs whose snapshots cover the whole log and are within
the limits. -/
theorem machine_refines {P : World → Event → Prop}
    (hP : ∀ w event, P w event → event.op = some .snapshot → tight ∧ w.WithinLimits) :
    Lts.Simulation ((machine (Faults.none kHeaderSize) host p maxHistoryPerKey).restrict P)
      (store maxHistoryPerKey) (Related tight host p maxHistoryPerKey) := by
  rintro w event w' data h ⟨hcond, hstep⟩
  refine (step_torn h (hP w event hcond) hstep).resolve_right ?_
  rintro ⟨-, htorn⟩
  exact Faults.none_reliable.not_tornHeader htorn

/-! ### Runs of changes -/

/-- The end of a process leaves the files alone. -/
theorem step_ends {F : Faults} {w' : World} {event : Event} (hends : event.Ends)
    (hstep : (machine F host p maxHistoryPerKey).step w event w') : w' = ⟨none, w.fs⟩ := by
  cases hstep with
  | closed hx =>
    obtain rfl := exec_destroy hx
    rfl
  | closeCrashed hx =>
    obtain rfl := crash_destroy hx
    rfl
  | _ => rcases hends with h | h <;> cases h

theorem step_closed {F : Faults} :
    (machine F host p maxHistoryPerKey).step ⟨some engine, fs⟩ .closed ⟨none, fs⟩ := by
  have hx := exec_run (E := F.env) Faults.allows_posix engine.destroy fs
  have hfs := exec_destroy hx
  rw [hfs] at hx
  exact .closed hx

/-- Changes that return have added their records to the log, and have been made. -/
theorem run_changes {rs : List LogRecord} {wal : WAL} {μs : List Mutation}
    (h : Attached p maxHistoryPerKey fs rs engine wal)
    (hmakes : List.Forall₂ Event.Makes events μs)
    (hrun : (machine (Faults.none kHeaderSize) host p maxHistoryPerKey).Run ⟨some engine, fs⟩ events
      w) : ∃ engine' wal', (∀ μ ∈ μs, μ.Fits) ∧ w.engine = some engine' ∧ wal'.epoch = wal.epoch ∧
      fs.SameBut p w.fs ∧
      Attached p maxHistoryPerKey w.fs (rs ++ μs.map (·.entry host wal.epoch)) engine' wal' ∧
      engine'.data = μs.foldl (Mutation.apply maxHistoryPerKey) engine.data := by
  induction hmakes generalizing fs rs engine wal with
  | nil =>
    cases hrun
    exact ⟨engine, wal, by simp, rfl, rfl, FileSystem.sameBut_refl p fs, by simpa using h, rfl⟩
  | @cons event μ events μs hmake _ ih =>
    obtain ⟨op, answer, rfl, hop⟩ := hmake
    cases hrun with
    | cons hstep hrun =>
      cases hstep with
      | @returned _ fs₁ _ engine₁ _ _ _ hx =>
        obtain ⟨hsame, ⟨-, -, -, _, hthrew⟩ | ⟨hμ, -, hdata, wal₁, hepoch, hattached⟩⟩ :=
          wp_exec (wp_changeLogged Faults.none_reliable hop h) hx
        · cases hthrew
        · obtain ⟨engine', wal', hfits, hengine, hepoch', hsame', hattached', hdata'⟩ :=
            ih hattached hrun
          refine ⟨engine', wal', List.forall_mem_cons.2 ⟨hμ, hfits⟩, hengine,
            by rw [hepoch', hepoch], ?_, ?_, ?_⟩
          · exact fun q hq => (hsame' q hq).trans (hsame q hq)
          · rw [hepoch, List.append_assoc, List.singleton_append] at hattached'
            exact hattached'
          · rw [hdata', hdata, List.foldl_cons]

/-- Data whose counts are small keeps its engine within the limits. -/
theorem Related.withinLimits (h : Related tight host p maxHistoryPerKey ⟨some engine, fs⟩ data)
    (hkeys : data.keys.card < 2 ^ 32)
    (hrecords : ∀ {key history}, data.lookup key = some history → history.length < 2 ^ 32)
    (hroom : (nextEpoch (fs.image p)).toNat + 1 < 2 ^ 64) : engine.WithinLimits := by
  obtain ⟨rs, -, rfl, wal, hattached, hepoch⟩ := h
  refine ⟨hkeys, hrecords, fun wal' hwal' => ?_⟩
  obtain rfl : wal = wal' := Option.some.inj (hattached.log.symm.trans hwal')
  rw [hepoch]
  exact hroom

/-- The runs in which no call fails and the snapshots are within the limits. -/
def sound (host : ByteOrder) (p : Path) (maxHistoryPerKey : ℕ) : Lts World Event :=
  (machine (Faults.none kHeaderSize) host p maxHistoryPerKey).restrict fun w event =>
    event.op = some .snapshot → w.WithinLimits

/-- Limits are for snapshots only. -/
theorem step_sound {w' : World} {event : Event} (hne : event.op ≠ some .snapshot)
    (hstep : (machine (Faults.none kHeaderSize) host p maxHistoryPerKey).step w event w') :
    (sound host p maxHistoryPerKey).step w event w' := ⟨fun hop => absurd hop hne, hstep⟩

/-- A store that was never written to. -/
theorem Related.empty (hnew : fs.bytes p = []) (hnone : fs (makeSnapshotPath p) = none) :
    Related tight host p maxHistoryPerKey ⟨none, fs⟩ ∅ := by
  have himage : fs.image p = none := by rw [FileSystem.image, hnone, Option.bind_none]
  have hstands : StandsFor tight host maxHistoryPerKey (fs.image p) [] ∅ := by
    rw [himage]
    exact .empty
  exact ⟨[], hstands, by simp, .inl ⟨hnew, rfl⟩⟩

/-- Every state of a run from an empty store is in step with the data that the store keeps. -/
theorem run_related (hnew : fs.bytes p = []) (hnone : fs (makeSnapshotPath p) = none)
    (hrun : (sound host p maxHistoryPerKey).Run ⟨none, fs⟩ events w) :
    ∃ data, (store maxHistoryPerKey).Run ∅ events data ∧
      Related True host p maxHistoryPerKey w data :=
  (machine_refines fun _ _ hlimits h => ⟨trivial, hlimits h⟩).run hrun (.empty hnew hnone)

/-- From this state on nothing is lost: after any run of processes without failing calls, opening
the files gives the data that the calls have made of what there was. -/
def Keeps (host : ByteOrder) (p : Path) (maxHistoryPerKey : ℕ) (w : World) (data : Data) : Prop :=
  ∀ events w', (sound host p maxHistoryPerKey).Run w events w' →
    ∃ data', (store maxHistoryPerKey).Run data events data' ∧
      Reopens host p maxHistoryPerKey w'.fs data'

theorem Related.engine_data (h : Related tight host p maxHistoryPerKey w data) :
    ∀ engine ∈ w.engine, engine.data = data := by
  obtain ⟨state, fs⟩ := w
  rintro engine rfl
  obtain ⟨-, -, hdata, -⟩ := h
  exact hdata

theorem Related.reopens (h : Related tight host p maxHistoryPerKey w data) :
    Reopens host p maxHistoryPerKey w.fs data := by
  obtain ⟨_ | engine, fs⟩ := w
  · obtain ⟨rs, hstands, hlogged⟩ := h
    exact (reopens_iff hlogged).2 hstands.restored
  · obtain ⟨rs, hstands, hlogged⟩ := h.left
    exact (reopens_iff hlogged).2 hstands.restored

/-- Files that are in step with the data keep it. -/
theorem Related.keeps (h : Related True host p maxHistoryPerKey w data) :
    Keeps host p maxHistoryPerKey w data := by
  intro events w' hrun
  obtain ⟨data', hstore, hrelated⟩ :=
    (machine_refines fun _ _ hlimits hop => ⟨trivial, hlimits hop⟩).run hrun h
  exact ⟨data', hstore, hrelated.reopens⟩

/-- **Crashes and restarts.**  In a run from an empty store without failing calls, the process may
die between any two I/O steps, and any number of times.  There is a run of the store with the same
events such that an open engine holds the data of the store, reopening gives exactly this data, and
`recover` on an open engine changes neither data nor epoch, sequence number or head hash. -/
theorem crash_restart (hnew : fs.bytes p = []) (hnone : fs (makeSnapshotPath p) = none)
    (hrun : (sound host p maxHistoryPerKey).Run ⟨none, fs⟩ events w) :
    ∃ data, (store maxHistoryPerKey).Run ∅ events data ∧
      (w.engine = none → Reopens host p maxHistoryPerKey w.fs data) ∧
      ∀ engine ∈ w.engine, engine.data = data ∧ ∀ orders result fs',
        Exec (Faults.none kHeaderSize).env (engine.recover host orders) w.fs result fs' →
        result.1 = .ok () ∧ result.2.data = data ∧
          ∀ wal ∈ engine.wal, ∃ wal' ∈ result.2.wal, wal'.epoch = wal.epoch ∧
            wal'.seq = wal.seq ∧ wal'.headHash = wal.headHash := by
  obtain ⟨data, hstore, hrelated⟩ := run_related hnew hnone hrun
  obtain ⟨state, fs'⟩ := w
  refine ⟨data, hstore, ?_, ?_⟩
  · rintro rfl
    obtain ⟨rs, hstands, hlogged⟩ := hrelated
    exact (reopens_iff hlogged).2 hstands.restored
  · rintro engine rfl
    obtain ⟨-, -, hdata, -⟩ := id hrelated
    refine ⟨hdata, fun orders result fs'' hx => ?_⟩
    obtain ⟨-, hok, ⟨-, -, hdata', -⟩, hwal⟩ := wp_exec (wp_recoverRelated hrelated) hx
    exact ⟨hok, hdata', hwal⟩

/-- Opening a store that was never written to. -/
theorem run_open_empty (host : ByteOrder) (maxHistoryPerKey n : ℕ) (orders : Orders)
    (hnew : fs.bytes p = []) (hnone : fs (makeSnapshotPath p) = none) : ∃ engine fs',
    run posix (StorageEngine.construct host p maxHistoryPerKey n orders) fs = (.ok engine, fs') ∧
      fs.SameBut p fs' ∧ Related True host p maxHistoryPerKey ⟨some engine, fs'⟩ ∅ ∧
      engine.WithinLimits := by
  obtain ⟨hsame, engine, hok, hrelated⟩ := wp_run Faults.allows_posix
    (wp_openRelated (.empty hnew hnone))
  refine ⟨engine, _, Prod.ext hok rfl, hsame, hrelated, hrelated.withinLimits (by decide) ?_ ?_⟩
  · intro key history h
    rw [Finmap.lookup_empty] at h
    cases h
  · rw [image_sameBut hsame, FileSystem.image, hnone]
    decide

/-- An engine on a new store, and a `set` that returns. -/
theorem exists_set {key value : Bytes} {duration : UInt64} {now : Int64} (host : ByteOrder)
    (maxHistoryPerKey : ℕ) (hnew : fs.bytes p = []) (hnone : fs (makeSnapshotPath p) = none)
    (hfits : (Mutation.put key ⟨value, duration, now⟩).Fits) : ∃ engine fs',
    (sound host p maxHistoryPerKey).Run ⟨none, fs⟩
        [.opened, .returned (.set key value duration now) none] ⟨some engine, fs'⟩ ∧
      engine.data = appendCapped maxHistoryPerKey ∅ key ⟨value, duration, now⟩ ∧
      fs'.image p = none ∧
      Logged p fs' [(Mutation.put key ⟨value, duration, now⟩).entry host 0] := by
  have himage : fs.image p = none := by rw [FileSystem.image, hnone, Option.bind_none]
  have hlogged : Logged p fs [] := logged_empty hnew
  obtain ⟨engine, wal, fs₁, hopen, hsame, hattached, hepoch, hdata⟩ := run_open host
    maxHistoryPerKey 1 ⟨Order.any, Order.any⟩ hlogged
  rw [himage] at hepoch hdata
  have hset : run posix (engine.call host ⟨Order.any, Order.any⟩ (.set key value duration now)) fs₁ =
    _ := run_change rfl hattached.log hattached.fd hattached.file hfits
  have hopened : (sound host p maxHistoryPerKey).step ⟨none, fs⟩ .opened ⟨some engine, fs₁⟩ :=
    step_sound (by rintro ⟨⟩) (.opened (exec_of_run Faults.allows_posix hopen))
  have hreturned : (sound host p maxHistoryPerKey).step ⟨some engine, fs₁⟩
      (.returned (.set key value duration now) none) _ :=
    step_sound (by rintro ⟨⟩) (.returned (exec_of_run Faults.allows_posix hset))
  have hfit : ((Mutation.put key ⟨value, duration, now⟩).entry host wal.epoch).Fits :=
    entry_fits hfits _
  have hlog := (hattached.concat hfit engine.data).logged
  refine ⟨_, _, .cons hopened (.single hreturned), ?_, ?_, ?_⟩
  · rw [hdata, hattached.cap]
    rfl
  · rw [image_sameBut (FileSystem.sameBut_put p fs₁ _), image_sameBut hsame, himage]
  · rw [List.nil_append, hepoch] at hlog
    rw [hepoch]
    exact hlog

theorem crash_restart_first : ∃ w, (sound .little "a" 0).Run ⟨none, fun _ => none⟩
    [.opened, .crashed (.set [107] [118] 0 5)] w ∧ ∃ data,
      (store 0).Run ∅ [.opened, .crashed (.set [107] [118] 0 5)] data ∧
      Reopens .little "a" 0 w.fs data := by
  have hnew : FileSystem.bytes (fun _ => none) "a" = [] := rfl
  obtain ⟨engine, fs', hx, -⟩ := run_open_empty .little 0 1 ⟨Order.any, Order.any⟩ hnew rfl
  have hopened : (sound .little "a" 0).step ⟨none, fun _ => none⟩ .opened ⟨some engine, fs'⟩ :=
    step_sound (by rintro ⟨⟩) (.opened (exec_of_run Faults.allows_posix hx))
  have hcrash : Crash (Faults.none kHeaderSize).env (engine.call .little ⟨Order.any, Order.any⟩
    (.set [107] [118] 0 5)) fs' fs' := .here _ _
  have hcrashed : (sound .little "a" 0).step ⟨some engine, fs'⟩ (.crashed (.set [107] [118] 0 5))
    ⟨none, fs'⟩ := step_sound (by rintro ⟨⟩) (.crashed hcrash)
  have hrun := Lts.Run.cons hopened (.single hcrashed)
  obtain ⟨data, hstore, hreopen, -⟩ := crash_restart hnew rfl hrun
  exact ⟨_, hrun, data, hstore, hreopen rfl⟩

end LiteSpeedStore
