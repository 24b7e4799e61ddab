import LiteSpeedStore.Engine.Data
import LiteSpeedStore.Wal.Log

/-!
# The rules of the engine's methods

What each method of an engine with a log does to the files and to the engine, for every failure the
environment allows.  The proofs about runs of the engine use these rules and never look into the
methods.

* `wp_change` : `set` and `remove` are one entry in the log, then one change of the histories.
* `wp_snapshot` : an image next to the log, a rename, and a new log.
* `wp_engineRecover`, `wp_engineConstruct` : what is loaded, and what is replayed on top of it.
-/

namespace LiteSpeedStore

open Prog StorageEngine

/-! ### Paths -/

theorem length_snapshotPath (p : Path) : p.length < (makeSnapshotPath p).length := by
  have hsnap : (".snap" : String).length = 5 := rfl
  have hwal : (".wal" : String).length = 4 := rfl
  rw [makeSnapshotPath]
  split_ifs
  · rw [String.length_append, String.length_ofList, List.length_take, hsnap, hwal,
      String.length_toList]
    omega
  · rw [String.length_append, hsnap]
    omega

theorem snapshotPath_ne (p : Path) : p ≠ makeSnapshotPath p := fun h =>
  (length_snapshotPath p).ne (congrArg String.length h)

theorem tmpPath_ne_wal (p : Path) : p ≠ Snapshot.tmpPath (makeSnapshotPath p) := by
  intro h
  have hlen := congrArg String.length h
  have hlt := length_snapshotPath p
  rw [Snapshot.tmpPath, String.length_append] at hlen
  omega

/-! ### Recovery -/

/-- The histories that an image, or none, starts recovery with. -/
def baseOf (maxHistoryPerKey : ℕ) (orders : Orders) : Option SnapshotImage → Data
  | some image => importSnapshotState maxHistoryPerKey image.state (orders.state image.state)
  | none => ∅

/-- The epoch up to which an image covers the log. -/
def epochOf (image : Option SnapshotImage) : Option UInt64 := image.map SnapshotImage.epoch

/-- The epoch of the log behind an image. -/
def nextEpoch : Option SnapshotImage → UInt64
  | some image => image.epoch + 1
  | none => 0

/-- What `load` may deliver. -/
def Loads (F : Faults) (fs : FileSystem) (path : Path) (image : Option SnapshotImage) : Prop :=
  (fs path = none ∧ image = none) ∨ (∃ file, fs path = some file ∧ image = Snapshot.parse file) ∨
    (F.mayFail (.streamOpen path) ∧ image = none) ∨
    (F.mayFail (.streamRead path) ∧ ∃ file part, fs path = some file ∧ part <+: file ∧
      image = Snapshot.parse part)

namespace StorageEngine

/-- The engine after recovery from an image and a walk along the log. -/
def recovered (host : ByteOrder) (engine : StorageEngine) (orders : Orders) (wal : WAL)
    (image : Option SnapshotImage) (w : Walk) : StorageEngine :=
  { engine with
    data := w.visited (some (replayEntry host engine.maxHistoryPerKey)) (epochOf image)
      (baseOf engine.maxHistoryPerKey orders image)
    snapshotEpoch := epochOf image
    wal := some ((wal.setEpoch (nextEpoch image)).adopt w) }

/-- What `recover` does with the outcome of the replay. -/
def replayed (engine : StorageEngine) (image : Option SnapshotImage) :
    RecoveryResult × WAL × Data → Io (Except Exception Unit × StorageEngine)
  | (result, wal, data) =>
    let engine := { engine with data, snapshotEpoch := epochOf image, wal := some wal }
    if result.status = .tampered then
      ret (.error (.runtimeError ("WAL tampering detected at offset " ++
        toString result.tamperOffset ++ " (seq " ++ toString result.tamperSeq ++ ")")), engine)
    else if result.status = .malformed then
      ret (.error (.runtimeError ("WAL field exceeds the size limit at offset " ++
        toString result.tamperOffset ++ " (seq " ++ toString result.tamperSeq ++
        ") - foreign or stale file")), engine)
    else ret (.ok (), engine)

/-- What the constructor does with the outcome of `recover`. -/
def opened : Except Exception Unit × StorageEngine → Io (Except Exception StorageEngine)
  | (.ok (), engine) => ret (.ok engine)
  | (.error e, engine) => do
    engine.destroy
    ret (.error e)

end StorageEngine

section Rules

variable {F : Faults} {host : ByteOrder} {engine : StorageEngine} {wal : WAL} {p : Path}
  {fs : FileSystem} {b : Bytes} {C : FileSystem → Prop}

/-- The log is recovered on top of what the image holds. -/
theorem recoverFrom_eq {orders : Orders} {image : Option SnapshotImage}
    (hwal : engine.wal = some wal) :
    engine.recoverFrom host orders image = (wal.setEpoch (nextEpoch image)).recover
      (replayEntry host engine.maxHistoryPerKey) (epochOf image)
      (baseOf engine.maxHistoryPerKey orders image) >>= engine.replayed image := by
  cases image <;> simp only [recoverFrom, hwal] <;> rfl

theorem wp_recoverFrom {orders : Orders} {image : Option SnapshotImage}
    {Q : Except Exception Unit × StorageEngine → FileSystem → Prop} (hwal : engine.wal = some wal)
    (hfd : wal.fd = some p) (hF : F.ReadsOk p) (hT : ∀ n, ¬F.mayFail (.ftruncate p n))
    (hfs : fs p = some b) (hC : C fs) (hC' : C (fs.put p ((walkFile b).left b)))
    (hok : (∀ s, (walkFile b).stop ≠ .failed s) →
      Q (.ok (), engine.recovered host orders wal image (walkFile b))
        (fs.put p ((walkFile b).left b)))
    (hfailed : ∀ s, (walkFile b).stop = .failed s → ∀ e,
      Q (.error (.runtimeError e), engine.recovered host orders wal image (walkFile b)) fs) :
    wp F.env (engine.recoverFrom host orders image) Q C fs := by
  have hfd' : (wal.setEpoch (nextEpoch image)).fd = some p := hfd
  rw [recoverFrom_eq hwal, wp_bind]
  refine wp_recover hfd' hF hT hfs hC hC' ?_
  cases hstop : (walkFile b).stop with
  | clean =>
    simp only [Walk.result, hstop, replayed]
    rw [if_neg (by decide), if_neg (by decide)]
    exact ⟨hC', hok (by rw [hstop]; exact fun _ => Stop.noConfusion)⟩
  | torn =>
    simp only [Walk.result, hstop, replayed]
    rw [if_neg (by decide), if_neg (by decide)]
    exact ⟨hC', hok (by rw [hstop]; exact fun _ => Stop.noConfusion)⟩
  | failed status =>
    have hput : fs.put p ((walkFile b).left b) = fs := by
      rw [Walk.left, if_neg (by rw [hstop]; exact Stop.noConfusion), FileSystem.put_eq_self hfs]
    simp only [Walk.result, hstop, hput, replayed]
    rcases walkFile_failed hstop with rfl | rfl
    · rw [if_neg (by decide), if_pos rfl]
      exact ⟨hC, hfailed _ hstop _⟩
    · rw [if_pos rfl]
      exact ⟨hC, hfailed _ hstop _⟩

/-- The rule of `recover`. -/
theorem wp_engineRecover {orders : Orders}
    {Q : Except Exception Unit × StorageEngine → FileSystem → Prop} (hwal : engine.wal = some wal)
    (hfd : wal.fd = some p) (hF : F.ReadsOk p) (hT : ∀ n, ¬F.mayFail (.ftruncate p n))
    (hfs : fs p = some b) (hC : C fs) (hC' : C (fs.put p ((walkFile b).left b)))
    (hok : ∀ image, Loads F fs engine.snapshotPath image → (∀ s, (walkFile b).stop ≠ .failed s) →
      Q (.ok (), engine.recovered host orders wal image (walkFile b))
        (fs.put p ((walkFile b).left b)))
    (hfailed : ∀ image, Loads F fs engine.snapshotPath image → ∀ s, (walkFile b).stop = .failed s →
      ∀ e, Q (.error (.runtimeError e), engine.recovered host orders wal image (walkFile b)) fs) :
    wp F.env (engine.recover host orders) Q C fs := by
  have hrest : ∀ image, Loads F fs engine.snapshotPath image →
      wp F.env (engine.recoverFrom host orders image) Q C fs := fun image himage =>
    wp_recoverFrom hwal hfd hF hT hfs hC hC' (hok image himage) (hfailed image himage)
  rw [recover, wp_bind]
  refine Snapshot.wp_load hC ?_ ?_ ?_ ?_
  · exact fun habsent => hrest none (.inl ⟨habsent, rfl⟩)
  · exact fun file hfile => hrest _ (.inr (.inl ⟨file, hfile, rfl⟩))
  · exact fun hmay => hrest none (.inr (.inr (.inl ⟨hmay, rfl⟩)))
  · exact fun hmay file part hfile hpart =>
      hrest _ (.inr (.inr (.inr ⟨hmay, file, part, hfile, hpart, rfl⟩)))

theorem wp_destroy {Q : Unit → FileSystem → Prop} (hC : C fs) (hQ : Q () fs) :
    wp F.env engine.destroy Q C fs := by
  rw [destroy]
  cases engine.wal with
  | none => exact ⟨hC, hQ⟩
  | some wal =>
    dsimp only
    rw [wp_bind]
    exact wp_close hC fun _ _ => ⟨hC, hQ⟩

/-- The destructor leaves the files alone. -/
theorem exec_destroy {fs' : FileSystem} (h : Exec F.env engine.destroy fs () fs') : fs' = fs := by
  have hw : wp F.env engine.destroy (fun _ fs' => fs' = fs) (fun _ => True) fs :=
    wp_destroy trivial rfl
  exact (wp_exec hw h :)

theorem crash_destroy {fs' : FileSystem} (h : Crash F.env engine.destroy fs fs') : fs' = fs := by
  have hw : wp F.env engine.destroy (fun _ _ => True) (fun fs' => fs' = fs) fs :=
    wp_destroy rfl trivial
  exact (wp_crash hw h :)

/-- The engine that the constructor starts recovery with. -/
def StorageEngine.fresh (p : Path) (maxHistoryPerKey syncEveryN : ℕ) : StorageEngine :=
  { wal := some (WAL.fresh p syncEveryN), walPath := p, snapshotPath := makeSnapshotPath p
    maxHistoryPerKey }

/-- The log file is there, with this content, once the constructor of the log is through. -/
def Opens (fs fs' : FileSystem) (p : Path) (b : Bytes) : Prop :=
  fs' = fs.put p b ∧ (fs.bytes p = [] ∧ b = walHeader ∨ fs.bytes p = b ∧ ValidHeader b)

theorem Opens.ofValid (h : ValidHeader (fs.bytes p)) : Opens fs fs p (fs.bytes p) := by
  refine ⟨(FileSystem.put_eq_self ?_).symm, .inr ⟨rfl, h⟩⟩
  cases hfile : fs p with
  | none => exact absurd (by rw [FileSystem.bytes, hfile, Option.getD_none]) h.ne_nil
  | some b => rw [FileSystem.bytes_of_some hfile]

/-- The rule of the constructor. -/
theorem wp_engineConstruct {orders : Orders} {maxHistoryPerKey syncEveryN : ℕ}
    {Q : Except Exception StorageEngine → FileSystem → Prop} (hF : F.ReadsOk p)
    (hT : ∀ n, ¬F.mayFail (.ftruncate p n)) (hopen : ¬F.mayFail (.openAppend p)) (hC : C fs)
    (hCnew : fs.bytes p = [] → ∀ k, F.Cut kHeaderSize k → C (fs.put p (walHeader.take k)))
    (hCcut : ∀ fs' b, Opens fs fs' p b → C fs' ∧ C (fs'.put p ((walkFile b).left b)))
    (hnewFail : fs.bytes p = [] → (∃ d, F.mayFail (.write p d)) → ∀ k, F.Cut kHeaderSize k →
      k < kHeaderSize → ∀ e, Q (.error e) (fs.put p (walHeader.take k)))
    (hnewSync : fs.bytes p = [] → F.mayFail (.fsync p) → ∀ e, Q (.error e) (fs.put p walHeader))
    (hbad : fs.bytes p ≠ [] → ¬ValidHeader (fs.bytes p) → ∀ e, Q (.error e) fs)
    (hok : ∀ fs' b image, Opens fs fs' p b → Loads F fs' (makeSnapshotPath p) image →
      (∀ s, (walkFile b).stop ≠ .failed s) →
      Q (.ok ((fresh p maxHistoryPerKey syncEveryN).recovered host orders
        (WAL.fresh p syncEveryN) image (walkFile b))) (fs'.put p ((walkFile b).left b)))
    (hfailed : ∀ fs' b, Opens fs fs' p b → ∀ s, (walkFile b).stop = .failed s → ∀ e,
      Q (.error (.runtimeError e)) fs') :
    wp F.env (StorageEngine.construct host p maxHistoryPerKey syncEveryN orders) Q C fs := by
  -- what follows once the log is open
  have hrest : ∀ fs' b, Opens fs fs' p b → wp F.env
      ((fresh p maxHistoryPerKey syncEveryN).recover host orders >>= opened) Q C fs' := by
    intro fs' b hopened
    obtain ⟨hC0, hC1⟩ := hCcut fs' b hopened
    have hfs' : fs' p = some b := by rw [hopened.1, FileSystem.put_self]
    rw [wp_bind]
    refine wp_engineRecover rfl rfl hF hT hfs' hC0 hC1 ?_ ?_
    · exact fun image himage hstop => ⟨hC1, hok fs' b image hopened himage hstop⟩
    · intro image himage s hstop e
      rw [opened, wp_bind]
      exact wp_destroy hC0 ⟨hC0, hfailed fs' b hopened s hstop e⟩
  rw [StorageEngine.construct, wp_bind]
  refine wp_construct hF hopen hC hCnew ?_ ?_ ?_ ?_ ?_
  · exact fun hb => hrest _ _ ⟨rfl, .inl ⟨hb, rfl⟩⟩
  · intro hb hmay k hk hlt e
    exact ⟨hCnew hb k hk, hnewFail hb hmay k hk hlt e⟩
  · intro hb hmay e
    exact ⟨hCnew hb _ (.inr (.inl rfl)), hnewSync hb hmay e⟩
  · intro hvalid
    exact hrest fs _ (.ofValid hvalid)
  · intro hne hbad' e
    exact ⟨hC, hbad hne hbad' e⟩

/-! ### Changes -/

/-- The end of `set` and of `remove`: the change of the histories, once the entry is in the log. -/
def StorageEngine.changed (engine : StorageEngine) (op : Op) (μ : Mutation) :
    Except Exception Unit × WAL → Io (Except Exception (Option Bool) × StorageEngine)
  | (.error e, wal) => ret (.error e, { engine with wal := some wal })
  | (.ok (), wal) => ret (.ok (op.answer engine.data), { engine with
      data := μ.apply engine.maxHistoryPerKey engine.data, wal := some wal })

/-- `set` and `remove` are one entry in the log, and then the change of the histories. -/
theorem call_accepted {orders : Orders} {op : Op} {μ : Mutation} (hop : op.mutation = some μ)
    (hwal : engine.wal = some wal) (hμ : μ.Fits) : engine.call host orders op =
      wal.append (μ.entry host wal.epoch).type (μ.entry host wal.epoch).key
        (μ.entry host wal.epoch).value (μ.entry host wal.epoch).timestamp >>=
        engine.changed op μ := by
  cases op with
  | snapshot => cases hop
  | recover => cases hop
  | set key value duration now =>
    obtain rfl : Mutation.put key ⟨value, duration, now⟩ = μ := Option.some.inj hop
    rw [StorageEngine.call, StorageEngine.set, if_neg (not_lt.2 hμ.1), if_neg (not_lt.2 hμ.2), hwal]
    dsimp only
    rw [bind_assoc]
    congr 1
    funext result
    rcases result with ⟨_ | _, _⟩ <;> rfl
  | remove key now =>
    obtain rfl : Mutation.delete key now = μ := Option.some.inj hop
    rw [StorageEngine.call, StorageEngine.remove, hwal]
    dsimp only
    rw [bind_assoc]
    congr 1
    funext result
    rcases result with ⟨_ | _, _⟩ <;> rfl

/-- A change that does not fit is refused. -/
theorem call_refused (host : ByteOrder) (orders : Orders) {op : Op} {μ : Mutation}
    (hop : op.mutation = some μ) (hwal : engine.wal = some wal) (hμ : ¬μ.Fits) :
    ∃ e, engine.call host orders op = ret (.error (.lengthError e), engine) := by
  have hsame : { engine with wal := some wal } = engine := by rw [← hwal]
  cases op with
  | snapshot => cases hop
  | recover => cases hop
  | set key value duration now =>
    obtain rfl : Mutation.put key ⟨value, duration, now⟩ = μ := Option.some.inj hop
    rw [StorageEngine.call, StorageEngine.set]
    by_cases hkey : key.length > kMaxFieldSize.toNat
    · rw [if_pos hkey]
      exact ⟨_, rfl⟩
    · have hvalue : value.length > kMaxValueSize := not_le.1 fun h => hμ ⟨not_lt.1 hkey, h⟩
      rw [if_neg hkey, if_pos hvalue]
      exact ⟨_, rfl⟩
  | remove key now =>
    obtain rfl : Mutation.delete key now = μ := Option.some.inj hop
    -- `append` refuses the key
    have hover : ¬((Mutation.delete key now).entry host wal.epoch).Fits := fun h => hμ h.1
    rw [StorageEngine.call, StorageEngine.remove, hwal]
    dsimp only
    rw [show wal.append .delete key [] now = _ from append_rejects hover]
    refine ⟨"WAL field exceeds " ++ toString kMaxFieldSize ++ " bytes", ?_⟩
    rw [ret_bind]
    dsimp only
    rw [hsame]
    rfl

/-- The rule of `set` and `remove`. -/
theorem wp_change {orders : Orders} {op : Op} {μ : Mutation}
    {Q : Except Exception (Option Bool) × StorageEngine → FileSystem → Prop}
    (hop : op.mutation = some μ) (hwal : engine.wal = some wal) (hfd : wal.fd = some p)
    (hfs : fs p = some b)
    (hreject : ¬μ.Fits → C fs ∧ ∀ e, Q (.error (.lengthError e), engine) fs)
    (hC : μ.Fits → ∀ k, F.Cut (μ.entry host wal.epoch).size k →
      C (fs.put p (b ++ ((μ.entry host wal.epoch).encode wal.headHash wal.seq).take k)))
    (hok : μ.Fits → Q (.ok (op.answer engine.data), { engine with
        data := μ.apply engine.maxHistoryPerKey engine.data
        wal := some (wal.pushed (μ.entry host wal.epoch)).synced })
      (fs.put p (b ++ (μ.entry host wal.epoch).encode wal.headHash wal.seq)))
    (hfail : μ.Fits → (∃ d, F.mayFail (.write p d)) →
      ∀ k, F.Cut (μ.entry host wal.epoch).size k → k < (μ.entry host wal.epoch).size → ∀ e,
      Q (.error (.runtimeError e), engine)
        (fs.put p (b ++ ((μ.entry host wal.epoch).encode wal.headHash wal.seq).take k)))
    (hsync : μ.Fits → F.mayFail (.fsync p) → ∀ e,
      Q (.error (.runtimeError e), { engine with wal := some (wal.pushed (μ.entry host wal.epoch)) })
        (fs.put p (b ++ (μ.entry host wal.epoch).encode wal.headHash wal.seq))) :
    wp F.env (engine.call host orders op) Q C fs := by
  have hsame : { engine with wal := some wal } = engine := by rw [← hwal]
  by_cases hμ : μ.Fits
  · have hall : C (fs.put p (b ++ (μ.entry host wal.epoch).encode wal.headHash wal.seq)) := by
      have h := hC hμ _ (.inr (.inl rfl))
      rwa [List.take_of_length_le (LogRecord.length_encode ..).le] at h
    rw [call_accepted hop hwal hμ, wp_bind]
    refine wp_append hfd hfs (entry_fits hμ _) (Mutation.entry_epoch ..) (hC hμ) ?_ ?_ ?_
    · exact ⟨hall, hok hμ⟩
    · intro hmay k hk hlt e
      refine ⟨hC hμ k hk, ?_⟩
      rw [hsame]
      exact hfail hμ hmay k hk hlt e
    · exact fun hmay e => ⟨hall, hsync hμ hmay e⟩
  · obtain ⟨hC0, hQ⟩ := hreject hμ
    obtain ⟨e, he⟩ := call_refused host orders hop hwal hμ
    rw [he]
    exact ⟨hC0, hQ e⟩

/-- `set` and `remove` on a system in which nothing fails. -/
theorem run_change {orders : Orders} {op : Op} {μ : Mutation} (hop : op.mutation = some μ)
    (hwal : engine.wal = some wal) (hfd : wal.fd = some p) (hfs : fs p = some b) (hμ : μ.Fits) :
    run posix (engine.call host orders op) fs = ((.ok (op.answer engine.data), { engine with
      data := μ.apply engine.maxHistoryPerKey engine.data
      wal := some (wal.pushed (μ.entry host wal.epoch)).synced }),
      fs.put p (b ++ (μ.entry host wal.epoch).encode wal.headHash wal.seq)) := by
  have hw : wp (Faults.none 0).env (engine.call host orders op) (fun result fs' => (result, fs') =
      ((.ok (op.answer engine.data), { engine with
        data := μ.apply engine.maxHistoryPerKey engine.data
        wal := some (wal.pushed (μ.entry host wal.epoch)).synced }),
        fs.put p (b ++ (μ.entry host wal.epoch).encode wal.headHash wal.seq))) (fun _ => True) fs :=
    wp_change hop hwal hfd hfs (fun h => absurd hμ h) (fun _ _ _ => trivial) (fun _ => rfl)
      (fun _ hmay => absurd hmay.choose_spec Faults.none_mayFail)
      (fun _ hmay => absurd hmay Faults.none_mayFail)
  exact wp_run Faults.allows_posix hw

/-! ### Snapshots -/

/-- The image that `snapshot` saves. -/
def StorageEngine.image (engine : StorageEngine) (wal : WAL) (orders : Orders) : SnapshotImage :=
  ⟨wal.epoch, exportSnapshotState engine.data (orders.data engine.data)⟩

/-- The file that `snapshot` saves it in. -/
def StorageEngine.imageFile (engine : StorageEngine) (wal : WAL) (orders : Orders) : Bytes :=
  Snapshot.fileBuf (engine.image wal orders) (orders.state _)

/-- Thrown when the image is not in place. -/
def StorageEngine.saveFailure (engine : StorageEngine) : Exception :=
  .runtimeError ("Failed to write snapshot to disk: " ++ engine.snapshotPath)

/-- Thrown when the image is in place, but the log could not be started anew. -/
def StorageEngine.rotationFailure (engine : StorageEngine) : Exception :=
  .runtimeError ("WAL rotation failed after snapshot: " ++ engine.walPath)

/-- The rule of `snapshot`, in which each call may fail. -/
theorem wp_snapshotAny {orders : Orders}
    {Q : Except Exception Unit × StorageEngine → FileSystem → Prop} (hwal : engine.wal = some wal)
    (hfd : wal.fd = some p) (hpath : engine.snapshotPath = makeSnapshotPath p)
    (hfs : fs p = some b)
    (hC : ∀ fs', fs.SameBut (Snapshot.tmpPath engine.snapshotPath) fs' → C fs')
    (hCsaved : C (fs.renamed engine.snapshotPath (engine.imageFile wal orders)))
    (hCnew : ∀ k, F.Cut kHeaderSize k →
      C ((fs.renamed engine.snapshotPath (engine.imageFile wal orders)).put p (walHeader.take k)))
    (hok : Q (.ok (), { engine with
        snapshotEpoch := some wal.epoch, wal := some (wal.setEpoch (wal.epoch + 1)).rewound })
      ((fs.renamed engine.snapshotPath (engine.imageFile wal orders)).put p walHeader))
    (hsave : Snapshot.SaveFails F engine.snapshotPath →
      ∀ fs', fs.SameBut (Snapshot.tmpPath engine.snapshotPath) fs' →
      Q (.error engine.saveFailure, engine) fs')
    (hdir : Snapshot.SyncFails F engine.snapshotPath → Q (.error engine.saveFailure, engine)
      (fs.renamed engine.snapshotPath (engine.imageFile wal orders)))
    (htrunc : F.mayFail (.ftruncate p 0) → Q (.error engine.rotationFailure, { engine with
        snapshotEpoch := some wal.epoch, wal := some (wal.setEpoch (wal.epoch + 1)) })
      (fs.renamed engine.snapshotPath (engine.imageFile wal orders)))
    (hseek : F.mayFail (.lseek p 0 .set) → Q (.error engine.rotationFailure, { engine with
        snapshotEpoch := some wal.epoch, wal := some (wal.setEpoch (wal.epoch + 1)) })
      ((fs.renamed engine.snapshotPath (engine.imageFile wal orders)).put p []))
    (hwrite : (∃ d, F.mayFail (.write p d)) → ∀ k, F.Cut kHeaderSize k → k < kHeaderSize →
      Q (.error engine.rotationFailure, { engine with
        snapshotEpoch := some wal.epoch, wal := some (wal.setEpoch (wal.epoch + 1)) })
      ((fs.renamed engine.snapshotPath (engine.imageFile wal orders)).put p (walHeader.take k)))
    (hsync : F.mayFail (.fsync p) → Q (.error engine.rotationFailure, { engine with
        snapshotEpoch := some wal.epoch, wal := some (wal.setEpoch (wal.epoch + 1)) })
      ((fs.renamed engine.snapshotPath (engine.imageFile wal orders)).put p walHeader)) :
    wp F.env (engine.snapshot orders) Q C fs := by
  have hC0 : C fs := hC _ (FileSystem.sameBut_refl _ _)
  have hfd' : (wal.setEpoch (wal.epoch + 1)).fd = some p := hfd
  have hfs' : fs.renamed engine.snapshotPath (engine.imageFile wal orders) p = some b := by
    rw [Snapshot.renamed_of_ne (hpath ▸ snapshotPath_ne p) (hpath ▸ tmpPath_ne_wal p), hfs]
  rw [snapshot, hwal]
  dsimp only
  rw [wp_bind]
  refine Snapshot.wp_save hC hCsaved ?_ ?_ ?_
  · rw [if_pos rfl, wp_bind]
    refine wp_resetAny hfd' hfs' hCsaved hCnew ?_ ?_ ?_ ?_ ?_
    · exact ⟨hCnew _ (.inr (.inl rfl)), hok⟩
    · exact fun hmay => ⟨hCsaved, htrunc hmay⟩
    · exact fun hmay => ⟨hCnew 0 (.inl rfl), hseek hmay⟩
    · exact fun hmay k hk hlt => ⟨hCnew k hk, hwrite hmay k hk hlt⟩
    · exact fun hmay => ⟨hCnew _ (.inr (.inl rfl)), hsync hmay⟩
  · intro hmay fs' hsame
    rw [if_neg (by decide)]
    exact ⟨hC _ hsame, hsave hmay fs' hsame⟩
  · intro hmay
    rw [if_neg (by decide)]
    exact ⟨hCsaved, hdir hmay⟩

/-- The rule of `snapshot` when `lseek` does not fail on the log. -/
theorem wp_snapshot {orders : Orders}
    {Q : Except Exception Unit × StorageEngine → FileSystem → Prop} (hwal : engine.wal = some wal)
    (hfd : wal.fd = some p) (hpath : engine.snapshotPath = makeSnapshotPath p) (hF : F.ReadsOk p)
    (hfs : fs p = some b)
    (hC : ∀ fs', fs.SameBut (Snapshot.tmpPath engine.snapshotPath) fs' → C fs')
    (hCsaved : C (fs.renamed engine.snapshotPath (engine.imageFile wal orders)))
    (hCnew : ∀ k, F.Cut kHeaderSize k →
      C ((fs.renamed engine.snapshotPath (engine.imageFile wal orders)).put p (walHeader.take k)))
    (hok : Q (.ok (), { engine with
        snapshotEpoch := some wal.epoch, wal := some (wal.setEpoch (wal.epoch + 1)).rewound })
      ((fs.renamed engine.snapshotPath (engine.imageFile wal orders)).put p walHeader))
    (hsave : Snapshot.SaveFails F engine.snapshotPath →
      ∀ fs', fs.SameBut (Snapshot.tmpPath engine.snapshotPath) fs' →
      Q (.error engine.saveFailure, engine) fs')
    (hdir : Snapshot.SyncFails F engine.snapshotPath → Q (.error engine.saveFailure, engine)
      (fs.renamed engine.snapshotPath (engine.imageFile wal orders)))
    (htrunc : F.mayFail (.ftruncate p 0) → Q (.error engine.rotationFailure, { engine with
        snapshotEpoch := some wal.epoch, wal := some (wal.setEpoch (wal.epoch + 1)) })
      (fs.renamed engine.snapshotPath (engine.imageFile wal orders)))
    (hwrite : (∃ d, F.mayFail (.write p d)) → ∀ k, F.Cut kHeaderSize k → k < kHeaderSize →
      Q (.error engine.rotationFailure, { engine with
        snapshotEpoch := some wal.epoch, wal := some (wal.setEpoch (wal.epoch + 1)) })
      ((fs.renamed engine.snapshotPath (engine.imageFile wal orders)).put p (walHeader.take k)))
    (hsync : F.mayFail (.fsync p) → Q (.error engine.rotationFailure, { engine with
        snapshotEpoch := some wal.epoch, wal := some (wal.setEpoch (wal.epoch + 1)) })
      ((fs.renamed engine.snapshotPath (engine.imageFile wal orders)).put p walHeader)) :
    wp F.env (engine.snapshot orders) Q C fs :=
  wp_snapshotAny hwal hfd hpath hfs hC hCsaved hCnew hok hsave hdir htrunc
    (fun hmay => absurd hmay (hF.lseek _ _)) hwrite hsync

end Rules

end LiteSpeedStore
