import LiteSpeedStore.Engine.Calls
import LiteSpeedStore.Engine.SyncFailure
import LiteSpeedStore.Wal.Damage

/-!
# Errors, and what a process may do after one

Most failing calls of the system make a method throw: those of `open`, `write`, `fsync`, `close` and
`rename`, and of the `ftruncate` that empties the log.  The others are taken for the end of a file.
A process that is given an error must not go on as if nothing had happened, but it need not lose
anything either.

* `Call.Reported` : the calls whose failure is not taken for something else.
* `Health` : what a process may do next.  After an error it calls `recover`, or it ends; after a log
  that could not be started anew it ends.
* `step_errors` : every step of a process that keeps to this is one of a store in which a call that
  throws has made its change or not.
* `errors_survived` : nothing that was acknowledged is lost.
* `refused_behind_lost` : what a process that does not keep to it can do to its store.
-/

namespace LiteSpeedStore

open Prog StorageEngine

/-! ### Failures that are reported -/

/-- A failure of this call is reported, or does not matter while the system stays up.  A failing
`read`, `fstat` or `lseek` passes for the end of the log, a failing stream for an absent snapshot,
and nothing follows from a failure to cut off a torn entry. -/
def Call.Reported : Call → Prop
  | .fstat _ | .lseek _ _ _ | .read _ _ _ | .streamOpen _ | .streamRead _ => False
  | .ftruncate _ len => len = 0
  | _ => True

/-- Any failure that is reported can happen, and entries can be cut short. -/
def reportedFaults : Faults := ⟨Call.Reported, kHeaderSize⟩

theorem reported_readsOk {p : Path} : reportedFaults.ReadsOk p :=
  ⟨fun _ _ h => h, fun h => h, fun _ _ h => h⟩

/-- Where no reported failure can happen nothing fails. -/
theorem step_reported {c : Call} {fs fs' : FileSystem} {r : Res c} (hc : ¬c.Reported)
    (hst : reportedFaults.env.step c fs r fs') :
    (Faults.none kHeaderSize).env.step c fs r fs' :=
  hst.imp_right fun h => h.imp_left fun h => absurd h.1 hc

theorem LooksAt.not_reported {p : Path} {c : Call} (h : LooksAt p c) : ¬c.Reported := by
  cases c with
  | fstat q => exact fun h => h
  | lseek q off whence => exact fun h => h
  | read q pos len => exact fun h => h
  | _ => exact h.elim

/-- `recover` makes no call whose failure is reported. -/
theorem wp_recoverReported {host : ByteOrder} {p : Path} {engine : StorageEngine} {wal : WAL}
    {orders : Orders} {Q : Except Exception Unit × StorageEngine → FileSystem → Prop}
    {C : FileSystem → Prop} {fs : FileSystem} (hwal : engine.wal = some wal)
    (hfd : wal.fd = some p)
    (h : wp (Faults.none kHeaderSize).env (engine.recover host orders) Q C fs) :
    wp reportedFaults.env (engine.recover host orders) Q C fs :=
  (only_engineRecover (P := fun c => ¬c.Reported) (fun _ h => h.not_reported) (fun _ hn => hn)
    (fun h => h) (fun h => h) hwal hfd).wp_alike (fun _ _ _ _ => step_reported) h

/-! ### What a process may do -/

/-- What a process knows of its engine. -/
inductive Health where
  /-- Engine and files are in step. -/
  | sound
  /-- A call has thrown, and may have made its change on disk. -/
  | unsure
  /-- The log could not be started anew. -/
  | lost
deriving DecidableEq

/-- Thrown when a snapshot was not saved, or its directory not synced. -/
def saveFailed (p : Path) : Exception :=
  .runtimeError ("Failed to write snapshot to disk: " ++ makeSnapshotPath p)

namespace Health

/-- The steps that a careful process takes. -/
def Admits : Health → Event → Prop
  | sound, _ => True
  | unsure, event => event.op = some .recover ∨ event.Ends
  | lost, event => event.Ends

/-- What the process knows after a step. -/
def after (p : Path) (health : Health) : Event → Health
  | .threw _ (.lengthError _) => health
  | .threw .snapshot e => if e = saveFailed p then unsure else lost
  | .threw _ _ => unsure
  | _ => sound

end Health

/-- The two errors of a snapshot can be told apart. -/
theorem rotationFailure_ne (engine : StorageEngine) (p : Path) :
    engine.rotationFailure ≠ saveFailed p := by
  intro h
  have hhead := congrArg (fun s => s.toList.head?) (Exception.runtimeError.inj h)
  have hrotation : "WAL rotation failed after snapshot: ".toList.head? = some 'W' := by decide
  have hsave : "Failed to write snapshot to disk: ".toList.head? = some 'F' := by decide
  simp only [String.toList_append, List.head?_append, hrotation, hsave, Option.some_or] at hhead
  exact absurd hhead (by decide)

theorem after_saveFailed {p : Path} {health : Health} :
    health.after p (.threw .snapshot (saveFailed p)) = .unsure := if_pos rfl

theorem after_rotationFailure {p : Path} {health : Health} {engine : StorageEngine} :
    health.after p (.threw .snapshot engine.rotationFailure) = .lost := by
  change (if engine.rotationFailure = saveFailed p then Health.unsure else .lost) = .lost
  rw [if_neg (rotationFailure_ne engine p)]

/-- The files, the process that has the store open, and what it knows. -/
structure Process where
  world : World
  health : Health

/-- The runs of careful processes in which any reported failure may happen, and the snapshots are
within the limits. -/
def careful (host : ByteOrder) (p : Path) (maxHistoryPerKey : ℕ) : Lts Process Event where
  step s event s' := s.health.Admits event ∧
    (event.op = some .snapshot → s.world.WithinLimits) ∧
    (machine reportedFaults host p maxHistoryPerKey).step s.world event s'.world ∧
    s'.health = s.health.after p event

/-- A store whose calls can fail: one that throws has made its change or not. -/
inductive Tried (maxHistoryPerKey : ℕ) : Data → Event → Data → Prop
  | kept {data data' : Data} {event : Event} (h : Kept maxHistoryPerKey data event data') :
      Tried maxHistoryPerKey data event data'
  | openFailed (data : Data) (e : Exception) : Tried maxHistoryPerKey data (.openFailed e) data
  | undone (data : Data) (op : Op) (what : String) :
      Tried maxHistoryPerKey data (.threw op (.runtimeError what)) data
  | done {op : Op} (data : Data) (what : String) (h : op.Within) :
      Tried maxHistoryPerKey data (.threw op (.runtimeError what)) (op.apply maxHistoryPerKey data)

/-- The store as careful processes see it. -/
def fallible (maxHistoryPerKey : ℕ) : Lts Data Event := ⟨Tried maxHistoryPerKey⟩

/-! ### What holds in between -/

/-- The files always stand for the data.  A sound engine is in step with them, and one that is
unsure still has its log. -/
structure InHand (host : ByteOrder) (p : Path) (maxHistoryPerKey : ℕ) (s : Process) (data : Data) :
    Prop where
  files : Related True host p maxHistoryPerKey ⟨none, s.world.fs⟩ data
  sound : s.health = .sound → Related True host p maxHistoryPerKey s.world data
  unsure : s.health = .unsure → ∀ engine ∈ s.world.engine,
    engine.At p maxHistoryPerKey ∧ s.world.fs.bytes p ≠ []

section Errors

variable {host : ByteOrder} {p : Path} {maxHistoryPerKey : ℕ} {fs fs' : FileSystem} {data : Data}
  {engine : StorageEngine} {wal : WAL} {rs : List LogRecord} {orders : Orders} {w : World}
  {health : Health} {events : List Event}

theorem Attached.engineAt (h : Attached p maxHistoryPerKey fs rs engine wal) :
    engine.At p maxHistoryPerKey := ⟨⟨wal, h.log, h.fd⟩, h.path, h.cap⟩

theorem Attached.bytes_ne (h : Attached p maxHistoryPerKey fs rs engine wal) : fs.bytes p ≠ [] := by
  rw [FileSystem.bytes_of_some h.file]
  exact List.ne_nil_of_length_pos (length_logOf_pos h.fits)

/-- An engine that is in step still has its log. -/
theorem Related.engineAt (h : Related True host p maxHistoryPerKey ⟨some engine, fs⟩ data) :
    engine.At p maxHistoryPerKey ∧ fs.bytes p ≠ [] := by
  obtain ⟨rs, -, -, wal, hattached, -⟩ := h
  exact ⟨hattached.engineAt, hattached.bytes_ne⟩

theorem InHand.ofRelated (h : Related True host p maxHistoryPerKey w data) :
    InHand host p maxHistoryPerKey ⟨w, health⟩ data := by
  obtain ⟨_ | engine, fs⟩ := w
  · exact ⟨h, fun _ => h, by rintro - _ ⟨⟩⟩
  · refine ⟨h.left, fun _ => h, ?_⟩
    rintro - engine ⟨⟩
    exact h.engineAt

theorem InHand.ofUnsure (h : Related True host p maxHistoryPerKey ⟨none, fs⟩ data)
    (hat : engine.At p maxHistoryPerKey) (hne : fs.bytes p ≠ []) :
    InHand host p maxHistoryPerKey ⟨⟨some engine, fs⟩, .unsure⟩ data := by
  refine ⟨h, by rintro ⟨⟩, ?_⟩
  rintro - engine ⟨⟩
  exact ⟨hat, hne⟩

theorem InHand.ofLost (h : Related True host p maxHistoryPerKey ⟨none, fs⟩ data) :
    InHand host p maxHistoryPerKey ⟨⟨some engine, fs⟩, .lost⟩ data :=
  ⟨h, by rintro ⟨⟩, by rintro ⟨⟩⟩

/-- Files of which only the log changes. -/
theorem related_put {b : Bytes}
    (hstands : StandsFor True host maxHistoryPerKey (fs.image p) rs data)
    (hlogged : Logged p (fs.put p b) rs) :
    Related True host p maxHistoryPerKey ⟨none, fs.put p b⟩ data := by
  refine ⟨rs, ?_, hlogged⟩
  dsimp only
  rw [image_sameBut (FileSystem.sameBut_put p fs b)]
  exact hstands

/-- The header of a new log is written in one piece. -/
theorem logged_cut {k : ℕ} (hk : reportedFaults.Cut kHeaderSize k) :
    Logged p (fs.put p (walHeader.take k)) [] := by
  refine (Logged.ofAnyCut hk).resolve_right ?_
  rintro ⟨k', hpos, hlt, rfl | rfl | ⟨hshort, -⟩, -⟩
  · exact absurd hpos (lt_irrefl 0)
  · exact absurd hlt (lt_irrefl _)
  · exact absurd hshort (lt_irrefl _)

/-! ### The rules -/

/-- **`recover` puts an engine back in step**, whatever a failed call has left. -/
theorem wp_recoverUnsure (h : Related True host p maxHistoryPerKey ⟨none, fs⟩ data)
    (hat : engine.At p maxHistoryPerKey) (hne : fs.bytes p ≠ []) :
    wp reportedFaults.env (engine.recover host orders)
      (fun result fs' => result.1 = .ok () ∧
        Related True host p maxHistoryPerKey ⟨some result.2, fs'⟩ data)
      (fun fs' => Related True host p maxHistoryPerKey ⟨none, fs'⟩ data) fs := by
  obtain ⟨rs, hstands, hlogged⟩ := id h
  obtain ⟨⟨wal, hwal, hfd⟩, hpath, hcap⟩ := hat
  obtain ⟨tail, hfile, htorn⟩ := hlogged.file.resolve_left fun h' => hne h'.1
  have hleft := left_tornTail hlogged.fits htorn
  -- the torn entry is cut off
  have hwhole : Related True host p maxHistoryPerKey ⟨none, fs.put p (logOf rs)⟩ data := by
    refine related_put hstands ⟨hlogged.fits, .inr ⟨[], ?_, tornTail_nil rs⟩⟩
    rw [FileSystem.put_self, List.append_nil]
  refine wp_recoverReported hwal hfd (wp_engineRecover hwal hfd (Faults.none_readsOk _ p)
    (fun _ => Faults.none_mayFail) hfile h (by rwa [hleft]) ?_ ?_)
  · intro image hloads _
    rw [hpath] at hloads
    obtain rfl := loads_none hloads
    obtain ⟨hattached, hepoch, hdata⟩ := attached_recovered host orders (fs.image p) engine wal
      hlogged.fits htorn (FileSystem.put_self fs p (logOf rs)) hfd hpath
    rw [hcap, hstands.restored] at hdata
    rw [hcap] at hattached
    have himage : (fs.put p (logOf rs)).image p = fs.image p :=
      image_sameBut (FileSystem.sameBut_put p fs _)
    rw [hleft]
    refine ⟨rfl, rs, ?_, hdata, _, hattached, ?_⟩
    · dsimp only
      rw [himage]
      exact hstands
    · rw [himage, hepoch]
  · exact fun image _ s hstop => absurd hstop (stop_tornTail hlogged.fits htorn s)

/-- **Opening** gives an engine in step with the files; or it throws, and leaves them so. -/
theorem wp_openErrors {n : ℕ} (h : Related True host p maxHistoryPerKey ⟨none, fs⟩ data) :
    wp reportedFaults.env (StorageEngine.construct host p maxHistoryPerKey n orders)
      (fun result fs' => Related True host p maxHistoryPerKey ⟨result.toOption, fs'⟩ data)
      (fun fs' => Related True host p maxHistoryPerKey ⟨none, fs'⟩ data) fs := by
  obtain ⟨rs, hstands, hlogged⟩ := id h
  have hat : (StorageEngine.fresh p maxHistoryPerKey n).At p maxHistoryPerKey :=
    ⟨⟨_, rfl, rfl⟩, rfl, rfl⟩
  -- what there can be of the header of a new log
  have hcut : fs.bytes p = [] → ∀ k, reportedFaults.Cut kHeaderSize k →
      Related True host p maxHistoryPerKey ⟨none, fs.put p (walHeader.take k)⟩ data := by
    intro hempty k hk
    obtain rfl := hlogged.eq_nil hempty
    exact related_put hstands (logged_cut hk)
  have hheader : fs.bytes p = [] →
      Related True host p maxHistoryPerKey ⟨none, fs.put p walHeader⟩ data := by
    intro hempty
    obtain rfl := hlogged.eq_nil hempty
    exact related_put hstands (logged_header fs)
  -- what follows once the log is open
  have hrest : ∀ {fs' : FileSystem}, Related True host p maxHistoryPerKey ⟨none, fs'⟩ data →
      fs'.bytes p ≠ [] → wp reportedFaults.env
        ((StorageEngine.fresh p maxHistoryPerKey n).recover host orders >>= opened)
        (fun result fs' => Related True host p maxHistoryPerKey ⟨result.toOption, fs'⟩ data)
        (fun fs' => Related True host p maxHistoryPerKey ⟨none, fs'⟩ data) fs' := by
    intro fs' h' hne
    rw [wp_bind]
    refine wp_mono (wp_recoverUnsure h' hat hne) ?_ fun _ h => h
    rintro ⟨result, engine⟩ fs'' ⟨rfl, hrelated⟩
    exact ⟨hrelated.left, hrelated⟩
  rw [StorageEngine.construct, wp_bind]
  refine wp_constructAny reported_readsOk h (fun _ e => ⟨h, h⟩) hcut ?_ ?_ ?_ ?_ ?_
  · intro hempty
    refine hrest (hheader hempty) ?_
    rw [FileSystem.bytes_put]
    exact List.ne_nil_of_length_pos (by rw [length_walHeader]; decide)
  · exact fun hempty _ k hk _ e => ⟨hcut hempty k hk, hcut hempty k hk⟩
  · exact fun hempty _ e => ⟨hheader hempty, hheader hempty⟩
  · exact fun hvalid => hrest h hvalid.ne_nil
  · exact fun hne hbad => absurd (hlogged.validHeader hne) hbad

/-- **`snapshot`** makes the files stand for the data in another way; where it fails, they do in one
of the two. -/
theorem wp_snapshotErrors (h : Related True host p maxHistoryPerKey ⟨some engine, fs⟩ data)
    (hlimits : engine.WithinLimits) :
    wp reportedFaults.env (engine.snapshot orders)
      (fun result fs' => result.1 = .ok () ∧
          Related True host p maxHistoryPerKey ⟨some result.2, fs'⟩ data ∨
        ∃ what, result.1 = .error (.runtimeError what) ∧ InHand host p maxHistoryPerKey
          ⟨⟨some result.2, fs'⟩, Health.sound.after p (.threw .snapshot (.runtimeError what))⟩ data)
      (fun fs' => Related True host p maxHistoryPerKey ⟨none, fs'⟩ data) fs := by
  obtain ⟨rs, hstands, rfl, wal, hattached, hepoch⟩ := id h
  have hroom := hlimits.epochs wal hattached.log
  have hepochs : ∀ r ∈ rs, r.epoch ≤ wal.epoch := by
    rw [hepoch]
    exact hstands.epochs trivial
  have hpath : engine.saveFailure = saveFailed p := by
    rw [StorageEngine.saveFailure, saveFailed, hattached.path]
  have hput : ∀ b, (engine.saved wal orders fs).SameBut p ((engine.saved wal orders fs).put p b) :=
    fun b => FileSystem.sameBut_put p _ b
  have hlogged : Logged p (engine.saved wal orders fs) rs :=
    hattached.logged.congr (saved_self orders hattached)
  have himage : ∀ {fs'}, (engine.saved wal orders fs).SameBut p fs' →
      fs'.image p = some (engine.image wal orders) := by
    intro fs' hsame
    rw [image_sameBut hsame, image_saved orders hattached hstands.good hlimits]
  -- the image covers every log that it is found with
  have hcovers : ∀ {fs' rs'}, (engine.saved wal orders fs).SameBut p fs' → Logged p fs' rs' →
      (∀ r ∈ rs', r.epoch ≤ wal.epoch) →
      Related True host p maxHistoryPerKey ⟨none, fs'⟩ engine.data := by
    intro fs' rs' hsame hlogged' hrs'
    refine ⟨rs', ?_, hlogged'⟩
    dsimp only
    rw [himage hsame]
    exact .save hstands.good hrs' hroom
  have hsaved := hcovers (FileSystem.sameBut_refl p _) hlogged hepochs
  have hcut : ∀ k, reportedFaults.Cut kHeaderSize k → Related True host p maxHistoryPerKey
      ⟨none, (engine.saved wal orders fs).put p (walHeader.take k)⟩ engine.data :=
    fun k hk => hcovers (hput _) (logged_cut hk) (by simp)
  have hheader := hcovers (hput walHeader) (logged_header _) (by simp)
  -- until the rename the old image is in place
  have hold : ∀ fs', fs.SameBut (Snapshot.tmpPath engine.snapshotPath) fs' →
      fs' p = fs p ∧ Related True host p maxHistoryPerKey ⟨none, fs'⟩ engine.data := by
    intro fs' hsame
    obtain ⟨hfile, hsnap⟩ := sameBut_tmp (hattached.path ▸ hsame)
    refine ⟨hfile, rs, ?_, hattached.logged.congr hfile⟩
    dsimp only
    rw [image_congr hsnap]
    exact hstands
  have hunsure : ∀ {fs' : FileSystem}, fs' p = fs p →
      Related True host p maxHistoryPerKey ⟨none, fs'⟩ engine.data → InHand host p maxHistoryPerKey
        ⟨⟨some engine, fs'⟩, Health.sound.after p (.threw .snapshot engine.saveFailure)⟩
        engine.data := by
    intro fs' hfile h'
    rw [hpath, after_saveFailed]
    refine .ofUnsure h' hattached.engineAt ?_
    rw [FileSystem.bytes, hfile]
    exact hattached.bytes_ne
  have hlost : ∀ {fs' : FileSystem} (engine' : StorageEngine),
      Related True host p maxHistoryPerKey ⟨none, fs'⟩ engine.data → InHand host p maxHistoryPerKey
        ⟨⟨some engine', fs'⟩, Health.sound.after p (.threw .snapshot engine.rotationFailure)⟩
        engine.data := by
    intro fs' engine' h'
    rw [after_rotationFailure]
    exact .ofLost h'
  refine wp_snapshotAny hattached.log hattached.fd hattached.path hattached.file
    (fun fs' hsame => (hold fs' hsame).2) hsaved hcut ?_ ?_ ?_ ?_ ?_ ?_ ?_
  · have hnew : ((fs.renamed engine.snapshotPath (engine.imageFile wal orders)).put p
        walHeader).image p = some (engine.image wal orders) := himage (hput walHeader)
    refine .inl ⟨rfl, [], ?_, rfl, _, hattached.rewound _, ?_⟩
    · dsimp only
      rw [hnew]
      exact .save hstands.good (by simp) hroom
    · dsimp only
      rw [hnew]
      rfl
  · exact fun _ fs' hsame => .inr ⟨_, rfl, hunsure (hold fs' hsame).1 (hold fs' hsame).2⟩
  · exact fun _ => .inr ⟨_, rfl, hunsure (saved_self orders hattached) hsaved⟩
  · exact fun _ => .inr ⟨_, rfl, hlost _ hsaved⟩
  · exact fun _ => .inr ⟨_, rfl, hlost _ (hcovers (hput []) (logged_empty (by simp)) (by simp))⟩
  · exact fun _ k hk _ => .inr ⟨_, rfl, hlost _ (hcut k hk)⟩
  · exact fun _ => .inr ⟨_, rfl, hlost _ hheader⟩

/-- How a call of a sound engine may end: as without failures, or in an error that leaves the files
in hand. -/
def EndsOrFails (host : ByteOrder) (p : Path) (maxHistoryPerKey : ℕ) (data : Data) (op : Op)
    (result : Except Exception (Option Bool) × StorageEngine) (fs : FileSystem) : Prop :=
  Ends True host p maxHistoryPerKey data op result fs ∨
    ∃ what data', result.1 = .error (.runtimeError what) ∧
      Tried maxHistoryPerKey data (.threw op (.runtimeError what)) data' ∧
      InHand host p maxHistoryPerKey
        ⟨⟨some result.2, fs⟩, Health.sound.after p (.threw op (.runtimeError what))⟩ data'

/-- `set` and `remove` end so. -/
theorem wp_changeErrors {op : Op} {μ : Mutation} (hop : op.mutation = some μ)
    (h : Related True host p maxHistoryPerKey ⟨some engine, fs⟩ data) :
    wp reportedFaults.env (engine.call host orders op) (EndsOrFails host p maxHistoryPerKey data op)
      (Interrupted True host p maxHistoryPerKey data op) fs := by
  have hafter : ∀ what, Health.sound.after p (.threw op (.runtimeError what)) = .unsure := by
    intro what
    cases op with
    | snapshot => cases hop
    | _ => rfl
  refine wp_changeAny hop h (fun _ _ => .inl) ?_ ?_
  · intro _ e b hb h'
    refine .inr ⟨e, data, rfl, .undone data op e, ?_⟩
    rw [hafter]
    exact .ofUnsure h' h.engineAt.1 (by rwa [FileSystem.bytes_put])
  · -- the change is in the log
    intro hμ _ e engine' fs' hdata h'
    have hwithin : op.Within := by simpa [Op.Within, hop] using hμ
    have happly : op.apply maxHistoryPerKey data = μ.apply maxHistoryPerKey data := by
      rw [Op.apply, hop, Option.elim_some]
    obtain ⟨⟨hlog, hpath, hcap⟩, hne⟩ := h'.engineAt
    refine .inr ⟨e, _, rfl, .done data e hwithin, ?_⟩
    rw [hafter, happly]
    exact .ofUnsure h'.left ⟨hlog, hpath, hcap⟩ hne

theorem wp_recoverErrors (h : Related True host p maxHistoryPerKey ⟨none, fs⟩ data)
    (hat : engine.At p maxHistoryPerKey) (hne : fs.bytes p ≠ []) :
    wp reportedFaults.env (engine.call host orders .recover)
      (EndsOrFails host p maxHistoryPerKey data .recover)
      (Interrupted True host p maxHistoryPerKey data .recover) fs := by
  have hwithin : Op.recover.Within := fun _ hμ => absurd hμ (Option.not_mem_none _)
  rw [StorageEngine.call, wp_bind]
  refine wp_mono (wp_recoverUnsure h hat hne) ?_ fun _ => .inl
  rintro ⟨result, engine'⟩ fs' ⟨rfl, hrelated⟩
  exact ⟨.inl hrelated.left, .inl (.inl ⟨hwithin, rfl, hrelated⟩)⟩

/-- **Every call that a careful process makes** ends as without failures, or in an error that leaves
the files in hand; where it is interrupted it has made its change or not. -/
theorem wp_callErrors {op : Op} {event : Event}
    (h : InHand host p maxHistoryPerKey ⟨⟨some engine, fs⟩, health⟩ data)
    (hadmits : health.Admits event) (hop : event.op = some op)
    (hlimits : op = .snapshot → engine.WithinLimits) :
    wp reportedFaults.env (engine.call host orders op) (EndsOrFails host p maxHistoryPerKey data op)
      (Interrupted True host p maxHistoryPerKey data op) fs := by
  have hends : ¬event.Ends := by
    rintro (rfl | rfl)
    · cases hop
    · cases hop
  cases health with
  | sound =>
    have hrelated := h.sound rfl
    cases op with
    | set key value duration now => exact wp_changeErrors rfl hrelated
    | remove key now => exact wp_changeErrors rfl hrelated
    | recover => exact wp_recoverErrors h.files hrelated.engineAt.1 hrelated.engineAt.2
    | snapshot =>
      have hwithin : Op.snapshot.Within := fun _ hμ => absurd hμ (Option.not_mem_none _)
      rw [StorageEngine.call, wp_bind]
      refine wp_mono (wp_snapshotErrors hrelated (hlimits rfl)) ?_ fun _ => .inl
      rintro ⟨result, engine'⟩ fs' (⟨rfl, hrelated'⟩ | ⟨what, rfl, hinhand⟩)
      · exact ⟨.inl hrelated'.left, .inl (.inl ⟨hwithin, rfl, hrelated'⟩)⟩
      · exact ⟨.inl hinhand.files, .inr ⟨what, data, rfl, .undone data _ what, hinhand⟩⟩
  | unsure =>
    obtain rfl : op = .recover := Option.some.inj (hop.symm.trans (hadmits.resolve_right hends))
    obtain ⟨hat, hne⟩ := h.unsure rfl engine rfl
    exact wp_recoverErrors h.files hat hne
  | lost => exact absurd hadmits hends

/-- After an error nothing counts but the error. -/
theorem after_runtimeError {op : Op} {what : String} :
    health.after p (.threw op (.runtimeError what)) =
      Health.sound.after p (.threw op (.runtimeError what)) := by
  cases op <;> rfl

/-- **Every step of a careful process is one of a store whose calls can fail**, and leaves the files
in hand. -/
theorem step_errors : Lts.Simulation (careful host p maxHistoryPerKey) (fallible maxHistoryPerKey)
    (InHand host p maxHistoryPerKey) := by
  rintro ⟨⟨state, fs⟩, health⟩ event ⟨⟨state', fs'⟩, health'⟩ data h ⟨hadmits, hlimits, hstep, rfl⟩
  have hsnapshot : ∀ engine op, state = some engine → event.op = some op → op = .snapshot →
      engine.WithinLimits := by
    rintro engine op rfl hop rfl
    exact hlimits hop engine rfl
  dsimp only at hstep
  cases hstep with
  | opened hx =>
    have hrelated := wp_exec (wp_openErrors h.files) hx
    exact ⟨data, .kept (.opened data), .ofRelated hrelated⟩
  | openFailed hx =>
    have hrelated := wp_exec (wp_openErrors h.files) hx
    exact ⟨data, .openFailed data _, .ofRelated hrelated⟩
  | openCrashed hx =>
    have hrelated := wp_crash (wp_openErrors h.files) hx
    exact ⟨data, .kept (.openCrashed data), .ofRelated hrelated⟩
  | returned hx =>
    rcases wp_exec (wp_callErrors h hadmits rfl (hsnapshot _ _ rfl rfl)) hx with
      (⟨hwithin, hok, hrelated⟩ | ⟨-, ⟨_, he⟩, -⟩) | ⟨_, _, he, -⟩
    · obtain rfl := Except.ok.inj hok
      exact ⟨_, .kept (.returned data hwithin), .ofRelated hrelated⟩
    · cases he
    · cases he
  | threw hx =>
    rcases wp_exec (wp_callErrors h hadmits rfl (hsnapshot _ _ rfl rfl)) hx with
      (⟨-, hok, -⟩ | ⟨hwithin, ⟨what, he⟩, hrelated⟩) | ⟨what, data', he, htried, hinhand⟩
    · cases hok
    · obtain rfl := Except.error.inj he
      exact ⟨data, .kept (.refused data what hwithin), .ofRelated hrelated⟩
    · obtain rfl := Except.error.inj he
      refine ⟨data', htried, ?_⟩
      rw [after_runtimeError]
      exact hinhand
  | crashed hx =>
    rcases wp_crash (wp_callErrors h hadmits rfl (hsnapshot _ _ rfl rfl)) hx with
      hrelated | ⟨hwithin, hrelated⟩
    · exact ⟨data, .kept (.undone data _), .ofRelated hrelated⟩
    · exact ⟨_, .kept (.done data hwithin), .ofRelated hrelated⟩
  | closed hx =>
    obtain rfl := exec_destroy hx
    exact ⟨data, .kept (.closed data), .ofRelated h.files⟩
  | closeCrashed hx =>
    obtain rfl := crash_destroy hx
    exact ⟨data, .kept (.closeCrashed data), .ofRelated h.files⟩

/-- **Errors are survived.**  From an empty store, over any number of processes that are closed or
die anywhere, any calls of the system may fail whose failure is reported.  As long as a process that
was given an error calls `recover` before anything else, or ends, and ends when its log could not be
started anew, there is a store with the same events in which a call that throws has made its change
or not; opening the files at any moment gives exactly its data, and a sound engine has it. -/
theorem errors_survived {s : Process} (hnew : fs.bytes p = [])
    (hnone : fs (makeSnapshotPath p) = none)
    (hrun : (careful host p maxHistoryPerKey).Run ⟨⟨none, fs⟩, .sound⟩ events s) :
    ∃ data, (fallible maxHistoryPerKey).Run ∅ events data ∧
      Reopens host p maxHistoryPerKey s.world.fs data ∧
      (s.health = .sound → ∀ engine ∈ s.world.engine, engine.data = data) := by
  obtain ⟨data, hstore, hinhand⟩ := step_errors.run hrun (.ofRelated (.empty hnew hnone))
  exact ⟨data, hstore, hinhand.files.reopens, fun h => (hinhand.sound h).engine_data⟩

/-- `recover` can return. -/
theorem exec_recoverUnsure (orders : Orders)
    (h : Related True host p maxHistoryPerKey ⟨none, fs⟩ data) (hat : engine.At p maxHistoryPerKey)
    (hne : fs.bytes p ≠ []) : ∃ engine' fs',
    Exec reportedFaults.env (engine.call host orders .recover) fs (.ok none, engine') fs' := by
  have hx := exec_run (E := reportedFaults.env) Faults.allows_posix (engine.recover host orders) fs
  obtain ⟨hok, -⟩ := wp_exec (wp_recoverUnsure h hat hne) hx
  generalize run posix (engine.recover host orders) fs = x at hx hok
  obtain ⟨⟨result, engine'⟩, fs'⟩ := x
  obtain rfl : result = .ok () := hok
  exact ⟨engine', fs', exec_bind.2 ⟨_, _, hx, .ret _ _⟩⟩

/-- A `set` whose `fsync` fails. -/
theorem exists_unsure : ∃ engine fs,
    (careful .little "a" 0).Run ⟨⟨none, fun _ => none⟩, .sound⟩
      [.opened, .threw (.set [107] [118] 0 5) (.runtimeError "fsync failed")]
      ⟨⟨some engine, fs⟩, .unsure⟩ := by
  have hnew : FileSystem.bytes (fun _ => none) "a" = [] := rfl
  obtain ⟨engine, fs₁, hopen, -, hrelated, -⟩ := run_open_empty .little 0 1
    ⟨Order.any, Order.any⟩ hnew rfl
  obtain ⟨rs, -, -, wal, hattached, -⟩ := id hrelated
  obtain ⟨wal', hwal', hevery, -⟩ := wp_exec (wp_openCount Faults.none_steady)
    (exec_of_run (E := (Faults.none 0).env) Faults.allows_posix hopen) engine rfl
  obtain rfl := Option.some.inj (hattached.log.symm.trans hwal')
  have hdue : wal.pendingWrites + 1 ≥ wal.syncEveryN := by
    rw [hevery]
    exact Nat.le_add_left ..
  have hopened : (careful .little "a" 0).step ⟨⟨none, fun _ => none⟩, .sound⟩ .opened
      ⟨⟨some engine, fs₁⟩, .sound⟩ :=
    ⟨trivial, by rintro ⟨⟩, .opened (exec_of_run Faults.allows_posix hopen), rfl⟩
  have hthrew : (careful .little "a" 0).step ⟨⟨some engine, fs₁⟩, .sound⟩
      (.threw (.set [107] [118] 0 5) (.runtimeError "fsync failed")) ⟨⟨some _, _⟩, .unsure⟩ :=
    ⟨trivial, by rintro ⟨⟩, .threw (exec_set_sync ⟨Order.any, Order.any⟩ trivial hattached.log
      hattached.fd hattached.file (by decide) hdue rfl), rfl⟩
  exact ⟨_, _, .cons hopened (.single hthrew)⟩

/-- A `set` whose `fsync` fails, and `recover`. -/
theorem errors_survived_recover : ∃ (s : Process) (data : Data) (events : List Event),
    events = [.opened, .threw (.set [107] [118] 0 5) (.runtimeError "fsync failed"),
      .returned .recover none] ∧
    (careful .little "a" 0).Run ⟨⟨none, fun _ => none⟩, .sound⟩ events s ∧
    (fallible 0).Run ∅ events data ∧ ∀ engine ∈ s.world.engine, engine.data = data := by
  have hnew : FileSystem.bytes (fun _ => none) "a" = [] := rfl
  obtain ⟨engine, fs, hrun⟩ := exists_unsure
  obtain ⟨data, -, hinhand⟩ := step_errors.run hrun (.ofRelated (.empty hnew rfl))
  obtain ⟨hat, hne⟩ := hinhand.unsure rfl engine rfl
  obtain ⟨engine', fs', hrecover⟩ := exec_recoverUnsure ⟨Order.any, Order.any⟩ hinhand.files hat hne
  have hreturned : (careful .little "a" 0).step ⟨⟨some engine, fs⟩, .unsure⟩
      (.returned .recover none) ⟨⟨some engine', fs'⟩, .sound⟩ :=
    ⟨.inl rfl, by rintro ⟨⟩, .returned hrecover, rfl⟩
  have hall := hrun.append (.single hreturned)
  obtain ⟨data', hstore, -, hdata⟩ := errors_survived hnew rfl hall
  exact ⟨_, data', _, rfl, hall, hstore, hdata rfl⟩

/-! ### Behind a log that could not be started anew -/

/-- The first entry of a chain is no header. -/
theorem firstEntry_refused (r : LogRecord) (prev : Sha256Digest) : Refused (r.encode prev 0) := by
  have hcrc : (putLE32 [] (CRC32.calculate (r.body prev 0))).length = hdrOffVersion := by simp; rfl
  -- the sequence number stands where a header has its version
  have hseq : ((r.encode prev 0).drop hdrOffVersion).take 4 = List.replicate 4 0 := by
    rw [LogRecord.encode, List.drop_left' hcrc, LogRecord.body, LogRecord.fixed, fixedFields_eq]
    rfl
  have hversion : getLE32 (((r.encode prev 0).take kHeaderSize).drop hdrOffVersion) = 0 := by
    rw [getLE32_congr (q := List.replicate 4 0)]
    · decide
    · rw [List.drop_take, List.take_take]
      exact hseq
  have hlen : 0 < (r.encode prev 0).length := by
    rw [LogRecord.length_encode]
    exact r.size_pos
  refine ⟨List.ne_nil_of_length_pos hlen, fun hvalid => ?_⟩
  rw [hvalid.2.2] at hversion
  exact absurd hversion (by decide)

/-- **Why a process whose log could not be started anew must end**: with an empty log `recover`
returns, but once a change has returned after it the store is never opened again. -/
theorem refused_behind_lost {F : Faults} {engine' engine'' : StorageEngine} {fs'' : FileSystem}
    {orders' : Orders} {op : Op} {μ : Mutation} {answer : Option Bool}
    (hat : engine.At p maxHistoryPerKey) (hempty : fs p = some [])
    (hrecover : Exec (Faults.none kHeaderSize).env (engine.recover host orders) fs (.ok (), engine')
      fs') (hop : op.mutation = some μ)
    (hchange : Exec F.env (engine'.call host orders' op) fs' (.ok answer, engine'') fs'') :
    Refused (fs''.bytes p) := by
  obtain ⟨⟨wal, hwal, hfd⟩, -⟩ := hat
  have hwalk : walkFile [] = ⟨[], .zero, 0, [], .clean⟩ := by
    rw [walkFile, List.drop_nil, walk_nil]
  have hput : fs.put p ((walkFile []).left []) = fs := by
    rw [hwalk, Walk.left, if_neg Stop.noConfusion, FileSystem.put_eq_self hempty]
  -- `recover` finds no entry, and no fault with the file
  have hw : wp (Faults.none kHeaderSize).env (engine.recover host orders)
      (fun result fs' => fs' = fs ∧ ∃ wal', result.2.wal = some wal' ∧ wal'.fd = some p ∧
        wal'.seq = 0) (fun _ => True) fs := by
    refine wp_engineRecover hwal hfd (Faults.none_readsOk _ p) (fun _ => Faults.none_mayFail) hempty
      trivial trivial ?_ ?_
    · intro image _ _
      refine ⟨hput, _, rfl, (adopt_fd _ _).trans hfd, ?_⟩
      rw [hwalk, WAL.adopt]
    · intro image _ s hstop
      rw [hwalk] at hstop
      cases hstop
  obtain ⟨rfl, wal', hwal', hfd', hseq⟩ := wp_exec hw hrecover
  have hchanged : wp F.env (engine'.call host orders' op)
      (fun result fs'' => result.1 = .ok answer → Refused (fs''.bytes p)) (fun _ => True) fs' := by
    refine wp_change hop hwal' hfd' hempty ?_ (fun _ _ _ => trivial) ?_ ?_ ?_
    · exact fun _ => ⟨trivial, by rintro e ⟨⟩⟩
    · intro _ _
      rw [FileSystem.bytes_put, List.nil_append, hseq]
      exact firstEntry_refused ..
    · rintro _ _ k _ _ e ⟨⟩
    · rintro _ _ e ⟨⟩
  exact wp_exec hchanged hchange rfl

end Errors

end LiteSpeedStore
