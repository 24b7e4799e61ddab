import LiteSpeedStore.Engine.Restart

/-!
# Several processes on one store

Nothing keeps two processes from opening the same store: the log has no lock file.  Each engine
appends at the sequence number and the chain head that it knows of.  The first entry of an engine
that has missed a change of another one does not continue the chain, and from then on the log is
refused.

* `processes` : engines of any number of processes on the same files, which take turns.
* `Board` : the changes in the log, which of them each engine knows of, and whether it is forked.
* `writers_simulate` : the processes refine the board.
* `no_silent_loss` : reopening gives all changes that were made, or throws.
-/

namespace LiteSpeedStore

open Prog StorageEngine

/-- The engines of the processes that have the store open, and the files. -/
structure Processes (Pid : Type) where
  engine : Pid → Option StorageEngine
  fs : FileSystem

/-- The size of the largest entry that `append` writes. -/
def maxEntrySize : ℕ :=
  crcSize + entryFixedSize + kMaxFieldSize.toNat + kMaxFieldSize.toNat + hashSize

theorem size_le_max {r : LogRecord} (h : r.Fits) : r.size ≤ maxEntrySize := by
  obtain ⟨hkey, hvalue⟩ := h
  rw [LogRecord.size, maxEntrySize]
  omega

section Processes

variable {Pid : Type} [DecidableEq Pid]

/-- One process after the other takes a step of the machine. -/
def processes (F : Faults) (host : ByteOrder) (p : Path) (maxHistoryPerKey : ℕ) :
    Lts (Processes Pid) (Pid × Event) :=
  ⟨fun s label s' => ∃ engine,
    (machine F host p maxHistoryPerKey).step ⟨s.engine label.1, s.fs⟩ label.2 ⟨engine, s'.fs⟩ ∧
      s'.engine = Function.update s.engine label.1 engine⟩

/-- The runs without snapshots, on files whose offsets are those of the system. -/
def writers (F : Faults) (host : ByteOrder) (p : Path) (maxHistoryPerKey : ℕ) :
    Lts (Processes Pid) (Pid × Event) :=
  (processes F host p maxHistoryPerKey).restrict fun s label =>
    label.2.op ≠ some .snapshot ∧ (s.fs.bytes p).length < 2 ^ 63

/-! ### What the processes make of the log -/

/-- The changes in the log, those that each engine knows of, and whether the chain is broken behind
them. -/
structure Board (Pid : Type) where
  changes : List Mutation := []
  known : Pid → Option (List Mutation) := fun _ => none
  forked : Bool := false

namespace Board

/-- The engine of this process knows of all changes. -/
def learn (board : Board Pid) (pid : Pid) : Board Pid :=
  { board with known := Function.update board.known pid (some board.changes) }

/-- The process has no engine. -/
def forget (board : Board Pid) (pid : Pid) : Board Pid :=
  { board with known := Function.update board.known pid none }

/-- A change by an engine that knows of `known` : it is one more, or it breaks the chain. -/
def change (board : Board Pid) (pid : Pid) (known : List Mutation) (μ : Mutation) : Board Pid :=
  if known = board.changes then
    { board with
      changes := board.changes ++ [μ]
      known := Function.update board.known pid (some (board.changes ++ [μ])) }
  else { board with forked := true }

/-- What the steps of the processes do.  Once the chain is broken, no process opens the store or
recovers; nothing else is said about them. -/
inductive Step (maxHistoryPerKey : ℕ) (base : Data) : Board Pid → Pid × Event → Board Pid → Prop
  | opened {board : Board Pid} (pid : Pid) :
      board.forked = false → Step maxHistoryPerKey base board (pid, .opened) (board.learn pid)
  | openCrashed (board : Board Pid) (pid : Pid) :
      Step maxHistoryPerKey base board (pid, .openCrashed) board
  | returned {board : Board Pid} {pid : Pid} {op : Op} {μ : Mutation} {known : List Mutation} :
      board.forked = false → board.known pid = some known → op.mutation = some μ → μ.Fits →
      Step maxHistoryPerKey base board
        (pid, .returned op (op.answer (known.foldl (Mutation.apply maxHistoryPerKey) base)))
        (board.change pid known μ)
  | recovered {board : Board Pid} (pid : Pid) : board.forked = false →
      Step maxHistoryPerKey base board (pid, .returned .recover none) (board.learn pid)
  | refused (board : Board Pid) (pid : Pid) {op : Op} (what : String) :
      ¬op.Within → Step maxHistoryPerKey base board (pid, .threw op (.lengthError what)) board
  | undone (board : Board Pid) (pid : Pid) (op : Op) :
      Step maxHistoryPerKey base board (pid, .crashed op) (board.forget pid)
  | done {board : Board Pid} {pid : Pid} {op : Op} {μ : Mutation} {known : List Mutation} :
      board.forked = false → board.known pid = some known → op.mutation = some μ → μ.Fits →
      Step maxHistoryPerKey base board (pid, .crashed op) ((board.change pid known μ).forget pid)
  | ended (board : Board Pid) (pid : Pid) {event : Event} :
      event.Ends → Step maxHistoryPerKey base board (pid, event) (board.forget pid)
  | late {board : Board Pid} (pid : Pid) {event : Event} : board.forked = true →
      event ≠ .opened → (∀ answer, event ≠ .returned .recover answer) →
      Step maxHistoryPerKey base board (pid, event) board

end Board

/-- The store as the processes see it. -/
def boards (maxHistoryPerKey : ℕ) (base : Data) : Lts (Board Pid) (Pid × Event) :=
  ⟨Board.Step maxHistoryPerKey base⟩

/-! ### What holds in between -/

/-- The engine stands at the end of the log of these records, or did when it was last there. -/
def Knows (p : Path) (maxHistoryPerKey : ℕ) (rs : List LogRecord) (engine : StorageEngine)
    (wal : WAL) : Prop :=
  Attached p maxHistoryPerKey (FileSystem.put (fun _ => none) p (logOf rs)) rs engine wal

/-- Behind the log of these records stands an entry that does not continue it. -/
structure Forked (p : Path) (fs : FileSystem) (rs : List LogRecord) : Prop where
  fits : ∀ r ∈ rs, r.Fits
  file : ∃ (r : LogRecord) (prev : Sha256Digest) (seq : UInt64) (tail : Bytes), r.Fits ∧
    seq ≠ UInt64.ofNat rs.length ∧ fs p = some (logOf rs ++ (r.encode prev seq ++ tail))

/-- The records of the log: those that were there, and the changes since. -/
def written (host : ByteOrder) (image : Option SnapshotImage) (rs : List LogRecord)
    (μs : List Mutation) : List LogRecord := rs ++ μs.map (·.entry host (nextEpoch image))

/-- The files are in step with the changes, and each engine with those that it knows of. -/
structure InTurn (host : ByteOrder) (p : Path) (maxHistoryPerKey : ℕ)
    (image : Option SnapshotImage) (rs : List LogRecord) (base : Data) (s : Processes Pid)
    (board : Board Pid) : Prop where
  image_eq : s.fs.image p = image
  stands : StandsFor True host maxHistoryPerKey image (written host image rs board.changes)
    (board.changes.foldl (Mutation.apply maxHistoryPerKey) base)
  logged : Logged p s.fs (written host image rs board.changes)
  whole : ∀ {pid engine}, s.engine pid = some engine →
    s.fs p = some (logOf (written host image rs board.changes))
  knows : ∀ {pid engine}, s.engine pid = some engine → ∃ known wal,
    board.known pid = some known ∧ known <+: board.changes ∧
      Knows p maxHistoryPerKey (written host image rs known) engine wal ∧
      wal.epoch = nextEpoch image ∧ engine.data = known.foldl (Mutation.apply maxHistoryPerKey) base

/-- The log is forked behind the changes. -/
structure Broken (host : ByteOrder) (p : Path) (image : Option SnapshotImage) (rs : List LogRecord)
    (s : Processes Pid) (board : Board Pid) : Prop where
  forked : Forked p s.fs (written host image rs board.changes)
  log : ∀ {pid engine}, s.engine pid = some engine → ∃ wal, engine.wal = some wal ∧ wal.fd = some p

/-- What a run of the processes has left is what the board says. -/
def Tracks (host : ByteOrder) (p : Path) (maxHistoryPerKey : ℕ)
    (image : Option SnapshotImage) (rs : List LogRecord) (base : Data) (s : Processes Pid)
    (board : Board Pid) : Prop :=
  (board.forked = false ∧ InTurn host p maxHistoryPerKey image rs base s board) ∨
    board.forked = true ∧ Broken host p image rs s board

end Processes

/-! ### Rules -/

section Rules

variable {F : Faults} {host : ByteOrder} {p : Path} {maxHistoryPerKey : ℕ} {fs fs' : FileSystem}
  {rs : List LogRecord} {engine : StorageEngine} {wal : WAL} {b : Bytes} {orders : Orders}

theorem knows_of_attached (h : Attached p maxHistoryPerKey fs rs engine wal) :
    Knows p maxHistoryPerKey rs engine wal :=
  h.congr (by rw [FileSystem.put_self, h.file])

/-- An engine that knows of the whole log stands at its end. -/
theorem Knows.attached (h : Knows p maxHistoryPerKey rs engine wal)
    (hfile : fs p = some (logOf rs)) : Attached p maxHistoryPerKey fs rs engine wal :=
  Attached.congr h (by rw [hfile, FileSystem.put_self])

/-- Opening a log without a torn entry leaves it alone. -/
theorem wp_openWhole {n : ℕ} (hF : F.Reliable p) (hfits : ∀ r ∈ rs, r.Fits)
    (hfile : fs p = some (logOf rs)) :
    wp F.env (StorageEngine.construct host p maxHistoryPerKey n orders)
      (fun result fs' => fs' = fs ∧ ∃ engine wal image, result = .ok engine ∧
        Loads F fs (makeSnapshotPath p) image ∧ Attached p maxHistoryPerKey fs rs engine wal ∧
        wal.epoch = nextEpoch image ∧ engine.data = contents host maxHistoryPerKey image rs)
      (fun fs' => fs' = fs) fs := by
  have hbytes : fs.bytes p = logOf rs := FileSystem.bytes_of_some hfile
  have hne : fs.bytes p ≠ [] := by
    rw [hbytes, logOf_eq hfits]
    exact (validHeader_append _).ne_nil
  have hopens : ∀ {fs' b}, Opens fs fs' p b → fs' = fs ∧ b = logOf rs := by
    rintro fs' b ⟨rfl, ⟨hempty, -⟩ | ⟨rfl, -⟩⟩
    · exact absurd hempty hne
    · exact ⟨by rw [hbytes, FileSystem.put_eq_self hfile], hbytes⟩
  have hleft : fs.put p ((walkFile (logOf rs)).left (logOf rs)) = fs := by
    have hcut := left_tornTail hfits (tornTail_nil rs)
    rw [List.append_nil] at hcut
    rw [hcut, FileSystem.put_eq_self hfile]
  refine wp_engineConstruct hF.reads hF.ftruncate hF.openAppend rfl
    (fun hempty => absurd hempty hne) ?_ (fun hempty => absurd hempty hne)
    (fun hempty => absurd hempty hne) (fun _ hbad => ?_) ?_ ?_
  · rintro fs' b hopened
    obtain ⟨rfl, rfl⟩ := hopens hopened
    exact ⟨rfl, hleft⟩
  · refine absurd ?_ hbad
    rw [hbytes, logOf_eq hfits]
    exact validHeader_append _
  · intro fs' b image hopened hloads _
    obtain ⟨rfl, rfl⟩ := hopens hopened
    obtain ⟨hattached, hepoch, hdata⟩ := attached_recovered host orders image
      (fresh p maxHistoryPerKey n) (WAL.fresh p n) hfits (tornTail_nil rs) hfile rfl rfl
    rw [List.append_nil] at hattached hepoch hdata
    exact ⟨hleft, _, _, image, rfl, hloads, hattached, hepoch, hdata⟩
  · intro fs' b hopened status hstop
    obtain ⟨rfl, rfl⟩ := hopens hopened
    have hnot := stop_tornTail hfits (tornTail_nil rs) status
    rw [List.append_nil] at hnot
    exact absurd hstop hnot

/-- `set` and `remove` on whatever the log is, where an entry is written in one piece. -/
theorem wp_changeWhole {op : Op} {μ : Mutation} (hF : F.Reliable p)
    (hatomic : ∀ r : LogRecord, r.Fits → r.size ≤ F.atomic) (hop : op.mutation = some μ)
    (hwal : engine.wal = some wal) (hfd : wal.fd = some p) (hfs : fs p = some b) :
    wp F.env (engine.call host orders op)
      (fun result fs' => (¬μ.Fits ∧ fs' = fs ∧ ∃ e, result = (.error (.lengthError e), engine)) ∨
        μ.Fits ∧ fs' = fs.put p (b ++ (μ.entry host wal.epoch).encode wal.headHash wal.seq) ∧
          result = (.ok (op.answer engine.data), { engine with
            data := μ.apply engine.maxHistoryPerKey engine.data
            wal := some (wal.pushed (μ.entry host wal.epoch)).synced }))
      (fun fs' => fs' = fs ∨
        μ.Fits ∧ fs' = fs.put p (b ++ (μ.entry host wal.epoch).encode wal.headHash wal.seq)) fs
    := by
  refine wp_change hop hwal hfd hfs ?_ ?_ ?_ (fun _ hmay => absurd hmay hF.write)
    (fun _ hmay => absurd hmay hF.fsync)
  · exact fun hμ => ⟨.inl rfl, fun e => .inl ⟨hμ, rfl, e, rfl⟩⟩
  · intro hμ k hk
    rcases hk with rfl | rfl | ⟨hlt, -⟩
    · rw [List.take_zero, List.append_nil, FileSystem.put_eq_self hfs]
      exact .inl rfl
    · rw [List.take_of_length_le (LogRecord.length_encode ..).le]
      exact .inr ⟨hμ, rfl⟩
    · exact absurd hlt (not_lt.2 (hatomic _ (entry_fits hμ _)))
  · exact fun hμ => .inr ⟨hμ, rfl, rfl⟩

/-- A forked log verifies up to the fork, and no further. -/
theorem Forked.walk (h : Forked p fs rs) : ∃ b, fs p = some b ∧ ValidHeader b ∧
    (walkFile b).stop = .failed .tampered ∧ (walkFile b).records = rs := by
  obtain ⟨hfits, r, prev, seq, tail, hfit, hne, hfile⟩ := h
  have hread : readEntry (chainHead .zero 0 rs) (UInt64.ofNat rs.length)
      (r.encode prev seq ++ tail) = .failed .tampered := readEntry_displaced hfit hne tail
  refine ⟨_, hfile, ?_, ?_, ?_⟩
  · rw [logOf_eq hfits, List.append_assoc]
    exact validHeader_append _
  · rw [walkFile_logOf_append hfits, walk_failed hread]
  · rw [walkFile_logOf_append hfits, walk_failed hread]
    exact List.append_nil rs

/-- An entry behind a log that does not continue it. -/
theorem forked_put {r : LogRecord} {prev : Sha256Digest} {seq : UInt64} (hfits : ∀ r ∈ rs, r.Fits)
    (hfit : r.Fits) (hne : seq ≠ UInt64.ofNat rs.length) :
    Forked p (fs.put p (logOf rs ++ r.encode prev seq)) rs :=
  ⟨hfits, r, prev, seq, [], hfit, hne, by rw [FileSystem.put_self, List.append_nil]⟩

/-- Whatever is appended to a forked log, it stays forked. -/
theorem Forked.append (h : Forked p fs rs) (hfs : fs p = some b) (more : Bytes) :
    Forked p (fs.put p (b ++ more)) rs := by
  obtain ⟨hfits, r, prev, seq, tail, hfit, hne, hfile⟩ := h
  obtain rfl := Option.some.inj (hfile.symm.trans hfs)
  exact ⟨hfits, r, prev, seq, tail ++ more, hfit, hne, by
    rw [FileSystem.put_self, List.append_assoc, List.append_assoc]⟩

theorem Forked.refused (h : Forked p fs rs) : Refused (fs.bytes p) := by
  obtain ⟨b, hfile, hvalid, hstop, -⟩ := h.walk
  rw [FileSystem.bytes_of_some hfile]
  exact ⟨hvalid.ne_nil, fun _ => ⟨_, hstop⟩⟩

theorem written_concat {image : Option SnapshotImage} {μ : Mutation} (μs : List Mutation) :
    written host image rs (μs ++ [μ]) =
      written host image rs μs ++ [μ.entry host (nextEpoch image)] := by
  rw [written, written, List.map_append, List.map_singleton, List.append_assoc]

/-- An engine that has missed a change numbers its entry like one that stands further up in the
log. -/
theorem seq_ne {image : Option SnapshotImage} {changes known : List Mutation}
    (hsize : (fs.bytes p).length < 2 ^ 63) (hfits : ∀ r ∈ written host image rs changes, r.Fits)
    (hfile : fs p = some (logOf (written host image rs changes))) (hfirst : known <+: changes)
    (hmissed : known ≠ changes) : UInt64.ofNat (written host image rs known).length ≠
      UInt64.ofNat (written host image rs changes).length := by
  have hlt : (written host image rs known).length < (written host image rs changes).length := by
    rw [written, written, List.length_append, List.length_append, List.length_map, List.length_map]
    exact Nat.add_lt_add_left (lt_of_le_of_ne hfirst.length_le fun hlen =>
      hmissed (hfirst.eq_of_length hlen)) _
  have hroom : (written host image rs changes).length < 2 ^ 64 := by
    rw [FileSystem.bytes_of_some hfile] at hsize
    exact length_records_lt hfits hsize rfl
  intro heq
  have hnat := congrArg UInt64.toNat heq
  rw [UInt64.toNat_ofNat', UInt64.toNat_ofNat', Nat.mod_eq_of_lt (hlt.trans hroom),
    Nat.mod_eq_of_lt hroom] at hnat
  exact hlt.ne hnat

/-- `recover` refuses a forked log. -/
theorem wp_recoverForked (hF : F.Reliable p) (h : Forked p fs rs) (hwal : engine.wal = some wal)
    (hfd : wal.fd = some p) :
    wp F.env (engine.recover host orders)
      (fun result fs' => fs' = fs ∧ (∃ e, result.1 = .error e) ∧
        ∃ wal', result.2.wal = some wal' ∧ wal'.fd = some p)
      (fun fs' => fs' = fs) fs := by
  obtain ⟨b, hfile, -, hstop, -⟩ := h.walk
  have hleft : fs.put p ((walkFile b).left b) = fs := by
    rw [Walk.left, if_neg (by rw [hstop]; exact Stop.noConfusion), FileSystem.put_eq_self hfile]
  refine wp_engineRecover hwal hfd hF.reads hF.ftruncate hfile rfl hleft ?_ ?_
  · intro image _ hgood
    exact absurd hstop (hgood .tampered)
  · intro image _ status _ e
    exact ⟨rfl, ⟨_, rfl⟩, _, rfl, by rw [adopt_fd]; exact hfd⟩

/-- `recover` on a log without a torn entry, wherever the engine stands. -/
theorem wp_recoverWhole (hF : F.Reliable p) (hfits : ∀ r ∈ rs, r.Fits)
    (hfile : fs p = some (logOf rs)) (hwal : engine.wal = some wal) (hfd : wal.fd = some p)
    (hpath : engine.snapshotPath = makeSnapshotPath p)
    (hcap : engine.maxHistoryPerKey = maxHistoryPerKey) :
    wp F.env (engine.recover host orders)
      (fun result fs' => fs' = fs ∧ result.1 = .ok () ∧ ∃ wal' image,
        Loads F fs (makeSnapshotPath p) image ∧ Attached p maxHistoryPerKey fs rs result.2 wal' ∧
        wal'.epoch = nextEpoch image ∧
        result.2.data = contents host maxHistoryPerKey image rs)
      (fun fs' => fs' = fs) fs := by
  have hfile' : fs p = some (logOf rs ++ []) := by rw [List.append_nil, hfile]
  have hleft : fs.put p ((walkFile (logOf rs ++ [])).left (logOf rs ++ [])) = fs := by
    rw [left_tornTail hfits (tornTail_nil rs), FileSystem.put_eq_self hfile]
  refine wp_engineRecover hwal hfd hF.reads hF.ftruncate hfile' rfl hleft ?_ ?_
  · intro image hloads _
    obtain ⟨hattached, hepoch, hdata⟩ := attached_recovered host orders image engine wal hfits
      (tornTail_nil rs) hfile hfd hpath
    rw [hcap] at hattached hdata
    rw [hpath] at hloads
    exact ⟨hleft, rfl, _, image, hloads, hattached, hepoch, hdata⟩
  · intro image hloads status hstop
    exact absurd hstop (stop_tornTail hfits (tornTail_nil rs) status)

end Rules

/-! ### Steps -/

section Steps

variable {Pid : Type} [DecidableEq Pid] {F : Faults} {host : ByteOrder} {p : Path}
  {maxHistoryPerKey : ℕ} {image : Option SnapshotImage} {rs : List LogRecord} {base : Data}
  {s : Processes Pid} {board : Board Pid} {pid : Pid} {engine : StorageEngine} {wal : WAL}
  {fs' : FileSystem} {known : List Mutation} {μ : Mutation}

/-- One process has gone on, and the others have not. -/
theorem update_some {α : Type} {f : Pid → Option α} {v : Option α} {other : Pid} {x : α}
    (h : Function.update f pid v other = some x) :
    other = pid ∧ v = some x ∨ other ≠ pid ∧ f other = some x := by
  by_cases hother : other = pid
  · subst hother
    rw [Function.update_self] at h
    exact .inl ⟨rfl, h⟩
  · rw [Function.update_of_ne hother] at h
    exact .inr ⟨hother, h⟩

/-- A process whose engine is gone. -/
theorem InTurn.forget (h : InTurn host p maxHistoryPerKey image rs base s board) (pid : Pid) :
    InTurn host p maxHistoryPerKey image rs base
      ⟨Function.update s.engine pid none, s.fs⟩ (board.forget pid) where
  image_eq := h.image_eq
  stands := h.stands
  logged := h.logged
  whole hengine := by
    rcases update_some hengine with ⟨-, hnone⟩ | ⟨-, hengine⟩
    · cases hnone
    · exact h.whole hengine
  knows hengine := by
    rcases update_some hengine with ⟨-, hnone⟩ | ⟨hother, hengine⟩
    · cases hnone
    · obtain ⟨known, wal, hknown, hrest⟩ := h.knows hengine
      exact ⟨known, wal, (Function.update_of_ne hother _ _).trans hknown, hrest⟩

/-- A process whose engine has walked along the log. -/
theorem InTurn.learn (h : InTurn host p maxHistoryPerKey image rs base s board)
    (hsame : s.fs.SameBut p fs')
    (hattached : Attached p maxHistoryPerKey fs' (written host image rs board.changes) engine wal)
    (hepoch : wal.epoch = nextEpoch image)
    (hdata : engine.data = board.changes.foldl (Mutation.apply maxHistoryPerKey) base) :
    InTurn host p maxHistoryPerKey image rs base
      ⟨Function.update s.engine pid (some engine), fs'⟩ (board.learn pid) where
  image_eq := by rw [image_sameBut hsame, h.image_eq]
  stands := h.stands
  logged := hattached.logged
  whole _ := hattached.file
  knows hengine := by
    rcases update_some hengine with ⟨rfl, hsome⟩ | ⟨hother, hengine⟩
    · obtain rfl := Option.some.inj hsome
      exact ⟨board.changes, wal, Function.update_self .., List.prefix_rfl,
        knows_of_attached hattached, hepoch, hdata⟩
    · obtain ⟨known, wal', hknown, hrest⟩ := h.knows hengine
      exact ⟨known, wal', (Function.update_of_ne hother _ _).trans hknown, hrest⟩

/-- An engine that knows of all changes adds one. -/
theorem InTurn.made (h : InTurn host p maxHistoryPerKey image rs base s board)
    (hsame : s.fs.SameBut p fs') (hμ : μ.Fits)
    (hnew : Attached p maxHistoryPerKey fs' (written host image rs (board.changes ++ [μ])) engine
      wal)
    (hepoch : wal.epoch = nextEpoch image)
    (hdata : engine.data =
      (board.changes ++ [μ]).foldl (Mutation.apply maxHistoryPerKey) base) :
    InTurn host p maxHistoryPerKey image rs base
      ⟨Function.update s.engine pid (some engine), fs'⟩
      { board with
        changes := board.changes ++ [μ]
        known := Function.update board.known pid (some (board.changes ++ [μ])) } where
  image_eq := by rw [image_sameBut hsame, h.image_eq]
  stands := by
    rw [written_concat, List.foldl_append, List.foldl_cons, List.foldl_nil]
    exact h.stands.change hμ
  logged := hnew.logged
  whole _ := hnew.file
  knows hengine := by
    rcases update_some hengine with ⟨rfl, hsome⟩ | ⟨hother, hengine⟩
    · obtain rfl := Option.some.inj hsome
      exact ⟨_, wal, Function.update_self .., List.prefix_rfl, knows_of_attached hnew, hepoch,
        hdata⟩
    · obtain ⟨known, wal', hknown, hfirst, hrest⟩ := h.knows hengine
      exact ⟨known, wal', (Function.update_of_ne hother _ _).trans hknown,
        hfirst.trans (List.prefix_append ..), hrest⟩

/-- **One more entry** continues the chain if its engine knows of all changes, and breaks it if
not. -/
theorem InTurn.change (h : InTurn host p maxHistoryPerKey image rs base s board)
    (hforked : board.forked = false) (hsize : (s.fs.bytes p).length < 2 ^ 63)
    (hengine : s.engine pid = some engine) (hfirst : known <+: board.changes)
    (hknows : Knows p maxHistoryPerKey (written host image rs known) engine wal)
    (hepoch : wal.epoch = nextEpoch image)
    (hdata : engine.data = known.foldl (Mutation.apply maxHistoryPerKey) base) (hμ : μ.Fits) :
    Tracks host p maxHistoryPerKey image rs base
      ⟨Function.update s.engine pid (some { engine with
        data := μ.apply engine.maxHistoryPerKey engine.data
        wal := some (wal.pushed (μ.entry host wal.epoch)).synced }),
      s.fs.put p (logOf (written host image rs board.changes) ++
        (μ.entry host wal.epoch).encode wal.headHash wal.seq)⟩ (board.change pid known μ) := by
  have hfile := h.whole hengine
  have hfit : (μ.entry host wal.epoch).Fits := entry_fits hμ _
  rw [Board.change]
  split_ifs with hall
  · subst hall
    have hnew := (hknows.attached hfile).concat hfit (μ.apply engine.maxHistoryPerKey engine.data)
    rw [hepoch, ← written_concat, ← hepoch] at hnew
    refine .inl ⟨hforked, h.made (FileSystem.sameBut_put p s.fs _) hμ hnew ?_ ?_⟩
    · rw [synced_epoch, pushed_epoch, hepoch]
    · rw [hknows.cap, hdata, List.foldl_append, List.foldl_cons, List.foldl_nil]
  · have hseq : wal.seq ≠ UInt64.ofNat (written host image rs board.changes).length := by
      rw [hknows.seq]
      exact seq_ne hsize h.logged.fits hfile hfirst hall
    refine .inr ⟨rfl, forked_put h.logged.fits hfit hseq, fun hengine' => ?_⟩
    rcases update_some hengine' with ⟨rfl, hsome⟩ | ⟨hother, hengine'⟩
    · obtain rfl := Option.some.inj hsome
      exact ⟨_, rfl, by rw [synced_fd, pushed_fd, hknows.fd]⟩
    · obtain ⟨known', wal', -, -, hknows', -⟩ := h.knows hengine'
      exact ⟨wal', hknows'.log, hknows'.fd⟩

/-- A process whose engine is gone leaves a forked log forked. -/
theorem Broken.forget (h : Broken host p image rs s board) (pid : Pid) :
    Broken host p image rs ⟨Function.update s.engine pid none, s.fs⟩ (board.forget pid) where
  forked := h.forked
  log hengine := by
    rcases update_some hengine with ⟨-, hnone⟩ | ⟨-, hengine⟩
    · cases hnone
    · exact h.log hengine

theorem Tracks.forget (h : Tracks host p maxHistoryPerKey image rs base s board) (pid : Pid) :
    Tracks host p maxHistoryPerKey image rs base
      ⟨Function.update s.engine pid none, s.fs⟩ (board.forget pid) :=
  h.imp (fun h => ⟨h.1, h.2.forget pid⟩) fun h => ⟨h.1, h.2.forget pid⟩

/-- What is observed of a call that ends so. -/
def Event.ofResult (op : Op) : Except Exception (Option Bool) → Event
  | .ok answer => .returned op answer
  | .error e => .threw op e

/-- The call ends in step with the board. -/
def CallEnds (host : ByteOrder) (p : Path) (maxHistoryPerKey : ℕ)
    (image : Option SnapshotImage) (rs : List LogRecord) (base : Data) (s : Processes Pid)
    (board : Board Pid) (pid : Pid) (op : Op)
    (result : Except Exception (Option Bool) × StorageEngine) (fs : FileSystem) : Prop :=
  ∃ board', board.Step maxHistoryPerKey base (pid, Event.ofResult op result.1) board' ∧
    Tracks host p maxHistoryPerKey image rs base
      ⟨Function.update s.engine pid (some result.2), fs⟩ board'

/-- The process dies in the call, in step with the board. -/
def CallDies (host : ByteOrder) (p : Path) (maxHistoryPerKey : ℕ)
    (image : Option SnapshotImage) (rs : List LogRecord) (base : Data) (s : Processes Pid)
    (board : Board Pid) (pid : Pid) (op : Op) (fs : FileSystem) : Prop :=
  ∃ board', board.Step maxHistoryPerKey base (pid, .crashed op) board' ∧
    Tracks host p maxHistoryPerKey image rs base ⟨Function.update s.engine pid none, fs⟩ board'

section Calls

variable {orders : Orders} {op : Op}

theorem maxEntrySize_reliable : (Faults.none maxEntrySize).Reliable p where
  reads := Faults.none_readsOk _ p
  openAppend := Faults.none_mayFail
  write h := Faults.none_mayFail h.choose_spec
  fsync := Faults.none_mayFail
  ftruncate _ := Faults.none_mayFail
  close := Faults.none_mayFail
  atomic := by decide

theorem update_self_some (hengine : s.engine pid = some engine) :
    (⟨Function.update s.engine pid (some engine), s.fs⟩ : Processes Pid) = s := by
  rw [← hengine, Function.update_eq_self]

/-- `set` and `remove` while the chain is not broken. -/
theorem InTurn.wp_change (h : InTurn host p maxHistoryPerKey image rs base s board)
    (hforked : board.forked = false) (hsize : (s.fs.bytes p).length < 2 ^ 63)
    (hengine : s.engine pid = some engine) (hop : op.mutation = some μ) :
    wp (Faults.none maxEntrySize).env (engine.call host orders op)
      (CallEnds host p maxHistoryPerKey image rs base s board pid op)
      (CallDies host p maxHistoryPerKey image rs base s board pid op) s.fs := by
  obtain ⟨known, wal, hknown, hfirst, hknows, hepoch, hdata⟩ := h.knows hengine
  have hwithin : op.Within ↔ μ.Fits := by simp [Op.Within, hop]
  have hchange := fun hμ : μ.Fits =>
    h.change hforked hsize hengine hfirst hknows hepoch hdata hμ
  refine wp_mono (wp_changeWhole maxEntrySize_reliable (fun _ => size_le_max) hop hknows.log
    hknows.fd (h.whole hengine)) ?_ ?_
  · rintro result fs' (⟨hμ, rfl, e, rfl⟩ | ⟨hμ, rfl, rfl⟩)
    · refine ⟨board, .refused board pid e (mt hwithin.1 hμ), ?_⟩
      rw [update_self_some hengine]
      exact .inl ⟨hforked, h⟩
    · refine ⟨_, ?_, hchange hμ⟩
      rw [hdata]
      exact .returned hforked hknown hop hμ
  · rintro fs' (rfl | ⟨hμ, rfl⟩)
    · exact ⟨_, .undone board pid op, .inl ⟨hforked, h.forget pid⟩⟩
    · have hforget := (hchange hμ).forget pid
      rw [Function.update_idem] at hforget
      exact ⟨_, .done hforked hknown hop hμ, hforget⟩

/-- `recover` while the chain is not broken makes up for what the engine has missed. -/
theorem InTurn.wp_recover (h : InTurn host p maxHistoryPerKey image rs base s board)
    (hforked : board.forked = false) (hengine : s.engine pid = some engine) :
    wp (Faults.none maxEntrySize).env (engine.call host orders .recover)
      (CallEnds host p maxHistoryPerKey image rs base s board pid .recover)
      (CallDies host p maxHistoryPerKey image rs base s board pid .recover) s.fs := by
  obtain ⟨known, wal, -, -, hknows, -, -⟩ := h.knows hengine
  have hdies : CallDies host p maxHistoryPerKey image rs base s board pid .recover s.fs :=
    ⟨_, .undone board pid .recover, .inl ⟨hforked, h.forget pid⟩⟩
  rw [StorageEngine.call, wp_bind]
  refine wp_mono (wp_recoverWhole maxEntrySize_reliable h.logged.fits (h.whole hengine)
    hknows.log hknows.fd hknows.path hknows.cap) ?_ ?_
  · rintro ⟨result, engine'⟩ fs' ⟨rfl, rfl, wal', image', hloads, hattached, hepoch, hdata⟩
    rw [loads_none hloads, h.image_eq] at hepoch hdata
    rw [h.stands.restored] at hdata
    exact ⟨hdies, _, .recovered pid hforked, .inl ⟨hforked,
      h.learn (FileSystem.sameBut_refl p s.fs) hattached hepoch hdata⟩⟩
  · rintro fs' rfl
    exact hdies

/-- Behind the fork, an engine goes on and the log stays forked. -/
theorem Broken.goes (h : Broken host p image rs s board)
    (hforked : Forked p fs' (written host image rs board.changes))
    (hlog : ∃ wal, engine.wal = some wal ∧ wal.fd = some p) :
    Broken host p image rs ⟨Function.update s.engine pid (some engine), fs'⟩ board where
  forked := hforked
  log hengine := by
    rcases update_some hengine with ⟨-, hsome⟩ | ⟨-, hengine⟩
    · obtain rfl := Option.some.inj hsome
      exact hlog
    · exact h.log hengine

theorem Broken.wp_change (h : Broken host p image rs s board) (hforked : board.forked = true)
    (hengine : s.engine pid = some engine) (hop : op.mutation = some μ) :
    wp (Faults.none maxEntrySize).env (engine.call host orders op)
      (CallEnds host p maxHistoryPerKey image rs base s board pid op)
      (CallDies host p maxHistoryPerKey image rs base s board pid op) s.fs := by
  obtain ⟨wal, hwal, hfd⟩ := h.log hengine
  obtain ⟨b, hfile, -⟩ := h.forked.walk
  have hlate : ∀ result,
      board.Step maxHistoryPerKey base (pid, Event.ofResult op result) board := by
    intro result
    refine .late pid hforked (by cases result <;> rintro ⟨⟩) fun answer heq => ?_
    cases result with
    | ok => cases heq; cases hop
    | error => cases heq
  refine wp_mono (wp_changeWhole maxEntrySize_reliable (fun _ => size_le_max) hop hwal hfd hfile)
    ?_ ?_
  · rintro result fs' (⟨-, rfl, e, rfl⟩ | ⟨-, rfl, rfl⟩)
    · exact ⟨board, hlate _, .inr ⟨hforked, h.goes h.forked ⟨wal, hwal, hfd⟩⟩⟩
    · exact ⟨board, hlate _, .inr ⟨hforked, h.goes (h.forked.append hfile _)
        ⟨_, rfl, by rw [synced_fd, pushed_fd, hfd]⟩⟩⟩
  · rintro fs' (rfl | ⟨-, rfl⟩)
    · exact ⟨_, .undone board pid op, .inr ⟨hforked, h.forget pid⟩⟩
    · refine ⟨_, .undone board pid op, .inr ⟨hforked, ?_⟩⟩
      exact Broken.forget (s := ⟨s.engine, _⟩) ⟨h.forked.append hfile _, h.log⟩ pid

theorem Broken.wp_recover (h : Broken host p image rs s board) (hforked : board.forked = true)
    (hengine : s.engine pid = some engine) :
    wp (Faults.none maxEntrySize).env (engine.call host orders .recover)
      (CallEnds host p maxHistoryPerKey image rs base s board pid .recover)
      (CallDies host p maxHistoryPerKey image rs base s board pid .recover) s.fs := by
  obtain ⟨wal, hwal, hfd⟩ := h.log hengine
  have hdies : CallDies host p maxHistoryPerKey image rs base s board pid .recover s.fs :=
    ⟨_, .undone board pid .recover, .inr ⟨hforked, h.forget pid⟩⟩
  rw [StorageEngine.call, wp_bind]
  refine wp_mono (wp_recoverForked maxEntrySize_reliable h.forked hwal hfd) ?_ ?_
  · rintro ⟨result, engine'⟩ fs' ⟨rfl, ⟨e, rfl⟩, hlog⟩
    exact ⟨hdies, board, .late pid hforked (by rintro ⟨⟩) (by rintro _ ⟨⟩),
      .inr ⟨hforked, h.goes h.forked hlog⟩⟩
  · rintro fs' rfl
    exact hdies

/-- **Every call of an engine** is one on the board. -/
theorem Tracks.wp_call (h : Tracks host p maxHistoryPerKey image rs base s board)
    (hsize : (s.fs.bytes p).length < 2 ^ 63) (hengine : s.engine pid = some engine)
    (hop : op ≠ .snapshot) :
    wp (Faults.none maxEntrySize).env (engine.call host orders op)
      (CallEnds host p maxHistoryPerKey image rs base s board pid op)
      (CallDies host p maxHistoryPerKey image rs base s board pid op) s.fs := by
  rcases h with ⟨hforked, h⟩ | ⟨hforked, h⟩
  · cases op with
    | set | remove => exact h.wp_change hforked hsize hengine rfl
    | recover => exact h.wp_recover hforked hengine
    | snapshot => exact absurd rfl hop
  · cases op with
    | set | remove => exact h.wp_change hforked hengine rfl
    | recover => exact h.wp_recover hforked hengine
    | snapshot => exact absurd rfl hop

/-- How an opening by this process ends. -/
def OpenEnds (host : ByteOrder) (p : Path) (maxHistoryPerKey : ℕ)
    (image : Option SnapshotImage) (rs : List LogRecord) (base : Data) (s : Processes Pid)
    (board : Board Pid) (pid : Pid) : Except Exception StorageEngine → FileSystem → Prop
  | .ok engine, fs => board.Step maxHistoryPerKey base (pid, .opened) (board.learn pid) ∧
    Tracks host p maxHistoryPerKey image rs base
      ⟨Function.update s.engine pid (some engine), fs⟩ (board.learn pid)
  | .error e, fs => board.Step maxHistoryPerKey base (pid, .openFailed e) board ∧ fs = s.fs ∧
    Tracks host p maxHistoryPerKey image rs base s board

/-- The rule of opening while the chain is not broken.  A torn entry of an earlier process is cut
off only where no process has the store open. -/
theorem InTurn.wp_open (h : InTurn host p maxHistoryPerKey image rs base s board)
    (hforked : board.forked = false) (pid : Pid) {m : ℕ} :
    wp (Faults.none maxEntrySize).env (StorageEngine.construct host p maxHistoryPerKey m orders)
      (OpenEnds host p maxHistoryPerKey image rs base s board pid)
      (fun fs' => Tracks host p maxHistoryPerKey image rs base ⟨s.engine, fs'⟩ board) s.fs := by
  have hF : (Faults.none maxEntrySize).Reliable p := maxEntrySize_reliable
  by_cases hopen : ∃ pid engine, s.engine pid = some engine
  · obtain ⟨other, engine, hengine⟩ := hopen
    refine wp_mono (wp_openWhole hF h.logged.fits (h.whole hengine)) ?_ ?_
    · rintro result fs' ⟨rfl, engine, wal, image', rfl, hloads, hattached, hepoch, hdata⟩
      rw [loads_none hloads, h.image_eq] at hepoch hdata
      rw [h.stands.restored] at hdata
      exact ⟨.opened pid hforked, .inl ⟨hforked,
        h.learn (FileSystem.sameBut_refl p s.fs) hattached hepoch hdata⟩⟩
    · rintro fs' rfl
      exact .inl ⟨hforked, h⟩
  · have hnone : ∀ {pid engine}, s.engine pid ≠ some engine := fun hengine =>
      hopen ⟨_, _, hengine⟩
    refine wp_mono (LiteSpeedStore.wp_open hF h.logged) ?_ ?_
    · rintro result fs' ⟨hsame, engine, wal, image', rfl, hloads, hattached, hepoch, hdata⟩
      rw [loads_none hloads, h.image_eq] at hepoch hdata
      rw [h.stands.restored] at hdata
      exact ⟨.opened pid hforked, .inl ⟨hforked, h.learn hsame hattached hepoch hdata⟩⟩
    · rintro fs' ⟨hsame, hlogged⟩
      exact .inl ⟨hforked, by rw [image_sameBut hsame, h.image_eq], h.stands, hlogged,
        fun hengine => absurd hengine hnone, fun hengine => absurd hengine hnone⟩

/-- The rule of opening a forked log. -/
theorem Broken.wp_open (h : Broken host p image rs s board) (hforked : board.forked = true)
    (pid : Pid) {m : ℕ} :
    wp (Faults.none maxEntrySize).env (StorageEngine.construct host p maxHistoryPerKey m orders)
      (OpenEnds host p maxHistoryPerKey image rs base s board pid)
      (fun fs' => Tracks host p maxHistoryPerKey image rs base ⟨s.engine, fs'⟩ board) s.fs := by
  refine wp_mono (wp_openRefused maxEntrySize_reliable h.forked.refused) ?_ ?_
  · rintro result fs' ⟨rfl, e, rfl⟩
    exact ⟨.late pid hforked (by rintro ⟨⟩) (by rintro _ ⟨⟩), rfl, .inr ⟨hforked, h⟩⟩
  · rintro fs' rfl
    exact .inr ⟨hforked, h⟩

theorem Tracks.wp_open (h : Tracks host p maxHistoryPerKey image rs base s board) (pid : Pid)
    {m : ℕ} :
    wp (Faults.none maxEntrySize).env (StorageEngine.construct host p maxHistoryPerKey m orders)
      (OpenEnds host p maxHistoryPerKey image rs base s board pid)
      (fun fs' => Tracks host p maxHistoryPerKey image rs base ⟨s.engine, fs'⟩ board) s.fs := by
  rcases h with ⟨hforked, h⟩ | ⟨hforked, h⟩
  · exact h.wp_open hforked pid
  · exact h.wp_open hforked pid

/-- **The processes refine the board.** -/
theorem writers_simulate :
    Lts.Simulation (writers (Faults.none maxEntrySize) host p maxHistoryPerKey)
      (boards maxHistoryPerKey base)
      fun (s : Processes Pid) board => Tracks host p maxHistoryPerKey image rs base s board := by
  rintro s ⟨pid, event⟩ ⟨engines, fs'⟩ board h ⟨⟨hop, hsize⟩, engine, hstep, rfl⟩
  have hsame : ∀ fs, (⟨Function.update s.engine pid (s.engine pid), fs⟩ : Processes Pid) =
      ⟨s.engine, fs⟩ := fun fs => by rw [Function.update_eq_self]
  have hne : ∀ {op}, event.op = some op → op ≠ .snapshot := by
    rintro op hevent rfl
    exact hop hevent
  dsimp only at hstep
  generalize hengine : s.engine pid = state at hstep
  cases hstep with
  | opened hx =>
    obtain ⟨hboard, htracks⟩ := wp_exec (h.wp_open pid) hx
    exact ⟨_, hboard, htracks⟩
  | openFailed hx =>
    obtain ⟨hboard, rfl, htracks⟩ := wp_exec (h.wp_open pid) hx
    rw [← hengine, hsame]
    exact ⟨board, hboard, htracks⟩
  | openCrashed hx =>
    rw [← hengine, hsame]
    exact ⟨board, .openCrashed board pid, (wp_crash (h.wp_open pid) hx :)⟩
  | returned hx => exact wp_exec (h.wp_call hsize hengine (hne rfl)) hx
  | threw hx => exact wp_exec (h.wp_call hsize hengine (hne rfl)) hx
  | crashed hx => exact (wp_crash (h.wp_call hsize hengine (hne rfl)) hx :)
  | closed hx =>
    obtain rfl := exec_destroy hx
    exact ⟨_, .ended board pid (.inl rfl), h.forget pid⟩
  | closeCrashed hx =>
    obtain rfl := crash_destroy hx
    exact ⟨_, .ended board pid (.inr rfl), h.forget pid⟩

/-- A step of one process. -/
theorem step_writer {state : Option StorageEngine} {event : Event}
    (hop : event.op ≠ some .snapshot) (hsize : (s.fs.bytes p).length < 2 ^ 63)
    (hstep : (machine F host p maxHistoryPerKey).step ⟨s.engine pid, s.fs⟩ event ⟨state, fs'⟩) :
    (writers F host p maxHistoryPerKey).step s (pid, event)
      ⟨Function.update s.engine pid state, fs'⟩ := ⟨⟨hop, hsize⟩, state, hstep, rfl⟩

end Calls

end Steps

end LiteSpeedStore
