import LiteSpeedStore.Engine.Disk
import LiteSpeedStore.Engine.Machine
import LiteSpeedStore.Wal.Damage

/-!
# Writes that fail

`append` advances its chain state only when the whole entry is written, but it leaves the bytes of a
failed write in the file.  The next `append` writes its entry behind them.

* `InStep` : the file is a log, with a torn entry behind it, and the object is at the log's end.
* `orderly_step` : every step keeps this, if `set` and `remove` start on whole entries.
* `verify_after_failures` : such runs never make `verify` report tampering or a malformed file.
* `verify_malformed` : a run that goes on behind a torn entry does.
-/

namespace LiteSpeedStore

open Prog StorageEngine WAL

/-- Any write may stop anywhere and fail; nothing else fails. -/
def writesFail : Faults := ⟨fun c => ∃ p data, c = .write p data, 0⟩

/-- The file is a part of a header, or a log with at most a torn entry behind it and the object is at
the end of the log. -/
inductive InStep (wal : WAL) : Bytes → Prop
  | header {k : ℕ} (hk : k < kHeaderSize) : InStep wal (walHeader.take k)
  | log {rs : List LogRecord} {tail : Bytes} (hfits : ∀ r ∈ rs, r.Fits) (htorn : TornTail rs tail)
      (hseq : wal.seq = UInt64.ofNat rs.length) (hhead : wal.headHash = chainHead .zero 0 rs) :
      InStep wal (logOf rs ++ tail)

/-- The file is a header and whole entries. -/
def Whole (b : Bytes) : Prop := ∃ rs : List LogRecord, (∀ r ∈ rs, r.Fits) ∧ b = logOf rs

/-- The log file is as some object could have left it. -/
def Orderly (p : Path) (fs : FileSystem) : Prop := ∃ wal, InStep wal (fs.bytes p)

/-- The engine has the log open and is in step with it. -/
def Follows (p : Path) (engine : StorageEngine) (fs : FileSystem) : Prop :=
  ∃ wal b, engine.wal = some wal ∧ wal.fd = some p ∧ engine.snapshotPath = makeSnapshotPath p ∧
    fs p = some b ∧ InStep wal b

section InStep

variable {wal : WAL} {b : Bytes}

theorem walkFile_header_take {k : ℕ} (hk : k < kHeaderSize) :
    walkFile (walHeader.take k) = ⟨[], .zero, 0, [], .clean⟩ := by
  have hlen : (walHeader.take k).length ≤ kHeaderSize := by
    rw [List.length_take]
    exact (Nat.min_le_left ..).trans hk.le
  rw [walkFile, List.drop_of_length_le hlen, walk_nil]

theorem InStep.stop (h : InStep wal b) (s : RecoveryStatus) : (walkFile b).stop ≠ .failed s := by
  cases h with
  | header hk =>
    rw [walkFile_header_take hk]
    exact Stop.noConfusion
  | log hfits htorn => exact stop_tornTail hfits htorn s

/-- An object that has walked along the file is in step with what it left of it. -/
theorem InStep.adopt (h : InStep wal b) (wal' : WAL) :
    InStep (wal'.adopt (walkFile b)) ((walkFile b).left b) := by
  cases h with
  | header hk =>
    rw [Walk.left, walkFile_header_take hk, if_neg Stop.noConfusion]
    exact .header hk
  | @log rs tail hfits htorn =>
    have h' : InStep (wal'.adopt (walkFile (logOf rs ++ tail))) (logOf rs ++ []) := by
      rw [adopt_tornTail hfits htorn]
      exact .log hfits (tornTail_nil rs) rfl rfl
    rw [left_tornTail hfits htorn]
    rwa [List.append_nil] at h'

theorem InStep.ofCut {k : ℕ} (wal : WAL) (hk : k ≤ kHeaderSize) (hseq : wal.seq = 0)
    (hhead : wal.headHash = .zero) : InStep wal (walHeader.take k) := by
  rcases hk.lt_or_eq with hlt | rfl
  · exact .header hlt
  · have h : InStep wal (logOf [] ++ []) := .log (by simp) (tornTail_nil []) hseq hhead
    rwa [List.append_nil, logOf_nil] at h

/-- A file of whole entries has nothing torn behind it. -/
theorem InStep.whole (h : InStep wal b) (hwhole : Whole b) : ∃ rs : List LogRecord,
    (∀ r ∈ rs, r.Fits) ∧ b = logOf rs ∧ wal.seq = UInt64.ofNat rs.length ∧
      wal.headHash = chainHead .zero 0 rs := by
  obtain ⟨rs', hfits', hb⟩ := hwhole
  cases h with
  | @header k hk =>
    have hlen := congrArg List.length hb
    rw [length_logOf hfits', List.length_take] at hlen
    omega
  | @log rs tail hfits htorn hseq hhead =>
    -- the walk finds the same records in both
    have hwalk := walkFile_tornTail hfits htorn
    rw [hb, walkFile_chain hfits' rfl, Walk.mk.injEq] at hwalk
    obtain ⟨rfl, -, -, rfl, -⟩ := hwalk
    exact ⟨rs', hfits, List.append_nil _, hseq, hhead⟩

end InStep

/-! ### Runs -/

section Runs

variable {host : ByteOrder} {p : Path} {maxHistoryPerKey : ℕ} {fs fs' : FileSystem}
  {engine : StorageEngine}

theorem writesFail_readsOk : writesFail.ReadsOk p where
  read _ _ h := by obtain ⟨_, _, h⟩ := h; cases h
  fstat h := by obtain ⟨_, _, h⟩ := h; cases h
  lseek _ _ h := by obtain ⟨_, _, h⟩ := h; cases h

theorem writesFail_write (data : Bytes) : writesFail.mayFail (.write p data) := ⟨p, data, rfl⟩

theorem writesFail_fsync : ¬writesFail.mayFail (.fsync p) := by
  rintro ⟨_, _, h⟩
  cases h

theorem writesFail_ftruncate (n : ℤ) : ¬writesFail.mayFail (.ftruncate p n) := by
  rintro ⟨_, _, h⟩
  cases h

theorem Follows.orderly (h : Follows p engine fs) : Orderly p fs := by
  obtain ⟨wal, b, -, -, -, hfile, hstep⟩ := h
  refine ⟨wal, ?_⟩
  rwa [FileSystem.bytes_of_some hfile]

theorem Follows.congr (h : Follows p engine fs) (hfs : fs' p = fs p) : Follows p engine fs' := by
  obtain ⟨wal, b, hwal, hfd, hpath, hfile, hstep⟩ := h
  exact ⟨wal, b, hwal, hfd, hpath, by rw [hfs, hfile], hstep⟩

theorem orderly_put {wal : WAL} {b : Bytes} (h : InStep wal b) : Orderly p (fs.put p b) := by
  refine ⟨wal, ?_⟩
  rwa [FileSystem.bytes_put]

/-- What the constructor of the log finds, or makes, is in step with some object. -/
theorem Orderly.opens {b : Bytes} (h : Orderly p fs) (hopens : Opens fs fs' p b) :
    ∃ wal, InStep wal b := by
  rcases hopens.2 with ⟨-, rfl⟩ | ⟨rfl, -⟩
  · exact ⟨.fresh p 1, .ofCut _ le_rfl rfl rfl⟩
  · exact h

theorem wp_openOrderly {n : ℕ} {orders : Orders} (h : Orderly p fs) :
    wp writesFail.env (StorageEngine.construct host p maxHistoryPerKey n orders)
      (fun result fs' => Orderly p fs' ∧ ∀ engine, result = .ok engine → Follows p engine fs')
      (Orderly p) fs := by
  have hheader : ∀ k, writesFail.Cut kHeaderSize k → InStep (.fresh p 1) (walHeader.take k) :=
    fun k hk => .ofCut _ hk.le rfl rfl
  refine wp_engineConstruct writesFail_readsOk writesFail_ftruncate ?_ h ?_ ?_ ?_ ?_ ?_ ?_ ?_
  · rintro ⟨_, _, h⟩
    cases h
  · exact fun _ k hk => orderly_put (hheader k hk)
  · intro fs' b hopens
    obtain ⟨wal, hstep⟩ := h.opens hopens
    rw [hopens.1, FileSystem.put_put]
    exact ⟨orderly_put hstep, orderly_put (hstep.adopt wal)⟩
  · intro _ _ k hk _ e
    exact ⟨orderly_put (hheader k hk), fun _ h => nomatch h⟩
  · exact fun _ hmay => absurd hmay writesFail_fsync
  · exact fun _ _ e => ⟨h, fun _ h => nomatch h⟩
  · intro fs' b image hopens _ _
    obtain ⟨wal, hstep⟩ := h.opens hopens
    have hstep' := hstep.adopt ((WAL.fresh p n).setEpoch (nextEpoch image))
    refine ⟨orderly_put hstep', fun engine hengine => ?_⟩
    obtain rfl := Except.ok.inj hengine
    refine ⟨_, _, rfl, ?_, rfl, FileSystem.put_self .., hstep'⟩
    rw [adopt_fd]
    rfl
  · intro fs' b hopens s hstop
    obtain ⟨wal, hstep⟩ := h.opens hopens
    exact absurd hstop (hstep.stop s)

/-- `set` and `remove` on a log of whole entries leave an entry there, or a part of one behind the
log. -/
theorem wp_changeFollows {orders : Orders} {op : Op} {μ : Mutation} (hop : op.mutation = some μ)
    (h : Follows p engine fs) (hwhole : μ.Fits → Whole (fs.bytes p)) :
    wp writesFail.env (engine.call host orders op) (fun result fs' => Follows p result.2 fs')
      (Orderly p) fs := by
  obtain ⟨wal, b, hwal, hfd, hpath, hfile, hstep⟩ := id h
  have hsync : ∀ {P : Prop}, writesFail.mayFail (.fsync p) → P := fun hmay =>
    absurd hmay writesFail_fsync
  by_cases hμ : μ.Fits
  swap
  · exact wp_change hop hwal hfd hfile (fun _ => ⟨h.orderly, fun _ => h⟩) (fun h => absurd h hμ)
      (fun h => absurd h hμ) (fun h => absurd h hμ) fun _ => hsync
  rw [FileSystem.bytes_of_some hfile] at hwhole
  obtain ⟨rs, hfits, rfl, hseq, hhead⟩ := hstep.whole (hwhole hμ)
  have hfit : (μ.entry host wal.epoch).Fits := entry_fits hμ _
  -- a part of the entry is torn
  have htorn : ∀ k < (μ.entry host wal.epoch).size, InStep wal
      (logOf rs ++ ((μ.entry host wal.epoch).encode wal.headHash wal.seq).take k) := by
    intro k hk
    refine .log hfits ?_ hseq hhead
    rw [hseq, hhead]
    exact tornTail_take hfit hk
  -- with the whole entry the object is at the end of the longer log
  have hpushed : InStep (wal.pushed (μ.entry host wal.epoch)).synced
      (logOf rs ++ (μ.entry host wal.epoch).encode wal.headHash wal.seq) := by
    have hlog : InStep (wal.pushed (μ.entry host wal.epoch)).synced
        (logOf (rs ++ [μ.entry host wal.epoch]) ++ []) :=
      .log (fits_concat hfits hfit) (tornTail_nil _) (synced_pushed_seq _ _ hseq)
        (synced_pushed_headHash _ _ hseq hhead)
    rwa [List.append_nil, logOf_concat hfits hfit, ← hseq, ← hhead] at hlog
  refine wp_change hop hwal hfd hfile (fun hno => absurd hμ hno) ?_ ?_ ?_ fun _ => hsync
  · intro _ k hk
    rcases Nat.lt_or_ge k (μ.entry host wal.epoch).size with hlt | hge
    · exact orderly_put (htorn k hlt)
    · rw [List.take_of_length_le (by rwa [LogRecord.length_encode])]
      exact orderly_put hpushed
  · exact fun _ => ⟨_, _, rfl, by rw [synced_fd, pushed_fd, hfd], hpath, FileSystem.put_self ..,
      hpushed⟩
  · exact fun _ _ k _ hlt _ => ⟨wal, _, hwal, hfd, hpath, FileSystem.put_self .., htorn k hlt⟩

theorem wp_recoverFollows {orders : Orders} (h : Follows p engine fs) :
    wp writesFail.env (engine.recover host orders) (fun result fs' => Follows p result.2 fs')
      (Orderly p) fs := by
  obtain ⟨wal, b, hwal, hfd, hpath, hfile, hstep⟩ := id h
  refine wp_engineRecover hwal hfd writesFail_readsOk writesFail_ftruncate hfile h.orderly
    (orderly_put (hstep.adopt wal)) ?_ ?_
  · intro image _ _
    refine ⟨_, _, rfl, ?_, hpath, FileSystem.put_self .., hstep.adopt _⟩
    rw [adopt_fd]
    exact hfd
  · exact fun _ _ s hstop => absurd hstop (hstep.stop s)

/-- A snapshot that fails leaves the log alone, or a part of a header. -/
theorem wp_snapshotFollows {orders : Orders} (h : Follows p engine fs) :
    wp writesFail.env (engine.snapshot orders) (fun result fs' => Follows p result.2 fs')
      (Orderly p) fs := by
  obtain ⟨wal, b, hwal, hfd, hpath, hfile, hstep⟩ := id h
  have htmp : ∀ fs', fs.SameBut (Snapshot.tmpPath engine.snapshotPath) fs' → fs' p = fs p :=
    fun fs' hsame => hsame p (hpath ▸ tmpPath_ne_wal p)
  have hrenamed : fs.renamed engine.snapshotPath (engine.imageFile wal orders) p = fs p :=
    Snapshot.renamed_of_ne (hpath ▸ snapshotPath_ne p) (hpath ▸ tmpPath_ne_wal p)
  have hcut : ∀ wal' : WAL, ∀ k < kHeaderSize, InStep wal' (walHeader.take k) :=
    fun _ _ hk => .header hk
  refine wp_snapshot hwal hfd hpath writesFail_readsOk hfile ?_ ?_ ?_ ?_ ?_ ?_
    (fun hmay => absurd hmay (writesFail_ftruncate 0)) ?_ (fun hmay => absurd hmay writesFail_fsync)
  · exact fun fs' hsame => (h.congr (htmp fs' hsame)).orderly
  · exact (h.congr hrenamed).orderly
  · exact fun k hk => orderly_put (.ofCut (.fresh p 1) hk.le rfl rfl)
  · exact ⟨_, _, rfl, hfd, hpath, FileSystem.put_self .., .ofCut _ le_rfl rfl rfl⟩
  · exact fun _ fs' hsame => h.congr (htmp fs' hsame)
  · exact fun _ => h.congr hrenamed
  · exact fun _ k _ hlt => ⟨_, _, rfl, hfd, hpath, FileSystem.put_self .., hcut _ k hlt⟩

/-- Every call keeps the engine in step with the log, if a change starts on whole entries. -/
theorem wp_callFollows {orders : Orders} {op : Op} (h : Follows p engine fs)
    (hwhole : ∀ μ ∈ op.mutation, μ.Fits → Whole (fs.bytes p)) :
    wp writesFail.env (engine.call host orders op) (fun result fs' => Follows p result.2 fs')
      (Orderly p) fs := by
  cases op with
  | set key value duration now => exact wp_changeFollows rfl h (hwhole _ rfl)
  | remove key now => exact wp_changeFollows rfl h (hwhole _ rfl)
  | snapshot =>
    rw [StorageEngine.call, wp_bind]
    exact wp_mono (wp_snapshotFollows h) (fun _ _ h' => ⟨h'.orderly, h'⟩) fun _ h' => h'
  | recover =>
    rw [StorageEngine.call, wp_bind]
    exact wp_mono (wp_recoverFollows h) (fun _ _ h' => ⟨h'.orderly, h'⟩) fun _ h' => h'

/-- A `set` or `remove` within the limits starts on a header and whole entries. -/
def StartsWhole (p : Path) (w : World) (event : Event) : Prop :=
  ∀ op ∈ event.op, ∀ μ ∈ op.mutation, μ.Fits → Whole (w.fs.bytes p)

/-- The log file is in order, and an open engine is in step with it. -/
def World.Orderly (p : Path) (w : World) : Prop :=
  match w.engine with
  | none => LiteSpeedStore.Orderly p w.fs
  | some engine => Follows p engine w.fs

theorem World.Orderly.file {w : World} (h : w.Orderly p) : LiteSpeedStore.Orderly p w.fs := by
  obtain ⟨_ | engine, fs⟩ := w
  · exact h
  · exact Follows.orderly h

/-- **Every step keeps the log in order**, if changes start on whole entries. -/
theorem orderly_step {w w' : World} {event : Event} (h : w.Orderly p)
    (hwhole : StartsWhole p w event)
    (hstep : (machine writesFail host p maxHistoryPerKey).step w event w') : w'.Orderly p := by
  cases hstep with
  | opened hx => exact (wp_exec (wp_openOrderly h) hx).2 _ rfl
  | openFailed hx => exact (wp_exec (wp_openOrderly h) hx).1
  | openCrashed hx => exact (wp_crash (wp_openOrderly h) hx :)
  | returned hx => exact (wp_exec (wp_callFollows h (hwhole _ rfl)) hx :)
  | threw hx => exact (wp_exec (wp_callFollows h (hwhole _ rfl)) hx :)
  | crashed hx => exact (wp_crash (wp_callFollows h (hwhole _ rfl)) hx :)
  | closed hx =>
    obtain rfl := exec_destroy hx
    exact Follows.orderly h
  | closeCrashed hx =>
    obtain rfl := crash_destroy hx
    exact Follows.orderly h

/-- **No failed write is taken for tampering**, in every run whose changes start on whole entries:
the process may open and close the store, take snapshots, recover and die, and any write may fail
anywhere. -/
theorem verify_after_failures {w : World} {events : List Event} {wal : WAL} {b : Bytes}
    (hnew : fs.bytes p = [])
    (hrun : ((machine writesFail host p maxHistoryPerKey).restrict (StartsWhole p)).Run ⟨none, fs⟩
      events w) (hfd : wal.fd = some p) (hfile : w.fs p = some b) :
    (run posix wal.verify w.fs).1.status ≠ .tampered ∧
      (run posix wal.verify w.fs).1.status ≠ .malformed := by
  have h₀ : World.Orderly p ⟨none, fs⟩ := by
    refine ⟨.fresh p 1, ?_⟩
    rw [hnew]
    exact .header (k := 0) (by decide)
  have horderly := hrun.invariant h₀ fun w event w' h hstep => orderly_step h hstep.1 hstep.2
  obtain ⟨wal', hstep⟩ := horderly.file
  rw [FileSystem.bytes_of_some hfile] at hstep
  rw [run_verify hfd hfile]
  cases hstop : (walkFile b).stop with
  | clean => simp [Walk.result, hstop]
  | torn => simp [Walk.result, hstop]
  | failed s => exact absurd hstop (hstep.stop s)

/-! ### Going on behind a torn entry -/

/-- `set` can fail with any proper part of its entry in the file. -/
theorem exec_set_cut {key value : Bytes} {duration : UInt64} {now : Int64} {wal : WAL} {b : Bytes}
    {k : ℕ} {μ : Mutation} (orders : Orders) (hwal : engine.wal = some wal) (hfd : wal.fd = some p)
    (hfile : fs p = some b) (hμ : μ = .put key ⟨value, duration, now⟩) (hfits : μ.Fits)
    (hk : k < (μ.entry host wal.epoch).size) :
    Exec writesFail.env (engine.call host orders (.set key value duration now)) fs
      (.error (.runtimeError "Failed to write entry to WAL"), engine)
      (fs.put p (b ++ ((μ.entry host wal.epoch).encode wal.headHash wal.seq).take k)) := by
  have hsame : { engine with wal := some wal } = engine := by rw [← hwal]
  have happend := exec_append_cut writesFail_write rfl hfd hfile (entry_fits hfits wal.epoch)
    (Mutation.entry_epoch ..) hk
  subst hμ
  rw [StorageEngine.call, StorageEngine.set, if_neg (not_lt.2 hfits.1), if_neg (not_lt.2 hfits.2),
    hwal]
  refine exec_bind.2 ⟨(_, { engine with wal := some wal }), _,
    exec_bind.2 ⟨_, _, happend, .ret _ _⟩, ?_⟩
  rw [hsame]
  exact .ret _ _

/-- An entry that stands behind the first 12 bytes of another one: the high half of its timestamp is
taken for a key length. -/
theorem readEntry_misaligned {prev prev' : Sha256Digest} {seq seq' : UInt64} {r : LogRecord}
    {part : Bytes} (hpart : part.length = 12)
    (hhigh : ((r.timestamp.toUInt64 >>> 32) &&& 0xFFFFFFFF).toUInt32 > kMaxFieldSize) :
    readEntry prev' seq' (part ++ r.encode prev seq) = .failed .malformed := by
  have hsize := r.size_ge
  have hlen : ¬(part ++ r.encode prev seq).length < crcSize + entryFixedSize := by
    rw [List.length_append, LogRecord.length_encode]
    omega
  have hcrc : (putLE32 [] (CRC32.calculate (r.body prev seq))).length = 4 := by simp
  have hbehind : (part ++ r.encode prev seq).drop 28 = ((r.fixed seq).drop offTsHigh) ++
      (r.key ++ r.value ++ (r.hash prev seq).toList) := by
    rw [show 28 = part.length + (4 + offTsHigh) by rw [hpart]; rfl, List.drop_length_add_append,
      LogRecord.encode, ← List.drop_drop, List.drop_left' hcrc, LogRecord.body, List.append_assoc,
      List.append_assoc, List.append_assoc, List.drop_append_of_le_length]
    rw [LogRecord.length_fixed]
    decide
  have hkeyLen : getLE32 ((((part ++ r.encode prev seq).drop crcSize).take entryFixedSize).drop
      offKeyLen) = getLE32 ((r.fixed seq).drop offTsHigh) := by
    refine getLE32_congr ?_
    rw [List.drop_take, List.drop_drop, List.take_take]
    change ((part ++ r.encode prev seq).drop 28).take 4 = _
    rw [hbehind, List.take_append_of_le_length]
    rw [List.length_drop, LogRecord.length_fixed]
    decide
  rw [readEntry, if_neg hlen]
  dsimp only
  rw [hkeyLen, LogRecord.fixed, fixedFields_tsHigh, if_pos (.inl hhigh)]

/-- A new log, and a `set` whose write fails after `k` bytes. -/
theorem exists_torn {key value : Bytes} {duration : UInt64} {now : Int64} {k : ℕ}
    (host : ByteOrder) (maxHistoryPerKey : ℕ) (hnew : fs.bytes p = [])
    (hfits : (Mutation.put key ⟨value, duration, now⟩).Fits)
    (hk : k < crcSize + entryFixedSize + hashSize) : ∃ engine wal fs₁ part,
    (machine writesFail host p maxHistoryPerKey).step ⟨none, fs⟩ .opened ⟨some engine, fs₁⟩ ∧
      (machine writesFail host p maxHistoryPerKey).step ⟨some engine, fs₁⟩
        (.threw (.set key value duration now) (.runtimeError "Failed to write entry to WAL"))
        ⟨some engine, fs₁.put p (walHeader ++ part)⟩ ∧
      fs₁ p = some walHeader ∧ part.length = k ∧ engine.wal = some wal ∧ wal.fd = some p := by
  have hlogged : Logged p fs [] := logged_empty hnew
  obtain ⟨engine, wal, fs₁, hopen, -, hattached, -⟩ := run_open host maxHistoryPerKey 1
    ⟨Order.any, Order.any⟩ hlogged
  have hfile := hattached.file
  rw [logOf_nil] at hfile
  have hlt : k < (Mutation.entry host wal.epoch (.put key ⟨value, duration, now⟩)).size :=
    hk.trans_le (LogRecord.size_ge _)
  refine ⟨engine, wal, fs₁, _, .opened (exec_of_run Faults.allows_posix hopen),
    .threw (exec_set_cut ⟨Order.any, Order.any⟩ hattached.log hattached.fd hfile rfl hfits hlt),
    hfile, ?_, hattached.log, hattached.fd⟩
  rw [List.length_take_of_le]
  rw [LogRecord.length_encode]
  exact hlt.le

theorem verify_after_failures_torn : ∃ w part, ((machine writesFail .little "a" 0).restrict
      (StartsWhole "a")).Run ⟨none, fun _ => none⟩
      [.opened, .threw (.set [107] [118] 0 5) (.runtimeError "Failed to write entry to WAL")] w ∧
    w.fs "a" = some (walHeader ++ part) ∧ part.length = 12 ∧
    (run posix (WAL.fresh "a" 1).verify w.fs).1.status ≠ .tampered := by
  have hnew : FileSystem.bytes (fun _ => none) "a" = [] := rfl
  have hfits : (Mutation.put [107] ⟨[118], 0, 5⟩).Fits := by decide
  obtain ⟨engine, wal, fs₁, part, hopened, hthrew, hfile, hpart, -⟩ :=
    exists_torn (k := 12) .little 0 hnew hfits (by decide)
  have hwhole : StartsWhole "a" ⟨some engine, fs₁⟩ (.threw (.set [107] [118] 0 5)
      (.runtimeError "Failed to write entry to WAL")) := by
    intro op _ μ _ _
    exact ⟨[], by simp, by rw [FileSystem.bytes_of_some hfile, logOf_nil]⟩
  have hrun := Lts.Run.cons (T := (machine writesFail .little "a" 0).restrict (StartsWhole "a"))
    ⟨fun op h => (Option.not_mem_none _ h).elim, hopened⟩ (.single ⟨hwhole, hthrew⟩)
  have hfile' := FileSystem.put_self fs₁ "a" (walHeader ++ part)
  exact ⟨_, part, hrun, hfile', hpart, (verify_after_failures hnew hrun rfl hfile').1⟩

/-- `set` behind the first 12 bytes of an entry: the clock's nanoseconds are taken for a length. -/
theorem exists_misaligned {key value : Bytes} {duration : UInt64} {now : Int64} {wal : WAL}
    {part : Bytes} (orders : Orders) (hwal : engine.wal = some wal) (hfd : wal.fd = some p)
    (hfile : fs p = some (walHeader ++ part)) (hpart : part.length = 12)
    (hfits : (Mutation.put key ⟨value, duration, now⟩).Fits)
    (hhigh : ((now.toUInt64 >>> 32) &&& 0xFFFFFFFF).toUInt32 > kMaxFieldSize) :
    ∃ engine' b, run posix (engine.call host orders (.set key value duration now)) fs =
        ((.ok none, engine'), fs.put p b) ∧ (walkFile b).stop = .failed .malformed := by
  refine ⟨_, _, run_change rfl hwal hfd hfile hfits, ?_⟩
  rw [List.append_assoc, walkFile_header, walk_failed (readEntry_misaligned hpart ?_)]
  exact hhigh

theorem verify_malformed : ∃ (w : World) (wal : WAL) (b : Bytes),
    (machine writesFail .little "a" 0).Run ⟨none, fun _ => none⟩
      [.opened,
        .threw (.set [107] [118] 0 1753000000000000000)
          (.runtimeError "Failed to write entry to WAL"),
        .returned (.set [107] [119] 0 1753000000000000001) none] w ∧
    wal.fd = some "a" ∧ w.fs "a" = some b ∧
    (run posix wal.verify w.fs).1.status = .malformed := by
  have hnew : FileSystem.bytes (fun _ => none) "a" = [] := rfl
  have hfits : (Mutation.put [107] ⟨[118], 0, 1753000000000000000⟩).Fits := by decide
  have hfits' : (Mutation.put [107] ⟨[119], 0, 1753000000000000001⟩).Fits := by decide
  obtain ⟨engine, wal, fs₁, part, hopened, hthrew, -, hpart, hwal, hfd⟩ :=
    exists_torn (k := 12) .little 0 hnew hfits (by decide)
  obtain ⟨engine', b, hset, hstop⟩ := exists_misaligned (.mk Order.any Order.any) hwal hfd
    (FileSystem.put_self fs₁ "a" (walHeader ++ part)) hpart hfits' (by decide)
  have hreturned := exec_of_run (E := writesFail.env) Faults.allows_posix hset
  have hfile := FileSystem.put_self (fs₁.put "a" (walHeader ++ part)) "a" b
  refine ⟨_, wal, b, .cons hopened (.cons hthrew (.single (.returned hreturned))), hfd, hfile, ?_⟩
  rw [run_verify hfd hfile, Walk.result, hstop]

end Runs

end LiteSpeedStore
