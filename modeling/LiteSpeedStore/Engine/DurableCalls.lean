import LiteSpeedStore.Engine.Durable

/-!
# What the methods leave to a power cut

In every state that a method of the engine goes through, whatever a power cut leaves restores data
that could have been restored before, or the data as it is then; and only the latter once the log
was synced.

* `wp_constructDurable`, `wp_recoverDurable` : opening the store.
* `wp_changeDurable` : `set` and `remove`, which sync the log when enough appends are pending.
* `wp_snapshotDurable` : an image and a new log.
-/

namespace LiteSpeedStore

open Prog

/-- What is restored after a power cut is the data as it is now, or satisfies `A`; only the former
if the log was synced since the disk was `d₀`. -/
def Safe (host : ByteOrder) (p : Path) (maxHistoryPerKey : ℕ) (A : Data → Prop) (d₀ d : Disk) :
    Prop :=
  ∃ rs data, Held host p maxHistoryPerKey (fun x => d.syncs p = d₀.syncs p ∧ A x ∨ x = data) d rs
    data

variable {host : ByteOrder} {p : Path} {maxHistoryPerKey n : ℕ} {A A' : Data → Prop} {d d₀ : Disk}
  {rs : List LogRecord} {data : Data} {engine : StorageEngine} {wal : WAL}
  {orders : StorageEngine.Orders}

namespace Held

theorem safe (h : Held host p maxHistoryPerKey A d rs data) (hsyncs : d.syncs p = d₀.syncs p) :
    Safe host p maxHistoryPerKey A d₀ d := ⟨rs, data, h.mono fun _ hx => .inl ⟨hsyncs, hx⟩⟩

theorem safe_or (h : Held host p maxHistoryPerKey (fun x => A x ∨ x = data) d rs data)
    (hsyncs : d.syncs p = d₀.syncs p) : Safe host p maxHistoryPerKey A d₀ d :=
  ⟨rs, data, h.mono fun _ hx => hx.imp_left fun hx => ⟨hsyncs, hx⟩⟩

theorem safe_now (h : Held host p maxHistoryPerKey (fun x => x = data) d rs data) :
    Safe host p maxHistoryPerKey A d₀ d := ⟨rs, data, h.mono fun _ hx => .inr hx⟩

end Held

/-! ### Opening -/

/-- Recovery cuts off a torn entry. -/
theorem wp_recoverDurable {α : Type} {tail : Bytes} {Q : α → Disk → Prop} {C : Disk → Prop}
    {f : Except Exception Unit × StorageEngine → Io α}
    (h : Held host p maxHistoryPerKey A d rs data) (hwal : engine.wal = some wal)
    (hfd : wal.fd = some p) (htorn : TornTail rs tail) (hfile : d.fs p = some (logOf rs ++ tail))
    (hC : ∀ d', Held host p maxHistoryPerKey A d' rs data → d'.syncs p = d.syncs p → C d')
    (hf : ∀ engine' d', C d' → wp (Disk.env n) (f (.ok (), engine')) Q C d') :
    wp (Disk.env n) (engine.recover host orders >>= f) Q C d :=
  wp_recoverOnDisk hwal hfd h.logged.fits htorn hfile h.covered (hC d h rfl)
    fun engine' => hf engine' _ (hC _ (h.shorten hfile) rfl)

/-- The constructor. -/
theorem wp_constructDurable {m : ℕ} (h : Held host p maxHistoryPerKey A d rs data) :
    wp (Disk.env kHeaderSize) (StorageEngine.construct host p maxHistoryPerKey m orders)
      (fun _ => Safe host p maxHistoryPerKey A d) (Safe host p maxHistoryPerKey A d) d := by
  rw [StorageEngine.construct]
  rcases h.logged.file with ⟨hnew, rfl⟩ | ⟨tail, hfile, htorn⟩
  · -- the file is made, if it is not there
    obtain ⟨d₁, hd₁⟩ : ∃ d₁, d.after (d.fs.put p []) (.openAppend p) = d₁ := ⟨_, rfl⟩
    have hfs₁ : d₁.fs = d.fs.put p [] := by rw [← hd₁, Disk.after_fs]
    obtain ⟨h₁, hsyncs₁⟩ : Held host p maxHistoryPerKey A d₁ [] data ∧ d₁.syncs p = d.syncs p := by
      rw [← hd₁, Disk.after]
      cases hfile : d.fs p with
      | none => exact ⟨h.created hfile, rfl⟩
      | some b =>
        rw [FileSystem.bytes_of_some hfile] at hnew
        rw [if_pos (by rfl), FileSystem.put_eq_self (by rw [hfile, hnew])]
        exact ⟨h, rfl⟩
    have hbegun := h₁.begun hfs₁
    refine wp_constructNewOnDisk hnew hd₁ (h.safe rfl)
      (fun k hk => (h₁.header hfs₁ hk).safe hsyncs₁) ?_
    change wp _ ((StorageEngine.fresh p maxHistoryPerKey m).recover host orders >>=
      StorageEngine.opened) _ _ _
    refine wp_recoverDurable hbegun rfl rfl (tornTail_nil []) ?_ (fun _ h' _ => h'.safe_now)
      fun _ _ hd' => ⟨hd', hd'⟩
    rw [List.append_nil, logOf_nil]
    exact FileSystem.put_self ..
  · have hvalid : ValidHeader (d.fs.bytes p) := by
      rw [FileSystem.bytes_of_some hfile, logOf_eq h.logged.fits, List.append_assoc]
      exact validHeader_append _
    refine wp_constructOldOnDisk hvalid ?_
    change wp _ ((StorageEngine.fresh p maxHistoryPerKey m).recover host orders >>=
      StorageEngine.opened) _ _ _
    exact wp_recoverDurable h rfl rfl htorn hfile (fun _ h' hsyncs => h'.safe hsyncs)
      fun _ _ hd' => ⟨hd', hd'⟩

/-! ### Calls -/

/-- `set` and `remove` sync the log when enough appends are pending. -/
theorem wp_changeDurable {op : Op} {μ : Mutation} (hop : op.mutation = some μ)
    (h : Held host p maxHistoryPerKey A d rs data)
    (hattached : Attached p maxHistoryPerKey d.fs rs engine wal)
    (hepoch : wal.epoch = nextEpoch (d.fs.image p)) :
    wp (Disk.env kHeaderSize) (engine.call host orders op)
      (fun result d' => Safe host p maxHistoryPerKey A d d' ∧
        (wal.pendingWrites + 1 ≥ wal.syncEveryN → (∃ answer, result.1 = .ok answer) →
          d'.syncs p ≠ d.syncs p))
      (Safe host p maxHistoryPerKey A d) d := by
  by_cases hμ : μ.Fits
  · have hrecord := h.put_record hattached.file hμ hepoch
    have hlog : ({ d with fs := d.fs.put p (logOf rs ++ (μ.entry host wal.epoch).encode
        (chainHead .zero 0 rs) (UInt64.ofNat rs.length)) } : Disk).fs p =
        some (logOf (rs ++ [μ.entry host wal.epoch])) := by
      rw [logOf_concat h.logged.fits (entry_fits hμ _)]
      exact FileSystem.put_self ..
    rw [call_accepted hop hattached.log hμ]
    refine wp_appendOnDisk hattached.fd hattached.file (entry_fits hμ _) (Mutation.entry_epoch ..)
      ?_ ?_ ?_
    · intro k hk
      rw [hattached.head, hattached.seq]
      rcases Nat.lt_or_ge k (μ.entry host wal.epoch).size with hlt | hge
      · exact (h.put_part hattached.file (entry_fits hμ _) hlt).safe rfl
      · rw [List.take_of_length_le (by rwa [LogRecord.length_encode])]
        exact hrecord.safe_or rfl
    · intro _
      rw [hattached.head, hattached.seq]
      have hsafe : Safe host p maxHistoryPerKey A d _ := (hrecord.synced hlog).safe_now
      refine ⟨hsafe, hsafe, fun _ _ => ?_⟩
      rw [Disk.syncs_flushed]
      exact Nat.succ_ne_self _
    · intro hlater
      rw [hattached.head, hattached.seq]
      exact ⟨hrecord.safe_or rfl, hrecord.safe_or rfl, fun hdue => absurd hdue hlater⟩
  · obtain ⟨e, he⟩ := call_refused host orders hop hattached.log hμ
    rw [he]
    refine ⟨h.safe rfl, h.safe rfl, fun _ => ?_⟩
    rintro ⟨answer, ⟨⟩⟩

/-- Saving an image: it is on the disk, under its name, and no other image is. -/
theorem wp_saveDurable {α : Type} {Q : α → Disk → Prop} {f : Bool → Io α} (image : SnapshotImage)
    {it : Iteration image.state} (h : Held host p maxHistoryPerKey A d rs data)
    (hfile : d.fs p = some (logOf rs)) (hfits : Snapshot.Fits image.state)
    (hepoch : image.epoch = nextEpoch (d.fs.image p)) (hroom : image.epoch.toNat + 1 < 2 ^ 64)
    (hdata : imageData maxHistoryPerKey (some image) = data)
    (hf : ∀ d', Held host p maxHistoryPerKey (fun x => A x ∨ x = data) d' rs data →
      d'.fs p = d.fs p → d'.images p ⊆ {some image} → Safe host p maxHistoryPerKey A d d' →
      wp (Disk.env n) (f true) Q (Safe host p maxHistoryPerKey A d) d') :
    wp (Disk.env n) (Snapshot.save (makeSnapshotPath p) image it >>= f) Q
      (Safe host p maxHistoryPerKey A d) d := by
  have hp := tmpPath_ne_wal p
  have hsnap := (Snapshot.tmpPath_ne (makeSnapshotPath p)).symm
  set tmp := Snapshot.tmpPath (makeSnapshotPath p) with htmp
  -- the temporary file is written and synced
  obtain ⟨d₁, hd₁⟩ : ∃ d₁, d.after (d.fs.put tmp []) (.openTrunc tmp) = d₁ := ⟨_, rfl⟩
  obtain ⟨d₂, hd₂⟩ : ∃ d₂, { d₁ with fs := d.fs.put tmp (Snapshot.fileBuf image it) }.flushed tmp =
      d₂ := ⟨_, rfl⟩
  have hsame₁ : ∀ q, q ≠ tmp → ∀ file, Disk.Same q d { d₁ with fs := d.fs.put tmp file } := by
    intro q hq file
    have hfs₁ : d₁.fs = d.fs.put tmp [] := by rw [← hd₁, Disk.after_fs]
    have hput := Disk.Same.put hq d₁ file
    rw [hfs₁, FileSystem.put_put] at hput
    rw [← hd₁] at hput ⊢
    exact (Disk.Same.openTrunc hq d).trans hput
  have hsame₂ : ∀ q, q ≠ tmp → Disk.Same q d d₂ := by
    intro q hq
    rw [← hd₂]
    exact (hsame₁ q hq _).trans (.flushed hq _)
  have h₂ := h.same (hsame₂ p hp) (hsame₂ _ hsnap)
  have hwhole : ∀ g, Survives (d₂.entry tmp) g → g = some (Snapshot.fileBuf image it) := by
    intro g hg
    rw [← hd₂] at hg
    rw [survives_flushed hg]
    exact FileSystem.put_self ..
  -- it gets its name, and the directory is synced
  obtain ⟨d₃, hd₃⟩ : ∃ d₃, d₂.moved (d.fs.renamed (makeSnapshotPath p) (Snapshot.fileBuf image it))
      tmp (makeSnapshotPath p) = d₃ := ⟨_, rfl⟩
  have hrenamed : d.fs.renamed (makeSnapshotPath p) (Snapshot.fileBuf image it) p = d₂.fs p := by
    rw [Snapshot.renamed_of_ne (snapshotPath_ne p) hp, (hsame₂ p hp).fs]
  have hsame₃ : Disk.Same p d d₃ := by
    rw [← hd₃]
    exact (hsame₂ p hp).trans (.moved hp (snapshotPath_ne p) hrenamed)
  have h₃ : Held host p maxHistoryPerKey (fun x => A x ∨ x = data) d₃ rs data := by
    rw [← hd₃]
    refine h₂.moved hp hsnap hwhole hrenamed (Snapshot.renamed_self ..)
      (Snapshot.parse_fileBuf hfits it) ?_ hroom hdata
    rw [image_same (hsame₂ _ hsnap)]
    exact hepoch
  have hfile₃ : d₃.fs p = some (logOf rs) := by rw [hsame₃.fs, hfile]
  have himage₃ : d₃.fs.image p = some image := by
    rw [← hd₃, FileSystem.image, Disk.moved_fs, Snapshot.renamed_self, Option.bind_some,
      Snapshot.parse_fileBuf hfits it]
  have h₄ := h₃.flushed hfile₃ (Snapshot.parentDir (makeSnapshotPath p))
  have hsafe₄ : Safe host p maxHistoryPerKey A d
      (d₃.flushed (Snapshot.parentDir (makeSnapshotPath p))) := by
    by_cases hdir : p = Snapshot.parentDir (makeSnapshotPath p)
    · rw [← hdir]
      exact (h₃.synced hfile₃).safe_now
    · exact h₄.safe_or ((Disk.Same.flushed hdir d₃).syncs.trans hsame₃.syncs)
  refine wp_saveOnDisk hd₁ hd₂ hd₃ (h.safe rfl) (fun file => ?_) (h₂.safe (hsame₂ p hp).syncs)
    (h₃.safe_or hsame₃.syncs) (hf _ h₄ hsame₃.fs ?_ hsafe₄)
  · exact (h.same (hsame₁ p hp file) (hsame₁ _ hsnap file)).safe (hsame₁ p hp file).syncs
  · rw [← himage₃]
    exact h₃.settled

/-- Emptying the log under images that cover it. -/
theorem wp_resetDurable {α : Type} {Q : α → Disk → Prop} {f : Bool × WAL → Io α}
    (h : Held host p maxHistoryPerKey A d rs data) (hfd : wal.fd = some p)
    (hfile : d.fs p = some (logOf rs))
    (hcovered : ∀ image ∈ d.images p, ∀ r ∈ rs, ¬Uncovered image r)
    (hsafe : Safe host p maxHistoryPerKey A' d₀ d)
    (hf : ∀ d', Safe host p maxHistoryPerKey A' d₀ d' →
      wp (Disk.env kHeaderSize) (f (true, wal.rewound)) Q (Safe host p maxHistoryPerKey A' d₀) d') :
    wp (Disk.env kHeaderSize) (wal.reset >>= f) Q (Safe host p maxHistoryPerKey A' d₀) d := by
  have hemptied := h.emptied hfile hcovered
  have hempty : ((d.flushed p).cut (d.fs.put p []) p 0).fs = d.fs.put p [] := Disk.cut_fs ..
  exact wp_resetOnDisk hfd hfile rfl hsafe (h.synced hfile).safe_now
    (fun k hk => (hemptied.header hempty hk).safe_now) (hf _ (hemptied.begun hempty).safe_now)

/-- `snapshot` has its image on the disk, under its name, before it empties the log. -/
theorem wp_snapshotDurable (h : Held host p maxHistoryPerKey A d rs engine.data)
    (hattached : Attached p maxHistoryPerKey d.fs rs engine wal)
    (hepoch : wal.epoch = nextEpoch (d.fs.image p)) (hgood : Good maxHistoryPerKey engine.data)
    (hlimits : engine.WithinLimits) :
    wp (Disk.env kHeaderSize) (engine.snapshot orders)
      (fun _ => Safe host p maxHistoryPerKey A d) (Safe host p maxHistoryPerKey A d) d := by
  have hold : ∀ r ∈ rs, r.epoch ≤ wal.epoch := by
    rw [hepoch]
    exact h.old rs (log_mem h.logged)
  rw [StorageEngine.snapshot, hattached.log]
  dsimp only
  rw [hattached.path]
  refine wp_saveDurable (engine.image wal orders) h hattached.file
    (fits_export hgood.storable _ hlimits.keys hlimits.records) hepoch
    (hlimits.epochs wal hattached.log) (import_export hgood.storable _ _) fun d' h' hfs' himages hsafe => ?_
  rw [if_pos rfl]
  refine wp_resetDurable h' hattached.fd (by rw [hfs', hattached.file]) ?_ hsafe
    fun d'' hsafe' => ⟨hsafe', hsafe'⟩
  intro image hmem r hr
  rw [himages hmem, uncovered_some, UInt64.not_lt]
  exact hold r hr

/-- Every call. -/
theorem wp_callDurable {op : Op} (h : Held host p maxHistoryPerKey A d rs engine.data)
    (hattached : Attached p maxHistoryPerKey d.fs rs engine wal)
    (hepoch : wal.epoch = nextEpoch (d.fs.image p)) (hgood : Good maxHistoryPerKey engine.data)
    (hlimits : op = .snapshot → engine.WithinLimits) :
    wp (Disk.env kHeaderSize) (engine.call host orders op)
      (fun result d' => Safe host p maxHistoryPerKey A d d' ∧
        (op.mutation.isSome → wal.pendingWrites + 1 ≥ wal.syncEveryN →
          (∃ answer, result.1 = .ok answer) → d'.syncs p ≠ d.syncs p))
      (Safe host p maxHistoryPerKey A d) d := by
  cases op with
  | set key value duration now =>
    exact wp_mono (wp_changeDurable rfl h hattached hepoch)
      (fun _ _ h' => h'.imp_right fun h' _ => h') fun _ h' => h'
  | remove key now =>
    exact wp_mono (wp_changeDurable rfl h hattached hepoch)
      (fun _ _ h' => h'.imp_right fun h' _ => h') fun _ h' => h'
  | snapshot =>
    rw [StorageEngine.call, wp_bind]
    refine wp_mono (wp_snapshotDurable h hattached hepoch hgood (hlimits rfl)) ?_ fun _ h' => h'
    rintro ⟨result, engine'⟩ d' hsafe
    exact ⟨hsafe, hsafe, by rintro ⟨⟩⟩
  | recover =>
    rw [StorageEngine.call]
    refine wp_recoverDurable h hattached.log hattached.fd (tornTail_nil rs)
      (by rw [List.append_nil, hattached.file]) (fun _ h' hsyncs => h'.safe hsyncs) ?_
    intro engine' d' hsafe
    exact ⟨hsafe, hsafe, by rintro ⟨⟩⟩

/-- The destructor. -/
theorem wp_destroyDurable (h : Held host p maxHistoryPerKey A d rs data)
    (hattached : Attached p maxHistoryPerKey d.fs rs engine wal) :
    wp (Disk.env n) engine.destroy (fun _ => Safe host p maxHistoryPerKey A d)
      (Safe host p maxHistoryPerKey A d) d := by
  have hkept : Safe host p maxHistoryPerKey A d d := h.safe rfl
  have hsynced : Safe host p maxHistoryPerKey A d (d.flushed p) :=
    (h.synced hattached.file).safe_now
  rw [StorageEngine.destroy, hattached.log]
  exact wp_closeOnDisk hattached.fd (fun _ => ⟨hkept, hkept⟩) fun _ _ => ⟨hsynced, hsynced⟩

end LiteSpeedStore
