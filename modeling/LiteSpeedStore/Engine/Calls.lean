import LiteSpeedStore.Engine.Rules
import LiteSpeedStore.Wal.Calls
import Mathlib.Data.Set.Insert

/-!
# The calls of the engine's methods

Which files an engine can touch, whatever the system calls answer.

* `only_engineConstruct`, `only_call`, `only_destroy` : an engine touches its log, its snapshot and
  the temporary file of the snapshot, and stays open on them.
-/

namespace LiteSpeedStore

open Prog StorageEngine

/-- The files whose contents the call reads or changes. -/
def Call.files : Call → Set Path
  | .openAppend p | .openTrunc p | .fstat p | .read p _ _ | .write p _ | .ftruncate p _
  | .streamOpen p | .streamRead p => {p}
  | .rename src dst => {src, dst}
  | .openDir _ | .lseek _ _ _ | .fsync _ | .close _ => ∅

/-- The call touches none but these files. -/
abbrev Call.Within (S : Set Path) (c : Call) : Prop := c.files ⊆ S

/-- The files of the store at `p`: its log, its snapshot, and the snapshot's temporary file. -/
def storeFiles (p : Path) : Set Path :=
  {p, makeSnapshotPath p, Snapshot.tmpPath (makeSnapshotPath p)}

/-- The engine has the log at `p` open, and its snapshot next to it. -/
structure StorageEngine.At (p : Path) (maxHistoryPerKey : ℕ) (engine : StorageEngine) : Prop where
  log : ∃ wal, engine.wal = some wal ∧ wal.fd = some p
  path : engine.snapshotPath = makeSnapshotPath p
  cap : engine.maxHistoryPerKey = maxHistoryPerKey

section Calls

variable {p : Path} {S : Set Path} {host : ByteOrder} {engine : StorageEngine} {wal : WAL}
  {orders : Orders}

theorem LooksAt.within {c : Call} (h : LooksAt p c) (hp : p ∈ S) : c.Within S := by
  cases c with
  | fstat q => exact Set.singleton_subset_iff.2 (h.symm ▸ hp)
  | read q pos len => exact Set.singleton_subset_iff.2 (h.symm ▸ hp)
  | lseek q off whence => exact Set.empty_subset S
  | _ => exact h.elim

/-- `recover` looks at the files, and cuts the log. -/
theorem only_engineRecover {P : Call → Prop} (hP : ∀ c, LooksAt p c → P c)
    (hcut : ∀ n, n ≠ 0 → P (.ftruncate p n)) (hopen : P (.streamOpen engine.snapshotPath))
    (hread : P (.streamRead engine.snapshotPath)) (hwal : engine.wal = some wal)
    (hfd : wal.fd = some p) : (engine.recover host orders).Only P fun result =>
      result.2.snapshotPath = engine.snapshotPath ∧
        result.2.maxHistoryPerKey = engine.maxHistoryPerKey ∧
        ∃ wal', result.2.wal = some wal' ∧ wal'.fd = some p := by
  have hfrom : ∀ image, (engine.recoverFrom host orders image).Only P fun result =>
      result.2.snapshotPath = engine.snapshotPath ∧
        result.2.maxHistoryPerKey = engine.maxHistoryPerKey ∧
        ∃ wal', result.2.wal = some wal' ∧ wal'.fd = some p := by
    intro image
    have hfd' : (wal.setEpoch (nextEpoch image)).fd = some p := hfd
    rw [recoverFrom_eq hwal]
    refine only_bind (only_recover hP hcut hfd' _ _ _) ?_
    rintro ⟨result, wal', data⟩ hwal'
    rw [StorageEngine.replayed]
    split_ifs
    · exact ⟨rfl, rfl, wal', rfl, hwal'⟩
    · exact ⟨rfl, rfl, wal', rfl, hwal'⟩
    · exact ⟨rfl, rfl, wal', rfl, hwal'⟩
  have hload : (Snapshot.load engine.snapshotPath).Only P fun _ => True := by
    rw [Snapshot.load]
    refine only_sys hopen fun opened => ?_
    cases opened
    · exact trivial
    · exact only_sys hread fun _ => trivial
  exact only_bind hload fun image _ => hfrom image

/-- `save` touches the snapshot and its temporary file. -/
theorem only_save {path : Path} (hpath : path ∈ S) (htmp : Snapshot.tmpPath path ∈ S)
    (image : SnapshotImage) (it : Iteration image.state) :
    (Snapshot.save path image it).Only (Call.Within S) fun _ => True := by
  have htmp' : {Snapshot.tmpPath path} ⊆ S := Set.singleton_subset_iff.2 htmp
  have hclose : (sys (.close (Snapshot.tmpPath path)) >>= fun _ => ret false).Only (Call.Within S)
      fun _ => True := only_sys (Set.empty_subset S) fun _ => trivial
  have hdir : (Snapshot.fsyncParentDir path).Only (Call.Within S) fun _ => True := by
    rw [Snapshot.fsyncParentDir]
    refine only_sys (Set.empty_subset S) fun opened => ?_
    cases opened
    · exact trivial
    · exact only_sys (Set.empty_subset S) fun _ => only_sys (Set.empty_subset S) fun _ => trivial
  rw [Snapshot.save]
  refine only_sys htmp' fun opened => ?_
  cases opened
  · exact trivial
  · refine only_bind (only_writeExact (fun _ => htmp') _) fun written _ => ?_
    cases written
    · exact hclose
    · refine only_sys (Set.empty_subset S) fun synced => ?_
      cases synced
      · exact hclose
      · refine only_sys (Set.empty_subset S) fun closed => ?_
        cases closed
        · exact trivial
        · refine only_sys (Set.insert_subset htmp (Set.singleton_subset_iff.2 hpath))
            fun renamed => ?_
          cases renamed
          · exact trivial
          · exact hdir

end Calls

section Store

variable {p : Path} {maxHistoryPerKey : ℕ} {host : ByteOrder} {engine : StorageEngine}
  {orders : Orders}

theorem walPath_mem (p : Path) : p ∈ storeFiles p := Set.mem_insert ..

theorem snapshotPath_mem (p : Path) : makeSnapshotPath p ∈ storeFiles p := .inr (Set.mem_insert ..)

theorem tmpPath_mem (p : Path) : Snapshot.tmpPath (makeSnapshotPath p) ∈ storeFiles p :=
  .inr (.inr rfl)

theorem singleton_within {p q : Path} (h : q ∈ storeFiles p) : {q} ⊆ storeFiles p :=
  Set.singleton_subset_iff.2 h

/-- `recover` touches the files of the store. -/
theorem only_recoverAt (h : engine.At p maxHistoryPerKey) : (engine.recover host orders).Only
    (Call.Within (storeFiles p)) fun result => result.2.At p maxHistoryPerKey := by
  obtain ⟨⟨wal, hwal, hfd⟩, hpath, hcap⟩ := h
  have hsnap : {engine.snapshotPath} ⊆ storeFiles p := singleton_within (hpath ▸ snapshotPath_mem p)
  refine (only_engineRecover (fun c hc => hc.within (walPath_mem p))
    (fun _ _ => singleton_within (walPath_mem p)) hsnap hsnap hwal hfd).mono (fun _ hc => hc) ?_
  rintro result ⟨hpath', hcap', hwal'⟩
  exact ⟨hwal', hpath'.trans hpath, hcap'.trans hcap⟩

theorem only_destroy (h : engine.At p maxHistoryPerKey) :
    engine.destroy.Only (Call.Within (storeFiles p)) fun _ => True := by
  obtain ⟨⟨wal, hwal, hfd⟩, -⟩ := h
  rw [destroy, hwal]
  exact only_bind (only_close (Set.empty_subset _) (Set.empty_subset _) hfd) fun _ _ => trivial

/-- **The constructor** touches the files of the store, and opens the engine on them. -/
theorem only_engineConstruct (host : ByteOrder) (p : Path) (maxHistoryPerKey n : ℕ)
    (orders : Orders) : (StorageEngine.construct host p maxHistoryPerKey n orders).Only
      (Call.Within (storeFiles p)) fun result =>
        ∀ engine, result = .ok engine → engine.At p maxHistoryPerKey := by
  have hlog : {p} ⊆ storeFiles p := singleton_within (walPath_mem p)
  rw [StorageEngine.construct]
  refine only_bind (only_construct (fun c hc => hc.within (walPath_mem p)) hlog (fun _ => hlog)
    (Set.empty_subset _) (Set.empty_subset _) n) fun result hfd => ?_
  rcases result with e | wal
  · rintro engine ⟨⟩
  · refine only_bind (only_recoverAt ⟨⟨wal, rfl, hfd wal rfl⟩, rfl, rfl⟩) ?_
    rintro ⟨_ | _, engine⟩ hengine
    · exact only_bind (only_destroy hengine) fun _ _ => by rintro engine' ⟨⟩
    · rintro engine' heq
      obtain rfl := Except.ok.inj heq
      exact hengine

/-- **A call** touches the files of the store, and leaves the engine open on them. -/
theorem only_call (h : engine.At p maxHistoryPerKey) (op : Op) : (engine.call host orders op).Only
    (Call.Within (storeFiles p)) fun result => result.2.At p maxHistoryPerKey := by
  obtain ⟨⟨wal, hwal, hfd⟩, hpath, hcap⟩ := id h
  have hlog : {p} ⊆ storeFiles p := singleton_within (walPath_mem p)
  have hlooks : ∀ c, LooksAt p c → c.Within (storeFiles p) := fun c hc => hc.within (walPath_mem p)
  have hnothing : ∅ ⊆ storeFiles p := Set.empty_subset _
  cases hop : op.mutation with
  | some μ =>
    by_cases hμ : μ.Fits
    · rw [call_accepted hop hwal hμ]
      refine only_bind (only_append (fun _ => hlog) hnothing hfd ..) ?_
      rintro ⟨_ | _, wal'⟩ hwal'
      · exact ⟨⟨wal', rfl, hwal'⟩, hpath, hcap⟩
      · exact ⟨⟨wal', rfl, hwal'⟩, hpath, hcap⟩
    · obtain ⟨e, he⟩ := call_refused host orders hop hwal hμ
      rw [he]
      exact h
  | none =>
    cases op with
    | set key value duration now => cases hop
    | remove key now => cases hop
    | recover => exact only_bind (only_recoverAt h) fun result hresult => hresult
    | snapshot =>
      have hsave := only_save (S := storeFiles p) (snapshotPath_mem p) (tmpPath_mem p)
      rw [← hpath] at hsave
      refine only_bind ?_ fun result hresult => hresult
      rw [snapshot, hwal]
      refine only_bind (hsave _ _) fun saved _ => ?_
      cases saved
      · exact h
      · have hfd' : (wal.setEpoch (wal.epoch + 1)).fd = some p := hfd
        refine only_bind (only_reset hlooks (fun _ => hlog) hnothing (fun _ => hlog) hfd') ?_
        rintro ⟨_ | _, wal'⟩ hwal'
        · exact ⟨⟨wal', rfl, hwal'⟩, hpath, hcap⟩
        · exact ⟨⟨wal', rfl, hwal'⟩, hpath, hcap⟩

end Store

end LiteSpeedStore
