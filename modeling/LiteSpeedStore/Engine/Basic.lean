import LiteSpeedStore.Wal.Basic
import LiteSpeedStore.Snapshot

/-!
# The storage engine

`StorageEngine.hpp` and `StorageEngine.cpp` as `Io` programs: an engine keeps the histories of its
keys in memory, writes every change to the log before it makes it, and can replace the log by a
snapshot.  The locks are left out: a method runs alone.

Two things of the machine are arguments: the byte order in which a duration is copied into a log
entry, and the order in which a loop over a hash map visits it.  The clock's reading is an argument
of `set` and `remove`.
-/

namespace LiteSpeedStore

open Prog

/-- A record in memory. -/
structure Record where
  value : Bytes
  /-- The bits of the duration, in milliseconds. -/
  duration : UInt64
  /-- Nanoseconds since the epoch of the clock. -/
  timestamp : Int64
deriving DecidableEq

/-- The histories of the keys, oldest record first. -/
abbrev Data := Finmap fun _ : Bytes => List Record

/-- The byte order of the machine. -/
inductive ByteOrder where
  | little
  | big
deriving DecidableEq

/-- The bytes of a 64-bit value in memory. -/
def ByteOrder.bytesOf : ByteOrder → UInt64 → Bytes
  | .little, v => putLE64 [] v
  | .big, v => (putLE64 [] v).reverse

/-- The 64-bit value whose bytes are the first 8. -/
def ByteOrder.valueOf : ByteOrder → Bytes → UInt64
  | .little, b => getLE64 (b.take 8)
  | .big, b => getLE64 (b.take 8).reverse

variable (host : ByteOrder)

/-- The value of a log entry: the duration as it lies in memory, then the value. -/
def serialize (duration : UInt64) (value : Bytes) : Bytes := host.bytesOf duration ++ value

/-- Duration and value of a log entry. -/
def deserialize (blob : Bytes) : UInt64 × Bytes :=
  if blob.length < 8 then (0, []) else (host.valueOf blob, blob.drop 8)

/-! ### Paths -/

/-- `std::filesystem::path::extension`: from the last dot of the file name on, unless the name
starts with it. -/
def extension (path : Path) : Path :=
  let filename := path.toList.reverse.takeWhile (· ≠ '/')
  let ext := filename.takeWhile (· ≠ '.')
  if filename = ['.', '.'] then ""
  else if ext.length + 1 < filename.length then String.ofList ('.' :: ext.reverse) else ""

/-- The snapshot stands next to the log. -/
def makeSnapshotPath (walPath : Path) : Path :=
  if extension walPath = ".wal" then
    String.ofList (walPath.toList.take (walPath.toList.length - ".wal".length)) ++ ".snap"
  else walPath ++ ".snap"

/-! ### The engine -/

/-- The members of an engine; one without a log is kept in memory only. -/
structure StorageEngine where
  data : Data := ∅
  wal : Option WAL := none
  walPath : Path := ""
  snapshotPath : Path := ""
  snapshotEpoch : Option UInt64 := none
  maxHistoryPerKey : ℕ

/-- `0` stands for no cap. -/
def kUnlimitedHistory : ℕ := 0

/-- The largest value `set` accepts: duration and value share one field of the log. -/
def kMaxValueSize : ℕ := kMaxFieldSize.toNat - 8

/-- Appends to a key's history, and evicts the oldest record past the cap. -/
def appendCapped (maxHistoryPerKey : ℕ) (data : Data) (key : Bytes) (record : Record) : Data :=
  let history := (data.lookup key).getD []
  let history :=
    if maxHistoryPerKey ≠ kUnlimitedHistory ∧ history.length ≥ maxHistoryPerKey then history.drop 1
    else history
  data.insert key (history ++ [record])

/-- The state to be saved, from a loop over the histories. -/
def exportSnapshotState (data : Data) (it : Iteration data) : SnapshotState :=
  it.list.foldl (fun state x => state.insert x.1 ((state.lookup x.1).getD [] ++
    x.2.map fun record => ⟨record.value, record.duration, record.timestamp⟩)) ∅

/-- The histories loaded from an image, from a loop over its keys. -/
def importSnapshotState (maxHistoryPerKey : ℕ) (state : SnapshotState) (it : Iteration state) :
    Data :=
  it.list.foldl (fun data x => x.2.foldl (fun data record => appendCapped maxHistoryPerKey data x.1
    ⟨record.value, record.duration, record.timestamp⟩) data) ∅

/-- The callback of `recover`. -/
def replayEntry (maxHistoryPerKey : ℕ) : WAL.Visitor Data := fun type key blob timestamp data =>
  if type = .put then
    let (duration, value) := deserialize host blob
    appendCapped maxHistoryPerKey data key ⟨value, duration, timestamp⟩
  else if type = .delete then data.erase key
  else data

namespace StorageEngine

/-- The orders of the loops over the histories and over an image. -/
structure Orders where
  data : Order Bytes (List Record)
  state : Order Bytes (List SnapshotRecord)

/-- `recover` once the image, or none, is loaded: replays the log on top of it. -/
def recoverFrom (engine : StorageEngine) (orders : Orders) (image : Option SnapshotImage) :
    Io (Except Exception Unit × StorageEngine) :=
  let (data, snapshotEpoch, epoch) := match image with
    | some image => (importSnapshotState engine.maxHistoryPerKey image.state
        (orders.state image.state), some image.epoch, image.epoch + 1)
    | none => (∅, none, 0)
  match engine.wal with
  | none => ret (.error .nullDereference, { engine with data, snapshotEpoch })
  | some wal => do
    let (result, wal, data) ← (wal.setEpoch epoch).recover
      (replayEntry host engine.maxHistoryPerKey) snapshotEpoch data
    let engine := { engine with data, snapshotEpoch, wal := some wal }
    if result.status = .tampered then
      -- a journal that was tampered with is refused outright
      ret (.error (.runtimeError ("WAL tampering detected at offset " ++
        toString result.tamperOffset ++ " (seq " ++ toString result.tamperSeq ++ ")")), engine)
    else if result.status = .malformed then
      ret (.error (.runtimeError ("WAL field exceeds the size limit at offset " ++
        toString result.tamperOffset ++ " (seq " ++ toString result.tamperSeq ++
        ") - foreign or stale file")), engine)
    else ret (.ok (), engine)

/-- Loads the snapshot and replays the log. -/
def recover (engine : StorageEngine) (orders : Orders) :
    Io (Except Exception Unit × StorageEngine) := do
  let image ← Snapshot.load engine.snapshotPath
  engine.recoverFrom host orders image

/-- The destructor. -/
def destroy (engine : StorageEngine) : Io Unit :=
  match engine.wal with
  | none => ret ()
  | some wal => do
    let _ ← wal.close
    ret ()

/-- The constructor; when recovery throws, the log that was opened is closed again. -/
def construct (dbPath : Path) (maxHistoryPerKey syncEveryN : ℕ) (orders : Orders) :
    Io (Except Exception StorageEngine) := do
  match ← WAL.construct dbPath syncEveryN with
  | .error e => ret (.error e)
  | .ok wal => do
    let engine : StorageEngine :=
      { wal := some wal, walPath := dbPath, snapshotPath := makeSnapshotPath dbPath
        maxHistoryPerKey }
    match ← engine.recover host orders with
    | (.ok (), engine) => ret (.ok engine)
    | (.error e, engine) => do
      engine.destroy
      ret (.error e)

/-- An engine that keeps everything in memory. -/
def makeInMemory (maxHistoryPerKey : ℕ) : StorageEngine := { maxHistoryPerKey }

/-- Adds a value to a key's history. -/
def set (engine : StorageEngine) (key value : Bytes) (duration : UInt64) (now : Int64) :
    Io (Except Exception Unit × StorageEngine) :=
  if key.length > kMaxFieldSize.toNat then
    ret (.error (.lengthError ("key exceeds " ++ toString kMaxFieldSize ++ " bytes")), engine)
  else if value.length > kMaxValueSize then
    ret (.error (.lengthError ("value exceeds " ++ toString kMaxValueSize ++ " bytes")), engine)
  else
    let data := appendCapped engine.maxHistoryPerKey engine.data key ⟨value, duration, now⟩
    match engine.wal with
    | none => ret (.ok (), { engine with data })
    | some wal => do
      match ← wal.append .put key (serialize host duration value) now with
      | (.error e, wal) => ret (.error e, { engine with wal := some wal })
      | (.ok (), wal) => ret (.ok (), { engine with data, wal := some wal })

/-- Removes a key; `false` if it was not present. -/
def remove (engine : StorageEngine) (key : Bytes) (now : Int64) :
    Io (Except Exception Bool × StorageEngine) :=
  let present := (engine.data.lookup key).isSome
  let data := engine.data.erase key
  match engine.wal with
  | none => ret (.ok present, { engine with data })
  | some wal => do
    match ← wal.append .delete key [] now with
    | (.error e, wal) => ret (.error e, { engine with wal := some wal })
    | (.ok (), wal) => ret (.ok present, { engine with data, wal := some wal })

/-- Saves an image and starts a new log. -/
def snapshot (engine : StorageEngine) (orders : Orders) :
    Io (Except Exception Unit × StorageEngine) :=
  match engine.wal with
  | none => ret (.error (.runtimeError "snapshot() called on engine with no WAL"), engine)
  | some wal => do
    let image : SnapshotImage :=
      ⟨wal.epoch, exportSnapshotState engine.data (orders.data engine.data)⟩
    let saved ← Snapshot.save engine.snapshotPath image (orders.state image.state)
    if saved then do
      let engine := { engine with snapshotEpoch := some image.epoch }
      let (rotated, wal) ← (wal.setEpoch (image.epoch + 1)).reset
      let engine := { engine with wal := some wal }
      if rotated then ret (.ok (), engine)
      else ret (.error (.runtimeError ("WAL rotation failed after snapshot: " ++ engine.walPath)),
        engine)
    else ret (.error (.runtimeError ("Failed to write snapshot to disk: " ++ engine.snapshotPath)),
      engine)

/-- The last value of a key. -/
def get (engine : StorageEngine) (key : Bytes) : Option Bytes :=
  ((engine.data.lookup key).bind List.getLast?).map Record.value

/-- The number of keys. -/
def count (engine : StorageEngine) : ℕ := engine.data.keys.card

/-- The length of a key's history. -/
def historyCount (engine : StorageEngine) (key : Bytes) : ℕ :=
  ((engine.data.lookup key).getD []).length

end StorageEngine

end LiteSpeedStore
