import LiteSpeedStore.Crc32
import LiteSpeedStore.Sha256
import LiteSpeedStore.Posix

/-!
# The write-ahead log

`WAL.hpp` and `WAL.cpp` as `Io` programs.  A `WAL` value holds the object's members; a method takes
the object and returns it with its result, and a method that throws returns the exception together
with the object it leaves behind.

The file is a 16-byte header followed by entries

```
CRC32 | seq | timestamp | epoch | key_len | value_len | type | key | value | chain_hash
```

where `chain_hash` is the SHA-256 of the previous entry's hash and of everything between the CRC
and the hash itself.
-/

namespace LiteSpeedStore

open Prog

/-- The exceptions the store throws, with their texts. -/
inductive Exception where
  | lengthError (what : String)
  | runtimeError (what : String)
  /-- Not an exception: a null pointer is dereferenced, and nothing is known of what follows. -/
  | nullDereference
deriving DecidableEq

/-- The type byte of an entry; the enumeration has a fixed underlying type, so every byte is a
value of it. -/
structure RecordType where
  /-- The byte on disk. -/
  byte : UInt8
deriving DecidableEq

/-- A record that adds a value to a key's history. -/
def RecordType.put : RecordType := ⟨1⟩

/-- A record that removes a key. -/
def RecordType.delete : RecordType := ⟨2⟩

/-- Outcome of walking the log chain during recovery or verification. -/
inductive RecoveryStatus where
  /-- The whole chain verified cleanly. -/
  | ok
  /-- A partial write at the end was discarded. -/
  | truncatedTail
  /-- A field exceeds the policy cap: a foreign or stale file, not tamper evidence. -/
  | malformed
  /-- An entry was modified, reordered, or deleted in place. -/
  | tampered
deriving DecidableEq

/-- The all-zero digest, the head of an empty chain. -/
def Sha256Digest.zero : Sha256Digest := Vector.replicate 32 0

/-- The result of `recover` and `verify`. -/
structure RecoveryResult where
  status : RecoveryStatus := .ok
  /-- Count of entries whose CRC and hash chain verified. -/
  entriesVerified : UInt64 := 0
  /-- Byte offset of the first bad entry. -/
  tamperOffset : UInt64 := 0
  /-- Sequence number expected at that point. -/
  tamperSeq : UInt64 := 0
  /-- Chain hash after the last verified entry. -/
  headHash : Sha256Digest := .zero
deriving DecidableEq

/-- The chain head an agent ships to a trusted remote. -/
structure Checkpoint where
  seq : UInt64
  head : Sha256Digest
deriving DecidableEq

/-- What `append` is asked to record, with the epoch it is stamped with. -/
structure LogRecord where
  type : RecordType
  key : Bytes
  value : Bytes
  timestamp : Int64
  epoch : UInt64
deriving DecidableEq

/-- The members of a `WAL` object. -/
structure WAL where
  path : Path
  /-- The file the descriptor is open on; `none` once it is closed. -/
  fd : Option Path
  epoch : UInt64 := 0
  /-- Next sequence number to assign. -/
  seq : UInt64 := 0
  /-- Chain hash of the last appended entry. -/
  headHash : Sha256Digest := .zero
  syncEveryN : ℕ := 1
  /-- Appends since the last `fsync`. -/
  pendingWrites : ℕ := 0

/-! ### Layout -/

def walMagic : UInt32 := 0x314C5357
def walVersion : UInt32 := 2

/-- Size of the file header: magic, version and flags. -/
def kHeaderSize : ℕ := 16

/-- Cap on a key or value field, enforced on append and on read. -/
def kMaxFieldSize : UInt32 := 1048576

def hdrOffMagic : ℕ := 0
def hdrOffVersion : ℕ := hdrOffMagic + 4
def hdrOffFlags : ℕ := hdrOffVersion + 4

def offSeq : ℕ := 0
def offTsLow : ℕ := offSeq + 8
def offTsHigh : ℕ := offTsLow + 4
def offEpoch : ℕ := offTsHigh + 4
def offKeyLen : ℕ := offEpoch + 8
def offValueLen : ℕ := offKeyLen + 4
def offType : ℕ := offValueLen + 4
def entryFixedSize : ℕ := offType + 1
def crcSize : ℕ := 4
def hashSize : ℕ := 32

example : hdrOffFlags + 8 = kHeaderSize := rfl

/-- The file header. -/
def walHeader : Bytes := putLE64 (putLE32 (putLE32 [] walMagic) walVersion) 0

/-- The fixed part of an entry, between the CRC and the key. -/
def fixedFields (seq : UInt64) (timestamp : Int64) (epoch : UInt64) (keyLen valueLen : UInt32)
    (type : RecordType) : Bytes :=
  let ts := timestamp.toUInt64
  let timestampLow := (ts &&& 0xFFFFFFFF).toUInt32
  let timestampHigh := ((ts >>> 32) &&& 0xFFFFFFFF).toUInt32
  let fixed := putLE64 [] seq
  let fixed := putLE32 fixed timestampLow
  let fixed := putLE32 fixed timestampHigh
  let fixed := putLE64 fixed epoch
  let fixed := putLE32 fixed keyLen
  let fixed := putLE32 fixed valueLen
  fixed ++ [type.byte]

/-- Binds an entry to the one before it. -/
def chainHash (prevHash : Sha256Digest) (fixed key value : Bytes) : Sha256Digest :=
  ((((SHA256.reset.update prevHash.toList).update fixed).update key).update value).digest

/-- The size of an entry with its CRC and its chain hash. -/
def LogRecord.size (r : LogRecord) : ℕ :=
  crcSize + entryFixedSize + r.key.length + r.value.length + hashSize

namespace WAL

/-- Writes magic, version and flags, and syncs them. -/
def writeHeader (fd : Path) : Io Bool := do
  let written ← writeExact fd walHeader
  if written then sys (.fsync fd) else ret false

/-- Reads and checks magic and version of an existing file. -/
def validateHeader (fd : Path) : Io Bool := do
  let sought ← sys (.lseek fd 0 .set)
  if sought then do
    match ← readExact fd 0 kHeaderSize with
    | none => ret false
    | some header =>
      if getLE32 (header.drop hdrOffMagic) ≠ walMagic then ret false
      else if getLE32 (header.drop hdrOffVersion) ≠ walVersion then ret false
      else ret true
  else ret false

/-- The constructor: opens or creates the file, then writes the header of an empty file or checks
the header of any other. -/
def construct (path : Path) (syncEveryN : ℕ) : Io (Except Exception WAL) := do
  let wal : WAL := { path, fd := some path, syncEveryN := if syncEveryN < 1 then 1 else syncEveryN }
  let giveUp (what : String) : Io (Except Exception WAL) := do
    let _ ← sys (.close path)
    ret (.error (.runtimeError (what ++ path)))
  let opened ← sys (.openAppend path)
  if opened then do
    match ← sys (.fstat path) with
    | none => giveUp "Failed to stat WAL file: "
    | some size =>
      if size = 0 then do
        let written ← writeHeader path
        if written then ret (.ok wal) else giveUp "Failed to write WAL header: "
      else do
        let valid ← validateHeader path
        if valid then ret (.ok wal) else giveUp "Invalid or corrupt WAL header: "
  else ret (.error (.runtimeError ("Failed to open WAL file: " ++ path)))

/-- Called after snapshot rotation to fence old entries. -/
def setEpoch (wal : WAL) (epoch : UInt64) : WAL := { wal with epoch }

/-- The current chain anchor. -/
def head (wal : WAL) : Checkpoint := ⟨wal.seq, wal.headHash⟩

/-- Truncates the file to its header and starts a fresh chain generation. -/
def reset (wal : WAL) : Io (Bool × WAL) :=
  match wal.fd with
  | none => ret (false, wal)
  | some fd => do
    -- a failing fsync is only reported on stderr
    let _ ← sys (.fsync fd)
    let truncated ← sys (.ftruncate fd 0)
    if truncated then do
      let sought ← sys (.lseek fd 0 .set)
      if sought then do
        let written ← writeHeader fd
        if written then
          ret (true, { wal with seq := 0, headHash := .zero, pendingWrites := 0 })
        else ret (false, wal)
      else ret (false, wal)
    else ret (false, wal)

/-- Flushes pending writes and closes the descriptor; the destructor does nothing else. -/
def close (wal : WAL) : Io WAL :=
  match wal.fd with
  | none => ret wal
  | some fd => do
    if wal.pendingWrites > 0 then do
      let _ ← sys (.fsync fd)
      let _ ← sys (.close fd)
      ret { wal with fd := none, pendingWrites := 0 }
    else do
      let _ ← sys (.close fd)
      ret { wal with fd := none }

/-- Appends one entry, and syncs when `syncEveryN` of them are pending. -/
def append (wal : WAL) (type : RecordType) (key value : Bytes) (timestamp : Int64) :
    Io (Except Exception Unit × WAL) :=
  if key.length > kMaxFieldSize.toNat ∨ value.length > kMaxFieldSize.toNat then
    ret (.error (.lengthError ("WAL field exceeds " ++ toString kMaxFieldSize ++ " bytes")), wal)
  else
    match wal.fd with
    | none => ret (.ok (), wal)
    | some fd => do
      let fixed := fixedFields wal.seq timestamp wal.epoch (UInt32.ofNat key.length)
        (UInt32.ofNat value.length) type
      let chainHash := chainHash wal.headHash fixed key value
      let entry := fixed ++ key ++ value ++ chainHash.toList
      let computedCrc := CRC32.calculate entry
      let out := putLE32 [] computedCrc ++ entry
      let written ← writeExact fd out
      if written then do
        let wal := { wal with
          headHash := chainHash, seq := wal.seq + 1, pendingWrites := wal.pendingWrites + 1 }
        if wal.pendingWrites ≥ wal.syncEveryN then do
          let synced ← sys (.fsync fd)
          if synced then ret (.ok (), { wal with pendingWrites := 0 })
          else ret (.error (.runtimeError "fsync failed"), wal)
        else ret (.ok (), wal)
      else ret (.error (.runtimeError "Failed to write entry to WAL"), wal)

/-! ### Walking the chain -/

/-- What the body of the loop of `walkChain` finds at an entry's offset. -/
inductive EntryOutcome where
  /-- The file ends inside the entry. -/
  | torn
  /-- The walk ends here with a failure. -/
  | failed (status : RecoveryStatus)
  /-- A verified entry and its chain hash. -/
  | entry (r : LogRecord) (computed : Sha256Digest)

/-- The bytes an entry with these lengths takes, a sum of 64-bit integers. -/
def neededSize (keyLen valueLen : UInt32) : ℕ :=
  (crcSize + entryFixedSize + hashSize + keyLen.toNat + valueLen.toNat) % 2 ^ 64

/-- The checks on an entry that is fully present, in the order of the source: CRC, chain hash,
sequence number. -/
def verifyEntry (prevHash : Sha256Digest) (expectedSeq : UInt64) (storedCrc : UInt32)
    (fixed key value hashBytes : Bytes) : EntryOutcome :=
  let entry := fixed ++ key ++ value ++ hashBytes
  let computed := chainHash prevHash fixed key value
  let seq := getLE64 (fixed.drop offSeq)
  if CRC32.calculate entry ≠ storedCrc then .failed .tampered
  else if computed.toList ≠ hashBytes then .failed .tampered
  else if seq ≠ expectedSeq then .failed .tampered
  else
    let timestampLow := getLE32 (fixed.drop offTsLow)
    let timestampHigh := getLE32 (fixed.drop offTsHigh)
    let timestamp := (timestampHigh.toUInt64 <<< 32 ||| timestampLow.toUInt64).toInt64
    let epoch := getLE64 (fixed.drop offEpoch)
    .entry ⟨⟨fixed.getD offType 0⟩, key, value, timestamp, epoch⟩ computed

/-- The body of the loop of `walkChain`, up to the visitor: reads the entry at `pos` of a file of
`stSize` bytes and verifies it. -/
def walkEntry (fd : Path) (stSize pos : ℕ) (prevHash : Sha256Digest) (expectedSeq : UInt64) :
    Io EntryOutcome := do
  match ← readExact fd pos crcSize with
  | none => ret .torn
  | some crcBytes => do
    let storedCrc := getLE32 crcBytes
    match ← readExact fd (pos + crcSize) entryFixedSize with
    | none => ret .torn
    | some fixed => do
      let keyLen := getLE32 (fixed.drop offKeyLen)
      let valueLen := getLE32 (fixed.drop offValueLen)
      if keyLen > kMaxFieldSize ∨ valueLen > kMaxFieldSize then ret (.failed .malformed)
      else if neededSize keyLen valueLen > stSize - pos then ret .torn
      else do
        let keyPos := pos + crcSize + entryFixedSize
        match ← readExact fd keyPos keyLen.toNat with
        | none => ret .torn
        | some key => do
          match ← readExact fd (keyPos + keyLen.toNat) valueLen.toNat with
          | none => ret .torn
          | some value => do
            match ← readExact fd (keyPos + keyLen.toNat + valueLen.toNat) hashSize with
            | none => ret .torn
            | some hashBytes =>
              ret (verifyEntry prevHash expectedSeq storedCrc fixed key value hashBytes)

/-- The callback of `recover`, acting on a state of the caller's. -/
abbrev Visitor (σ : Type) := RecordType → Bytes → Bytes → Int64 → σ → σ

/-- The variables of the loop of `walkChain`. -/
structure WalkState (σ : Type) where
  prevHash : Sha256Digest
  expectedSeq : UInt64
  /-- The caller's state, changed by the visitor. -/
  visited : σ

/-- How the loop of `walkChain` ends. -/
inductive LoopExit (σ : Type) where
  /-- Through `fail`, at the entry at `pos`. -/
  | failed (status : RecoveryStatus) (pos : ℕ) (st : WalkState σ)
  /-- Otherwise, with `torn` and `current_pos`. -/
  | done (torn : Bool) (currentPos : ℤ) (st : WalkState σ)

variable {σ : Type}

/-- The visitor's turn at a verified entry. -/
def visit (visitor : Option (Visitor σ)) (minEpochExclusive : Option UInt64) (r : LogRecord)
    (s : σ) : σ :=
  match visitor with
  | none => s
  | some f =>
    if minEpochExclusive.all (· < r.epoch) then f r.type r.key r.value r.timestamp s else s

/-- The loop of `walkChain`. -/
def walkLoop (fd : Path) (stSize : ℕ) (visitor : Option (Visitor σ))
    (minEpochExclusive : Option UInt64) (pos : ℕ) (st : WalkState σ) : Io (LoopExit σ) :=
  if pos < stSize then do
    match ← walkEntry fd stSize pos st.prevHash st.expectedSeq with
    | .torn => ret (.done true pos st)
    | .failed status => ret (.failed status pos st)
    | .entry r computed => do
      let st' : WalkState σ := ⟨computed, st.expectedSeq + 1,
        visit visitor minEpochExclusive r st.visited⟩
      let told ← sys (.lseek fd 0 .cur)
      if told then walkLoop fd stSize visitor minEpochExclusive (pos + r.size) st'
      else ret (.done true (-1) st')
  else ret (.done false pos st)
termination_by stSize - pos
decreasing_by simp only [LogRecord.size, crcSize]; omega

/-- Verifies CRC, chain hash and sequence number of every entry and shows the entries to the
visitor; with `allowTruncate` a torn tail is cut off. -/
def walkChain (fd : Option Path) (visitor : Option (Visitor σ))
    (minEpochExclusive : Option UInt64) (allowTruncate : Bool) (s : σ) :
    Io (RecoveryResult × σ) :=
  match fd with
  | none => ret ({}, s)
  | some fd => do
    match ← sys (.fstat fd) with
    | none => ret ({}, s)
    | some stSize => do
      let sought ← sys (.lseek fd kHeaderSize .set)
      if sought then do
        match ← walkLoop fd stSize visitor minEpochExclusive kHeaderSize ⟨.zero, 0, s⟩ with
        | .failed status pos st =>
          ret (⟨status, st.expectedSeq, UInt64.ofNat pos, st.expectedSeq, st.prevHash⟩, st.visited)
        | .done torn currentPos st =>
          let result : RecoveryResult :=
            { entriesVerified := st.expectedSeq, headHash := st.prevHash }
          if torn then do
            let result := { result with status := .truncatedTail }
            if allowTruncate then do
              let _ ← sys (.ftruncate fd currentPos)
              let _ ← sys (.lseek fd 0 .fromEnd)
              ret (result, st.visited)
            else ret (result, st.visited)
          else ret (result, st.visited)
      else ret ({}, s)

/-- Replays valid entries into the visitor, skipping entries at or below `minEpochExclusive`, and
adopts the chain state of a log that verified. -/
def recover (wal : WAL) (visitor : Visitor σ) (minEpochExclusive : Option UInt64) (s : σ) :
    Io (RecoveryResult × WAL × σ) := do
  let (result, s) ← walkChain wal.fd (some visitor) minEpochExclusive true s
  if result.status = .ok ∨ result.status = .truncatedTail then
    ret (result, { wal with seq := result.entriesVerified, headHash := result.headHash }, s)
  else ret (result, wal, s)

/-- Read-only chain verification. -/
def verify (wal : WAL) : Io RecoveryResult := do
  let (result, _) ← walkChain wal.fd (none : Option (Visitor Unit)) none false ()
  ret result

end WAL

end LiteSpeedStore
