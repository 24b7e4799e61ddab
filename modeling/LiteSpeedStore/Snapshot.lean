import LiteSpeedStore.Crc32
import LiteSpeedStore.Posix
import LiteSpeedStore.Theory.Iteration

/-!
# Snapshots

`Snapshot.hpp` and `Snapshot.cpp`: an image of the store is written to a temporary file that is
renamed over the previous image.  The file is

```
magic | version | CRC32 | epoch | key_count | (key_len | key | record_count | record*)*
```

with a record `timestamp | duration | value_len | value`.  The order of the keys is that of a loop
over a hash map.  A position in the payload is modelled by the bytes from there on.

* `Snapshot.parse_fileBuf` : what `save` writes, in whatever order, `load` reads back.
* `Snapshot.wp_save`, `Snapshot.wp_load` : the rules of the two methods, for every failure.
-/

namespace LiteSpeedStore

open Prog

/-- A record of an image. -/
structure SnapshotRecord where
  value : Bytes
  /-- The bits of the duration. -/
  duration : UInt64
  /-- Nanoseconds since the epoch of the clock. -/
  timestamp : Int64
deriving DecidableEq

/-- The histories of the keys. -/
abbrev SnapshotState := Finmap fun _ : Bytes => List SnapshotRecord

/-- An image of the store. -/
structure SnapshotImage where
  /-- Log entries at or below this epoch are skipped on recovery. -/
  epoch : UInt64 := 0
  state : SnapshotState := ∅

namespace Snapshot

def magic : UInt32 := 0x534E4150
def version : UInt32 := 1
def offMagic : ℕ := 0
def offVersion : ℕ := offMagic + 4
def offCrc : ℕ := offVersion + 4
def headerSize : ℕ := offCrc + 4

/-- The least size of a record: timestamp, duration and value length. -/
def minRecordBytes : ℕ := 8 + 8 + 4

/-- The least size of a key: key length and record count. -/
def minKeyBytes : ℕ := 4 + 4

/-! ### Saving -/

/-- The turn of a record in `save`. -/
def putRecord (payload : Bytes) (rec : SnapshotRecord) : Bytes :=
  let payload := putLE64 payload rec.timestamp.toUInt64
  let payload := putLE64 payload rec.duration
  let payload := putLE32 payload (UInt32.ofNat rec.value.length)
  payload ++ rec.value

/-- The turn of a key in `save`. -/
def putKey (payload : Bytes) (entry : Σ _ : Bytes, List SnapshotRecord) : Bytes :=
  let ⟨key, records⟩ := entry
  let payload := putLE32 payload (UInt32.ofNat key.length)
  let payload := payload ++ key
  let payload := putLE32 payload (UInt32.ofNat records.length)
  records.foldl putRecord payload

/-- The payload, with the keys in the order of `it`. -/
def payload (image : SnapshotImage) (it : Iteration image.state) : Bytes :=
  let keyCount := UInt32.ofNat image.state.keys.card
  it.list.foldl putKey (putLE32 (putLE64 [] image.epoch) keyCount)

/-- The file. -/
def fileBuf (image : SnapshotImage) (it : Iteration image.state) : Bytes :=
  putLE32 (putLE32 (putLE32 [] magic) version) (CRC32.calculate (payload image it)) ++
    payload image it

/-- The directory that contains `path`. -/
def parentDir (path : Path) : Path :=
  match path.toList.reverse.dropWhile (· ≠ '/') with
  | [] => "."
  | dir =>
    match dir.dropWhile (· = '/') with
    | [] => "/"
    | dir => String.ofList dir.reverse

/-- Makes the rename durable. -/
def fsyncParentDir (path : Path) : Io Bool := do
  let dir := parentDir path
  let opened ← sys (.openDir dir)
  if opened then do
    let ok ← sys (.fsync dir)
    let _ ← sys (.close dir)
    ret ok
  else ret false

/-- The temporary file. -/
def tmpPath (path : Path) : Path := path ++ ".tmp"

/-- Writes the image to the temporary file and renames it to `path`. -/
def save (path : Path) (image : SnapshotImage) (it : Iteration image.state) : Io Bool := do
  let tmp := tmpPath path
  let opened ← sys (.openTrunc tmp)
  if opened then do
    let written ← writeExact tmp (fileBuf image it)
    if written then do
      let synced ← sys (.fsync tmp)
      if synced then do
        let closed ← sys (.close tmp)
        if closed then do
          let renamed ← sys (.rename tmp path)
          if renamed then fsyncParentDir path else ret false
        else ret false
      else do
        let _ ← sys (.close tmp)
        ret false
    else do
      let _ ← sys (.close tmp)
      ret false
  else ret false

/-! ### Loading -/

/-- Reads an integer at the current position. -/
def readLE32 (rest : Bytes) : Option (UInt32 × Bytes) :=
  if 4 > rest.length then none else some (getLE32 rest, rest.drop 4)

/-- Reads a 64-bit integer at the current position. -/
def readLE64 (rest : Bytes) : Option (UInt64 × Bytes) :=
  if 8 > rest.length then none else some (getLE64 rest, rest.drop 8)

/-- Reads this many records and adds them to those of the key. -/
def readRecords : ℕ → Bytes → List SnapshotRecord → Option (List SnapshotRecord × Bytes)
  | 0, rest, records => some (records, rest)
  | n + 1, rest, records => do
    let (rawTimestamp, rest) ← readLE64 rest
    let (rawDuration, rest) ← readLE64 rest
    let (valueLen, rest) ← readLE32 rest
    if valueLen.toNat > rest.length then none
    else
      let rec' : SnapshotRecord := ⟨rest.take valueLen.toNat, rawDuration, rawTimestamp.toInt64⟩
      readRecords n (rest.drop valueLen.toNat) (records ++ [rec'])

/-- Reads this many keys with their records. -/
def readKeys : ℕ → Bytes → SnapshotState → Option SnapshotState
  | 0, _, state => some state
  | n + 1, rest, state => do
    let (keyLen, rest) ← readLE32 rest
    if keyLen.toNat > rest.length then none
    else
      let key := rest.take keyLen.toNat
      let (recordCount, rest) ← readLE32 (rest.drop keyLen.toNat)
      -- a count that cannot be true is refused before memory is reserved for it
      if recordCount.toNat > rest.length / minRecordBytes then none
      else do
        let (records, rest) ← readRecords recordCount.toNat rest ((state.lookup key).getD [])
        readKeys n rest (state.insert key records)

/-- Checks and reads the bytes of a file; bytes behind the last key are not looked at. -/
def parse (file : Bytes) : Option SnapshotImage :=
  if file.length < headerSize then none
  else
    let storedCRC := getLE32 (file.drop offCrc)
    if getLE32 (file.drop offMagic) ≠ magic ∨ getLE32 (file.drop offVersion) ≠ version then none
    else
      let payload := file.drop headerSize
      if CRC32.calculate payload ≠ storedCRC then none
      else do
        let (epoch, rest) ← readLE64 payload
        let (keyCount, rest) ← readLE32 rest
        if keyCount.toNat > rest.length / minKeyBytes then none
        else do
          let state ← readKeys keyCount.toNat rest ∅
          some ⟨epoch, state⟩

/-- Reads the image at `path`; `none` if it is absent, truncated or corrupt. -/
def load (path : Path) : Io (Option SnapshotImage) := do
  let opened ← sys (.streamOpen path)
  if opened then do
    let file ← sys (.streamRead path)
    ret (parse file)
  else ret none

end Snapshot

/-! ### The round trip -/

namespace Snapshot

/-- The bytes of a record. -/
def recordBytes (rec : SnapshotRecord) : Bytes := putRecord [] rec

/-- The bytes of a key with its records. -/
def keyBytes (entry : Σ _ : Bytes, List SnapshotRecord) : Bytes := putKey [] entry

/-- Everything that is written as a 32-bit count or length fits one. -/
structure Fits (state : SnapshotState) : Prop where
  keys : state.keys.card < 2 ^ 32
  key : ∀ {key records}, state.lookup key = some records → key.length < 2 ^ 32
  records : ∀ {key records}, state.lookup key = some records → records.length < 2 ^ 32
  value : ∀ {key records}, state.lookup key = some records →
    ∀ rec ∈ records, rec.value.length < 2 ^ 32

/-- The lengths and counts of an entry fit 32 bits. -/
def FitsEntry (x : Σ _ : Bytes, List SnapshotRecord) : Prop :=
  x.1.length < 2 ^ 32 ∧ x.2.length < 2 ^ 32 ∧ ∀ rec ∈ x.2, rec.value.length < 2 ^ 32

/-- A state fits when the entries that a loop visits do. -/
theorem fits_iff {state : SnapshotState} (it : Iteration state) :
    Fits state ↔ it.list.length < 2 ^ 32 ∧ ∀ x ∈ it.list, FitsEntry x := by
  constructor
  · intro h
    refine ⟨by rw [it.length_list]; exact h.keys, fun x hx => ?_⟩
    have hlook := it.lookup_of_mem hx
    exact ⟨h.key hlook, h.records hlook, h.value hlook⟩
  · rintro ⟨hlen, hfits⟩
    refine ⟨by rw [← it.length_list]; exact hlen, fun h => ?_, fun h => ?_, fun h => ?_⟩
    · exact (hfits _ (it.mem_list_iff.2 h)).1
    · exact (hfits _ (it.mem_list_iff.2 h)).2.1
    · exact (hfits _ (it.mem_list_iff.2 h)).2.2

open LittleEndian

theorem putRecord_eq (p : Bytes) (rec : SnapshotRecord) :
    putRecord p rec = p ++ recordBytes rec := by
  simp only [recordBytes, putRecord, putLE64_eq, putLE32_eq, List.append_assoc, List.nil_append]

theorem foldl_putRecord (p : Bytes) (records : List SnapshotRecord) :
    records.foldl putRecord p = p ++ (records.map recordBytes).flatten := by
  induction records generalizing p with
  | nil => simp
  | cons rec records ih =>
    rw [List.foldl_cons, ih, putRecord_eq, List.append_assoc, List.map_cons, List.flatten_cons]

theorem recordBytes_append (rec : SnapshotRecord) (rest : Bytes) : recordBytes rec ++ rest =
    digits 8 rec.timestamp.toUInt64.toNat ++ (digits 8 rec.duration.toNat ++
      (digits 4 (UInt32.ofNat rec.value.length).toNat ++ (rec.value ++ rest))) := by
  simp only [recordBytes, putRecord, putLE64_eq, putLE32_eq, List.append_assoc, List.nil_append]

theorem keyBytes_append (entry : Σ _ : Bytes, List SnapshotRecord) (rest : Bytes) :
    keyBytes entry ++ rest = digits 4 (UInt32.ofNat entry.1.length).toNat ++ (entry.1 ++
      (digits 4 (UInt32.ofNat entry.2.length).toNat ++
        ((entry.2.map recordBytes).flatten ++ rest))) := by
  simp only [keyBytes, putKey, foldl_putRecord, putLE32_eq, List.append_assoc, List.nil_append]

theorem putKey_eq (p : Bytes) (entry : Σ _ : Bytes, List SnapshotRecord) :
    putKey p entry = p ++ keyBytes entry := by
  simp only [keyBytes, putKey, foldl_putRecord, putLE32_eq, List.append_assoc, List.nil_append]

theorem foldl_putKey (p : Bytes) (l : List (Σ _ : Bytes, List SnapshotRecord)) :
    l.foldl putKey p = p ++ (l.map keyBytes).flatten := by
  induction l generalizing p with
  | nil => simp
  | cons entry l ih =>
    rw [List.foldl_cons, ih, putKey_eq, List.append_assoc, List.map_cons, List.flatten_cons]

theorem readLE32_digits (v : UInt32) (rest : Bytes) :
    readLE32 (digits 4 v.toNat ++ rest) = some (v, rest) := by
  have hlen : (digits 4 v.toNat).length = 4 := length_digits 4 _
  rw [readLE32, if_neg (by rw [List.length_append, hlen]; omega), getLE32_digits_append,
    List.drop_left' hlen]

theorem readLE64_digits (v : UInt64) (rest : Bytes) :
    readLE64 (digits 8 v.toNat ++ rest) = some (v, rest) := by
  have hlen : (digits 8 v.toNat).length = 8 := length_digits 8 _
  rw [readLE64, if_neg (by rw [List.length_append, hlen]; omega), getLE64_digits_append,
    List.drop_left' hlen]

theorem toNat_length {n : ℕ} (h : n < 2 ^ 32) : (UInt32.ofNat n).toNat = n :=
  UInt32.toNat_ofNat_of_lt' h

/-- Records that were written are read back. -/
theorem readRecords_flatten {records : List SnapshotRecord}
    (h : ∀ rec ∈ records, rec.value.length < 2 ^ 32) (before : List SnapshotRecord) (rest : Bytes) :
    readRecords records.length ((records.map recordBytes).flatten ++ rest) before =
      some (before ++ records, rest) := by
  induction records generalizing before with
  | nil => simp [readRecords]
  | cons rec records ih =>
    have hlen := toNat_length (h rec List.mem_cons_self)
    rw [List.length_cons, readRecords, List.map_cons, List.flatten_cons, List.append_assoc,
      recordBytes_append, readLE64_digits]
    simp only [Option.bind_eq_bind, Option.bind_some, readLE64_digits, readLE32_digits]
    simp only [hlen]
    rw [if_neg (by rw [List.length_append]; omega), List.take_left, List.drop_left,
      ih fun rec' hrec' => h rec' (List.mem_cons_of_mem _ hrec')]
    simp

theorem length_recordBytes (rec : SnapshotRecord) : minRecordBytes ≤ (recordBytes rec).length := by
  have h := congrArg List.length (recordBytes_append rec [])
  simp only [List.append_nil, List.length_append, length_digits] at h
  rw [h, minRecordBytes]
  omega

theorem length_keyBytes (entry : Σ _ : Bytes, List SnapshotRecord) :
    minKeyBytes ≤ (keyBytes entry).length := by
  have h := congrArg List.length (keyBytes_append entry [])
  simp only [List.append_nil, List.length_append, length_digits] at h
  rw [h, minKeyBytes]
  omega

theorem length_flatten_ge {α : Type} {f : α → Bytes} {n : ℕ} (h : ∀ a, n ≤ (f a).length)
    (l : List α) : l.length * n ≤ (l.map f).flatten.length := by
  induction l with
  | nil => simp
  | cons a l ih =>
    have ha := h a
    rw [List.map_cons, List.flatten_cons, List.length_append, List.length_cons, Nat.succ_mul]
    omega

/-- The image of these entries: the records of a repeated key are put one after another. -/
def merge (entries : List (Σ _ : Bytes, List SnapshotRecord)) (state : SnapshotState) :
    SnapshotState :=
  entries.foldl (fun state x => state.insert x.1 ((state.lookup x.1).getD [] ++ x.2)) state

/-- Keys that were written are read back, and added to the state. -/
theorem readKeys_flatten {l : List (Σ _ : Bytes, List SnapshotRecord)}
    (h : ∀ x ∈ l, FitsEntry x) (state : SnapshotState) (rest : Bytes) :
    readKeys l.length ((l.map keyBytes).flatten ++ rest) state = some (merge l state) := by
  induction l generalizing state with
  | nil => simp [readKeys, merge]
  | cons x l ih =>
    obtain ⟨hkey, hrecords, hvalue⟩ := h x List.mem_cons_self
    have hcount := length_flatten_ge length_recordBytes x.2
    rw [List.length_cons, readKeys, List.map_cons, List.flatten_cons, List.append_assoc,
      keyBytes_append, readLE32_digits]
    simp only [Option.bind_eq_bind, Option.bind_some]
    rw [if_neg (by rw [List.length_append, toNat_length hkey]; omega),
      List.take_left' (toNat_length hkey).symm, List.drop_left' (toNat_length hkey).symm,
      readLE32_digits]
    simp only [Option.bind_some]
    rw [toNat_length hrecords]
    rw [if_neg (not_lt.2 ((Nat.le_div_iff_mul_le (by decide)).2 (hcount.trans (by
      rw [List.length_append]; omega)))), readRecords_flatten hvalue]
    simp only [Option.bind_some]
    rw [ih fun y hy => h y (List.mem_cons_of_mem _ hy)]
    rfl

/-- The entries of a map are merged to the map. -/
theorem merge_list {state : SnapshotState} (it : Iteration state) : merge it.list ∅ = state := by
  refine Finmap.ext_lookup fun key => ?_
  rw [merge, it.lookup_foldl fun _ records before => some (before.getD [] ++ records)]
  · cases state.lookup key <;> simp
  · intro m x k
    by_cases hk : k = x.1
    · subst hk
      rw [if_pos rfl, Finmap.lookup_insert]
    · rw [if_neg hk, Finmap.lookup_insert_of_ne _ hk]

/-- What `parse` does once the checksum is right. -/
def readPayload (payload : Bytes) : Option SnapshotImage := do
  let (epoch, rest) ← readLE64 payload
  let (keyCount, rest) ← readLE32 rest
  if keyCount.toNat > rest.length / minKeyBytes then none
  else do
    let state ← readKeys keyCount.toNat rest ∅
    some ⟨epoch, state⟩

theorem parse_eq (file : Bytes) : parse file =
    if file.length < headerSize then none
    else if getLE32 (file.drop offMagic) ≠ magic ∨ getLE32 (file.drop offVersion) ≠ version then
      none
    else if CRC32.calculate (file.drop headerSize) ≠ getLE32 (file.drop offCrc) then none
    else readPayload (file.drop headerSize) := rfl

/-- A payload behind the header that it should have. -/
def framed (payload : Bytes) : Bytes :=
  putLE32 (putLE32 (putLE32 [] magic) version) (CRC32.calculate payload) ++ payload

/-- The header says nothing of what the payload is. -/
theorem parse_framed (payload : Bytes) : parse (framed payload) = readPayload payload := by
  have hfile : framed payload = digits 4 magic.toNat ++ (digits 4 version.toNat ++
      (digits 4 (CRC32.calculate payload).toNat ++ payload)) := by
    simp only [framed, putLE32_eq, List.nil_append, List.append_assoc]
  have h4 : ∀ v : UInt32, (digits 4 v.toNat).length = 4 := fun v => length_digits 4 _
  have hversion : (framed payload).drop offVersion =
      digits 4 version.toNat ++ (digits 4 (CRC32.calculate payload).toNat ++ payload) := by
    rw [hfile]
    exact List.drop_left' (h4 _)
  have hcrc : (framed payload).drop offCrc =
      digits 4 (CRC32.calculate payload).toNat ++ payload := by
    rw [offCrc, ← List.drop_drop, hversion]
    exact List.drop_left' (h4 _)
  have hrest : (framed payload).drop headerSize = payload := by
    rw [headerSize, ← List.drop_drop, hcrc]
    exact List.drop_left' (h4 _)
  have hmagic : getLE32 ((framed payload).drop offMagic) = magic := by
    rw [offMagic, List.drop_zero, hfile, getLE32_digits_append]
  have hlen : ¬(framed payload).length < headerSize := by
    rw [hfile, headerSize, offCrc, offVersion, offMagic]
    simp only [List.length_append, h4]
    omega
  rw [parse_eq, if_neg hlen, hmagic, hversion, hcrc, hrest, getLE32_digits_append,
    getLE32_digits_append, if_neg (by simp), if_neg (not_not.2 rfl)]

/-- The bytes of these entries under an epoch. -/
def serialize (epoch : UInt64) (entries : List (Σ _ : Bytes, List SnapshotRecord)) : Bytes :=
  putLE32 (putLE64 [] epoch) (UInt32.ofNat entries.length) ++ (entries.map keyBytes).flatten

theorem payload_eq (image : SnapshotImage) (it : Iteration image.state) :
    payload image it = serialize image.epoch it.list := by
  rw [payload, foldl_putKey, serialize, it.length_list]

theorem serialize_append (epoch : UInt64) (entries : List (Σ _ : Bytes, List SnapshotRecord))
    (tail : Bytes) : serialize epoch entries ++ tail = digits 8 epoch.toNat ++
      (digits 4 (UInt32.ofNat entries.length).toNat ++
        ((entries.map keyBytes).flatten ++ tail)) := by
  simp only [serialize, putLE32_eq, putLE64_eq, List.nil_append, List.append_assoc]

/-- Entries that were written are read back, whatever follows them. -/
theorem readPayload_serialize {epoch : UInt64} {entries : List (Σ _ : Bytes, List SnapshotRecord)}
    (hlen : entries.length < 2 ^ 32) (hfits : ∀ x ∈ entries, FitsEntry x) (tail : Bytes) :
    readPayload (serialize epoch entries ++ tail) = some ⟨epoch, merge entries ∅⟩ := by
  have hcount := length_flatten_ge length_keyBytes entries
  rw [readPayload, serialize_append, readLE64_digits]
  simp only [Option.bind_eq_bind, Option.bind_some, readLE32_digits]
  rw [toNat_length hlen, if_neg (not_lt.2 ((Nat.le_div_iff_mul_le (by decide)).2 (hcount.trans
    (by rw [List.length_append]; omega)))), readKeys_flatten hfits]
  rfl

/-- The payload of an image is read back. -/
theorem readPayload_payload {image : SnapshotImage} (h : Fits image.state)
    (it : Iteration image.state) : readPayload (payload image it) = some image := by
  obtain ⟨hlen, hfits⟩ := (fits_iff it).1 h
  rw [payload_eq, ← List.append_nil (serialize _ _), readPayload_serialize hlen hfits, merge_list]

/-- **What `save` writes is read back**, in whatever order it visits the keys. -/
theorem parse_fileBuf {image : SnapshotImage} (h : Fits image.state) (it : Iteration image.state) :
    parse (fileBuf image it) = some image :=
  (parse_framed (payload image it)).trans (readPayload_payload h it)

end Snapshot

/-! ### The rules of the methods -/

/-- The files once the temporary file with these bytes has been renamed to `path`. -/
def FileSystem.renamed (fs : FileSystem) (path : Path) (file : Bytes) : FileSystem :=
  (fs.put (Snapshot.tmpPath path) file).move (Snapshot.tmpPath path) path

namespace Snapshot

theorem tmpPath_ne (path : Path) : tmpPath path ≠ path := by
  intro h
  have hlen := congrArg String.length h
  rw [tmpPath, String.length_append] at hlen
  have h4 : (".tmp" : String).length = 4 := rfl
  omega

theorem renamed_self (fs : FileSystem) (path : Path) (file : Bytes) :
    fs.renamed path file path = some file := by
  rw [FileSystem.renamed, FileSystem.move_dst (tmpPath_ne path).symm, FileSystem.put_self]

theorem renamed_of_ne {fs : FileSystem} {path q : Path} {file : Bytes} (hq : q ≠ path)
    (htmp : q ≠ tmpPath path) : fs.renamed path file q = fs q := by
  rw [FileSystem.renamed, FileSystem.move_of_ne htmp hq, FileSystem.put_of_ne htmp]

/-- A call of `save` up to the rename may fail. -/
def SaveFails (F : Faults) (path : Path) : Prop :=
  F.mayFail (.openTrunc (tmpPath path)) ∨ (∃ d, F.mayFail (.write (tmpPath path) d)) ∨
    F.mayFail (.fsync (tmpPath path)) ∨ F.mayFail (.close (tmpPath path)) ∨
    F.mayFail (.rename (tmpPath path) path)

/-- A call of `save` behind the rename may fail. -/
def SyncFails (F : Faults) (path : Path) : Prop :=
  F.mayFail (.openDir (parentDir path)) ∨ F.mayFail (.fsync (parentDir path))

section Rules

variable {F : Faults} {path : Path} {fs : FileSystem} {C : FileSystem → Prop}

theorem wp_fsyncParentDir {Q : Bool → FileSystem → Prop} (hC : C fs) (hok : Q true fs)
    (hfail : SyncFails F path → Q false fs) : wp F.env (fsyncParentDir path) Q C fs := by
  rw [fsyncParentDir]
  refine wp_sys rfl hC ?_ fun hmay r hr => ?_
  · simp only [posix, if_true]
    refine wp_sys rfl hC ?_ fun hmay r hr => ?_
    · exact wp_sys rfl hC ⟨hC, hok⟩ fun _ _ _ => ⟨hC, hok⟩
    · simp only [failed] at hr
      subst hr
      exact wp_sys rfl hC ⟨hC, hfail (.inr hmay)⟩ fun _ _ _ => ⟨hC, hfail (.inr hmay)⟩
  · simp only [failed] at hr
    subst hr
    exact ⟨hC, hfail (.inl hmay)⟩

/-- The rule of `save`: until the rename only the temporary file changes, and from the rename on the
new image is in place. -/
theorem wp_save {image : SnapshotImage} {it : Iteration image.state} {Q : Bool → FileSystem → Prop}
    (hC : ∀ fs', fs.SameBut (tmpPath path) fs' → C fs')
    (hCdone : C (fs.renamed path (fileBuf image it)))
    (hok : Q true (fs.renamed path (fileBuf image it)))
    (hfail : SaveFails F path → ∀ fs', fs.SameBut (tmpPath path) fs' → Q false fs')
    (hsync : SyncFails F path → Q false (fs.renamed path (fileBuf image it))) :
    wp F.env (save path image it) Q C fs := by
  have hC0 : C fs := hC _ (FileSystem.sameBut_refl _ _)
  have hCtmp : ∀ b, C (fs.put (tmpPath path) b) := fun b => hC _ (FileSystem.sameBut_put _ _ _)
  have hfail' : SaveFails F path → ∀ b, Q false (fs.put (tmpPath path) b) :=
    fun h b => hfail h _ (FileSystem.sameBut_put _ _ _)
  -- closing the temporary file before giving up
  have hclose : SaveFails F path → ∀ b, wp F.env (sys (.close (tmpPath path)) >>= fun _ => ret false)
      Q C (fs.put (tmpPath path) b) := fun h b =>
    wp_sys rfl (hCtmp b) ⟨hCtmp b, hfail' h b⟩ fun _ _ _ => ⟨hCtmp b, hfail' h b⟩
  rw [save]
  refine wp_sys rfl hC0 ?_ fun hmay r hr => ?_
  · simp only [posix, if_true]
    rw [wp_bind]
    refine wp_writeExact (FileSystem.put_self ..) (fun k _ => ?_) ?_ fun k _ _ hmay => ?_
    · rw [FileSystem.put_put]
      exact hCtmp _
    · rw [FileSystem.put_put, List.nil_append, if_pos rfl]
      refine wp_sys rfl (hCtmp _) ?_ fun hmay r hr => ?_
      · simp only [posix, if_true]
        refine wp_sys rfl (hCtmp _) ?_ fun hmay r hr => ?_
        · simp only [posix, if_true]
          refine wp_sys rfl (hCtmp _) ?_ fun hmay r hr => ?_
          · simp only [posix, FileSystem.put_self, Option.isSome_some, if_true]
            exact wp_fsyncParentDir hCdone hok hsync
          · simp only [failed] at hr
            subst hr
            exact ⟨hCtmp _, hfail' (.inr (.inr (.inr (.inr hmay)))) _⟩
        · simp only [failed] at hr
          subst hr
          exact ⟨hCtmp _, hfail' (.inr (.inr (.inr (.inl hmay)))) _⟩
      · simp only [failed] at hr
        subst hr
        rw [if_neg (by decide)]
        exact hclose (.inr (.inr (.inl hmay))) _
    · rw [FileSystem.put_put, if_neg (by decide)]
      exact hclose (.inr (.inl hmay)) _
  · simp only [failed] at hr
    subst hr
    exact ⟨hC0, hfail (.inl hmay) _ (FileSystem.sameBut_refl _ _)⟩

/-- The rule of `load`. -/
theorem wp_load {Q : Option SnapshotImage → FileSystem → Prop} (hC : C fs)
    (habsent : fs path = none → Q none fs)
    (hpresent : ∀ file, fs path = some file → Q (parse file) fs)
    (hopen : F.mayFail (.streamOpen path) → Q none fs)
    (hread : F.mayFail (.streamRead path) → ∀ file part, fs path = some file → part <+: file →
      Q (parse part) fs) : wp F.env (load path) Q C fs := by
  rw [load]
  refine wp_sys rfl hC ?_ fun hmay r hr => ?_
  · cases hfile : fs path with
    | none =>
      simp only [posix, hfile, Option.isSome_none]
      exact ⟨hC, habsent hfile⟩
    | some file =>
      simp only [posix, hfile, Option.isSome_some, if_true]
      refine wp_sys rfl hC ?_ fun hmay part hpart => ?_
      · simp only [posix, FileSystem.bytes_of_some hfile]
        exact ⟨hC, hpresent file hfile⟩
      · simp only [failed, FileSystem.bytes_of_some hfile] at hpart
        exact ⟨hC, hread hmay file part hfile hpart⟩
  · simp only [failed] at hr
    subst hr
    exact ⟨hC, hopen hmay⟩

end Rules

end Snapshot

theorem saveFails_none {path : Path} {n : ℕ} : ¬Snapshot.SaveFails (Faults.none n) path := by
  rintro (h | ⟨_, h⟩ | h | h | h) <;> exact Faults.none_mayFail h

theorem syncFails_none {path : Path} {n : ℕ} : ¬Snapshot.SyncFails (Faults.none n) path := by
  rintro (h | h) <;> exact Faults.none_mayFail h

/-- A save can always succeed. -/
theorem Snapshot.exec_save {F : Faults} {path : Path} {image : SnapshotImage} {fs : FileSystem}
    (it : Iteration image.state) :
    Exec F.env (save path image it) fs true (fs.renamed path (fileBuf image it)) := by
  have hw : wp (Faults.none 0).env (save path image it)
      (fun result fs' => (result, fs') = (true, fs.renamed path (fileBuf image it)))
      (fun _ => True) fs :=
    wp_save (fun _ _ => trivial) trivial rfl (fun h => absurd h saveFails_none)
      (fun h => absurd h syncFails_none)
  exact exec_of_run Faults.allows_posix (wp_run Faults.allows_posix hw)

end LiteSpeedStore
