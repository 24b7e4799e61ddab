import LiteSpeedStore.Snapshot
import LiteSpeedStore.Wal.Basic

/-!
# The cursor of `load`

`Snapshot.load` in `Snapshot.lean` works on the bytes from the current position on.  Here it is with
its 64-bit offset into the payload and the image it changes on its way: each access to the payload,
each computation with the offset and each reservation of memory is an `Action` of the program.

* `wp_readRecords`, `wp_readKeys` : the loops stay in bounds, reserve no more than they have passed
  over, and compute what `Snapshot.lean` says.
* `load_safe` : so does the loader, on any file.
* `loadFile_eq` : the loader computes `parse`.
-/

namespace LiteSpeedStore

namespace Snapshot

open Prog

/-! ### The loader -/

/-- What the loader does to the payload, to its offset and to memory. -/
inductive Action where
  /-- `getLE32(payload.data() + offset)`. -/
  | get32 (offset : UInt64)
  /-- `getLE64(payload.data() + offset)`. -/
  | get64 (offset : UInt64)
  /-- The bytes from `payload.data() + offset` are copied into a string. -/
  | copy (offset : UInt64) (len : UInt32)
  /-- `payload.size() - offset`. -/
  | remaining (offset : UInt64)
  /-- `offset += n`. -/
  | advance (offset n : UInt64)
  /-- `records.reserve(n)`. -/
  | reserve (n : UInt32)

namespace Action

/-- The answer of each action. -/
abbrev Res : Action → Type
  | get32 _ => UInt32
  | get64 _ | remaining _ | advance _ _ => UInt64
  | copy _ _ => Bytes
  | reserve _ => Unit

/-- The answers that a payload gives. -/
def answer (payload : Bytes) : (a : Action) → a.Res
  | get32 offset => getLE32 (payload.drop offset.toNat)
  | get64 offset => getLE64 (payload.drop offset.toNat)
  | copy offset len => (payload.drop offset.toNat).take len.toNat
  | remaining offset => UInt64.ofNat payload.length - offset
  | advance offset n => offset + n
  | reserve _ => ()

/-- The action stays inside the payload, and its arithmetic does not wrap. -/
def InBounds (payload : Bytes) : Action → Prop
  | get32 offset => offset.toNat + 4 ≤ payload.length
  | get64 offset => offset.toNat + 8 ≤ payload.length
  | copy offset len => offset.toNat + len.toNat ≤ payload.length
  | remaining offset => offset.toNat ≤ payload.length
  | advance offset n => offset.toNat + n.toNat ≤ payload.length
  | reserve _ => True

/-- The slots for records that the action asks for. -/
def slots : Action → ℕ
  | reserve n => n.toNat
  | _ => 0

end Action

/-- Programs over the actions. -/
abbrev Loader := Prog Action.Res

/-- The program that makes one action. -/
def act (a : Action) : Loader a.Res := perform a

namespace Cursor

variable (size : UInt64)

/-- Reads an integer at the offset. -/
def readLE32 (offset : UInt64) : Loader (Option (UInt32 × UInt64)) :=
  if offset + 4 > size then ret none
  else do
    let value ← act (.get32 offset)
    let offset ← act (.advance offset 4)
    ret (some (value, offset))

/-- Reads a 64-bit integer at the offset. -/
def readLE64 (offset : UInt64) : Loader (Option (UInt64 × UInt64)) :=
  if offset + 8 > size then ret none
  else do
    let value ← act (.get64 offset)
    let offset ← act (.advance offset 8)
    ret (some (value, offset))

/-- The loop over this many records of a key: whether all were read, the records of the key, and the
offset behind them. -/
def readRecords : ℕ → UInt64 → List SnapshotRecord → Loader (Bool × List SnapshotRecord × UInt64)
  | 0, offset, records => ret (true, records, offset)
  | n + 1, offset, records => do
    match ← readLE64 size offset with
    | none => ret (false, records, offset)
    | some (rawTimestamp, offset) => do
      match ← readLE64 size offset with
      | none => ret (false, records, offset)
      | some (rawDuration, offset) => do
        match ← readLE32 size offset with
        | none => ret (false, records, offset)
        | some (valueLen, offset) => do
          let rest ← act (.remaining offset)
          if valueLen.toUInt64 > rest then ret (false, records, offset)
          else do
            let value ← act (.copy offset valueLen)
            let offset ← act (.advance offset valueLen.toUInt64)
            readRecords n offset (records ++ [⟨value, rawDuration, rawTimestamp.toInt64⟩])

/-- The loop over this many keys: whether all were read, and the state. -/
def readKeys : ℕ → UInt64 → SnapshotState → Loader (Bool × SnapshotState)
  | 0, _, state => ret (true, state)
  | n + 1, offset, state => do
    match ← readLE32 size offset with
    | none => ret (false, state)
    | some (keyLen, offset) => do
      let rest ← act (.remaining offset)
      if keyLen.toUInt64 > rest then ret (false, state)
      else do
        let key ← act (.copy offset keyLen)
        let offset ← act (.advance offset keyLen.toUInt64)
        match ← readLE32 size offset with
        | none => ret (false, state)
        | some (recordCount, offset) => do
          let rest ← act (.remaining offset)
          if recordCount.toUInt64 > rest / UInt64.ofNat minRecordBytes then ret (false, state)
          else do
            let _ ← act (.reserve recordCount)
            let (ok, records, offset) ←
              readRecords size recordCount.toNat offset ((state.lookup key).getD [])
            let state := state.insert key records
            if ok then readKeys n offset state else ret (false, state)

/-- `load` once the checksum is right: whether the image was read, and the image. -/
def loadPayload (image : SnapshotImage) : Loader (Bool × SnapshotImage) := do
  match ← readLE64 size 0 with
  | none => ret (false, image)
  | some (epoch, offset) => do
    let image := { image with epoch }
    match ← readLE32 size offset with
    | none => ret (false, image)
    | some (keyCount, offset) => do
      let rest ← act (.remaining offset)
      if keyCount.toUInt64 > rest / UInt64.ofNat minKeyBytes then ret (false, image)
      else do
        let (ok, state) ← readKeys size keyCount.toNat offset ∅
        ret (ok, { image with state })

end Cursor

/-- The payload as the memory of the loader; the actions are noted down. -/
def memory (payload : Bytes) (a : Action) (trace : List Action) : a.Res × List Action :=
  (a.answer payload, trace ++ [a])

/-- The largest size of a vector of bytes. -/
def maxVectorSize : ℕ := 2 ^ 63 - 1

/-- `load` on the bytes of a file, and the actions it makes.  A payload that no vector can hold
makes the constructor of the vector throw. -/
def loadFile (file : Bytes) (image : SnapshotImage) :
    Except Exception (Bool × SnapshotImage) × List Action :=
  if file.length < headerSize then (.ok (false, image), [])
  else
    let magic' := getLE32 (file.drop offMagic)
    let version' := getLE32 (file.drop offVersion)
    let storedCRC := getLE32 (file.drop offCrc)
    if magic' ≠ magic ∨ version' ≠ version then (.ok (false, image), [])
    else
      let payload := file.drop headerSize
      if payload.length > maxVectorSize then (.error (.lengthError "vector"), [])
      else if CRC32.calculate payload ≠ storedCRC then (.ok (false, image), [])
      else
        let (result, trace) :=
          run (memory payload) (Cursor.loadPayload (UInt64.ofNat payload.length) image) []
        (.ok result, trace)

/-! ### In bounds -/

/-- The payload as an environment. -/
def memoryEnv (payload : Bytes) : Env Action.Res (List Action) where
  step a trace r trace' := (r, trace') = memory payload a trace

theorem allows_memory (payload : Bytes) : Env.Allows (memoryEnv payload) (memory payload) :=
  fun _ _ => rfl

/-- The actions so far stayed in bounds, and have asked for so many slots. -/
structure Sound (payload : Bytes) (k : ℕ) (trace : List Action) : Prop where
  inBounds : ∀ a ∈ trace, a.InBounds payload
  slots : (trace.map Action.slots).sum = k

section Rules

variable {payload : Bytes} {trace : List Action} {k : ℕ} {offset : UInt64}

theorem Sound.nil : Sound payload 0 [] := ⟨by simp, rfl⟩

theorem Sound.concat (h : Sound payload k trace) {a : Action} (ha : a.InBounds payload) :
    Sound payload (k + a.slots) (trace ++ [a]) := by
  refine ⟨List.forall_mem_append.2 ⟨h.inBounds, List.forall_mem_singleton.2 ha⟩, ?_⟩
  rw [List.map_append, List.sum_append, h.slots, List.map_singleton, List.sum_singleton]

/-- The rule of an action. -/
theorem wp_act {α : Type} {Q : α → List Action → Prop} {a : Action} {f : a.Res → Loader α}
    (h : wp (memoryEnv payload) (f (a.answer payload)) Q (fun _ => True) (trace ++ [a])) :
    wp (memoryEnv payload) (act a >>= f) Q (fun _ => True) trace := by
  refine ⟨trivial, fun r trace' hst => ?_⟩
  obtain ⟨rfl, rfl⟩ := Prod.ext_iff.1 hst
  exact h

theorem toNat_size (hlen : payload.length ≤ maxVectorSize) :
    (UInt64.ofNat payload.length).toNat = payload.length :=
  UInt64.toNat_ofNat_of_lt' (hlen.trans_lt (by decide))

/-- An offset in the payload can be moved by a small amount without wrapping. -/
theorem toNat_advance (hlen : payload.length ≤ maxVectorSize) (hoff : offset.toNat ≤ payload.length)
    {n : UInt64} (hn : n.toNat < 2 ^ 32) : (offset + n).toNat = offset.toNat + n.toNat := by
  rw [maxVectorSize] at hlen
  rw [UInt64.toNat_add, Nat.mod_eq_of_lt (by omega)]

theorem toNat_remaining (hlen : payload.length ≤ maxVectorSize)
    (hoff : offset.toNat ≤ payload.length) :
    (UInt64.ofNat payload.length - offset).toNat = payload.length - offset.toNat := by
  rw [UInt64.toNat_sub_of_le _ _ (UInt64.le_iff_toNat_le.2 (by rwa [toNat_size hlen])),
    toNat_size hlen]

/-- The rule of reading an integer of `n` bytes, if so many are left. -/
theorem wp_readWord {a : Action} {n : UInt64} {read : Option (a.Res × Bytes)}
    {Q : Option (a.Res × UInt64) → List Action → Prop} (hlen : payload.length ≤ maxVectorSize)
    (hoff : offset.toNat ≤ payload.length) (hsound : Sound payload k trace) (hn : n.toNat < 2 ^ 32)
    (hin : offset.toNat + n.toNat ≤ payload.length → a.InBounds payload) (hslots : a.slots = 0)
    (hread : read = if n.toNat > (payload.drop offset.toNat).length then none else
      some (a.answer payload, (payload.drop offset.toNat).drop n.toNat))
    (hnone : read = none → Q none trace)
    (hsome : ∀ v (offset' : UInt64) trace', read = some (v, payload.drop offset'.toNat) →
      offset'.toNat = offset.toNat + n.toNat → offset'.toNat ≤ payload.length →
      Sound payload k trace' → Q (some (v, offset')) trace') :
    wp (memoryEnv payload) (if offset + n > UInt64.ofNat payload.length then ret none else do
      let value ← act a
      let offset ← act (.advance offset n)
      ret (some (value, offset))) Q (fun _ => True) trace := by
  have hadd : (offset + n).toNat = offset.toNat + n.toNat := toNat_advance hlen hoff hn
  have hrest : (payload.drop offset.toNat).length = payload.length - offset.toNat :=
    List.length_drop
  split_ifs with hshort
  · refine ⟨trivial, hnone ?_⟩
    rw [gt_iff_lt, UInt64.lt_iff_toNat_lt, hadd, toNat_size hlen] at hshort
    rw [hread, if_pos (by omega)]
  · rw [gt_iff_lt, UInt64.lt_iff_toNat_lt, hadd, toNat_size hlen, not_lt] at hshort
    refine wp_act (wp_act ⟨trivial, hsome _ (offset + n) _ ?_ hadd (by omega) ?_⟩)
    · rw [hread, if_neg (by omega), List.drop_drop, hadd]
    · have hget := hsound.concat (hin hshort)
      rw [hslots, Nat.add_zero] at hget
      exact hget.concat (a := .advance offset n) hshort

theorem wp_readLE32 {Q : Option (UInt32 × UInt64) → List Action → Prop}
    (hlen : payload.length ≤ maxVectorSize) (hoff : offset.toNat ≤ payload.length)
    (hsound : Sound payload k trace)
    (hnone : readLE32 (payload.drop offset.toNat) = none → Q none trace)
    (hsome : ∀ v (offset' : UInt64) trace',
      readLE32 (payload.drop offset.toNat) = some (v, payload.drop offset'.toNat) →
      offset'.toNat = offset.toNat + 4 → offset'.toNat ≤ payload.length → Sound payload k trace' →
      Q (some (v, offset')) trace') :
    wp (memoryEnv payload) (Cursor.readLE32 (UInt64.ofNat payload.length) offset) Q (fun _ => True)
      trace :=
  wp_readWord (a := .get32 offset) (n := 4) hlen hoff hsound (by decide) id rfl rfl hnone hsome

theorem wp_readLE64 {Q : Option (UInt64 × UInt64) → List Action → Prop}
    (hlen : payload.length ≤ maxVectorSize) (hoff : offset.toNat ≤ payload.length)
    (hsound : Sound payload k trace)
    (hnone : readLE64 (payload.drop offset.toNat) = none → Q none trace)
    (hsome : ∀ v (offset' : UInt64) trace',
      readLE64 (payload.drop offset.toNat) = some (v, payload.drop offset'.toNat) →
      offset'.toNat = offset.toNat + 8 → offset'.toNat ≤ payload.length → Sound payload k trace' →
      Q (some (v, offset')) trace') :
    wp (memoryEnv payload) (Cursor.readLE64 (UInt64.ofNat payload.length) offset) Q (fun _ => True)
      trace :=
  wp_readWord (a := .get64 offset) (n := 8) hlen hoff hsound (by decide) id rfl rfl hnone hsome

/-- A length that was read is checked against the bytes that are left. -/
theorem lt_remaining_iff (hlen : payload.length ≤ maxVectorSize)
    (hoff : offset.toNat ≤ payload.length) (len : UInt32) :
    len.toUInt64 > Action.answer payload (.remaining offset) ↔
      len.toNat > (payload.drop offset.toNat).length := by
  rw [gt_iff_lt, UInt64.lt_iff_toNat_lt, UInt32.toNat_toUInt64, List.length_drop,
    ← toNat_remaining hlen hoff]
  rfl

/-- So is a count. -/
theorem lt_remaining_div_iff (hlen : payload.length ≤ maxVectorSize)
    (hoff : offset.toNat ≤ payload.length) (count : UInt32) {n : ℕ} (hn : n < 2 ^ 32) :
    count.toUInt64 > Action.answer payload (.remaining offset) / UInt64.ofNat n ↔
      count.toNat > (payload.drop offset.toNat).length / n := by
  have hsize : (UInt64.ofNat n).toNat = n :=
    UInt64.toNat_ofNat_of_lt' (hn.trans (by decide))
  rw [gt_iff_lt, UInt64.lt_iff_toNat_lt, UInt32.toNat_toUInt64, UInt64.toNat_div, hsize,
    List.length_drop, ← toNat_remaining hlen hoff]
  rfl

/-- The rule of the loop over the records of a key. -/
theorem wp_readRecords (n : ℕ) {records : List SnapshotRecord}
    (hlen : payload.length ≤ maxVectorSize) (hoff : offset.toNat ≤ payload.length)
    (hsound : Sound payload k trace) : wp (memoryEnv payload)
      (Cursor.readRecords (UInt64.ofNat payload.length) n offset records)
      (fun r trace' => Sound payload k trace' ∧
        (r.1 = true → readRecords n (payload.drop offset.toNat) records =
            some (r.2.1, payload.drop r.2.2.toNat) ∧
          offset.toNat + n * minRecordBytes ≤ r.2.2.toNat ∧ r.2.2.toNat ≤ payload.length) ∧
        (r.1 = false → readRecords n (payload.drop offset.toNat) records = none))
      (fun _ => True) trace := by
  induction n generalizing offset records trace with
  | zero =>
    refine ⟨trivial, hsound, fun _ => ⟨rfl, ?_, hoff⟩, fun h => ?_⟩
    · rw [Nat.zero_mul, Nat.add_zero]
    · cases h
  | succ n ih =>
    rw [Cursor.readRecords, wp_bind]
    refine wp_readLE64 hlen hoff hsound (fun hnone => ?_) fun ts o₁ t₁ h₁ ho₁ hle₁ hs₁ => ?_
    · refine ⟨trivial, hsound, fun h => ?_, fun _ => ?_⟩
      · cases h
      · rw [readRecords, hnone]
        rfl
    dsimp only
    rw [wp_bind]
    refine wp_readLE64 hlen hle₁ hs₁ (fun hnone => ?_) fun dur o₂ t₂ h₂ ho₂ hle₂ hs₂ => ?_
    · refine ⟨trivial, hs₁, fun h => ?_, fun _ => ?_⟩
      · cases h
      · rw [readRecords, h₁]
        simp only [Option.bind_eq_bind, Option.bind_some, hnone, Option.bind_none]
    dsimp only
    rw [wp_bind]
    refine wp_readLE32 hlen hle₂ hs₂ (fun hnone => ?_) fun len o₃ t₃ h₃ ho₃ hle₃ hs₃ => ?_
    · refine ⟨trivial, hs₂, fun h => ?_, fun _ => ?_⟩
      · cases h
      · rw [readRecords, h₁]
        simp only [Option.bind_eq_bind, Option.bind_some, h₂, hnone, Option.bind_none]
    -- what the loop on bytes does after these reads
    have hstep : readRecords (n + 1) (payload.drop offset.toNat) records =
        if len.toNat > (payload.drop o₃.toNat).length then none
        else readRecords n ((payload.drop o₃.toNat).drop len.toNat)
          (records ++ [⟨(payload.drop o₃.toNat).take len.toNat, dur, ts.toInt64⟩]) := by
      rw [readRecords, h₁]
      simp only [Option.bind_eq_bind, Option.bind_some, h₂, h₃]
    dsimp only
    refine wp_act ?_
    have hs₄ := hs₃.concat (a := .remaining o₃) hle₃
    split_ifs with hlong
    · rw [lt_remaining_iff hlen hle₃] at hlong
      refine ⟨trivial, hs₄, fun h => ?_, fun _ => ?_⟩
      · cases h
      · rw [hstep, if_pos hlong]
    · rw [lt_remaining_iff hlen hle₃] at hlong
      have hin : o₃.toNat + len.toNat ≤ payload.length := by
        rw [List.length_drop] at hlong
        omega
      have hin' : o₃.toNat + len.toUInt64.toNat ≤ payload.length := by rwa [UInt32.toNat_toUInt64]
      have hadd : (o₃ + len.toUInt64).toNat = o₃.toNat + len.toNat := by
        rw [toNat_advance hlen hle₃ (by rw [UInt32.toNat_toUInt64]; exact len.toNat_lt),
          UInt32.toNat_toUInt64]
      refine wp_act (wp_act ?_)
      have hs₅ := (hs₄.concat (a := .copy o₃ len) hin).concat (a := .advance o₃ len.toUInt64) hin'
      have hle₄ : (o₃ + len.toUInt64).toNat ≤ payload.length := hadd.trans_le hin
      refine wp_mono (@ih _ (o₃ + len.toUInt64) _ hle₄ hs₅) ?_ fun _ h => h
      rintro ⟨ok, records', offset'⟩ trace' ⟨hsound', htrue, hfalse⟩
      rw [hadd, ← List.drop_drop] at htrue hfalse
      rw [hstep, if_neg hlong]
      refine ⟨hsound', fun h => ?_, hfalse⟩
      obtain ⟨heq, hpassed, hle⟩ := htrue h
      refine ⟨heq, ?_, hle⟩
      rw [minRecordBytes] at hpassed ⊢
      omega

/-- The rule of the loop over the keys: the slots asked for are paid by the bytes passed over. -/
theorem wp_readKeys (n : ℕ) {state : SnapshotState} (hlen : payload.length ≤ maxVectorSize)
    (hoff : offset.toNat ≤ payload.length) (hsound : Sound payload k trace)
    (hk : k * minRecordBytes ≤ offset.toNat) : wp (memoryEnv payload)
      (Cursor.readKeys (UInt64.ofNat payload.length) n offset state)
      (fun r trace' => (∃ k', Sound payload k' trace' ∧ k' * minRecordBytes ≤ payload.length) ∧
        (r.1 = true → readKeys n (payload.drop offset.toNat) state = some r.2) ∧
        (r.1 = false → readKeys n (payload.drop offset.toNat) state = none))
      (fun _ => True) trace := by
  induction n generalizing offset state trace k with
  | zero =>
    refine ⟨trivial, ⟨k, hsound, hk.trans hoff⟩, fun _ => rfl, fun h => ?_⟩
    cases h
  | succ n ih =>
    rw [Cursor.readKeys, wp_bind]
    refine wp_readLE32 hlen hoff hsound (fun hnone => ?_) fun len o₁ t₁ h₁ ho₁ hle₁ hs₁ => ?_
    · refine ⟨trivial, ⟨k, hsound, hk.trans hoff⟩, fun h => ?_, fun _ => ?_⟩
      · cases h
      · rw [readKeys, hnone]
        rfl
    have hk₁ : k * minRecordBytes ≤ o₁.toNat := by omega
    dsimp only
    refine wp_act ?_
    have hs₂ : Sound payload k (t₁ ++ [.remaining o₁]) := hs₁.concat (a := .remaining o₁) hle₁
    split_ifs with hlong
    · rw [lt_remaining_iff hlen hle₁] at hlong
      refine ⟨trivial, ⟨k, hs₂, hk₁.trans hle₁⟩, fun h => ?_, fun _ => ?_⟩
      · cases h
      · rw [readKeys, h₁]
        simp only [Option.bind_eq_bind, Option.bind_some]
        rw [if_pos hlong]
    rw [lt_remaining_iff hlen hle₁] at hlong
    set key := (payload.drop o₁.toNat).take len.toNat with hkey
    have hin : o₁.toNat + len.toNat ≤ payload.length := by
      rw [List.length_drop] at hlong
      omega
    have hin' : o₁.toNat + len.toUInt64.toNat ≤ payload.length := by rwa [UInt32.toNat_toUInt64]
    have hadd : (o₁ + len.toUInt64).toNat = o₁.toNat + len.toNat := by
      rw [toNat_advance hlen hle₁ (by rw [UInt32.toNat_toUInt64]; exact len.toNat_lt),
        UInt32.toNat_toUInt64]
    refine wp_act (wp_act ?_)
    have hs₃ : Sound payload k
        (t₁ ++ [.remaining o₁] ++ [.copy o₁ len] ++ [.advance o₁ len.toUInt64]) :=
      (hs₂.concat (a := .copy o₁ len) hin).concat (a := .advance o₁ len.toUInt64) hin'
    rw [wp_bind]
    have hmoved : (Action.answer payload (.advance o₁ len.toUInt64)).toNat =
        o₁.toNat + len.toNat := hadd
    refine wp_readLE32 hlen (hmoved.trans_le hin) hs₃ (fun hnone => ?_)
      fun count o₂ t₂ h₂ ho₂ hle₂ hs₄ => ?_
    · rw [hmoved, ← List.drop_drop] at hnone
      refine ⟨trivial, ⟨k, hs₃, (hk₁.trans hle₁)⟩, fun h => ?_, fun _ => ?_⟩
      · cases h
      · rw [readKeys, h₁]
        simp only [Option.bind_eq_bind, Option.bind_some]
        rw [if_neg hlong, hnone]
        rfl
    rw [hmoved, ← List.drop_drop] at h₂
    -- what the loop on bytes does after these reads
    have hstep : readKeys (n + 1) (payload.drop offset.toNat) state =
        if count.toNat > (payload.drop o₂.toNat).length / minRecordBytes then none
        else (readRecords count.toNat (payload.drop o₂.toNat) ((state.lookup key).getD [])).bind
          fun x => readKeys n x.2 (state.insert key x.1) := by
      rw [readKeys, h₁]
      simp only [Option.bind_eq_bind, Option.bind_some]
      rw [if_neg hlong, h₂]
      rfl
    have hk₂ : k * minRecordBytes ≤ o₂.toNat := by omega
    dsimp only
    refine wp_act ?_
    have hs₅ : Sound payload k (t₂ ++ [.remaining o₂]) := hs₄.concat (a := .remaining o₂) hle₂
    split_ifs with hmany
    · rw [lt_remaining_div_iff hlen hle₂ _ (by decide)] at hmany
      refine ⟨trivial, ⟨k, hs₅, hk₂.trans hle₂⟩, fun h => ?_, fun _ => ?_⟩
      · cases h
      · rw [hstep, if_pos hmany]
    rw [lt_remaining_div_iff hlen hle₂ _ (by decide), not_lt] at hmany
    refine wp_act ?_
    have hs₆ : Sound payload (k + count.toNat) (t₂ ++ [.remaining o₂] ++ [.reserve count]) :=
      hs₅.concat (a := .reserve count) trivial
    rw [wp_bind]
    refine wp_mono (wp_readRecords count.toNat hlen hle₂ hs₆) ?_ fun _ h => h
    rintro ⟨ok, records, o₃⟩ t₃ ⟨hs₇, htrue, hfalse⟩
    cases ok with
    | true =>
      obtain ⟨-, hpassed, hle₃⟩ := htrue rfl
      have hread : readRecords count.toNat (payload.drop o₂.toNat) ((state.lookup key).getD []) =
          some (records, payload.drop o₃.toNat) := (htrue rfl).1
      rw [if_pos rfl]
      refine wp_mono (ih hle₃ hs₇ ?_) ?_ fun _ h => h
      · calc (k + count.toNat) * minRecordBytes
            = k * minRecordBytes + count.toNat * minRecordBytes := Nat.add_mul _ _ _
          _ ≤ o₂.toNat + count.toNat * minRecordBytes := Nat.add_le_add_right hk₂ _
          _ ≤ o₃.toNat := hpassed
      rintro r t₄ ⟨hbound, hrest⟩
      rw [hstep, if_neg (not_lt.2 hmany), hread]
      exact ⟨hbound, hrest⟩
    | false =>
      refine ⟨trivial, ⟨_, hs₇, ?_⟩, fun h => ?_, fun _ => ?_⟩
      · -- the check of the count pays for its slots
        have hpaid := (Nat.le_div_iff_mul_le (by decide)).1 hmany
        rw [List.length_drop] at hpaid
        rw [Nat.add_mul]
        omega
      · cases h
      · have hread : readRecords count.toNat (payload.drop o₂.toNat)
            ((state.lookup key).getD []) = none := hfalse rfl
        rw [hstep, if_neg (not_lt.2 hmany), hread]
        rfl

/-- The rule of the loader, once the checksum is right. -/
theorem wp_loadPayload (hlen : payload.length ≤ maxVectorSize) (image : SnapshotImage) :
    wp (memoryEnv payload) (Cursor.loadPayload (UInt64.ofNat payload.length) image)
      (fun r trace' => (∃ k, Sound payload k trace' ∧ k * minRecordBytes ≤ payload.length) ∧
        (r.1 = true → readPayload payload = some r.2) ∧
        (r.1 = false → readPayload payload = none)) (fun _ => True) [] := by
  rw [Cursor.loadPayload, wp_bind]
  have hs₀ : Sound payload 0 [] := Sound.nil
  have hle₀ : (0 : UInt64).toNat ≤ payload.length := Nat.zero_le _
  refine wp_readLE64 hlen hle₀ hs₀ (fun hnone => ?_)
    fun epoch o₁ t₁ h₁ _ hle₁ hs₁ => ?_
  · refine ⟨trivial, ⟨0, hs₀, by simp⟩, fun h => ?_, fun _ => ?_⟩
    · cases h
    · rw [readPayload, show readLE64 payload = none from hnone]
      rfl
  replace h₁ : readLE64 payload = some (epoch, payload.drop o₁.toNat) := h₁
  dsimp only
  rw [wp_bind]
  refine wp_readLE32 hlen hle₁ hs₁ (fun hnone => ?_) fun count o₂ t₂ h₂ _ hle₂ hs₂ => ?_
  · refine ⟨trivial, ⟨0, hs₁, by simp⟩, fun h => ?_, fun _ => ?_⟩
    · cases h
    · rw [readPayload, h₁]
      simp only [Option.bind_eq_bind, Option.bind_some, hnone, Option.bind_none]
  -- what is left once the two counts are read
  have hstep : readPayload payload =
      if count.toNat > (payload.drop o₂.toNat).length / minKeyBytes then none
      else (readKeys count.toNat (payload.drop o₂.toNat) ∅).map fun state => ⟨epoch, state⟩ := by
    rw [readPayload, h₁]
    simp only [Option.bind_eq_bind, Option.bind_some, h₂, Option.map_eq_bind]
    rfl
  dsimp only
  refine wp_act ?_
  have hs₃ : Sound payload 0 (t₂ ++ [.remaining o₂]) := hs₂.concat (a := .remaining o₂) hle₂
  split_ifs with hmany
  · rw [lt_remaining_div_iff hlen hle₂ _ (by decide)] at hmany
    refine ⟨trivial, ⟨0, hs₃, by simp⟩, fun h => ?_, fun _ => ?_⟩
    · cases h
    · rw [hstep, if_pos hmany]
  rw [lt_remaining_div_iff hlen hle₂ _ (by decide)] at hmany
  rw [wp_bind]
  refine wp_mono (wp_readKeys count.toNat hlen hle₂ hs₃ (by simp)) ?_ fun _ h => h
  rintro ⟨ok, state⟩ t₃ ⟨hbound, htrue, hfalse⟩
  refine ⟨trivial, hbound, fun h => ?_, fun h => ?_⟩
  · rw [hstep, if_neg hmany, htrue h]
    rfl
  · rw [hstep, if_neg hmany, hfalse h]
    rfl

end Rules

/-- **The loader is safe on any bytes**: every read lies in the payload, no offset leaves it, no
difference wraps, and all reservations of a load together ask for no more slots than the payload has
room for records. -/
theorem load_safe (file : Bytes) (image : SnapshotImage) :
    (∀ a ∈ (loadFile file image).2, a.InBounds (file.drop headerSize)) ∧
      ((loadFile file image).2.map Action.slots).sum ≤
        (file.drop headerSize).length / minRecordBytes := by
  have hnone : (∀ a ∈ ([] : List Action), a.InBounds (file.drop headerSize)) ∧
      (([] : List Action).map Action.slots).sum ≤ (file.drop headerSize).length / minRecordBytes :=
    ⟨by simp, by simp⟩
  rw [loadFile]
  dsimp only
  split_ifs with hshort hmagic hhuge hcrc
  · exact hnone
  · exact hnone
  · exact hnone
  · exact hnone
  obtain ⟨⟨k, hsound, hk⟩, -⟩ :=
    wp_run (allows_memory _) (wp_loadPayload (not_lt.1 hhuge) image)
  refine ⟨hsound.inBounds, ?_⟩
  rw [hsound.slots]
  exact (Nat.le_div_iff_mul_le (by decide)).2 hk

/-- The loader computes what `parse` says, whatever the image was before. -/
theorem loadFile_eq {file : Bytes} (h : (file.drop headerSize).length ≤ maxVectorSize)
    (image : SnapshotImage) :
    ∃ image', (loadFile file image).1 = .ok ((parse file).isSome, image') ∧
      ∀ loaded, parse file = some loaded → image' = loaded := by
  rw [parse_eq, loadFile]
  dsimp only
  by_cases hshort : file.length < headerSize
  · rw [if_pos hshort, if_pos hshort]
    exact ⟨image, rfl, by simp⟩
  rw [if_neg hshort, if_neg hshort]
  by_cases hmagic : getLE32 (file.drop offMagic) ≠ magic ∨ getLE32 (file.drop offVersion) ≠ version
  · rw [if_pos hmagic, if_pos hmagic]
    exact ⟨image, rfl, by simp⟩
  rw [if_neg hmagic, if_neg hmagic, if_neg (not_lt.2 h)]
  by_cases hcrc : CRC32.calculate (file.drop headerSize) ≠ getLE32 (file.drop offCrc)
  · rw [if_pos hcrc, if_pos hcrc]
    exact ⟨image, rfl, by simp⟩
  rw [if_neg hcrc, if_neg hcrc]
  obtain ⟨-, htrue, hfalse⟩ := wp_run (allows_memory _) (wp_loadPayload h image)
  cases hread : (run (memory (file.drop headerSize)) (Cursor.loadPayload
    (UInt64.ofNat (file.drop headerSize).length) image) []).1 with
  | mk ok loaded =>
    rw [hread] at htrue hfalse
    cases ok with
    | true =>
      rw [htrue rfl]
      exact ⟨loaded, rfl, fun _ h => Option.some_injective _ h⟩
    | false =>
      rw [hfalse rfl]
      exact ⟨loaded, rfl, by simp⟩

/-! ### The round trip of the files -/

/-- `load` with the image that it changes. -/
def loadInto (path : Path) (image : SnapshotImage) :
    Io (Except Exception (Bool × SnapshotImage)) := do
  let opened ← sys (.streamOpen path)
  if opened then do
    let file ← sys (.streamRead path)
    ret (loadFile file image).1
  else ret (.ok (false, image))

/-- `save` with the vectors it fills: a file that no vector can hold makes them throw. -/
def saveFrom (path : Path) (image : SnapshotImage) (it : Iteration image.state) :
    Io (Except Exception Bool) :=
  if (fileBuf image it).length > maxVectorSize then ret (.error (.lengthError "vector"))
  else do
    let saved ← save path image it
    ret (.ok saved)

/-- A save that answers `true` has put the image in place. -/
theorem exec_saveFrom {F : Faults} {path : Path} {image : SnapshotImage}
    {it : Iteration image.state} {fs fs' : FileSystem}
    (hsave : Exec F.env (saveFrom path image it) fs (.ok true) fs') :
    (fileBuf image it).length ≤ maxVectorSize ∧ fs' = fs.renamed path (fileBuf image it) := by
  rw [saveFrom] at hsave
  split_ifs at hsave with hhuge
  · cases hsave
  · obtain ⟨saved, fs₁, hx, hret⟩ := exec_bind.1 hsave
    cases hret
    refine ⟨not_lt.1 hhuge, ?_⟩
    exact wp_exec (Q := fun ok fs₂ => ok = true → fs₂ = fs.renamed path (fileBuf image it))
      (C := fun _ => True) (wp_save (fun _ _ => trivial) trivial (fun _ => rfl)
        (fun _ _ _ h => by cases h) fun _ h => by cases h) hx rfl

/-- **What `save` writes, `load` reads back**, whatever the order of the keys and whatever the image
that is loaded into. -/
theorem load_save {F F' : Faults} {path : Path} {image : SnapshotImage}
    {it : Iteration image.state} {fs fs' : FileSystem} (h : Fits image.state)
    (hsave : Exec F.env (saveFrom path image it) fs (.ok true) fs')
    (hopen : ¬F'.mayFail (.streamOpen path)) (hread : ¬F'.mayFail (.streamRead path))
    (out : SnapshotImage) (r : Except Exception (Bool × SnapshotImage)) (fs'' : FileSystem) :
    Exec F'.env (loadInto path out) fs' r fs'' ↔ r = .ok (true, image) ∧ fs'' = fs' := by
  obtain ⟨hlen, rfl⟩ := exec_saveFrom hsave
  set file := fileBuf image it
  have hfile : fs.renamed path file path = some file := renamed_self ..
  have hload : (loadFile file out).1 = .ok (true, image) := by
    have hsize : (file.drop headerSize).length ≤ maxVectorSize := by
      rw [List.length_drop]
      omega
    obtain ⟨image', heq, hloaded⟩ := loadFile_eq hsize out
    rw [parse_fileBuf h it] at heq hloaded
    rw [heq, hloaded image rfl]
    rfl
  have hw : wp F'.env (loadInto path out)
      (fun r fs'' => r = .ok (true, image) ∧ fs'' = fs.renamed path file) (fun _ => True)
      (fs.renamed path file) := by
    rw [loadInto]
    refine wp_sys_ok hopen rfl trivial ?_
    simp only [posix, hfile, Option.isSome_some, if_true]
    refine wp_sys_ok hread rfl trivial ?_
    simp only [posix, FileSystem.bytes_of_some hfile]
    exact ⟨trivial, hload, rfl⟩
  constructor
  · exact wp_exec hw
  · rintro ⟨rfl, rfl⟩
    obtain ⟨hr, hfs⟩ := wp_run Faults.allows_posix hw
    exact exec_of_run Faults.allows_posix (Prod.ext hr hfs)

/-- An image that vectors hold is saved, whatever else could fail. -/
theorem exec_saveFrom_true {F : Faults} {path : Path} {image : SnapshotImage}
    {it : Iteration image.state} {fs : FileSystem}
    (h : (fileBuf image it).length ≤ maxVectorSize) :
    Exec F.env (saveFrom path image it) fs (.ok true) (fs.renamed path (fileBuf image it)) := by
  rw [saveFrom, if_neg (not_lt.2 h)]
  exact exec_bind.2 ⟨true, _, exec_save it, .ret _ _⟩

theorem load_save_singleton : let records : List SnapshotRecord := [⟨[118], 0, -1⟩, ⟨[], 1, 2⟩]
    Exec (Faults.none 0).env (loadInto "a.snap" {}) (FileSystem.renamed (fun _ => none) "a.snap"
        (fileBuf ⟨7, Finmap.singleton [107] records⟩ ⟨[⟨[107], records⟩], rfl⟩))
      (.ok (true, ⟨7, Finmap.singleton [107] records⟩))
      (FileSystem.renamed (fun _ => none) "a.snap"
        (fileBuf ⟨7, Finmap.singleton [107] records⟩ ⟨[⟨[107], records⟩], rfl⟩)) := by
  intro records
  have hlookup : ∀ {key} {found : List SnapshotRecord},
      Finmap.lookup key (Finmap.singleton [107] records : SnapshotState) = some found →
      key = [107] ∧ found = records := by
    intro key found h
    have hmem := Finmap.mem_of_lookup_eq_some h
    obtain rfl : key = [107] := (Finmap.mem_singleton ..).1 hmem
    rw [Finmap.lookup_singleton_eq] at h
    exact ⟨rfl, (Option.some_injective _ h).symm⟩
  have hlen : (fileBuf ⟨7, Finmap.singleton [107] records⟩ ⟨[⟨[107], records⟩], rfl⟩).length ≤
      maxVectorSize := by
    simp [fileBuf, payload, putKey, putRecord, records, maxVectorSize]
  have hfits : Fits (Finmap.singleton [107] records) := by
    refine ⟨by simp [Finmap.keys_singleton], fun h => ?_, fun h => ?_, fun h => ?_⟩ <;>
      obtain ⟨rfl, rfl⟩ := hlookup h <;> simp [records]
  exact (load_save hfits (exec_saveFrom_true (F := Faults.none 0) hlen) Faults.none_mayFail
    Faults.none_mayFail {} _ _).2 ⟨rfl, rfl⟩

end Snapshot

end LiteSpeedStore
