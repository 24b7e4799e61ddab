import LiteSpeedStore.Engine.Basic
import LiteSpeedStore.Wal.Reader

/-!
# What the log and the snapshot say about the data

A `Mutation` is a change of the histories.  `set` and `remove` write it into the log as an entry,
and replaying the entry makes the change again; saving the histories and loading them gives them
back.

* `replayEntry_entry` : replaying the entry of a mutation applies the mutation.
* `Good.apply` : a mutation within the limits keeps the histories nonempty and within the cap.
* `import_export` : loading a saved image gives the histories that were saved.
-/

namespace LiteSpeedStore

/-- A change of the histories. -/
inductive Mutation where
  | put (key : Bytes) (record : Record)
  | delete (key : Bytes) (timestamp : Int64)
deriving DecidableEq

namespace Mutation

/-- The histories after the change. -/
def apply (maxHistoryPerKey : ℕ) (data : Data) : Mutation → Data
  | .put key record => appendCapped maxHistoryPerKey data key record
  | .delete key _ => data.erase key

/-- The entry that records the change. -/
def entry (host : ByteOrder) (epoch : UInt64) : Mutation → LogRecord
  | .put key record =>
    ⟨.put, key, serialize host record.duration record.value, record.timestamp, epoch⟩
  | .delete key timestamp => ⟨.delete, key, [], timestamp, epoch⟩

/-- The change is within the limits of `set` and `append`. -/
def Fits : Mutation → Prop
  | .put key record =>
    key.length ≤ kMaxFieldSize.toNat ∧ record.value.length ≤ kMaxValueSize
  | .delete key _ => key.length ≤ kMaxFieldSize.toNat

instance (μ : Mutation) : Decidable μ.Fits := by
  cases μ <;> unfold Fits <;> infer_instance

@[simp] theorem entry_epoch (host : ByteOrder) (epoch : UInt64) (μ : Mutation) :
    (μ.entry host epoch).epoch = epoch := by
  cases μ <;> rfl

end Mutation

/-- A call on an engine. -/
inductive Op where
  | set (key value : Bytes) (duration : UInt64) (now : Int64)
  | remove (key : Bytes) (now : Int64)
  | snapshot
  | recover
deriving DecidableEq

namespace Op

/-- The change that the call makes. -/
def mutation : Op → Option Mutation
  | set key value duration now => some (.put key ⟨value, duration, now⟩)
  | remove key now => some (.delete key now)
  | snapshot | recover => none

/-- What the call returns: `remove` whether the key was present. -/
def answer (data : Data) : Op → Option Bool
  | remove key _ => some (data.lookup key).isSome
  | set .. | snapshot | recover => none

end Op

/-- The program of a call. -/
def StorageEngine.call (host : ByteOrder) (orders : StorageEngine.Orders) (engine : StorageEngine) :
    Op → Io (Except Exception (Option Bool) × StorageEngine)
  | .set key value duration now => do
    let (result, engine) ← engine.set host key value duration now
    Prog.ret (result.map fun _ => none, engine)
  | .remove key now => do
    let (result, engine) ← engine.remove key now
    Prog.ret (result.map some, engine)
  | .snapshot => do
    let (result, engine) ← engine.snapshot orders
    Prog.ret (result.map fun _ => none, engine)
  | .recover => do
    let (result, engine) ← engine.recover host orders
    Prog.ret (result.map fun _ => none, engine)

/-! ### Entries -/

section Entries

variable {host : ByteOrder} {maxHistoryPerKey : ℕ}

@[simp] theorem length_bytesOf (v : UInt64) : (host.bytesOf v).length = 8 := by
  cases host <;> simp [ByteOrder.bytesOf]

theorem valueOf_bytesOf (v : UInt64) (rest : Bytes) :
    host.valueOf (host.bytesOf v ++ rest) = v := by
  have hget : getLE64 (putLE64 [] v) = v := by
    rw [putLE64_eq, List.nil_append, ← List.append_nil (LittleEndian.digits 8 _),
      getLE64_digits_append]
  have htake : (host.bytesOf v ++ rest).take 8 = host.bytesOf v :=
    List.take_left' (length_bytesOf v)
  cases host with
  | little => rw [ByteOrder.valueOf, htake, ByteOrder.bytesOf, hget]
  | big => rw [ByteOrder.valueOf, htake, ByteOrder.bytesOf, List.reverse_reverse, hget]

/-- A duration and a value are read back from an entry written on a machine of one byte order. -/
theorem deserialize_serialize (duration : UInt64) (value : Bytes) :
    deserialize host (serialize host duration value) = (duration, value) := by
  have hlen : ¬(serialize host duration value).length < 8 := by
    rw [serialize, List.length_append, length_bytesOf]
    omega
  rw [deserialize, if_neg hlen, serialize, valueOf_bytesOf, List.drop_left' (length_bytesOf _)]

/-- **Replaying the entry of a mutation applies the mutation.** -/
theorem replayEntry_entry (epoch : UInt64) (μ : Mutation) (data : Data) :
    replayEntry host maxHistoryPerKey (μ.entry host epoch).type (μ.entry host epoch).key
      (μ.entry host epoch).value (μ.entry host epoch).timestamp data =
      μ.apply maxHistoryPerKey data := by
  cases μ with
  | put key record =>
    simp only [Mutation.entry, replayEntry, if_true, deserialize_serialize]
    rfl
  | delete key timestamp => rfl

theorem entry_fits {μ : Mutation} (h : μ.Fits) (epoch : UInt64) : (μ.entry host epoch).Fits := by
  cases μ with
  | put key record =>
    obtain ⟨hkey, hvalue⟩ := h
    refine ⟨hkey, ?_⟩
    rw [kMaxValueSize, kMaxFieldSize_toNat] at hvalue
    simp only [Mutation.entry, serialize, List.length_append, length_bytesOf, kMaxFieldSize_toNat]
    omega
  | delete key timestamp => exact ⟨h, Nat.zero_le _⟩

end Entries

/-! ### Histories -/

/-- A history with one more record, and without its oldest one past the cap. -/
def appendHistory (maxHistoryPerKey : ℕ) (history : List Record) (record : Record) : List Record :=
  (if maxHistoryPerKey ≠ kUnlimitedHistory ∧ history.length ≥ maxHistoryPerKey then history.drop 1
    else history) ++ [record]

/-- The histories are nonempty and within the cap, and their keys and values can have been
written. -/
structure Good (maxHistoryPerKey : ℕ) (data : Data) : Prop where
  nonempty : ∀ {key history}, data.lookup key = some history → history ≠ []
  capped : ∀ {key history}, data.lookup key = some history →
    maxHistoryPerKey = kUnlimitedHistory ∨ history.length ≤ maxHistoryPerKey
  key : ∀ {key history}, data.lookup key = some history → key.length ≤ kMaxFieldSize.toNat
  value : ∀ {key history}, data.lookup key = some history →
    ∀ record ∈ history, record.value.length ≤ kMaxValueSize

/-- The histories are nonempty and within the cap, and the lengths of their keys and values fit 32
bits. -/
structure Storable (maxHistoryPerKey : ℕ) (data : Data) : Prop where
  nonempty : ∀ {key history}, data.lookup key = some history → history ≠ []
  capped : ∀ {key history}, data.lookup key = some history →
    maxHistoryPerKey = kUnlimitedHistory ∨ history.length ≤ maxHistoryPerKey
  key : ∀ {key history}, data.lookup key = some history → key.length < 2 ^ 32
  value : ∀ {key history}, data.lookup key = some history →
    ∀ record ∈ history, record.value.length < 2 ^ 32

section Histories

variable {maxHistoryPerKey : ℕ} {data : Data}

theorem lookup_appendCapped (data : Data) (key key' : Bytes) (record : Record) :
    (appendCapped maxHistoryPerKey data key record).lookup key' =
      if key' = key then
        some (appendHistory maxHistoryPerKey ((data.lookup key').getD []) record)
      else data.lookup key' := by
  by_cases hk : key' = key
  · subst hk
    rw [if_pos rfl, appendCapped, Finmap.lookup_insert]
    rfl
  · rw [if_neg hk, appendCapped, Finmap.lookup_insert_of_ne _ hk]

theorem lookup_erase (data : Data) (key key' : Bytes) :
    (data.erase key).lookup key' = if key' = key then none else data.lookup key' := by
  by_cases hk : key' = key
  · subst hk
    rw [if_pos rfl, Finmap.lookup_erase]
  · rw [if_neg hk, Finmap.lookup_erase_ne hk]

theorem length_appendHistory (history : List Record) (record : Record)
    (h : maxHistoryPerKey = kUnlimitedHistory ∨ history.length ≤ maxHistoryPerKey) :
    maxHistoryPerKey = kUnlimitedHistory ∨
      (appendHistory maxHistoryPerKey history record).length ≤ maxHistoryPerKey := by
  refine or_iff_not_imp_left.2 fun hcap => ?_
  have hle := h.resolve_left hcap
  have hpos : 0 < maxHistoryPerKey := Nat.pos_of_ne_zero hcap
  rw [appendHistory]
  split_ifs with hfull
  · rw [List.length_append, List.length_drop, List.length_singleton]
    omega
  · rw [not_and, not_le] at hfull
    rw [List.length_append, List.length_singleton]
    exact hfull hcap

theorem mem_appendHistory {history : List Record} {record r : Record}
    (h : r ∈ appendHistory maxHistoryPerKey history record) : r ∈ history ∨ r = record := by
  rw [appendHistory, List.mem_append, List.mem_singleton] at h
  refine h.imp_left fun hr => ?_
  split_ifs at hr
  · exact List.mem_of_mem_drop hr
  · exact hr

theorem Good.empty : Good maxHistoryPerKey ∅ where
  nonempty h := by rw [Finmap.lookup_empty] at h; cases h
  capped h := by rw [Finmap.lookup_empty] at h; cases h
  key h := by rw [Finmap.lookup_empty] at h; cases h
  value h := by rw [Finmap.lookup_empty] at h; cases h

theorem Storable.empty : Storable maxHistoryPerKey ∅ where
  nonempty h := by rw [Finmap.lookup_empty] at h; cases h
  capped h := by rw [Finmap.lookup_empty] at h; cases h
  key h := by rw [Finmap.lookup_empty] at h; cases h
  value h := by rw [Finmap.lookup_empty] at h; cases h

/-- A history after a mutation is an old one, or the new one of the key that is put. -/
theorem lookup_apply {μ : Mutation} {key : Bytes} {history : List Record}
    (h : (μ.apply maxHistoryPerKey data).lookup key = some history) :
    data.lookup key = some history ∨ ∃ record, μ = .put key record ∧
      history = appendHistory maxHistoryPerKey ((data.lookup key).getD []) record := by
  cases μ with
  | delete key' timestamp =>
    rw [Mutation.apply, lookup_erase] at h
    split_ifs at h
    exact .inl h
  | put key' record =>
    rw [Mutation.apply, lookup_appendCapped] at h
    split_ifs at h with hk
    · subst hk
      exact .inr ⟨record, rfl, (Option.some.inj h).symm⟩
    · exact .inl h

/-- The new history of a key is within the cap. -/
theorem capped_appendHistory (hcapped : ∀ {key history}, data.lookup key = some history →
    maxHistoryPerKey = kUnlimitedHistory ∨ history.length ≤ maxHistoryPerKey) (key : Bytes)
    (record : Record) : maxHistoryPerKey = kUnlimitedHistory ∨
      (appendHistory maxHistoryPerKey ((data.lookup key).getD []) record).length ≤
        maxHistoryPerKey := by
  refine length_appendHistory _ _ ?_
  cases hold : data.lookup key with
  | none => exact .inr (Nat.zero_le _)
  | some history => exact hcapped hold

/-- The records of the new history of a key are old ones, or the one that is put. -/
theorem mem_new {key : Bytes} {record r : Record}
    (h : r ∈ appendHistory maxHistoryPerKey ((data.lookup key).getD []) record) :
    (∃ history, data.lookup key = some history ∧ r ∈ history) ∨ r = record := by
  refine (mem_appendHistory h).imp_left fun hr => ?_
  cases hold : data.lookup key with
  | none => rw [hold] at hr; cases hr
  | some history =>
    rw [hold] at hr
    exact ⟨history, rfl, hr⟩

/-- A mutation within the limits keeps the histories good. -/
theorem Good.apply (hgood : Good maxHistoryPerKey data) {μ : Mutation} (hμ : μ.Fits) :
    Good maxHistoryPerKey (μ.apply maxHistoryPerKey data) := by
  refine ⟨fun h => ?_, fun h => ?_, fun h => ?_, fun h => ?_⟩
  · rcases lookup_apply h with h | ⟨record, -, rfl⟩
    · exact hgood.nonempty h
    · exact List.append_ne_nil_of_right_ne_nil _ (List.cons_ne_nil _ _)
  · rcases lookup_apply h with h | ⟨record, -, rfl⟩
    · exact hgood.capped h
    · exact capped_appendHistory hgood.capped _ _
  · rcases lookup_apply h with h | ⟨record, rfl, -⟩
    · exact hgood.key h
    · exact hμ.1
  · intro r hr
    rcases lookup_apply h with h | ⟨record, rfl, rfl⟩
    · exact hgood.value h r hr
    · rcases mem_new hr with ⟨history, hold, hr⟩ | rfl
      · exact hgood.value hold r hr
      · exact hμ.2

theorem Good.foldl (hgood : Good maxHistoryPerKey data) {μs : List Mutation}
    (hμs : ∀ μ ∈ μs, μ.Fits) :
    Good maxHistoryPerKey (μs.foldl (Mutation.apply maxHistoryPerKey) data) := by
  induction μs generalizing data with
  | nil => exact hgood
  | cons μ μs ih =>
    obtain ⟨hμ, hμs⟩ := List.forall_mem_cons.1 hμs
    exact ih (hgood.apply hμ) hμs

theorem Mutation.Fits.storable {μ : Mutation} (h : μ.Fits) {key : Bytes} {record : Record}
    (hμ : μ = .put key record) : key.length < 2 ^ 32 ∧ record.value.length < 2 ^ 32 := by
  subst hμ
  exact ⟨h.1.trans_lt (by decide), h.2.trans_lt (by decide)⟩

theorem Good.storable (h : Good maxHistoryPerKey data) : Storable maxHistoryPerKey data where
  nonempty := h.nonempty
  capped := h.capped
  key hlook := (h.key hlook).trans_lt (by decide)
  value hlook record hrecord := (h.value hlook record hrecord).trans_lt (by decide)

/-- A record whose lengths fit keeps the histories storable. -/
theorem Storable.apply (h : Storable maxHistoryPerKey data) {μ : Mutation}
    (hμ : ∀ {key record}, μ = .put key record →
      key.length < 2 ^ 32 ∧ record.value.length < 2 ^ 32) :
    Storable maxHistoryPerKey (μ.apply maxHistoryPerKey data) := by
  refine ⟨fun hlook => ?_, fun hlook => ?_, fun hlook => ?_, fun hlook => ?_⟩
  · rcases lookup_apply hlook with hlook | ⟨record, -, rfl⟩
    · exact h.nonempty hlook
    · exact List.append_ne_nil_of_right_ne_nil _ (List.cons_ne_nil _ _)
  · rcases lookup_apply hlook with hlook | ⟨record, -, rfl⟩
    · exact h.capped hlook
    · exact capped_appendHistory h.capped _ _
  · rcases lookup_apply hlook with hlook | ⟨record, rfl, -⟩
    · exact h.key hlook
    · exact (hμ rfl).1
  · intro r hr
    rcases lookup_apply hlook with hlook | ⟨record, rfl, rfl⟩
    · exact h.value hlook r hr
    · rcases mem_new hr with ⟨history, hold, hr⟩ | rfl
      · exact h.value hold r hr
      · exact (hμ rfl).2

/-- A store with one record. -/
theorem lookup_put_empty {key key' : Bytes} {record : Record} {history : List Record}
    (h : ((Mutation.put key record).apply maxHistoryPerKey ∅).lookup key' = some history) :
    key' = key ∧ history = [record] := by
  rw [Mutation.apply, lookup_appendCapped, Finmap.lookup_empty] at h
  split_ifs at h with hkey
  refine ⟨hkey, ?_⟩
  rw [← Option.some.inj h, Option.getD_none, appendHistory, List.drop_nil, ite_self]
  rfl

theorem card_put_empty (key : Bytes) (record : Record) :
    ((Mutation.put key record).apply maxHistoryPerKey ∅).keys.card ≤ 1 := by
  refine Finset.card_le_one_iff_subset_singleton.2 ⟨key, fun key' hkey' => ?_⟩
  obtain ⟨history, hlook⟩ := Finmap.mem_iff.1 (Finmap.mem_keys.1 hkey')
  exact Finset.mem_singleton.2 (lookup_put_empty hlook).1

end Histories

/-! ### Images -/

section Images

variable {maxHistoryPerKey : ℕ} {data : Data}

/-- A record as it is saved. -/
def Record.toSnapshot (r : Record) : SnapshotRecord := ⟨r.value, r.duration, r.timestamp⟩

theorem lookup_export (it : Iteration data) (key : Bytes) :
    (exportSnapshotState data it).lookup key =
      (data.lookup key).map (List.map Record.toSnapshot) := by
  rw [exportSnapshotState, it.lookup_foldl fun _ history before =>
    some (before.getD [] ++ history.map Record.toSnapshot)]
  · cases data.lookup key <;> simp
  · intro m x k
    by_cases hk : k = x.1
    · subst hk
      rw [if_pos rfl, Finmap.lookup_insert]
      rfl
    · rw [if_neg hk, Finmap.lookup_insert_of_ne _ hk]

/-- What loading a key's records makes of its history. -/
def loadHistory (maxHistoryPerKey : ℕ) (records : List SnapshotRecord)
    (before : Option (List Record)) : Option (List Record) :=
  records.foldl (fun before record => some (appendHistory maxHistoryPerKey (before.getD [])
    ⟨record.value, record.duration, record.timestamp⟩)) before

theorem lookup_import (state : SnapshotState) (it : Iteration state) (key : Bytes) :
    (importSnapshotState maxHistoryPerKey state it).lookup key =
      (state.lookup key).bind fun records => loadHistory maxHistoryPerKey records none := by
  rw [importSnapshotState, it.lookup_foldl fun _ => loadHistory maxHistoryPerKey]
  · cases state.lookup key <;> rfl
  · rintro m ⟨key', records⟩ k
    dsimp only
    induction records generalizing m with
    | nil => simp [loadHistory]
    | cons record records ih =>
      rw [List.foldl_cons, ih, lookup_appendCapped]
      by_cases hk : k = key'
      · rw [if_pos hk, if_pos hk, if_pos hk]
        rfl
      · rw [if_neg hk, if_neg hk, if_neg hk]

/-- An image whose lengths fit is loaded to histories that can be saved again. -/
theorem storable_import {state : SnapshotState} (it : Iteration state)
    (h : ∀ {key records}, state.lookup key = some records →
      key.length < 2 ^ 32 ∧ ∀ rec ∈ records, rec.value.length < 2 ^ 32) :
    Storable maxHistoryPerKey (importSnapshotState maxHistoryPerKey state it) := by
  have hrecords : ∀ (key : Bytes) (records : List SnapshotRecord) (data : Data),
      key.length < 2 ^ 32 → (∀ rec ∈ records, rec.value.length < 2 ^ 32) →
      Storable maxHistoryPerKey data →
      Storable maxHistoryPerKey (records.foldl (fun data record =>
        appendCapped maxHistoryPerKey data key
          ⟨record.value, record.duration, record.timestamp⟩) data) := by
    intro key records data hkey hvalue hdata
    induction records generalizing data with
    | nil => exact hdata
    | cons record records ih =>
      obtain ⟨hfirst, hrest⟩ := List.forall_mem_cons.1 hvalue
      have hput : Storable maxHistoryPerKey ((Mutation.put key ⟨record.value, record.duration,
          record.timestamp⟩).apply maxHistoryPerKey data) := by
        refine hdata.apply fun hμ => ?_
        obtain ⟨rfl, rfl⟩ := Mutation.put.inj hμ
        exact ⟨hkey, hfirst⟩
      exact ih _ hrest hput
  have hkeys : ∀ (l : List (Σ _ : Bytes, List SnapshotRecord)) (data : Data),
      (∀ x ∈ l, x.1.length < 2 ^ 32 ∧ ∀ rec ∈ x.2, rec.value.length < 2 ^ 32) →
      Storable maxHistoryPerKey data →
      Storable maxHistoryPerKey (l.foldl (fun data x => x.2.foldl (fun data record =>
        appendCapped maxHistoryPerKey data x.1
          ⟨record.value, record.duration, record.timestamp⟩) data) data) := by
    intro l data hl hdata
    induction l generalizing data with
    | nil => exact hdata
    | cons x l ih =>
      obtain ⟨hx, hl⟩ := List.forall_mem_cons.1 hl
      exact ih _ hl (hrecords x.1 x.2 data hx.1 hx.2 hdata)
  exact hkeys it.list ∅ (fun x hx => h (it.lookup_of_mem hx)) .empty

theorem loadHistory_of_le {records : List Record} (before : List Record)
    (h : maxHistoryPerKey = kUnlimitedHistory ∨
      before.length + records.length ≤ maxHistoryPerKey) :
    loadHistory maxHistoryPerKey (records.map Record.toSnapshot) (some before) =
      some (before ++ records) := by
  induction records generalizing before with
  | nil => simp [loadHistory]
  | cons record records ih =>
    rw [List.length_cons] at h
    have happend : appendHistory maxHistoryPerKey before record = before ++ [record] := by
      rw [appendHistory, if_neg]
      rintro ⟨hcap, hfull⟩
      have := h.resolve_left hcap
      omega
    have hle : maxHistoryPerKey = kUnlimitedHistory ∨
        (before ++ [record]).length + records.length ≤ maxHistoryPerKey := by
      rw [List.length_append, List.length_singleton, Nat.add_assoc, Nat.add_comm 1]
      exact h
    have hstep := ih (before ++ [record]) hle
    rw [List.append_assoc, List.singleton_append] at hstep
    rw [← hstep, loadHistory, List.map_cons, List.foldl_cons, Option.getD_some]
    exact congrArg (fun history => loadHistory maxHistoryPerKey _ (some history)) happend

/-- **Loading a saved image gives the histories that were saved**, in whatever orders the loops
visit the keys. -/
theorem import_export (hgood : Storable maxHistoryPerKey data) (it : Iteration data)
    (it' : Iteration (exportSnapshotState data it)) :
    importSnapshotState maxHistoryPerKey (exportSnapshotState data it) it' = data := by
  refine Finmap.ext_lookup fun key => ?_
  rw [lookup_import, lookup_export]
  cases hlook : data.lookup key with
  | none => rfl
  | some history =>
    obtain ⟨record, records, rfl⟩ := List.exists_cons_of_ne_nil (hgood.nonempty hlook)
    have hfirst : appendHistory maxHistoryPerKey [] record = [record] := by
      rw [appendHistory, List.drop_nil, ite_self, List.nil_append]
    have hrest : loadHistory maxHistoryPerKey (records.map Record.toSnapshot) (some [record]) =
        some ([record] ++ records) := loadHistory_of_le [record] ((hgood.capped hlook).imp_right
      fun h => by rwa [List.length_singleton, Nat.add_comm])
    rw [List.singleton_append] at hrest
    rw [Option.map_some, Option.bind_some, ← hrest, loadHistory, List.map_cons, List.foldl_cons,
      Option.getD_none]
    exact congrArg (fun history => loadHistory maxHistoryPerKey _ (some history)) hfirst

theorem keys_export (it : Iteration data) : (exportSnapshotState data it).keys = data.keys := by
  ext key
  rw [Finmap.mem_keys, Finmap.mem_keys, ← Finmap.lookup_isSome, ← Finmap.lookup_isSome,
    lookup_export, Option.isSome_map]

/-- Histories whose counts fit 32 bits can be saved. -/
theorem fits_export (hgood : Storable maxHistoryPerKey data) (it : Iteration data)
    (hkeys : data.keys.card < 2 ^ 32)
    (hrecords : ∀ {key history}, data.lookup key = some history → history.length < 2 ^ 32) :
    Snapshot.Fits (exportSnapshotState data it) := by
  have hmap : ∀ {key records}, (exportSnapshotState data it).lookup key = some records →
      ∃ history, data.lookup key = some history ∧ records = history.map Record.toSnapshot := by
    intro key records h
    rw [lookup_export, Option.map_eq_some_iff] at h
    obtain ⟨history, hlook, heq⟩ := h
    exact ⟨history, hlook, heq.symm⟩
  refine ⟨by rw [keys_export]; exact hkeys, fun h => ?_, fun h => ?_, fun h => ?_⟩
  · obtain ⟨history, hlook, -⟩ := hmap h
    exact hgood.key hlook
  · obtain ⟨history, hlook, rfl⟩ := hmap h
    rw [List.length_map]
    exact hrecords hlook
  · obtain ⟨history, hlook, rfl⟩ := hmap h
    intro rec hrec
    obtain ⟨record, hr, rfl⟩ := List.mem_map.1 hrec
    exact hgood.value hlook record hr

end Images

end LiteSpeedStore
