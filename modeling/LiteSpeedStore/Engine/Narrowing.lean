import LiteSpeedStore.Engine.Restart
import LiteSpeedStore.Snapshot.Accepted

/-!
# Lengths and counts in 32 bits

`append` and `save` cast lengths and counts to 32 bits.  `set` and `append` refuse the keys and the
values that are too long for that; nothing bounds the number of keys, nor that of the records of a
key.

* `foldl_appendFields`, `foldl_saveFields` : the casts of the two methods.
* `lossless_append` : those of `append` change nothing unless it throws.
* `reopens_iff_countsFit` : a store is read back from a snapshot when the counts fit.
* `narrowing_iff` : this is also when the casts of `save` change nothing.
-/

namespace LiteSpeedStore

open Prog StorageEngine

/-- A field as `append` and `save` write it. -/
inductive Field where
  | word (v : UInt64)
  /-- A number, cast to 32 bits. -/
  | cast (n : ℕ)
  | raw (bytes : Bytes)

/-- The buffer with one more field. -/
def Field.put (buf : Bytes) : Field → Bytes
  | .word v => putLE64 buf v
  | .cast n => putLE32 buf (UInt32.ofNat n)
  | .raw bytes => buf ++ bytes

/-- No cast changes its argument. -/
def Lossless (fields : List Field) : Prop := ∀ n, Field.cast n ∈ fields → (UInt32.ofNat n).toNat = n

/-- The fixed part of the entry that `append` writes. -/
def appendFields (seq epoch : UInt64) (type : RecordType) (key value : Bytes) (timestamp : Int64) :
    List Field :=
  let ts := timestamp.toUInt64
  [.word seq, .cast (ts &&& 0xFFFFFFFF).toNat, .cast ((ts >>> 32) &&& 0xFFFFFFFF).toNat,
    .word epoch, .cast key.length, .cast value.length, .raw [type.byte]]

def recordFields (rec : SnapshotRecord) : List Field :=
  [.word rec.timestamp.toUInt64, .word rec.duration, .cast rec.value.length, .raw rec.value]

def keyFields (entry : Σ _ : Bytes, List SnapshotRecord) : List Field :=
  [.cast entry.1.length, .raw entry.1, .cast entry.2.length] ++ entry.2.flatMap recordFields

/-- The payload that `save` writes. -/
def saveFields (image : SnapshotImage) (it : Iteration image.state) : List Field :=
  [.word image.epoch, .cast image.state.keys.card] ++ it.list.flatMap keyFields

/-! ### The casts -/

section Fields

variable {seq epoch : UInt64} {type : RecordType} {key value : Bytes} {timestamp : Int64}

theorem foldl_appendFields :
    (appendFields seq epoch type key value timestamp).foldl Field.put [] =
      fixedFields seq timestamp epoch (UInt32.ofNat key.length) (UInt32.ofNat value.length) type :=
  rfl

theorem foldl_saveFields (image : SnapshotImage) (it : Iteration image.state) :
    (saveFields image it).foldl Field.put [] = Snapshot.payload image it := by
  have hkey : ∀ buf entry, (keyFields entry).foldl Field.put buf = Snapshot.putKey buf entry := by
    intro buf entry
    rw [keyFields, List.foldl_append, List.foldl_flatMap]
    rfl
  rw [saveFields, List.foldl_append, List.foldl_flatMap]
  simp only [hkey]
  rfl

theorem toNat_ofNat_iff (n : ℕ) : (UInt32.ofNat n).toNat = n ↔ n < 2 ^ 32 := by
  rw [UInt32.toNat_ofNat']
  exact Nat.mod_eq_iff_lt (by decide)

@[simp] theorem lossless_nil : Lossless [] := by
  rintro n ⟨⟩

@[simp] theorem lossless_cast_cons {n : ℕ} {fields : List Field} :
    Lossless (.cast n :: fields) ↔ n < 2 ^ 32 ∧ Lossless fields := by
  simp only [Lossless, List.mem_cons, Field.cast.injEq, forall_eq_or_imp, toNat_ofNat_iff]

@[simp] theorem lossless_word_cons {v : UInt64} {fields : List Field} :
    Lossless (.word v :: fields) ↔ Lossless fields := by
  simp only [Lossless, List.mem_cons, reduceCtorEq, false_or]

@[simp] theorem lossless_raw_cons {bytes : Bytes} {fields : List Field} :
    Lossless (.raw bytes :: fields) ↔ Lossless fields := by
  simp only [Lossless, List.mem_cons, reduceCtorEq, false_or]

theorem lossless_flatMap {α : Type} {l : List α} {f : α → List Field} :
    Lossless (l.flatMap f) ↔ ∀ a ∈ l, Lossless (f a) := by
  simp only [Lossless, List.mem_flatMap]
  exact ⟨fun h a ha n hn => h n ⟨a, ha, hn⟩, fun h n ⟨a, ha, hn⟩ => h a ha n hn⟩

theorem toNat_and_lt (v : UInt64) : (v &&& 0xFFFFFFFF).toNat < 2 ^ 32 := by
  rw [UInt64.toNat_and]
  exact Nat.and_lt_two_pow _ (by decide)

theorem lossless_appendFields (hkey : key.length ≤ kMaxFieldSize.toNat)
    (hvalue : value.length ≤ kMaxFieldSize.toNat) :
    Lossless (appendFields seq epoch type key value timestamp) := by
  rw [kMaxFieldSize_toNat] at hkey hvalue
  have hlow := toNat_and_lt timestamp.toUInt64
  have hhigh := toNat_and_lt (timestamp.toUInt64 >>> 32)
  simp only [appendFields, lossless_word_cons, lossless_cast_cons, lossless_raw_cons, lossless_nil,
    and_true]
  exact ⟨hlow, hhigh, by omega, by omega⟩

theorem lossless_keyFields (entry : Σ _ : Bytes, List SnapshotRecord) :
    Lossless (keyFields entry) ↔ Snapshot.FitsEntry entry := by
  simp only [keyFields, List.cons_append, List.nil_append, lossless_cast_cons, lossless_raw_cons,
    lossless_flatMap, recordFields, lossless_word_cons, lossless_nil, and_true]
  exact Iff.rfl

/-- The casts of `save` change nothing when everything fits. -/
theorem lossless_saveFields (image : SnapshotImage) (it : Iteration image.state) :
    Lossless (saveFields image it) ↔ Snapshot.Fits image.state := by
  rw [Snapshot.fits_iff it, it.length_list]
  simp only [saveFields, List.cons_append, List.nil_append, lossless_word_cons, lossless_cast_cons,
    lossless_flatMap, lossless_keyFields]

end Fields

/-! ### Counts that do not fit -/

section Counts

variable {maxHistoryPerKey : ℕ} {data : Data}

/-- Loading adds one record at a time. -/
theorem length_loadHistory (records : List SnapshotRecord) (before : Option (List Record)) :
    ((loadHistory maxHistoryPerKey records before).getD []).length ≤
      (before.getD []).length + records.length := by
  induction records generalizing before with
  | nil => exact le_rfl
  | cons record records ih =>
    have hadd : ∀ history r, (appendHistory maxHistoryPerKey history r).length ≤
        history.length + 1 := by
      intro history r
      rw [appendHistory, List.length_append, List.length_singleton]
      split_ifs
      · rw [List.length_drop]
        omega
      · exact le_rfl
    rw [loadHistory, List.foldl_cons, List.length_cons]
    have hstep := ih (some (appendHistory maxHistoryPerKey (before.getD [])
      ⟨record.value, record.duration, record.timestamp⟩))
    have hfirst := hadd (before.getD []) ⟨record.value, record.duration, record.timestamp⟩
    rw [Option.getD_some] at hstep
    exact hstep.trans (by omega)

theorem lookup_import_eq_some {state : SnapshotState} {it : Iteration state} {key : Bytes}
    {history : List Record}
    (h : (importSnapshotState maxHistoryPerKey state it).lookup key = some history) :
    ∃ records, state.lookup key = some records ∧ history.length ≤ records.length := by
  rw [lookup_import, Option.bind_eq_some_iff] at h
  obtain ⟨records, hlook, hload⟩ := h
  have hle : ((loadHistory maxHistoryPerKey records none).getD []).length ≤ _ :=
    length_loadHistory records none
  rw [hload, Option.getD_some, Option.getD_none, List.length_nil, Nat.zero_add] at hle
  exact ⟨records, hlook, hle⟩

/-- Data that comes back from the bytes that were saved had counts that fit: the bytes announce less
than `2 ^ 32` keys and as many records for each, whatever there was. -/
theorem counts_of_parse {state : SnapshotState} {epoch : UInt64} {it : Iteration state}
    {loaded : SnapshotImage} {it' : Iteration loaded.state} (hkeys : state.keys = data.keys)
    (hparse : Snapshot.parse (Snapshot.fileBuf ⟨epoch, state⟩ it) = some loaded)
    (hdata : importSnapshotState maxHistoryPerKey loaded.state it' = data) :
    data.keys.card < 2 ^ 32 ∧
      ∀ {key history}, data.lookup key = some history → history.length < 2 ^ 32 := by
  obtain ⟨entries, tail, hlen, hfits, hpayload, hstate⟩ :=
    Snapshot.readPayload_eq_some_iff.1 ((Snapshot.parse_framed _).symm.trans hparse)
  have hlook : ∀ {key history}, data.lookup key = some history → ∃ records,
      loaded.state.lookup key = some records ∧ history.length ≤ records.length := by
    intro key history h
    rw [← hdata] at h
    exact lookup_import_eq_some h
  have hloaded : loaded.state.keys = (entries.map Sigma.fst).toFinset := by
    rw [hstate, Snapshot.keys_merge, Finmap.keys_empty, Finset.empty_union]
  have hsub : data.keys ⊆ (entries.map Sigma.fst).toFinset := by
    intro key hkey
    rw [Finmap.mem_keys, ← Finmap.lookup_isSome, Option.isSome_iff_exists] at hkey
    obtain ⟨history, h⟩ := hkey
    obtain ⟨records, hrecords, -⟩ := hlook h
    rw [← hloaded, Finmap.mem_keys, ← Finmap.lookup_isSome, hrecords]
    rfl
  have hmap : (entries.map Sigma.fst).length = entries.length := List.length_map _
  have hcard : it.list.length = data.keys.card := by rw [it.length_list, hkeys]
  have hle : data.keys.card ≤ (entries.map Sigma.fst).toFinset.card := Finset.card_le_card hsub
  have hdedup : (entries.map Sigma.fst).toFinset.card ≤ entries.length :=
    hmap ▸ List.toFinset_card_le _
  have hfew : data.keys.card < 2 ^ 32 := hle.trans_lt (hdedup.trans_lt hlen)
  refine ⟨hfew, fun {key history} h => ?_⟩
  -- so the announced number of keys is right, and no key is repeated
  rw [Snapshot.payload_eq, ← List.append_nil (Snapshot.serialize _ _)] at hpayload
  have hcount := congrArg UInt32.toNat (Snapshot.of_serialize_eq hpayload).1
  rw [hcard, Snapshot.toNat_length hfew, Snapshot.toNat_length hlen] at hcount
  have hnodup : entries.NodupKeys := by
    refine Multiset.toFinset_card_eq_card_iff_nodup.1 (le_antisymm (List.toFinset_card_le _) ?_)
    exact hmap.le.trans (hcount ▸ hle)
  obtain ⟨records, hrecords, hshort⟩ := hlook h
  rw [hstate, Snapshot.merge_of_nodupKeys hnodup] at hrecords
  have hmem := (Iteration.mem_list_iff ⟨entries, rfl⟩).2 hrecords
  exact hshort.trans_lt (hfits _ hmem).2.1

end Counts

/-! ### Saving and reopening -/

section Engines

variable {F : Faults} {host : ByteOrder} {p : Path} {b : Bytes} {fs fs' : FileSystem}
  {engine engine' : StorageEngine} {wal : WAL} {orders : Orders} {maxHistoryPerKey : ℕ}

theorem countsFit_of_empty (h : engine.data = ∅) : engine.CountsFit := by
  refine ⟨by rw [h]; decide, fun {key history} hlook => ?_⟩
  rw [h, Finmap.lookup_empty] at hlook
  cases hlook

/-- The image of an engine fits when its counts do. -/
theorem fits_image_iff (hdata : Storable maxHistoryPerKey engine.data) :
    Snapshot.Fits (engine.image wal orders).state ↔ engine.CountsFit := by
  constructor
  · intro h
    refine ⟨?_, fun {key history} hlook => ?_⟩
    · rw [← keys_export (orders.data engine.data)]
      exact h.keys
    · have hrecords := lookup_export (orders.data engine.data) key
      rw [hlook, Option.map_some] at hrecords
      have hlen := h.records hrecords
      rwa [List.length_map] at hlen
  · exact fun h => fits_export hdata _ h.keys h.records

/-- **A store comes back from a snapshot when the counts fit.** -/
theorem reopens_iff_countsFit (hpath : engine.snapshotPath = makeSnapshotPath p)
    (hdata : Storable maxHistoryPerKey engine.data) :
    Reopens host p maxHistoryPerKey ((engine.saved wal orders fs).put p walHeader) engine.data ↔
      engine.CountsFit := by
  have himage := image_sameBut (FileSystem.sameBut_put p (engine.saved wal orders fs) walHeader)
  rw [reopens_iff (logged_header _), contents_covered (by simp), himage]
  constructor
  · intro hreopens
    rw [FileSystem.image, StorageEngine.saved, hpath, Snapshot.renamed_self, Option.bind_some,
      StorageEngine.imageFile] at hreopens
    cases hparse : Snapshot.parse (Snapshot.fileBuf (engine.image wal orders) (orders.state _)) with
    | none =>
      rw [hparse, imageData] at hreopens
      exact countsFit_of_empty hreopens.symm
    | some loaded =>
      rw [hparse, imageData] at hreopens
      obtain ⟨hkeys, hrecords⟩ := counts_of_parse (keys_export _) hparse hreopens
      exact ⟨hkeys, hrecords⟩
  · intro hcounts
    rw [image_storable orders hpath hdata hcounts]
    exact import_export hdata _ _

/-- Nothing is lost in a cast: the casts of `append` and of `save` change nothing unless the method
fails, and a snapshot that returns can be read back. -/
structure NoNarrowing (F : Faults) (host : ByteOrder) (p : Path) (engine : StorageEngine)
    (wal : WAL) (fs : FileSystem) : Prop where
  append : ∀ type key value timestamp result fs',
    Exec F.env (wal.append type key value timestamp) fs result fs' →
    Lossless (appendFields wal.seq wal.epoch type key value timestamp) ∨ ∃ e, result.1 = .error e
  save : ∀ orders result fs', Exec F.env (Snapshot.save engine.snapshotPath
      (engine.image wal orders) (orders.state _)) fs result fs' →
    Lossless (saveFields (engine.image wal orders) (orders.state _)) ∨ result = false
  reopens : ∀ orders engine' fs', Exec F.env (engine.snapshot orders) fs (.ok (), engine') fs' →
    Reopens host p engine.maxHistoryPerKey fs' engine.data

/-- The casts of `append` change nothing unless it throws. -/
theorem lossless_append {type : RecordType} {key value : Bytes} {timestamp : Int64}
    {result : Except Exception Unit × WAL}
    (hx : Exec F.env (wal.append type key value timestamp) fs result fs') :
    Lossless (appendFields wal.seq wal.epoch type key value timestamp) ∨
      ∃ e, result.1 = .error e := by
  by_cases hlong : key.length > kMaxFieldSize.toNat ∨ value.length > kMaxFieldSize.toNat
  · rw [WAL.append, if_pos hlong] at hx
    cases hx
    exact .inr ⟨_, rfl⟩
  · rw [not_or, not_lt, not_lt] at hlong
    exact .inl (lossless_appendFields hlong.1 hlong.2)

/-- A snapshot can always return. -/
theorem snapshot_returns (hwal : engine.wal = some wal) (hfd : wal.fd = some p)
    (hpath : engine.snapshotPath = makeSnapshotPath p) (hfile : fs p = some b) (F : Faults)
    (orders : Orders) : ∃ engine', Exec F.env (engine.snapshot orders) fs (.ok (), engine')
      ((engine.saved wal orders fs).put p walHeader) := by
  have hw : wp (Faults.none 0).env (engine.snapshot orders) (fun result fs' => result.1 = .ok () ∧
      fs' = (engine.saved wal orders fs).put p walHeader) (fun _ => True) fs := by
    refine wp_snapshotAny hwal hfd hpath hfile (fun _ _ => trivial) trivial (fun _ _ => trivial)
      ⟨rfl, rfl⟩ ?_ ?_ ?_ ?_ ?_ ?_
    · exact fun hmay => absurd (hpath ▸ hmay) saveFails_none
    · exact fun hmay => absurd (hpath ▸ hmay) syncFails_none
    · exact fun hmay => absurd hmay Faults.none_mayFail
    · exact fun hmay => absurd hmay Faults.none_mayFail
    · exact fun hmay => absurd hmay.choose_spec Faults.none_mayFail
    · exact fun hmay => absurd hmay Faults.none_mayFail
  obtain ⟨hok, hfiles⟩ := wp_run Faults.allows_posix hw
  have hrun : run posix (engine.snapshot orders) fs =
      ((.ok (), (run posix (engine.snapshot orders) fs).1.2), _) :=
    Prod.ext (Prod.ext hok rfl) hfiles
  exact ⟨_, exec_of_run Faults.allows_posix hrun⟩

/-- **Lengths and counts.**  In an engine of any size, nothing is lost in a cast when there are less
than `2 ^ 32` keys, with less than `2 ^ 32` records each. -/
theorem narrowing_iff (hwal : engine.wal = some wal) (hfd : wal.fd = some p)
    (hpath : engine.snapshotPath = makeSnapshotPath p) (hfile : fs p = some b)
    (hgood : Good engine.maxHistoryPerKey engine.data) :
    NoNarrowing F host p engine wal fs ↔ engine.CountsFit := by
  constructor
  · intro h
    obtain ⟨engine', hx⟩ := snapshot_returns hwal hfd hpath hfile F ⟨Order.any, Order.any⟩
    exact (reopens_iff_countsFit hpath hgood.storable).1 (h.reopens _ _ _ hx)
  · intro hcounts
    refine ⟨?_, ?_, ?_⟩
    · intro type key value timestamp result fs' hx
      exact lossless_append hx
    · intro orders result fs' _
      exact .inl ((lossless_saveFields _ _).2 ((fits_image_iff hgood.storable).2 hcounts))
    · intro orders engine' fs' hx
      rw [(snapshot_returned hwal hfd hpath hfile hx).2]
      exact (reopens_iff_countsFit hpath hgood.storable).2 hcounts

end Engines

/-! ### One key, again and again -/

/-- The value `v` is put under the key `k`. -/
def again : Mutation := .put [107] ⟨[118], 0, 5⟩

theorem length_again (n : ℕ) :
    ((((List.replicate n again).foldl (Mutation.apply 0) ∅).lookup [107]).getD []).length = n := by
  induction n with
  | zero => rfl
  | succ n ih =>
    rw [List.replicate_succ', List.foldl_append, List.foldl_cons, List.foldl_nil, again,
      Mutation.apply, lookup_appendCapped, if_pos rfl, Option.getD_some, appendHistory,
      if_neg (fun h => h.1 rfl), List.length_append, ← again, ih]
    rfl

theorem exists_again (n : ℕ) : ∃ (engine : StorageEngine) (wal : WAL) (fs : FileSystem)
    (rs : List LogRecord), (machine (Faults.none kHeaderSize) .little "a" 0).Run
      ⟨none, fun _ => none⟩ (.opened :: List.replicate n (.returned (.set [107] [118] 0 5) none))
      ⟨some engine, fs⟩ ∧ Attached "a" 0 fs rs engine wal ∧
    engine.data = (List.replicate n again).foldl (Mutation.apply 0) ∅ := by
  induction n with
  | zero =>
    have hlog : Logged "a" (fun _ => none) [] := logged_empty rfl
    obtain ⟨engine, wal, fs, hopen, -, hattached, -, hdata⟩ :=
      run_open .little 0 1 ⟨Order.any, Order.any⟩ hlog
    rw [contents_covered (by simp)] at hdata
    exact ⟨engine, wal, fs, [], .single (.opened (exec_of_run Faults.allows_posix hopen)),
      hattached, hdata⟩
  | succ n ih =>
    obtain ⟨engine, wal, fs, rs, hrun, hattached, hdata⟩ := ih
    have hset : run posix (engine.call .little ⟨Order.any, Order.any⟩ (.set [107] [118] 0 5)) fs =
      _ := run_change rfl hattached.log hattached.fd hattached.file (by decide)
    have hfit : (again.entry .little wal.epoch).Fits := entry_fits (by decide) _
    have hnext := hattached.concat hfit (again.apply engine.maxHistoryPerKey engine.data)
    refine ⟨_, _, _, _, ?_, hnext, ?_⟩
    · rw [List.replicate_succ']
      exact hrun.append (.single (.returned (exec_of_run Faults.allows_posix hset)))
    · rw [List.replicate_succ', List.foldl_append, ← hdata, hattached.cap]
      rfl

theorem good_again (n : ℕ) : Good 0 ((List.replicate n again).foldl (Mutation.apply 0) ∅) := by
  refine Good.empty.foldl fun μ hμ => ?_
  rw [List.eq_of_mem_replicate hμ]
  decide

theorem narrowing_iff_one : ∃ (engine : StorageEngine) (wal : WAL) (fs : FileSystem),
    engine.wal = some wal ∧ engine.data = again.apply 0 ∅ ∧
    NoNarrowing (Faults.none kHeaderSize) .little "a" engine wal fs := by
  obtain ⟨engine, wal, fs, rs, -, hattached, hdata⟩ := exists_again 1
  have hgood : Good engine.maxHistoryPerKey engine.data := by
    rw [hattached.cap, hdata]
    exact good_again 1
  have hcounts : engine.CountsFit := by
    have hone : engine.data = again.apply 0 ∅ := hdata
    refine ⟨?_, fun {key history} hlook => ?_⟩
    · rw [hone]
      exact (card_put_empty _ _).trans_lt (by decide)
    · rw [hone] at hlook
      rw [(lookup_put_empty hlook).2, List.length_singleton]
      decide
  exact ⟨engine, wal, fs, hattached.log, hdata, (narrowing_iff hattached.log hattached.fd
    hattached.path hattached.file hgood).2 hcounts⟩

/-- A key that was set too often is not read back. -/
theorem narrowing_fails : ∃ (engine : StorageEngine) (wal : WAL) (fs : FileSystem),
    (machine (Faults.none kHeaderSize) .little "a" 0).Run ⟨none, fun _ => none⟩
      (.opened :: List.replicate 4294967296 (.returned (.set [107] [118] 0 5) none))
      ⟨some engine, fs⟩ ∧
    engine.wal = some wal ∧ ¬NoNarrowing (Faults.none kHeaderSize) .little "a" engine wal fs := by
  obtain ⟨engine, wal, fs, rs, hrun, hattached, hdata⟩ := exists_again 4294967296
  refine ⟨engine, wal, fs, hrun, hattached.log, fun h => ?_⟩
  obtain ⟨engine', hx⟩ := snapshot_returns hattached.log hattached.fd hattached.path hattached.file
    (Faults.none kHeaderSize) ⟨Order.any, Order.any⟩
  have hreopens := h.reopens _ _ _ hx
  have hgood := good_again 4294967296
  have hlen := length_again 4294967296
  rw [← hdata] at hgood hlen
  rw [hattached.cap] at hreopens
  have hcounts := (reopens_iff_countsFit hattached.path hgood.storable).1 hreopens
  cases hlook : engine.data.lookup [107] with
  | none =>
    rw [hlook] at hlen
    cases hlen
  | some history =>
    rw [hlook, Option.getD_some] at hlen
    exact absurd (hcounts.records hlook) (by omega)

end LiteSpeedStore
