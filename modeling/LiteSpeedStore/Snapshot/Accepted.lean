import LiteSpeedStore.Snapshot.Cursor

/-!
# What `load` accepts

`load` reads the entries that the counts of a payload announce and stops.  It does not ask whether
bytes are left, nor whether a key was there before.

* `readKeys_eq_some_iff` : the loop over the keys accepts the bytes of entries, followed by
  anything.
* `entries_of_load` : so does `load`; the image has the entries, those of a repeated key one after
  another.
* `merge_iff` : the payload is one that `save` writes for the image when nothing is left and no key
  is repeated.
-/

namespace LiteSpeedStore

namespace Snapshot

open LittleEndian Prog

/-! ### The reads, backwards -/

theorem eq_of_readLE32 {rest rest' : Bytes} {v : UInt32} (h : readLE32 rest = some (v, rest')) :
    rest = digits 4 v.toNat ++ rest' := by
  rw [readLE32] at h
  split_ifs at h with hshort
  simp only [Option.some.injEq, Prod.mk.injEq] at h
  obtain ⟨rfl, rfl⟩ := h
  rw [digits_getLE32 (not_lt.1 hshort), List.take_append_drop]

theorem eq_of_readLE64 {rest rest' : Bytes} {v : UInt64} (h : readLE64 rest = some (v, rest')) :
    rest = digits 8 v.toNat ++ rest' := by
  rw [readLE64] at h
  split_ifs at h with hshort
  simp only [Option.some.injEq, Prod.mk.injEq] at h
  obtain ⟨rfl, rfl⟩ := h
  rw [digits_getLE64 (not_lt.1 hshort), List.take_append_drop]

/-- The records that were read are in the bytes. -/
theorem exists_of_readRecords {n : ℕ} {rest rest' : Bytes} {before records : List SnapshotRecord}
    (h : readRecords n rest before = some (records, rest')) :
    ∃ new : List SnapshotRecord, new.length = n ∧ (∀ rec ∈ new, rec.value.length < 2 ^ 32) ∧
      records = before ++ new ∧ rest = (new.map recordBytes).flatten ++ rest' := by
  induction n generalizing rest before with
  | zero =>
    simp only [readRecords, Option.some.injEq, Prod.mk.injEq] at h
    obtain ⟨rfl, rfl⟩ := h
    exact ⟨[], rfl, by simp, by simp, by simp⟩
  | succ n ih =>
    rw [readRecords] at h
    simp only [Option.bind_eq_bind, Option.bind_eq_some_iff] at h
    obtain ⟨⟨ts, r₁⟩, h₁, ⟨dur, r₂⟩, h₂, ⟨len, r₃⟩, h₃, h⟩ := h
    dsimp only at h
    split_ifs at h with hlong
    obtain ⟨new, hlen, hvalue, rfl, hrest⟩ := ih h
    have hvlen : (r₃.take len.toNat).length = len.toNat :=
      List.length_take_of_le (not_lt.1 hlong)
    refine ⟨⟨r₃.take len.toNat, dur, ts.toInt64⟩ :: new, by rw [List.length_cons, hlen], ?_, ?_, ?_⟩
    · rintro rec (_ | ⟨_, hrec⟩)
      · exact hvlen.trans_lt len.toNat_lt
      · exact hvalue rec hrec
    · rw [List.append_assoc, List.singleton_append]
    · rw [List.map_cons, List.flatten_cons, List.append_assoc, recordBytes_append, hvlen,
        UInt32.ofNat_toNat, UInt64.toUInt64_toInt64, ← hrest, List.take_append_drop,
        ← eq_of_readLE32 h₃, ← eq_of_readLE64 h₂, ← eq_of_readLE64 h₁]

/-- **The loop over the keys** accepts this many entries, whatever follows them. -/
theorem readKeys_eq_some_iff {n : ℕ} {rest : Bytes} {state state' : SnapshotState} :
    readKeys n rest state = some state' ↔ ∃ entries tail, entries.length = n ∧
      (∀ x ∈ entries, FitsEntry x) ∧ rest = (entries.map keyBytes).flatten ++ tail ∧
      state' = merge entries state := by
  constructor
  · intro h
    induction n generalizing rest state with
    | zero =>
      simp only [readKeys, Option.some.injEq] at h
      subst h
      exact ⟨[], rest, rfl, by simp, by simp, rfl⟩
    | succ n ih =>
      rw [readKeys] at h
      simp only [Option.bind_eq_bind, Option.bind_eq_some_iff] at h
      obtain ⟨⟨len, r₁⟩, h₁, h⟩ := h
      dsimp only at h
      split_ifs at h with hlong
      simp only [Option.bind_eq_some_iff] at h
      obtain ⟨⟨count, r₂⟩, h₂, h⟩ := h
      dsimp only at h
      split_ifs at h with hmany
      simp only [Option.bind_eq_some_iff] at h
      obtain ⟨⟨records, r₃⟩, h₃, h⟩ := h
      obtain ⟨new, hcount, hvalue, rfl, hr₂⟩ := exists_of_readRecords h₃
      obtain ⟨entries, tail, hlen, hfits, rfl, rfl⟩ := ih h
      have hklen : (r₁.take len.toNat).length = len.toNat :=
        List.length_take_of_le (not_lt.1 hlong)
      refine ⟨⟨r₁.take len.toNat, new⟩ :: entries, tail, by rw [List.length_cons, hlen], ?_, ?_,
        rfl⟩
      · rintro x (_ | ⟨_, hx⟩)
        · exact ⟨hklen.trans_lt len.toNat_lt, hcount.trans_lt count.toNat_lt, hvalue⟩
        · exact hfits x hx
      · rw [List.map_cons, List.flatten_cons, List.append_assoc, keyBytes_append, hklen, hcount,
          UInt32.ofNat_toNat, UInt32.ofNat_toNat, ← hr₂, ← eq_of_readLE32 h₂,
          List.take_append_drop, ← eq_of_readLE32 h₁]
  · rintro ⟨entries, tail, rfl, hfits, rfl, rfl⟩
    exact readKeys_flatten hfits state tail

/-! ### Payloads -/

/-- A payload is accepted when it starts with the bytes of entries. -/
theorem readPayload_eq_some_iff {bytes : Bytes} {image : SnapshotImage} :
    readPayload bytes = some image ↔ ∃ entries tail, entries.length < 2 ^ 32 ∧
      (∀ x ∈ entries, FitsEntry x) ∧ bytes = serialize image.epoch entries ++ tail ∧
      image.state = merge entries ∅ := by
  constructor
  · intro h
    rw [readPayload] at h
    simp only [Option.bind_eq_bind, Option.bind_eq_some_iff] at h
    obtain ⟨⟨epoch, r₁⟩, h₁, ⟨count, r₂⟩, h₂, h⟩ := h
    dsimp only at h
    split_ifs at h with hmany
    simp only [Option.bind_eq_some_iff, Option.some.injEq] at h
    obtain ⟨state, hkeys, rfl⟩ := h
    obtain ⟨entries, tail, hlen, hfits, hrest, hstate⟩ := readKeys_eq_some_iff.1 hkeys
    refine ⟨entries, tail, hlen.trans_lt count.toNat_lt, hfits, ?_, hstate⟩
    rw [serialize_append, hlen, UInt32.ofNat_toNat, ← hrest, ← eq_of_readLE32 h₂,
      ← eq_of_readLE64 h₁]
  · rintro ⟨entries, tail, hlen, hfits, rfl, hstate⟩
    rw [readPayload_serialize hlen hfits, ← hstate]

/-! ### Repeated keys -/

/-- Equal payloads announce the same number of entries. -/
theorem of_serialize_eq {e e' : UInt64} {entries entries' : List (Σ _ : Bytes, List SnapshotRecord)}
    {tail tail' : Bytes} (h : serialize e entries ++ tail = serialize e' entries' ++ tail') :
    UInt32.ofNat entries.length = UInt32.ofNat entries'.length ∧
      (entries.map keyBytes).flatten ++ tail = (entries'.map keyBytes).flatten ++ tail' := by
  rw [serialize_append, serialize_append] at h
  have hepoch := congrArg readLE64 h
  rw [readLE64_digits, readLE64_digits, Option.some.injEq, Prod.mk.injEq] at hepoch
  have hcount := congrArg readLE32 hepoch.2
  rw [readLE32_digits, readLE32_digits, Option.some.injEq, Prod.mk.injEq] at hcount
  exact hcount

theorem keys_merge (entries : List (Σ _ : Bytes, List SnapshotRecord)) (state : SnapshotState) :
    (merge entries state).keys = state.keys ∪ (entries.map Sigma.fst).toFinset := by
  induction entries generalizing state with
  | nil => simp [merge]
  | cons x entries ih =>
    have hstep : merge (x :: entries) state =
        merge entries (state.insert x.1 ((state.lookup x.1).getD [] ++ x.2)) := rfl
    rw [hstep, ih]
    ext key
    simp only [Finset.mem_union, Finmap.mem_keys, Finmap.mem_insert, List.map_cons,
      List.toFinset_cons, Finset.mem_insert, List.mem_toFinset]
    tauto

/-- The lengths of keys and values fit in a state. -/
def FitsState (state : SnapshotState) : Prop :=
  ∀ ⦃key records⦄, state.lookup key = some records →
    key.length < 2 ^ 32 ∧ ∀ rec ∈ records, rec.value.length < 2 ^ 32

theorem FitsState.merge {entries : List (Σ _ : Bytes, List SnapshotRecord)} {state : SnapshotState}
    (hentries : ∀ x ∈ entries, FitsEntry x) (hstate : FitsState state) :
    FitsState (merge entries state) := by
  induction entries generalizing state with
  | nil => exact hstate
  | cons x entries ih =>
    obtain ⟨⟨hkey, -, hvalue⟩, hrest⟩ := List.forall_mem_cons.1 hentries
    refine ih hrest fun key records h => ?_
    by_cases hk : key = x.1
    · subst hk
      rw [Finmap.lookup_insert, Option.some.injEq] at h
      subst h
      refine ⟨hkey, fun rec hrec => (List.mem_append.1 hrec).elim (fun hold => ?_) (hvalue rec)⟩
      cases hlook : state.lookup x.1 with
      | none =>
        rw [hlook] at hold
        cases hold
      | some before =>
        rw [hlook] at hold
        exact (hstate hlook).2 rec hold
    · rw [Finmap.lookup_insert_of_ne _ hk] at h
      exact hstate h

/-- The lengths of a state that was read fit. -/
theorem fitsState_of_parse {file : Bytes} {image : SnapshotImage} (h : parse file = some image) :
    FitsState image.state := by
  rw [parse_eq] at h
  split_ifs at h
  obtain ⟨entries, tail, -, hfits, -, hstate⟩ := readPayload_eq_some_iff.1 h
  rw [hstate]
  refine .merge hfits fun key records hnone => ?_
  rw [Finmap.lookup_empty] at hnone
  cases hnone

/-- Without repeated keys the image has just these entries. -/
theorem merge_of_nodupKeys {entries : List (Σ _ : Bytes, List SnapshotRecord)}
    (h : entries.NodupKeys) : merge entries ∅ = AList.toFinmap ⟨entries, h⟩ :=
  merge_list ⟨entries, rfl⟩

/-- An accepted payload is one that `save` writes when nothing is left over and no key is
repeated. -/
theorem merge_iff (image : SnapshotImage) {entries : List (Σ _ : Bytes, List SnapshotRecord)}
    {tail : Bytes} (hlen : entries.length < 2 ^ 32) (hstate : image.state = merge entries ∅) :
    (∃ it : Iteration image.state, serialize image.epoch entries ++ tail = payload image it) ↔
      tail = [] ∧ entries.NodupKeys := by
  constructor
  · rintro ⟨it, h⟩
    rw [payload_eq, ← List.append_nil (serialize image.epoch it.list)] at h
    obtain ⟨hcount, hbytes⟩ := of_serialize_eq h
    have hkeys : image.state.keys = (entries.map Sigma.fst).toFinset := by
      rw [hstate, keys_merge, Finmap.keys_empty, Finset.empty_union]
    have hmap : (entries.map Sigma.fst).length = entries.length := List.length_map _
    have hle : it.list.length ≤ entries.length := by
      rw [it.length_list, hkeys, ← hmap]
      exact List.toFinset_card_le _
    have heq : it.list.length = entries.length := by
      rw [← toNat_length (hle.trans_lt hlen), ← hcount, toNat_length hlen]
    have hnodup : entries.NodupKeys := by
      rw [it.length_list, hkeys, ← hmap] at heq
      exact Multiset.toFinset_card_eq_card_iff_nodup.1 heq
    -- so no key is repeated, and the two lists have the same entries
    have hit := hstate.trans (merge_of_nodupKeys hnodup)
    have hperm : it.list.Perm entries := by
      rw [← Multiset.coe_eq_coe, it.entries_eq, hit]
      rfl
    have hlength := congrArg List.length hbytes
    rw [List.append_nil, List.length_append, (hperm.map keyBytes).flatten.length_eq] at hlength
    exact ⟨List.eq_nil_of_length_eq_zero (by omega), hnodup⟩
  · rintro ⟨rfl, hnodup⟩
    have hit := hstate.trans (merge_of_nodupKeys hnodup)
    refine ⟨⟨entries, by rw [hit]; rfl⟩, ?_⟩
    rw [payload_eq, List.append_nil]

/-! ### What is loaded -/

variable {file : Bytes} {image loaded : SnapshotImage}

/-- A file that is accepted has a payload that can be read. -/
theorem readPayload_of_loadFile (h : (loadFile file image).1 = .ok (true, loaded)) :
    readPayload (file.drop headerSize) = some loaded := by
  have hsize : (file.drop headerSize).length ≤ maxVectorSize := by
    by_contra hhuge
    rw [loadFile] at h
    dsimp only at h
    rw [if_pos (not_le.1 hhuge)] at h
    split_ifs at h <;> simp at h
  obtain ⟨image', heq, hloaded⟩ := loadFile_eq hsize image
  rw [heq, Except.ok.injEq, Prod.mk.injEq] at h
  obtain ⟨hsome, rfl⟩ := h
  obtain ⟨parsed, hparse⟩ := Option.isSome_iff_exists.1 hsome
  rw [hloaded parsed hparse, ← hparse, parse_eq]
  rw [parse_eq] at hparse
  split_ifs at hparse ⊢
  rfl

/-- **What `load` accepts** is the bytes of entries, followed by anything; the image has the records
of these entries, and it is what `save` was given when nothing follows and no key is repeated. -/
theorem entries_of_load (h : (loadFile file image).1 = .ok (true, loaded)) :
    ∃ entries tail, entries.length < 2 ^ 32 ∧ (∀ x ∈ entries, FitsEntry x) ∧
      file.drop headerSize = serialize loaded.epoch entries ++ tail ∧
      loaded.state = merge entries ∅ ∧
      ((∃ it : Iteration loaded.state, file.drop headerSize = payload loaded it) ↔
        tail = [] ∧ entries.NodupKeys) := by
  obtain ⟨entries, tail, hlen, hfits, hpayload, hstate⟩ :=
    readPayload_eq_some_iff.1 (readPayload_of_loadFile h)
  refine ⟨entries, tail, hlen, hfits, hpayload, hstate, ?_⟩
  rw [hpayload]
  exact merge_iff loaded hlen hstate

theorem drop_framed (bytes : Bytes) : (framed bytes).drop headerSize = bytes :=
  List.drop_left' (by simp [headerSize, offCrc, offVersion, offMagic])

/-- A payload of entries is loaded. -/
theorem loadFile_framed {epoch : UInt64} {entries : List (Σ _ : Bytes, List SnapshotRecord)}
    {tail : Bytes} (hlen : entries.length < 2 ^ 32) (hfits : ∀ x ∈ entries, FitsEntry x)
    (hsize : (serialize epoch entries ++ tail).length ≤ maxVectorSize) (image : SnapshotImage) :
    (loadFile (framed (serialize epoch entries ++ tail)) image).1 =
      .ok (true, ⟨epoch, merge entries ∅⟩) := by
  have hparse := parse_framed (serialize epoch entries ++ tail)
  rw [readPayload_serialize hlen hfits] at hparse
  rw [← drop_framed (serialize epoch entries ++ tail)] at hsize
  obtain ⟨image', heq, hloaded⟩ := loadFile_eq hsize image
  rw [heq, hparse, hloaded _ hparse]
  rfl

/-- A byte is left over. -/
theorem loadFile_tail : (loadFile (framed (serialize 0 [] ++ [0])) {}).1 = .ok (true, {}) :=
  loadFile_framed (by simp) (by simp) (by simp [serialize, maxVectorSize]) {}

/-- The empty key is there twice. -/
theorem loadFile_repeated : (loadFile (framed (serialize 0 [⟨[], []⟩, ⟨[], []⟩] ++ [])) {}).1 =
    .ok (true, ⟨0, merge [⟨[], []⟩, ⟨[], []⟩] ∅⟩) := by
  refine loadFile_framed (by simp) ?_ (by simp [serialize, keyBytes, putKey, maxVectorSize]) {}
  intro x hx
  obtain rfl : x = ⟨[], []⟩ := by simpa using hx
  exact ⟨by simp, by simp, by simp⟩

theorem entries_of_load_tail : ∃ entries tail, entries.length < 2 ^ 32 ∧
    (∀ x ∈ entries, FitsEntry x) ∧
    (framed (serialize 0 [] ++ [0])).drop headerSize =
      serialize ({} : SnapshotImage).epoch entries ++ tail ∧
    ({} : SnapshotImage).state = merge entries ∅ ∧
    ((∃ it : Iteration ({} : SnapshotImage).state,
      (framed (serialize 0 [] ++ [0])).drop headerSize = payload {} it) ↔
      tail = [] ∧ entries.NodupKeys) :=
  entries_of_load loadFile_tail

/-- Neither payload is one that `save` writes for the image it is loaded to. -/
theorem load_accepts_more :
    ((loadFile (framed (serialize 0 [] ++ [0])) {}).1 = .ok (true, {}) ∧
      ¬∃ it : Iteration ({} : SnapshotImage).state,
        (framed (serialize 0 [] ++ [0])).drop headerSize = payload {} it) ∧
    ((loadFile (framed (serialize 0 [⟨[], []⟩, ⟨[], []⟩] ++ [])) {}).1 =
        .ok (true, ⟨0, merge [⟨[], []⟩, ⟨[], []⟩] ∅⟩) ∧
      ¬∃ it : Iteration (merge [⟨[], []⟩, ⟨[], []⟩] ∅),
        (framed (serialize 0 [⟨[], []⟩, ⟨[], []⟩] ++ [])).drop headerSize =
          payload ⟨0, merge [⟨[], []⟩, ⟨[], []⟩] ∅⟩ it) := by
  rw [drop_framed, drop_framed]
  refine ⟨⟨loadFile_tail, fun hsaved => ?_⟩, loadFile_repeated, fun hsaved => ?_⟩
  · have hnone : ([0] : Bytes) = [] ∧ List.NodupKeys [] := (merge_iff {} (by simp) rfl).1 hsaved
    simp at hnone
  · have hrepeated : ([] : Bytes) = [] ∧ List.NodupKeys [⟨[], []⟩, ⟨[], []⟩] :=
      (merge_iff ⟨0, merge [⟨[], []⟩, ⟨[], []⟩] ∅⟩ (by simp) rfl).1 hsaved
    simp at hrepeated

end Snapshot

end LiteSpeedStore
