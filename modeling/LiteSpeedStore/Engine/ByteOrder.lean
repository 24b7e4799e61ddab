import LiteSpeedStore.Engine.Restart

/-!
# Files that move to a machine of the other byte order

The snapshot and every integer of the log are written byte by byte, but the duration of a log entry
is copied as it lies in memory.  A machine of the other byte order reads the eight bytes backwards.
The records that recovery takes from the image are right on both, those that it takes from the log
are not.

* `contents_otherHost` : what another machine makes of the same files.
* `portable_iff` : the files are portable when no duration in the log tells the directions apart.
* `portable_fails` : a duration that comes out as another one.
-/

namespace LiteSpeedStore

open Prog StorageEngine

/-! ### The end of a list -/

section MapLast

variable {α : Type} {f : α → α}

/-- Changes the last `n` entries of a list. -/
def mapLast (n : ℕ) (f : α → α) (l : List α) : List α :=
  l.take (l.length - n) ++ (l.drop (l.length - n)).map f

@[simp] theorem mapLast_zero (l : List α) : mapLast 0 f l = l := by
  simp [mapLast]

theorem length_mapLast (n : ℕ) (l : List α) : (mapLast n f l).length = l.length := by
  rw [mapLast, List.length_append, List.length_map, List.length_take, List.length_drop]
  omega

theorem mapLast_concat (n : ℕ) (l : List α) (a : α) :
    mapLast (n + 1) f (l ++ [a]) = mapLast n f l ++ [f a] := by
  have hlen : (l ++ [a]).length - (n + 1) = l.length - n := by
    rw [List.length_append, List.length_singleton]
    omega
  have hle : l.length - n ≤ l.length := Nat.sub_le ..
  rw [mapLast, hlen, List.take_append_of_le_length hle, List.drop_append_of_le_length hle,
    List.map_append, ← List.append_assoc]
  rfl

theorem mapLast_drop_one (n : ℕ) (l : List α) :
    mapLast n f (l.drop 1) = (mapLast n f l).drop 1 := by
  cases l with
  | nil => simp [mapLast]
  | cons a l =>
    rw [List.drop_one, List.tail_cons]
    rcases Nat.lt_or_ge l.length n with hlt | hge
    · -- the whole list is changed
      have h : l.length - n = 0 := by omega
      have h' : (a :: l).length - n = 0 := by rw [List.length_cons]; omega
      rw [mapLast, mapLast, h, h', List.drop_zero, List.drop_zero, List.map_cons]
      simp
    · have h : (a :: l).length - n = l.length - n + 1 := by rw [List.length_cons]; omega
      rw [mapLast, mapLast, h, List.take_succ_cons, List.drop_succ_cons, List.cons_append]
      rfl

theorem mapLast_eq_self_iff {n : ℕ} {l : List α} :
    mapLast n f l = l ↔ ∀ a ∈ l.drop (l.length - n), f a = a := by
  have hsplit : mapLast n f l = l ↔
      (l.drop (l.length - n)).map f = l.drop (l.length - n) := by
    conv_lhs => rhs; rw [← List.take_append_drop (l.length - n) l]
    exact List.append_right_inj _
  rw [hsplit]
  conv_lhs => rhs; rw [← List.map_id (l.drop _)]
  exact List.map_inj_left

end MapLast

/-! ### The other byte order -/

/-- The eight bytes of a value, read backwards. -/
def byteSwap (v : UInt64) : UInt64 := getLE64 (putLE64 [] v).reverse

/-- The record with its duration read backwards. -/
def Record.swapped (r : Record) : Record := { r with duration := byteSwap r.duration }

theorem swapped_eq_self_iff {r : Record} : r.swapped = r ↔ byteSwap r.duration = r.duration := by
  cases r
  simp [Record.swapped]

variable {host host' : ByteOrder} {maxHistoryPerKey : ℕ}

/-- The two machines read the same bytes in opposite directions. -/
theorem valueOf_other (hne : host' ≠ host) {b : Bytes} (hlen : 8 ≤ b.length) :
    host'.valueOf b = byteSwap (host.valueOf b) := by
  have hput : ∀ b' : Bytes, b'.length = 8 → putLE64 [] (getLE64 b') = b' := by
    intro b' hlen'
    rw [putLE64_eq, List.nil_append, digits_getLE64 hlen'.ge, List.take_of_length_le hlen'.le]
  have htake : (b.take 8).length = 8 := List.length_take_of_le hlen
  cases host <;> cases host'
  · exact absurd rfl hne
  · rw [byteSwap, ByteOrder.valueOf, ByteOrder.valueOf, hput _ htake]
  · rw [byteSwap, ByteOrder.valueOf, ByteOrder.valueOf, hput _ (by rw [List.length_reverse, htake]),
      List.reverse_reverse]
  · exact absurd rfl hne

theorem deserialize_other (hne : host' ≠ host) (blob : Bytes) :
    deserialize host' blob = (byteSwap (deserialize host blob).1, (deserialize host blob).2) := by
  rw [deserialize, deserialize]
  split_ifs with hshort
  · exact Prod.ext (by decide) rfl
  · rw [valueOf_other hne (not_lt.1 hshort)]

/-! ### Replay -/

/-- One more entry of the log, seen from a key: a record of it, its removal, or neither. -/
def countPut (key : Bytes) (n : ℕ) (r : LogRecord) : ℕ :=
  if r.key = key then if r.type = .put then n + 1 else if r.type = .delete then 0 else n else n

/-- The number of records of a key that a log has behind the key's last removal. -/
def recentPuts (key : Bytes) (rs : List LogRecord) : ℕ := rs.foldl (countPut key) 0

/-- The last records of every key have their durations read backwards. -/
def SwappedLast (recent : Bytes → ℕ) (data data' : Data) : Prop :=
  ∀ key, data'.lookup key = (data.lookup key).map (mapLast (recent key) Record.swapped)

theorem appendHistory_mapLast (n : ℕ) (history : List Record) (record : Record) :
    appendHistory maxHistoryPerKey (mapLast n Record.swapped history) record.swapped =
      mapLast (n + 1) Record.swapped (appendHistory maxHistoryPerKey history record) := by
  rw [appendHistory, appendHistory, length_mapLast]
  split_ifs
  · rw [mapLast_concat, mapLast_drop_one]
  · rw [mapLast_concat]

/-- Replaying one more entry on both machines. -/
theorem SwappedLast.replay {recent : Bytes → ℕ} {data data' : Data} (hne : host' ≠ host)
    (h : SwappedLast recent data data') (r : LogRecord) :
    SwappedLast (fun key => countPut key (recent key) r)
      (replayRecord host maxHistoryPerKey data r) (replayRecord host' maxHistoryPerKey data' r) := by
  intro key
  dsimp only
  rw [replayRecord, replayRecord, replayEntry, replayEntry, countPut]
  by_cases hput : r.type = .put
  · -- a record of the entry's key
    rw [if_pos hput, if_pos hput, if_pos hput, deserialize_other hne, lookup_appendCapped,
      lookup_appendCapped, h key]
    by_cases hkey : key = r.key
    · rw [if_pos hkey, if_pos hkey, if_pos hkey.symm, Option.map_some]
      congr 1
      rw [← appendHistory_mapLast]
      cases data.lookup key with
      | none => simp [mapLast, Record.swapped]
      | some history => rfl
    · rw [if_neg hkey, if_neg hkey, if_neg (Ne.symm hkey)]
  by_cases hdelete : r.type = .delete
  · rw [if_neg hput, if_neg hput, if_neg hput, if_pos hdelete, if_pos hdelete, if_pos hdelete,
      lookup_erase, lookup_erase, h key]
    by_cases hkey : key = r.key
    · rw [if_pos hkey, if_pos hkey, Option.map_none]
    · rw [if_neg hkey, if_neg hkey, if_neg (Ne.symm hkey)]
  · rw [if_neg hput, if_neg hput, if_neg hput, if_neg hdelete, if_neg hdelete, if_neg hdelete,
      ite_self]
    exact h key

theorem SwappedLast.foldl {recent : Bytes → ℕ} {data data' : Data} (hne : host' ≠ host)
    (h : SwappedLast recent data data') (rs : List LogRecord) :
    SwappedLast (fun key => rs.foldl (countPut key) (recent key))
      (rs.foldl (replayRecord host maxHistoryPerKey) data)
      (rs.foldl (replayRecord host' maxHistoryPerKey) data') := by
  induction rs generalizing recent data data' with
  | nil => exact h
  | cons r rs ih => exact ih (h.replay hne r)

/-- **What another machine makes of the same files**: the records that are replayed from the log
have their durations read backwards. -/
theorem contents_otherHost (hne : host' ≠ host) (image : Option SnapshotImage)
    (rs : List LogRecord) (key : Bytes) :
    (contents host' maxHistoryPerKey image rs).lookup key =
      ((contents host maxHistoryPerKey image rs).lookup key).map
        (mapLast (recentPuts key (rs.filter (Checkpoint.behind LogRecord.epoch (epochOf image))))
          Record.swapped) := by
  have hbase : SwappedLast (fun _ => 0) (imageData maxHistoryPerKey image)
      (imageData maxHistoryPerKey image) := by
    intro key
    cases (imageData maxHistoryPerKey image).lookup key <;> simp
  exact hbase.foldl hne _ key

/-! ### Runs -/

variable {p : Path} {fs : FileSystem} {rs : List LogRecord} {data : Data} {w : World}
  {events : List Event}

/-- The entries of the log that the image does not cover. -/
def FileSystem.uncovered (fs : FileSystem) (p : Path) : List LogRecord :=
  (walkFile (fs.bytes p)).records.filter
    (Checkpoint.behind LogRecord.epoch (epochOf (fs.image p)))

/-- The record of this key is in the log, and the image does not have it: it is among the last ones
of the key's history, as many as the log has for the key. -/
def FromLog (p : Path) (fs : FileSystem) (data : Data) (key : Bytes) (record : Record) : Prop :=
  ∃ history, data.lookup key = some history ∧
    record ∈ history.drop (history.length - recentPuts key (fs.uncovered p))

theorem reopens_host_iff (hlogged : Logged p fs rs)
    (hdata : contents host maxHistoryPerKey (fs.image p) rs = data) :
    Reopens host' p maxHistoryPerKey fs data ↔ host' = host ∨
      ∀ key record, FromLog p fs data key record → byteSwap record.duration = record.duration := by
  rw [reopens_iff hlogged]
  by_cases hne : host' = host
  · rw [hne]
    exact ⟨fun _ => .inl rfl, fun _ => hdata⟩
  have hlook : ∀ key, (contents host' maxHistoryPerKey (fs.image p) rs).lookup key = _ :=
    contents_otherHost hne (fs.image p) rs
  rw [hdata] at hlook
  have huncovered : fs.uncovered p = rs.filter
      (Checkpoint.behind LogRecord.epoch (epochOf (fs.image p))) := by
    rw [FileSystem.uncovered, hlogged.records]
  constructor
  · intro heq
    refine .inr ?_
    rintro key record ⟨history, hhistory, hmem⟩
    have h := hlook key
    rw [heq, hhistory, Option.map_some, Option.some.injEq] at h
    rw [huncovered] at hmem
    exact swapped_eq_self_iff.1 (mapLast_eq_self_iff.1 h.symm record hmem)
  · intro h
    have hswap := h.resolve_left hne
    refine Finmap.ext_lookup fun key => ?_
    rw [hlook key]
    cases hhistory : data.lookup key with
    | none => rfl
    | some history =>
      rw [Option.map_some, Option.some.injEq, mapLast_eq_self_iff]
      intro record hmem
      refine swapped_eq_self_iff.2 (hswap key record ⟨history, hhistory, ?_⟩)
      rw [huncovered]
      exact hmem

theorem Related.logged (h : Related True host p maxHistoryPerKey w data) : ∃ rs,
    Logged p w.fs rs ∧ contents host maxHistoryPerKey (w.fs.image p) rs = data := by
  obtain ⟨_ | engine, fs⟩ := w
  · obtain ⟨rs, hstands, hlogged⟩ := h
    exact ⟨rs, hlogged, hstands.restored⟩
  · obtain ⟨rs, hstands, hlogged⟩ := h.left
    exact ⟨rs, hlogged, hstands.restored⟩

end LiteSpeedStore
