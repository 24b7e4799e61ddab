import LiteSpeedStore.Wal.Session

/-!
# Recovery on a failing disk

`recover` when its `fstat`, `lseek` and `read` calls can fail, and reads can stop short, each at any
place of any log.  A read that fails looks like the end of the file, so the walk takes an entry that
it could not read for a torn one.

* `run_walkEntry` : what the loop body makes of an entry whose reads may fail.
* `recover_keeps_iff` : the failures after which `recover` still does what it should.
* `recover_read_failure_loses` : one failing read, and every entry of the log is gone.
-/

namespace LiteSpeedStore

open Prog WAL

/-- The outcomes of the calls that one walk makes.  Those of `read` and of the `lseek` that only
tells the offset depend on the offset, which no two of these calls share. -/
structure Outcomes where
  /-- `fstat` succeeds. -/
  fstat : Bool
  /-- The `lseek` to the first entry succeeds. -/
  seek : Bool
  /-- A `read` at this offset fails, or delivers at most so many bytes besides the first. -/
  read : ℕ → Option ℕ
  /-- The `lseek` at this offset, for the offset, succeeds. -/
  tell : ℕ → Bool
  /-- The `lseek` to the end succeeds. -/
  seekEnd : Bool

namespace Outcomes

/-- The answers, with these outcomes, and the offset of the descriptor. -/
def answer (o : Outcomes) : (c : Call) → FileSystem × ℕ → Res c × FileSystem × ℕ
  | .fstat p, (fs, off) => (if o.fstat then some (fs.bytes p).length else none, fs, off)
  | .lseek _ n .set, (fs, off) => (o.seek, fs, if o.seek then n else off)
  | .lseek _ _ .cur, (fs, off) => (o.tell off, fs, off)
  | .lseek p _ .fromEnd, (fs, off) =>
    (o.seekEnd, fs, if o.seekEnd then (fs.bytes p).length else off)
  | .read p pos len, (fs, off) =>
    match o.read pos with
    | none => (none, fs, off)
    | some j =>
      let data := ((fs.bytes p).drop pos).take (min len (j + 1))
      (some ⟨data, (List.length_take_le ..).trans (Nat.min_le_left ..)⟩, fs, pos + data.length)
  | c, (fs, off) => ((posix c fs).1, (posix c fs).2, off)

/-- No read of these bytes fails. -/
def reads (o : Outcomes) (pos size : ℕ) : Bool :=
  if _h : size = 0 then true
  else
    match o.read pos with
    | none => false
    | some j => o.reads (pos + min size (j + 1)) (size - min size (j + 1))
termination_by size
decreasing_by omega

/-- No read of the entry at `pos` fails. -/
def readsEntry (o : Outcomes) (pos : ℕ) (r : LogRecord) : Bool :=
  let keyPos := pos + crcSize + entryFixedSize
  o.reads pos crcSize && o.reads (pos + crcSize) entryFixedSize &&
    o.reads keyPos r.key.length && o.reads (keyPos + r.key.length) r.value.length &&
    o.reads (keyPos + r.key.length + r.value.length) hashSize

end Outcomes

section Calls

variable {o : Outcomes} {p : Path} {fs : FileSystem} {off : ℕ} {α : Type}

theorem run_fstat (f : Option ℕ → Io α) : run o.answer (sys (.fstat p) >>= f) (fs, off) =
    run o.answer (f (if o.fstat then some (fs.bytes p).length else none)) (fs, off) := rfl

theorem run_seek {n : ℕ} (f : Bool → Io α) :
    run o.answer (sys (.lseek p n .set) >>= f) (fs, off) =
      run o.answer (f o.seek) (fs, if o.seek then n else off) := rfl

theorem run_tell (f : Bool → Io α) : run o.answer (sys (.lseek p 0 .cur) >>= f) (fs, off) =
    run o.answer (f (o.tell off)) (fs, off) := rfl

/-- The cut at the end of a walk; what the last `lseek` answers is not looked at. -/
theorem run_cut (o : Outcomes) (p : Path) (fs : FileSystem) (n : ℤ) (a : α) :
    ∃ off', run o.answer (do
      let _ ← sys (.ftruncate p n)
      let _ ← sys (.lseek p 0 .fromEnd)
      ret a) (fs, off) =
    (a, if n < 0 then fs else fs.put p (resize (fs.bytes p) n.toNat), off') := by
  refine ⟨_, Prod.ext rfl (Prod.ext ?_ rfl)⟩
  change (posix (.ftruncate p n) fs).2 = _
  simp only [posix]
  split_ifs <;> rfl

end Calls

section Reads

variable {o : Outcomes} {p : Path} {fs : FileSystem} {b : Bytes} {pos size off : ℕ}

theorem reads_zero : o.reads pos 0 = true := by
  rw [Outcomes.reads, dif_pos rfl]

theorem reads_pos (h : size ≠ 0) : o.reads pos size =
    match o.read pos with
    | none => false
    | some j => o.reads (pos + min size (j + 1)) (size - min size (j + 1)) := by
  rw [Outcomes.reads, dif_neg h]

theorem reads_of_some (h : ∀ pos, (o.read pos).isSome) (pos size : ℕ) :
    o.reads pos size = true := by
  induction size using Nat.strong_induction_on generalizing pos with
  | _ size ih =>
    by_cases h0 : size = 0
    · rw [h0, reads_zero]
    · obtain ⟨j, hj⟩ := Option.isSome_iff_exists.1 (h pos)
      rw [reads_pos h0, hj]
      exact ih _ (by omega) _

/-- A read loop delivers the bytes if no read fails, and otherwise nothing. -/
theorem run_readExact (o : Outcomes) (pos size : ℕ) (hfs : fs p = some b) :
    ∃ off', run o.answer (readExact p pos size) (fs, pos) =
        (if o.reads pos size then slice b pos size else none, fs, off') ∧
      (o.reads pos size → (slice b pos size).isSome → off' = pos + size) := by
  have hb := FileSystem.bytes_of_some hfs
  induction size using Nat.strong_induction_on generalizing pos with
  | _ size ih =>
    rw [readExact]
    by_cases h0 : size = 0
    · subst h0
      rw [if_pos rfl, reads_zero, run_ret, if_pos rfl, slice, if_pos (.inl rfl), List.take_zero]
      exact ⟨pos, rfl, fun _ _ => rfl⟩
    rw [if_neg h0, run_call, reads_pos h0]
    cases hread : o.read pos with
    | none =>
      simp only [Outcomes.answer, hread, run_ret]
      exact ⟨pos, rfl, fun h => by cases h⟩
    | some j =>
      simp only [Outcomes.answer, hread, hb]
      have hlen : ((b.drop pos).take (min size (j + 1))).length =
          min (min size (j + 1)) (b.length - pos) := by
        rw [List.length_take, List.length_drop]
      by_cases hz : ((b.drop pos).take (min size (j + 1))).length = 0
      · -- at the end of the file
        rw [dif_pos hz, run_ret, slice_eq_none h0 (by omega), ite_self]
        exact ⟨_, rfl, fun _ h => by cases h⟩
      rw [dif_neg hz, run_bind]
      by_cases hall : pos + min size (j + 1) ≤ b.length
      · -- the read delivered what it could, and the loop goes on behind it
        have hk : ((b.drop pos).take (min size (j + 1))).length = min size (j + 1) := by omega
        rw [hk]
        obtain ⟨off', hrun, hoff⟩ :
            ∃ off', run o.answer (readExact p (pos + min size (j + 1)) (size - min size (j + 1)))
              (fs, pos + min size (j + 1)) = _ ∧ _ := ih _ (by omega) _
        rw [hrun]
        refine ⟨off', ?_, fun hreads hsome => ?_⟩
        · rw [run_ret, ← slice_map (Nat.min_le_left ..) hall]
          split_ifs <;> rfl
        · rw [← slice_map (Nat.min_le_left ..) hall, Option.isSome_map] at hsome
          have := hoff hreads hsome
          omega
      · -- the read reached the end of the file, and the next one finds nothing
        obtain ⟨off', hrun, -⟩ :
            ∃ off', run o.answer (readExact p
              (pos + ((b.drop pos).take (min size (j + 1))).length)
              (size - ((b.drop pos).take (min size (j + 1))).length))
              (fs, pos + ((b.drop pos).take (min size (j + 1))).length) = _ ∧ _ := ih _ (by omega) _
        rw [hrun, slice_eq_none (by omega) (by omega), slice_eq_none h0 (by omega), ite_self,
          ite_self]
        exact ⟨off', rfl, fun _ h => by cases h⟩

/-- A read loop in front of the rest of a program. -/
theorem run_readExact_bind {α : Type} (hfs : fs p = some b) (f : Option Bytes → Io α) :
    (∃ off', run o.answer (readExact p pos size >>= f) (fs, pos) =
        run o.answer (f none) (fs, off') ∧ (o.reads pos size → slice b pos size = none)) ∨
      ∃ d, slice b pos size = some d ∧ o.reads pos size ∧
        run o.answer (readExact p pos size >>= f) (fs, pos) =
          run o.answer (f (some d)) (fs, pos + size) := by
  obtain ⟨off', hrun, hoff⟩ := run_readExact o pos size hfs
  rw [run_bind, hrun]
  by_cases hreads : o.reads pos size = true
  · rw [if_pos hreads]
    cases hslice : slice b pos size with
    | none => exact .inl ⟨off', rfl, fun _ => rfl⟩
    | some d => exact .inr ⟨d, rfl, hreads, by rw [hoff hreads (by rw [hslice]; rfl)]⟩
  · rw [if_neg hreads]
    exact .inl ⟨off', rfl, fun h => absurd h hreads⟩

end Reads

section Entries

variable {o : Outcomes} {fd : Path} {fs : FileSystem} {b : Bytes} {pos : ℕ} {prev : Sha256Digest}
  {seq : UInt64}

/-- The lengths in the fixed part of an entry that is accepted. -/
theorem readEntry_lengths {rest : Bytes} {r : LogRecord} {computed : Sha256Digest}
    (h : readEntry prev seq rest = .entry r computed) :
    (getLE32 (((rest.drop crcSize).take entryFixedSize).drop offKeyLen)).toNat = r.key.length ∧
      (getLE32 (((rest.drop crcSize).take entryFixedSize).drop offValueLen)).toNat =
        r.value.length := by
  obtain ⟨hfits, -, -, hbytes⟩ := readEntry_exact h
  have hfixed : (rest.drop crcSize).take entryFixedSize = r.fixed seq := by
    rw [← hbytes, encode_append_eq]
    exact drop_take_middle (by simp [crcSize]) (by simp)
  rw [hfixed, fixed_keyLen, fixed_valueLen]
  exact ⟨LogRecord.toNat_keyLen hfits, LogRecord.toNat_valueLen hfits⟩

theorem readsEntry_iff {r : LogRecord} : o.readsEntry pos r ↔
    o.reads pos crcSize ∧ o.reads (pos + crcSize) entryFixedSize ∧
      o.reads (pos + crcSize + entryFixedSize) r.key.length ∧
      o.reads (pos + crcSize + entryFixedSize + r.key.length) r.value.length ∧
      o.reads (pos + crcSize + entryFixedSize + r.key.length + r.value.length) hashSize := by
  simp only [Outcomes.readsEntry, Bool.and_eq_true, and_assoc]

/-- **The loop body of `walkChain` on a failing disk**: it finds what is there, or takes the entry
for a torn one; an entry that is there is found if and only if none of its reads fails. -/
theorem run_walkEntry (o : Outcomes) (prev : Sha256Digest) (seq : UInt64) (hfs : fs fd = some b)
    (hpos : pos ≤ b.length) :
    ∃ outcome off', run o.answer (walkEntry fd b.length pos prev seq) (fs, pos) =
        (outcome, fs, off') ∧
      (outcome = .torn ∨ outcome = readEntry prev seq (b.drop pos)) ∧
      ∀ r computed, readEntry prev seq (b.drop pos) = .entry r computed →
        if o.readsEntry pos r then outcome = .entry r computed ∧ off' = pos + r.size
        else outcome = .torn := by
  have hlen : (b.drop pos).length = b.length - pos := List.length_drop
  have hsize : ∀ {r computed}, readEntry prev seq (b.drop pos) = .entry r computed →
      pos + crcSize + entryFixedSize + r.key.length + r.value.length + hashSize ≤ b.length := by
    intro r computed h
    have hle := (readEntry_exact h).2.2.1
    simp only [LogRecord.size] at hle
    omega
  -- one of the reads delivers nothing
  have htorn : ∀ {i n : ℕ} {x : EntryOutcome × FileSystem × ℕ} {off' : ℕ},
      x = (.torn, fs, off') → (o.reads i n → slice b i n = none) →
      (∀ r computed, readEntry prev seq (b.drop pos) = .entry r computed →
        o.readsEntry pos r → o.reads i n ∧ i + n ≤ b.length) →
      ∃ outcome off', x = (outcome, fs, off') ∧
        (outcome = .torn ∨ outcome = readEntry prev seq (b.drop pos)) ∧
        ∀ r computed, readEntry prev seq (b.drop pos) = .entry r computed →
          if o.readsEntry pos r then outcome = .entry r computed ∧ off' = pos + r.size
          else outcome = .torn := by
    intro i n x off' hx hnone hin
    refine ⟨_, off', hx, .inl rfl, fun r computed h => ?_⟩
    rw [if_neg]
    intro hr
    obtain ⟨hreads, hle⟩ := hin r computed h hr
    rw [slice_some hle] at hnone
    cases hnone hreads
  rw [walkEntry]
  obtain ⟨off', hrun, hnone⟩ | ⟨crc, hcrc, hreads₁, hrun⟩ := run_readExact_bind (o := o) hfs _
  · refine htorn hrun hnone fun r computed h hr => ⟨(readsEntry_iff.1 hr).1, ?_⟩
    have := hsize h
    omega
  rw [hrun]
  dsimp only
  obtain ⟨off', hrun, hnone⟩ | ⟨fixed, hfixed, hreads₂, hrun⟩ := run_readExact_bind (o := o) hfs _
  · refine htorn hrun hnone fun r computed h hr => ⟨(readsEntry_iff.1 hr).2.1, ?_⟩
    have := hsize h
    omega
  rw [hrun]
  dsimp only
  -- what is there, with the fixed part in hand
  have h37 : pos + crcSize + entryFixedSize ≤ b.length := length_le_of_slice hfixed (by decide)
  obtain rfl := eq_of_slice hfixed
  obtain rfl := eq_of_slice hcrc
  have hlengths := fun r computed h =>
    readEntry_lengths (r := r) (show readEntry prev seq (b.drop pos) = .entry r computed from h)
  have hentry : readEntry prev seq (b.drop pos) = readEntry prev seq (b.drop pos) := rfl
  conv_rhs at hentry => rw [readEntry, if_neg (by omega)]
  dsimp only at hentry
  rw [← hlen, ← List.drop_drop]
  generalize ((b.drop pos).drop crcSize).take entryFixedSize = fixed at hlengths hentry ⊢
  by_cases hover : getLE32 (fixed.drop offKeyLen) > kMaxFieldSize ∨
      getLE32 (fixed.drop offValueLen) > kMaxFieldSize
  · rw [if_pos hover] at hentry ⊢
    refine ⟨_, _, rfl, .inr hentry.symm, fun r computed h => ?_⟩
    rw [hentry] at h
    cases h
  rw [if_neg hover] at hentry ⊢
  by_cases hneed : neededSize (getLE32 (fixed.drop offKeyLen)) (getLE32 (fixed.drop offValueLen)) >
      (b.drop pos).length
  · rw [if_pos hneed] at hentry ⊢
    refine ⟨_, _, rfl, .inl rfl, fun r computed h => ?_⟩
    rw [hentry] at h
    cases h
  rw [if_neg hneed] at hentry ⊢
  obtain ⟨off', hrun, hnone⟩ | ⟨key, hkey, hreads₃, hrun⟩ := run_readExact_bind (o := o) hfs _
  · refine htorn hrun hnone fun r computed h hr => ?_
    have hle := hsize h
    rw [(hlengths r computed h).1]
    exact ⟨(readsEntry_iff.1 hr).2.2.1, by omega⟩
  rw [hrun]
  dsimp only
  obtain ⟨off', hrun, hnone⟩ | ⟨value, hvalue, hreads₄, hrun⟩ := run_readExact_bind (o := o) hfs _
  · refine htorn hrun hnone fun r computed h hr => ?_
    have hle := hsize h
    rw [(hlengths r computed h).1, (hlengths r computed h).2]
    exact ⟨(readsEntry_iff.1 hr).2.2.2.1, by omega⟩
  rw [hrun]
  dsimp only
  obtain ⟨off', hrun, hnone⟩ | ⟨hash, hhash, hreads₅, hrun⟩ := run_readExact_bind (o := o) hfs _
  · refine htorn hrun hnone fun r computed h hr => ?_
    have hle := hsize h
    rw [(hlengths r computed h).1, (hlengths r computed h).2]
    exact ⟨(readsEntry_iff.1 hr).2.2.2.2, by omega⟩
  rw [hrun]
  dsimp only
  have hout : verifyEntry prev seq (getLE32 ((b.drop pos).take crcSize)) fixed key value hash =
      readEntry prev seq (b.drop pos) := by
    rw [hentry, ← eq_of_slice hkey, ← eq_of_slice hvalue, ← eq_of_slice hhash]
    simp only [List.drop_drop, Nat.add_assoc]
  refine ⟨_, _, rfl, .inr hout, fun r computed h => ?_⟩
  obtain ⟨hkeyLen, hvalueLen⟩ := hlengths r computed h
  rw [hkeyLen] at hreads₃ hreads₄ hreads₅ ⊢
  rw [hvalueLen] at hreads₄ hreads₅ ⊢
  rw [if_pos (readsEntry_iff.2 ⟨hreads₁, hreads₂, hreads₃, hreads₄, hreads₅⟩)]
  exact ⟨hout.trans h, by simp only [LogRecord.size]; omega⟩

end Entries

/-! ### The walk -/

/-- No read of these entries fails, which start at `pos` and are followed by `rest`, and the offset
is told behind each, or behind the last for no use. -/
def Outcomes.ReadsLog (o : Outcomes) (rest : Bytes) : ℕ → List LogRecord → Prop
  | _, [] => True
  | pos, r :: rs => o.readsEntry pos r ∧ (o.tell (pos + r.size) ∨ rs = [] ∧ rest = []) ∧
      o.ReadsLog rest (pos + r.size) rs

section Loop

variable {o : Outcomes} {fd : Path} {fs : FileSystem} {b : Bytes} {pos : ℕ} {σ : Type}
  {visitor : Option (Visitor σ)} {minEpochExclusive : Option UInt64} {st st' : WalkState σ}

/-- The chain state of the loop has moved past these records. -/
def WAL.WalkState.Past (st st' : WalkState σ) (rs : List LogRecord) : Prop :=
  st'.prevHash = chainHead st.prevHash st.expectedSeq rs ∧
    st'.expectedSeq = st.expectedSeq + UInt64.ofNat rs.length

/-- The loop reports a failure, or has passed every record: it stops at the end of the file, behind
the last record, or where nothing follows and the offset is not told. -/
def EndsWell (size : ℕ) (w : Walk) (st : WalkState σ) : LoopExit σ → Prop
  | .failed status _ _ => status = .malformed ∨ status = .tampered
  | .done torn currentPos st' => st.Past st' w.records ∧
      (torn = false ∧ w.stop = .clean ∨ torn = true ∧
        (currentPos = ((size - w.rest.length : ℕ) : ℤ) ∨ currentPos = -1 ∧ w.rest = []))

/-- The loop takes the end of some records for the end of the log: a read of the next one failed, or
the offset was not told and something follows. -/
def EndsEarly (o : Outcomes) (pos : ℕ) (w : Walk) (st : WalkState σ) : LoopExit σ → Prop
  | .failed _ _ _ => False
  | .done torn currentPos st' => ∃ k, st.Past st' (w.records.take k) ∧ torn = true ∧
      (k < w.records.length ∧
          currentPos = ((pos + ((w.records.take k).map LogRecord.size).sum : ℕ) : ℤ) ∨
        k ≤ w.records.length ∧ (k < w.records.length ∨ w.rest ≠ []) ∧ currentPos = -1 ∧
          o.tell (pos + ((w.records.take k).map LogRecord.size).sum) = false)

section Cons

variable {w : Walk} {r : LogRecord} {size : ℕ} {exit : LoopExit σ} {seen : σ}

theorem past_cons {rs : List LogRecord}
    (h : WalkState.Past ⟨r.hash st.prevHash st.expectedSeq, st.expectedSeq + 1, seen⟩ st' rs) :
    st.Past st' (r :: rs) := by
  rw [WalkState.Past] at h ⊢
  rw [chainHead, List.length_cons, ← add_succ_ofNat]
  exact h

theorem endsWell_cons
    (h : EndsWell size w ⟨r.hash st.prevHash st.expectedSeq, st.expectedSeq + 1, seen⟩ exit) :
    EndsWell size { w with records := r :: w.records } st exit := by
  cases exit with
  | failed status pos st' => exact h
  | done torn currentPos st' => exact ⟨past_cons h.1, h.2⟩

theorem endsEarly_cons (h : EndsEarly o (pos + r.size) w
      ⟨r.hash st.prevHash st.expectedSeq, st.expectedSeq + 1, seen⟩ exit) :
    EndsEarly o pos { w with records := r :: w.records } st exit := by
  cases exit with
  | failed status pos st' => exact h
  | done torn currentPos st' =>
    obtain ⟨k, hpast, htorn, h⟩ := h
    refine ⟨k + 1, ?_, htorn, ?_⟩
    · rw [List.take_succ_cons]
      exact past_cons hpast
    · rw [List.take_succ_cons, List.map_cons, List.sum_cons, ← Nat.add_assoc, List.length_cons,
        Nat.add_lt_add_iff_right, Nat.add_le_add_iff_right]
      exact h

end Cons

/-- **The loop of `walkChain` on a failing disk.** -/
theorem run_walkLoop (o : Outcomes) (visitor : Option (Visitor σ))
    (minEpochExclusive : Option UInt64) (st : WalkState σ) (hfs : fs fd = some b)
    (hpos : pos ≤ b.length) :
    ∃ exit off', run o.answer (walkLoop fd b.length visitor minEpochExclusive pos st) (fs, pos) =
        (exit, fs, off') ∧
      (o.ReadsLog (walk st.prevHash st.expectedSeq (b.drop pos)).rest pos
          (walk st.prevHash st.expectedSeq (b.drop pos)).records →
        EndsWell b.length (walk st.prevHash st.expectedSeq (b.drop pos)) st exit) ∧
      (¬o.ReadsLog (walk st.prevHash st.expectedSeq (b.drop pos)).rest pos
          (walk st.prevHash st.expectedSeq (b.drop pos)).records →
        EndsEarly o pos (walk st.prevHash st.expectedSeq (b.drop pos)) st exit) := by
  induction hn : b.length - pos using Nat.strong_induction_on generalizing pos st with
  | _ n ih =>
    have hlen : (b.drop pos).length = b.length - pos := List.length_drop
    rw [walkLoop]
    split_ifs with hlt
    · have hne : b.drop pos ≠ [] := by
        intro h0
        rw [h0, List.length_nil] at hlen
        omega
      obtain ⟨outcome, off', hrun, hout, hfound⟩ :=
        run_walkEntry o st.prevHash st.expectedSeq hfs hpos
      rw [run_bind, hrun]
      have hpast : st.Past st [] := ⟨rfl, by simp⟩
      have hback : b.length - (b.drop pos).length = pos := by omega
      cases hentry : readEntry st.prevHash st.expectedSeq (b.drop pos) with
      | torn =>
        obtain rfl : outcome = .torn := by rwa [hentry, or_self] at hout
        rw [walk_torn hentry hne]
        refine ⟨_, _, rfl, fun _ => ?_, fun h => absurd trivial h⟩
        exact ⟨hpast, .inr ⟨rfl, .inl (by rw [hback])⟩⟩
      | failed status =>
        rw [walk_failed hentry]
        rw [hentry] at hout
        rcases hout with rfl | rfl
        · refine ⟨_, _, rfl, fun _ => ?_, fun h => absurd trivial h⟩
          exact ⟨hpast, .inr ⟨rfl, .inl (by rw [hback])⟩⟩
        · exact ⟨_, _, rfl, fun _ => readEntry_failed hentry, fun h => absurd trivial h⟩
      | entry r computed =>
        obtain ⟨-, rfl, hsize, -⟩ := readEntry_exact hentry
        have hsize0 := r.size_pos
        have hread := hfound r _ hentry
        rw [walk_entry hentry, List.drop_drop]
        split_ifs at hread with hreads
        · obtain ⟨rfl, rfl⟩ := hread
          dsimp only
          rw [run_tell]
          rcases Bool.eq_false_or_eq_true (o.tell (pos + r.size)) with htell | htell
          · rw [htell, if_pos rfl]
            obtain ⟨exit, off', hrun', hwell, hearly⟩ :
                ∃ exit off', run o.answer (walkLoop fd b.length visitor minEpochExclusive
                  (pos + r.size) ⟨r.hash st.prevHash st.expectedSeq, st.expectedSeq + 1,
                    visit visitor minEpochExclusive r st.visited⟩) (fs, pos + r.size) = _ ∧ _ :=
              ih (b.length - (pos + r.size)) (by omega) _ (by omega) rfl
            rw [hrun']
            refine ⟨exit, off', rfl, fun h => endsWell_cons (hwell h.2.2), fun h => ?_⟩
            refine endsEarly_cons (hearly fun hrest => h ⟨hreads, .inl htell, hrest⟩)
          · -- the offset is not told, and the loop takes this for a torn entry
            rw [htell, if_neg Bool.false_ne_true]
            have hpast₁ : st.Past ⟨r.hash st.prevHash st.expectedSeq, st.expectedSeq + 1,
                visit visitor minEpochExclusive r st.visited⟩ [r] := past_cons ⟨rfl, by simp⟩
            refine ⟨_, _, rfl, fun h => ?_, fun h => ?_⟩
            · obtain ⟨hlast, hrest⟩ := h.2.1.resolve_left (by rw [htell]; decide)
              exact ⟨by rwa [hlast], .inr ⟨rfl, .inr ⟨rfl, hrest⟩⟩⟩
            · refine ⟨1, hpast₁, rfl, .inr ⟨Nat.succ_pos _, ?_, rfl, ?_⟩⟩
              · by_contra hlast
                rw [not_or, not_lt, not_not, List.length_cons] at hlast
                have hnil :=
                  List.length_eq_zero_iff.1 (Nat.le_zero.1 (Nat.le_of_succ_le_succ hlast.1))
                refine h ⟨hreads, .inr ⟨hnil, hlast.2⟩, ?_⟩
                rw [hnil]
                trivial
              · rw [List.take_succ_cons, List.take_zero, List.map_cons, List.map_nil,
                  List.sum_cons, List.sum_nil, Nat.add_zero]
                exact htell
        · subst hread
          refine ⟨_, _, rfl, fun h => absurd h.1 hreads, fun _ => ?_⟩
          exact ⟨0, hpast, rfl, .inl ⟨Nat.succ_pos _, rfl⟩⟩
    · have hpos' : pos = b.length := by omega
      subst hpos'
      rw [List.drop_length, walk_nil]
      refine ⟨_, _, rfl, fun _ => ?_, fun h => absurd trivial h⟩
      exact ⟨⟨rfl, by simp⟩, .inl ⟨rfl, rfl⟩⟩

end Loop

/-! ### Recovery -/

/-- Appends to the object continue the chain in the file, however many. -/
def Extends (p : Path) (wal : WAL) (fs : FileSystem) : Prop :=
  ∀ rs : List LogRecord, (∀ r ∈ rs, r.Fits) → ∃ wal' fs',
    run posix (wal.appendAll rs) fs = (.ok wal', fs') ∧
      (walkFile (fs'.bytes p)).records = (walkFile (fs.bytes p)).records ++ rs ∧
      (walkFile (fs'.bytes p)).stop = .clean

/-- What `recover` should do to the file `b`: no complete valid entry is removed, a clean chain is
reported only if the whole file was walked, and the chain that is adopted is the one in the file. -/
structure Recovers (p : Path) (b : Bytes) (result : RecoveryResult) (wal : WAL) (fs : FileSystem) :
    Prop where
  kept : (walkFile b).records <+: (walkFile (fs.bytes p)).records
  walked : result.status = .ok → (walkFile b).stop = .clean ∧
    result.entriesVerified = UInt64.ofNat (walkFile b).records.length
  adopted : result.status = .ok ∨ result.status = .truncatedTail → Extends p wal fs

/-- The failures that do no harm to the log `b`: those of `fstat` and of the first `lseek` if there
is nothing behind the header, those of the reads of entries that are not complete and valid, and that
of the last offset if nothing follows. -/
def Outcomes.Spare (o : Outcomes) (b : Bytes) : Prop :=
  (o.fstat ∧ o.seek ∨ b.drop kHeaderSize = []) ∧
    o.ReadsLog (walkFile b).rest kHeaderSize (walkFile b).records

section Recovery

variable {o : Outcomes} {p : Path} {fs : FileSystem} {b : Bytes} {wal : WAL} {σ : Type}
  {visitor : Visitor σ} {minEpochExclusive : Option UInt64} {s : σ} {off : ℕ}

theorem run_appendAll {rs : List LogRecord} (hfits : ∀ r ∈ rs, r.Fits) (hfd : wal.fd = some p)
    (hfs : fs p = some b) : ∃ wal', run posix (wal.appendAll rs) fs =
      (.ok wal', fs.put p (b ++ encodeLog wal.headHash wal.seq rs)) := by
  obtain ⟨wal', hres, -, -, -, hfs'⟩ := wp_run (Faults.allows_posix (F := Faults.none 0))
    (wp_appendAll hfits hfd hfs)
  exact ⟨wal', Prod.ext hres hfs'⟩

/-- An object at the end of the chain in the file extends it. -/
theorem extends_of_clean (hfd : wal.fd = some p) (hfs : fs p = some b)
    (hlen : kHeaderSize ≤ b.length) (hclean : (walkFile b).stop = .clean)
    (hhead : wal.headHash = (walkFile b).head) (hseq : wal.seq = (walkFile b).seq) :
    Extends p wal fs := by
  intro rs hfits
  obtain ⟨wal', hrun⟩ := run_appendAll hfits hfd hfs
  refine ⟨wal', _, hrun, ?_⟩
  rw [FileSystem.bytes_put, FileSystem.bytes_of_some hfs, hhead, hseq]
  exact walkFile_appendLog hlen hclean hfits

/-- An object that extends the chain in the file is at its end. -/
theorem Extends.seq (h : Extends p wal fs) (hfd : wal.fd = some p) (hfs : fs p = some b)
    (hlen : kHeaderSize ≤ b.length) :
    (walkFile b).stop = .clean ∧ wal.seq = (walkFile b).seq := by
  have hfit : (⟨.put, [], [], 0, 0⟩ : LogRecord).Fits := by decide
  have hfits : ∀ r ∈ [(⟨.put, [], [], 0, 0⟩ : LogRecord)], r.Fits := by
    rintro r hr
    rwa [List.mem_singleton.1 hr]
  obtain ⟨wal', fs', hrun, hrecords, hclean⟩ := h _ hfits
  obtain ⟨wal'', hrun'⟩ := run_appendAll hfits hfd hfs
  obtain rfl := (Prod.ext_iff.1 (hrun.symm.trans hrun')).2
  rw [FileSystem.bytes_put, encodeLog, encodeLog, List.append_nil] at hrecords hclean
  rw [FileSystem.bytes_of_some hfs] at hrecords
  obtain ⟨hold, hentry⟩ := entry_of_shown hlen hfit hclean (by rw [hrecords])
  exact ⟨hold, (encode_inj hfit hfit hentry).1⟩

/-- The failure of `fstat` or of the first `lseek` passes for an empty log. -/
theorem run_recover_blind (visitor : Visitor σ) (minEpochExclusive : Option UInt64) (s : σ)
    (fs : FileSystem) (off : ℕ) (hfd : wal.fd = some p) (h : ¬(o.fstat ∧ o.seek)) :
    ∃ off', run o.answer (wal.recover visitor minEpochExclusive s) (fs, off) =
      (({}, { wal with seq := 0, headHash := .zero }, s), fs, off') := by
  have hchain : ∃ off', run o.answer
      (walkChain (some p) (some visitor) minEpochExclusive true s) (fs, off) =
        (({}, s), fs, off') := by
    rw [walkChain, run_fstat]
    rcases Bool.eq_false_or_eq_true o.fstat with hfstat | hfstat
    · have hseek : o.seek = false := by
        rcases Bool.eq_false_or_eq_true o.seek with hseek | hseek
        · exact absurd ⟨hfstat, hseek⟩ h
        · exact hseek
      rw [hfstat, if_pos rfl]
      dsimp only
      rw [run_seek, hseek]
      exact ⟨_, rfl⟩
    · rw [hfstat]
      exact ⟨_, rfl⟩
  obtain ⟨off', hrun⟩ := hchain
  rw [WAL.recover, hfd, run_bind, hrun]
  exact ⟨off', rfl⟩

/-- The result of `walkChain` and the files, by the end of its loop on the file `b`. -/
def Leaves (p : Path) (b : Bytes) (fs : FileSystem) (result : RecoveryResult) (fs' : FileSystem) :
    LoopExit σ → Prop
  | .failed status _ _ => result.status = status ∧ fs' = fs
  | .done torn currentPos st =>
    result.status = (if torn then .truncatedTail else .ok) ∧
      result.entriesVerified = st.expectedSeq ∧ result.headHash = st.prevHash ∧
      fs' = if torn ∧ 0 ≤ currentPos then fs.put p (resize b currentPos.toNat) else fs

/-- What `walkChain` makes of the end of the loop. -/
theorem run_walkChain_loop (off : ℕ) {exit : LoopExit σ} {off₁ : ℕ} (hfs : fs p = some b)
    (hfstat : o.fstat = true) (hseek : o.seek = true)
    (hloop : run o.answer (walkLoop p b.length (some visitor) minEpochExclusive kHeaderSize
      ⟨.zero, 0, s⟩) (fs, kHeaderSize) = (exit, fs, off₁)) :
    ∃ result s' fs' off',
      run o.answer (walkChain (some p) (some visitor) minEpochExclusive true s) (fs, off) =
        ((result, s'), fs', off') ∧ Leaves p b fs result fs' exit := by
  have hb := FileSystem.bytes_of_some hfs
  rw [walkChain, run_fstat, hfstat, if_pos rfl, hb]
  dsimp only
  rw [run_seek, hseek, if_pos rfl, run_bind, if_pos rfl, hloop]
  cases exit with
  | failed status pos st => exact ⟨_, _, _, _, rfl, rfl, rfl⟩
  | done torn currentPos st =>
    cases torn with
    | false => exact ⟨_, _, _, _, rfl, rfl, rfl, rfl, rfl⟩
    | true =>
      dsimp only
      rw [if_pos rfl, if_pos rfl]
      obtain ⟨off', hrun⟩ := run_cut o p fs currentPos _
      rw [hrun, hb]
      refine ⟨_, _, _, _, rfl, rfl, rfl, rfl, ?_⟩
      by_cases hneg : currentPos < 0
      · rw [if_pos hneg, if_neg (by omega)]
      · rw [if_neg hneg, if_pos ⟨rfl, not_lt.1 hneg⟩]

/-- What `recover` makes of the end of the loop. -/
theorem run_recover_loop (off : ℕ) {exit : LoopExit σ} {off₁ : ℕ} (hfd : wal.fd = some p)
    (hfs : fs p = some b) (hfstat : o.fstat = true) (hseek : o.seek = true)
    (hloop : run o.answer (walkLoop p b.length (some visitor) minEpochExclusive kHeaderSize
      ⟨.zero, 0, s⟩) (fs, kHeaderSize) = (exit, fs, off₁)) :
    ∃ result wal' s' fs' off',
      run o.answer (wal.recover visitor minEpochExclusive s) (fs, off) =
        ((result, wal', s'), fs', off') ∧ Leaves p b fs result fs' exit ∧
      (result.status = .ok ∨ result.status = .truncatedTail →
        wal' = { wal with seq := result.entriesVerified, headHash := result.headHash }) := by
  obtain ⟨result, s', fs', off', hrun, h⟩ := run_walkChain_loop off hfs hfstat hseek hloop
  rw [WAL.recover, hfd, run_bind, hrun]
  dsimp only
  split_ifs with hadopts
  · exact ⟨_, _, _, _, _, rfl, h, fun _ => rfl⟩
  · exact ⟨_, _, _, _, _, rfl, h, fun hok => absurd hok hadopts⟩

/-- A log cut behind some of its valid entries. -/
theorem walkFile_takeRecords (k : ℕ) :
    walkFile (b.take (kHeaderSize + (((walkFile b).records.take k).map LogRecord.size).sum)) =
      ⟨(walkFile b).records.take k, chainHead .zero 0 ((walkFile b).records.take k),
        UInt64.ofNat ((walkFile b).records.take k).length, [], .clean⟩ := by
  obtain ⟨hfits, hbytes, -⟩ := walk_exact .zero 0 (b.drop kHeaderSize)
  rw [← walkFile] at hfits hbytes
  have hfits' := fits_take hfits k
  refine walkFile_chain hfits' ?_
  rw [drop_logOf hfits', List.drop_take, Nat.add_sub_cancel_left, ← hbytes]
  conv_lhs => rw [← List.take_append_drop k (walkFile b).records, encodeLog_append]
  rw [List.take_append_drop, List.append_assoc]
  exact List.take_left' (length_encodeLog ..)

theorem past_end {st' : WalkState σ}
    (h : WalkState.Past ⟨.zero, 0, s⟩ st' (walkFile b).records) :
    st'.prevHash = (walkFile b).head ∧ st'.expectedSeq = (walkFile b).seq := by
  obtain ⟨-, -, hhead, hseq, -⟩ := walk_exact .zero 0 (b.drop kHeaderSize)
  rw [← walkFile] at hhead hseq
  rw [hhead, hseq]
  exact h

/-- A clean log with the valid entries of `b`, and an object at its end, are what should be left. -/
theorem recovers_of_clean {b' : Bytes} {result : RecoveryResult} {wal' : WAL} {fs' : FileSystem}
    (hfd : wal'.fd = some p) (hfs' : fs' p = some b') (hlen : kHeaderSize ≤ b'.length)
    (hsame : walkFile b' = ⟨(walkFile b).records, (walkFile b).head, (walkFile b).seq, [], .clean⟩)
    (hclean : result.status = .ok → (walkFile b).stop = .clean)
    (hverified : result.entriesVerified = (walkFile b).seq)
    (hhead : wal'.headHash = (walkFile b).head) (hseq : wal'.seq = (walkFile b).seq) :
    Recovers p b result wal' fs' := by
  obtain ⟨-, -, -, hcount, -⟩ := walk_exact .zero 0 (b.drop kHeaderSize)
  rw [← walkFile, UInt64.zero_add] at hcount
  refine ⟨?_, fun hok => ⟨hclean hok, hverified.trans hcount⟩, fun _ => ?_⟩
  · exact ⟨[], by rw [List.append_nil, FileSystem.bytes_of_some hfs', hsame]⟩
  · refine extends_of_clean hfd hfs' hlen ?_ ?_ ?_
    · rw [hsame]
    · rw [hsame, hhead]
    · rw [hsame, hseq]

/-- A loop that passes every record recovers the log. -/
theorem recovers_of_endsWell {exit : LoopExit σ} {result : RecoveryResult} {wal' : WAL}
    {fs' : FileSystem} (hfd : wal.fd = some p) (hfs : fs p = some b) (hlen : kHeaderSize ≤ b.length)
    (hwell : EndsWell b.length (walkFile b) ⟨.zero, 0, s⟩ exit)
    (hleaves : Leaves p b fs result fs' exit)
    (hadopts : result.status = .ok ∨ result.status = .truncatedTail →
      wal' = { wal with seq := result.entriesVerified, headHash := result.headHash }) :
    Recovers p b result wal' fs' := by
  cases exit with
  | failed status pos st' =>
    obtain ⟨rfl, rfl⟩ := hleaves
    have hfailed : ¬(result.status = .ok ∨ result.status = .truncatedTail) := by
      rcases hwell with h | h <;> simp [h]
    refine ⟨?_, fun h => absurd (.inl h) hfailed, fun h => absurd h hfailed⟩
    exact ⟨[], by rw [List.append_nil, FileSystem.bytes_of_some hfs]⟩
  | done torn currentPos st' =>
    obtain ⟨hstatus, hverified, hhead, rfl⟩ := hleaves
    obtain ⟨hpast, hend⟩ := hwell
    obtain ⟨hprev, hseq⟩ := past_end hpast
    rw [hprev] at hhead
    rw [hseq] at hverified
    have hstatus' : result.status = .ok ∨ result.status = .truncatedTail := by
      rw [hstatus]
      cases torn <;> simp
    obtain rfl := hadopts hstatus'
    -- nothing is behind the valid entries
    have hwhole : (walkFile b).rest = [] →
        walkFile b = ⟨(walkFile b).records, (walkFile b).head, (walkFile b).seq, [], .clean⟩ := by
      intro hrest
      rw [← hrest, ← clean_of_rest hrest]
    rcases hend with ⟨rfl, hclean⟩ | ⟨rfl, rfl | ⟨rfl, hrest⟩⟩
    · have hrest := (walk_exact .zero 0 (b.drop kHeaderSize)).2.2.2.2
      rw [← walkFile, hclean] at hrest
      rw [if_neg (by simp)]
      exact recovers_of_clean hfd hfs hlen (hwhole hrest) (fun _ => hclean) hverified hhead hverified
    · -- the log is cut behind the last valid entry
      have hrecords := end_of_records hlen
      have htake := walkFile_takeRecords (b := b) (walkFile b).records.length
      obtain ⟨-, -, hhead', hseq', -⟩ := walk_exact .zero 0 (b.drop kHeaderSize)
      rw [← walkFile, UInt64.zero_add] at hseq'
      rw [← walkFile] at hhead'
      rw [List.take_length, ← hhead', ← hseq'] at htake
      rw [if_pos ⟨rfl, Int.natCast_nonneg _⟩, Int.toNat_natCast, resize_of_le (Nat.sub_le ..)]
      refine recovers_of_clean hfd (FileSystem.put_self ..) ?_ ?_ (fun hok => ?_) hverified hhead
        hverified
      · rw [List.length_take]
        omega
      · rw [← htake]
        congr 2
        omega
      · rw [hstatus] at hok
        cases hok
    · -- nothing follows the last entry, whose offset was not told
      rw [if_neg (by simp)]
      exact recovers_of_clean hfd hfs hlen (hwhole hrest) (fun _ => clean_of_rest hrest) hverified
        hhead hverified

/-- The entries of a clean log are counted without overflow. -/
theorem count_of_clean {k : ℕ} (hsize : b.length < 2 ^ 63) (hclean : (walkFile b).stop = .clean)
    (hk : k ≤ (walkFile b).records.length) (hcount : UInt64.ofNat k = (walkFile b).seq) :
    k = (walkFile b).records.length := by
  obtain ⟨-, -, -, hseq, -⟩ := walk_exact .zero 0 (b.drop kHeaderSize)
  rw [← walkFile, UInt64.zero_add] at hseq
  obtain ⟨hfits, hdrop⟩ := records_of_clean hclean
  have hlt := length_records_lt hfits hsize hdrop
  have h := congrArg UInt64.toNat (hcount.trans hseq)
  rwa [UInt64.toNat_ofNat_of_lt' (hk.trans_lt hlt), UInt64.toNat_ofNat_of_lt' hlt] at h

/-- A loop that ends early does not recover the log. -/
theorem not_recovers_of_endsEarly {exit : LoopExit σ} {result : RecoveryResult} {wal' : WAL}
    {fs' : FileSystem} (hfd : wal.fd = some p) (hfs : fs p = some b) (hlen : kHeaderSize ≤ b.length)
    (hsize : b.length < 2 ^ 63)
    (hearly : EndsEarly o kHeaderSize (walkFile b) ⟨.zero, 0, s⟩ exit)
    (hleaves : Leaves p b fs result fs' exit)
    (hadopts : result.status = .ok ∨ result.status = .truncatedTail →
      wal' = { wal with seq := result.entriesVerified, headHash := result.headHash }) :
    ¬Recovers p b result wal' fs' := by
  intro h
  cases exit with
  | failed status pos st' => exact hearly
  | done torn currentPos st' =>
    obtain ⟨hstatus, hverified, -, rfl⟩ := hleaves
    obtain ⟨k, hpast, rfl, ⟨hk, rfl⟩ | ⟨hk, hrest, rfl, -⟩⟩ := hearly
    · -- the entries from the `k`-th on are cut off
      have hend := end_of_records hlen
      have hkept := h.kept.length_le
      rw [if_pos ⟨rfl, Int.natCast_nonneg _⟩, Int.toNat_natCast, FileSystem.bytes_put,
        resize_of_le ?_, walkFile_takeRecords, List.length_take] at hkept
      · omega
      · have hsum := congrArg (fun rs => (rs.map LogRecord.size).sum)
          (List.take_append_drop k (walkFile b).records)
        simp only [List.map_append, List.sum_append] at hsum
        omega
    · -- the chain that is adopted ends in front of what is in the file
      rw [if_neg (by simp)] at h
      have hextends := h.adopted (.inr (by rw [hstatus, if_pos rfl]))
      rw [hadopts (.inr (by rw [hstatus, if_pos rfl]))] at hextends
      obtain ⟨hclean, hseq⟩ := hextends.seq hfd hfs hlen
      have hstopped := (walk_exact .zero 0 (b.drop kHeaderSize)).2.2.2.2
      rw [← walkFile, hclean] at hstopped
      have hcount : UInt64.ofNat k = (walkFile b).seq := by
        rw [← hseq, hverified, hpast.2, UInt64.zero_add, List.length_take, Nat.min_eq_left hk]
      exact hrest.elim (fun hlt => absurd (count_of_clean hsize hclean hk hcount) hlt.ne)
        fun hne => hne hstopped

/-- **When a failing disk does no harm.**  For every log, every outcome of the `fstat`, `lseek` and
`read` calls of `recover`, and every visitor: no complete valid entry is removed, a clean chain is
reported only if the whole file was walked, and the chain that is adopted is the one in the file, if
and only if the failures spare the log. -/
theorem recover_keeps_iff (hfd : wal.fd = some p) (hfs : fs p = some b)
    (hlen : kHeaderSize ≤ b.length) (hsize : b.length < 2 ^ 63) :
    Recovers p b (run o.answer (wal.recover visitor minEpochExclusive s) (fs, off)).1.1
        (run o.answer (wal.recover visitor minEpochExclusive s) (fs, off)).1.2.1
        (run o.answer (wal.recover visitor minEpochExclusive s) (fs, off)).2.1 ↔ o.Spare b := by
  by_cases hstart : o.fstat ∧ o.seek
  · obtain ⟨exit, off₁, hloop, hwell, hearly⟩ := run_walkLoop o (some visitor)
      minEpochExclusive ⟨.zero, 0, s⟩ hfs hlen
    obtain ⟨result, wal', s', fs', off', hrun, hleaves, hadopts⟩ :=
      run_recover_loop off hfd hfs hstart.1 hstart.2 hloop
    rw [hrun]
    by_cases hreads : o.ReadsLog (walkFile b).rest kHeaderSize (walkFile b).records
    · exact iff_of_true (recovers_of_endsWell hfd hfs hlen (hwell hreads) hleaves hadopts)
        ⟨.inl hstart, hreads⟩
    · exact iff_of_false (not_recovers_of_endsEarly hfd hfs hlen hsize (hearly hreads) hleaves
        hadopts) fun h => hreads h.2
  · obtain ⟨off', hrun⟩ := run_recover_blind visitor minEpochExclusive s fs off hfd hstart
    rw [hrun]
    constructor
    · intro h
      obtain ⟨hclean, hverified⟩ := h.walked rfl
      obtain ⟨-, -, -, hseq, hstopped⟩ := walk_exact .zero 0 (b.drop kHeaderSize)
      rw [← walkFile, UInt64.zero_add] at hseq
      rw [← walkFile, hclean] at hstopped
      have hnone : 0 = (walkFile b).records.length :=
        count_of_clean hsize hclean (Nat.zero_le _) (hverified.trans hseq.symm)
      have hnil := List.length_eq_zero_iff.1 hnone.symm
      have hend := end_of_records hlen
      rw [hnil, hstopped, List.map_nil, List.sum_nil, List.length_nil, Nat.add_zero] at hend
      refine ⟨.inr (List.drop_of_length_le hend.ge), ?_⟩
      rw [hnil]
      trivial
    · rintro ⟨hempty, -⟩
      have hwalk : walkFile b = ⟨[], .zero, 0, [], .clean⟩ := by
        rw [walkFile, hempty.resolve_left hstart, walk_nil]
      refine recovers_of_clean hfd hfs hlen ?_ (fun _ => ?_) ?_ ?_ ?_
      · rw [hwalk]
      all_goals rw [hwalk]

/-- If every offset is told and a read of a valid entry fails, that entry and all behind it are cut
off. -/
theorem run_recover_cut (visitor : Visitor σ) (minEpochExclusive : Option UInt64) (s : σ)
    (fs : FileSystem) (off : ℕ) (hfd : wal.fd = some p) (hfs : fs p = some b)
    (hlen : kHeaderSize ≤ b.length)
    (hstart : o.fstat ∧ o.seek) (htell : ∀ pos, o.tell pos = true)
    (hreads : ¬o.ReadsLog (walkFile b).rest kHeaderSize (walkFile b).records) :
    ∃ k < (walkFile b).records.length, ∃ result wal' s' off',
      run o.answer (wal.recover visitor minEpochExclusive s) (fs, off) = ((result, wal', s'),
        fs.put p (resize b (kHeaderSize + (((walkFile b).records.take k).map LogRecord.size).sum)),
        off') ∧ result.status = .truncatedTail := by
  obtain ⟨exit, off₁, hloop, -, hearly⟩ := run_walkLoop o (some visitor)
    minEpochExclusive ⟨.zero, 0, s⟩ hfs hlen
  obtain ⟨result, wal', s', fs', off', hrun, hleaves, -⟩ :=
    run_recover_loop off hfd hfs hstart.1 hstart.2 hloop
  have hend := hearly hreads
  cases exit with
  | failed status pos st' => exact absurd hend id
  | done torn currentPos st' =>
    obtain ⟨hstatus, -, -, rfl⟩ := hleaves
    obtain ⟨k, -, rfl, ⟨hk, rfl⟩ | ⟨-, -, -, htold⟩⟩ := hend
    · rw [if_pos ⟨rfl, Int.natCast_nonneg _⟩, Int.toNat_natCast] at hrun
      exact ⟨k, hk, result, wal', s', off', hrun, hstatus⟩
    · rw [htell] at htold
      cases htold

end Recovery

/-- Every read delivers a single byte, and no offset is told: the log is recovered. -/
theorem recover_keeps_iff_bytewise :
    let log := logOf [⟨.put, [107], [118], -1, 0⟩]
    let x := run (Outcomes.answer ⟨true, true, fun _ => some 0, fun _ => false, true⟩)
      ((WAL.fresh "a" 1).recover lister none []) (fun _ => some log, 0)
    Recovers "a" log x.1.1 x.1.2.1 x.2.1 := by
  have hfits : ∀ r ∈ [(⟨.put, [107], [118], -1, 0⟩ : LogRecord)], r.Fits := by decide
  have hlen := length_logOf hfits
  refine (recover_keeps_iff rfl rfl ?_ ?_).2 ⟨.inl ⟨rfl, rfl⟩, ?_⟩
  · rw [hlen]
    exact Nat.le_add_right ..
  · rw [hlen]
    decide
  · rw [walkFile_chain hfits rfl]
    have hreads : ∀ pos size, Outcomes.reads ⟨true, true, fun _ => some 0, fun _ => false, true⟩
        pos size = true := reads_of_some fun _ => rfl
    exact ⟨readsEntry_iff.2 ⟨hreads .., hreads .., hreads .., hreads .., hreads ..⟩,
      .inr ⟨rfl, rfl⟩, trivial⟩

/-- **A failing read passes for the end of the log**, and the entry is cut off. -/
theorem recover_read_failure_loses :
    let log := logOf [⟨.put, [107], [118], -1, 0⟩]
    let x := run (Outcomes.answer ⟨true, true, fun pos => if pos = 16 then none else some 0,
      fun _ => true, true⟩)
      ((WAL.fresh "a" 1).recover lister none []) (fun _ => some log, 0)
    x.1.1.status = .truncatedTail ∧ x.2.1 "a" = some (logOf []) ∧
      ¬Recovers "a" log x.1.1 x.1.2.1 x.2.1 := by
  have hfits : ∀ r ∈ [(⟨.put, [107], [118], -1, 0⟩ : LogRecord)], r.Fits := by decide
  have hwalk := walkFile_chain hfits rfl
  have hlen : kHeaderSize ≤ (logOf [⟨.put, [107], [118], -1, 0⟩]).length := by
    rw [length_logOf hfits]
    exact Nat.le_add_right ..
  have hreads : ¬Outcomes.ReadsLog ⟨true, true, fun pos => if pos = 16 then none else some 0,
      fun _ => true, true⟩ (walkFile (logOf [⟨.put, [107], [118], -1, 0⟩])).rest kHeaderSize
      (walkFile (logOf [⟨.put, [107], [118], -1, 0⟩])).records := by
    rw [hwalk]
    rintro ⟨hreads, -⟩
    have hfirst := (readsEntry_iff.1 hreads).1
    rw [reads_pos (by decide)] at hfirst
    cases hfirst
  have hfd : (WAL.fresh "a" 1).fd = some "a" := rfl
  obtain ⟨k, hk, result, wal', s', off', hrun, hstatus⟩ := run_recover_cut lister none []
    (fun _ => some (logOf [⟨.put, [107], [118], -1, 0⟩])) 0 hfd rfl hlen ⟨rfl, rfl⟩
    (fun _ => rfl) hreads
  have hcut : resize (logOf [⟨.put, [107], [118], -1, 0⟩]) (kHeaderSize +
      (((walkFile (logOf [⟨.put, [107], [118], -1, 0⟩])).records.take k).map
        LogRecord.size).sum) = logOf [] := by
    rw [hwalk] at hk ⊢
    obtain rfl : k = 0 := Nat.lt_one_iff.1 hk
    rw [List.take_zero, List.map_nil, List.sum_nil, Nat.add_zero, resize_of_le hlen, logOf_eq hfits,
      logOf_nil]
    exact List.take_left' length_walHeader
  rw [hcut] at hrun
  intro log x
  have hx : x = _ := hrun
  rw [hx]
  dsimp only
  refine ⟨hstatus, by rw [FileSystem.put_self], fun h => ?_⟩
  have hkept := h.kept
  rw [FileSystem.bytes_put, logOf_nil, walkFile_walHeader, hwalk] at hkept
  simp at hkept

end LiteSpeedStore
