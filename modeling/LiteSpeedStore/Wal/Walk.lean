import LiteSpeedStore.Wal.Entry

/-!
# The walk along the chain

`encodeLog` is the chain of entries that a list of appends writes, and `walk` the loop of
`walkChain` on the bytes behind the header.

* `walk_encodeLog` : the walk passes over a chain that was written, whatever follows it.
* `walk_exact` : what the walk passes over is exactly a chain that was written.
* `wp_walkChain`, `wp_recover`, `wp_verify` : the programs of `WAL.cpp` compute the walk, on a log
  whose reads do not fail.
-/

namespace LiteSpeedStore

open Prog WAL

/-! ### Chains -/

/-- The entries that appending the records writes, after a chain with head `prev` and next
sequence number `seq`. -/
def encodeLog : Sha256Digest → UInt64 → List LogRecord → Bytes
  | _, _, [] => []
  | prev, seq, r :: rs => r.encode prev seq ++ encodeLog (r.hash prev seq) (seq + 1) rs

/-- The head of the chain after these records. -/
def chainHead : Sha256Digest → UInt64 → List LogRecord → Sha256Digest
  | prev, _, [] => prev
  | prev, seq, r :: rs => chainHead (r.hash prev seq) (seq + 1) rs

section Chains

variable (prev : Sha256Digest) (seq : UInt64) (rs : List LogRecord)

theorem add_succ_ofNat (n : ℕ) : seq + 1 + UInt64.ofNat n = seq + UInt64.ofNat (n + 1) := by
  rw [UInt64.ofNat_add, UInt64.add_assoc, UInt64.add_comm 1]
  rfl

theorem encodeLog_append (ss : List LogRecord) : encodeLog prev seq (rs ++ ss) =
    encodeLog prev seq rs ++
      encodeLog (chainHead prev seq rs) (seq + UInt64.ofNat rs.length) ss := by
  induction rs generalizing prev seq with
  | nil => simp [encodeLog, chainHead]
  | cons r rs ih =>
    rw [List.cons_append, encodeLog, ih, encodeLog, chainHead, List.append_assoc, add_succ_ofNat,
      List.length_cons]

theorem chainHead_append (ss : List LogRecord) : chainHead prev seq (rs ++ ss) =
    chainHead (chainHead prev seq rs) (seq + UInt64.ofNat rs.length) ss := by
  induction rs generalizing prev seq with
  | nil => simp [chainHead]
  | cons r rs ih =>
    rw [List.cons_append, chainHead, ih, chainHead, add_succ_ofNat, List.length_cons]

theorem length_encodeLog :
    (encodeLog prev seq rs).length = (rs.map LogRecord.size).sum := by
  induction rs generalizing prev seq with
  | nil => rfl
  | cons r rs ih =>
    rw [encodeLog, List.length_append, ih, LogRecord.length_encode, List.map_cons, List.sum_cons]

end Chains

/-! ### The walk -/

/-- Why the walk stops. -/
inductive Stop where
  | clean
  | torn
  | failed (status : RecoveryStatus)
deriving DecidableEq

/-- The outcome of a walk. -/
structure Walk where
  /-- The records of the entries that verified. -/
  records : List LogRecord
  /-- The chain hash of the last of them. -/
  head : Sha256Digest
  /-- The sequence number expected next. -/
  seq : UInt64
  /-- The bytes from the offset at which the walk stopped. -/
  rest : Bytes
  stop : Stop

/-- The loop of `walkChain` on the bytes from the current offset. -/
def walk (prev : Sha256Digest) (seq : UInt64) (rest : Bytes) : Walk :=
  if rest.length = 0 then ⟨[], prev, seq, rest, .clean⟩
  else
    match readEntry prev seq rest with
    | .torn => ⟨[], prev, seq, rest, .torn⟩
    | .failed status => ⟨[], prev, seq, rest, .failed status⟩
    | .entry r computed =>
      let w := walk computed (seq + 1) (rest.drop r.size)
      { w with records := r :: w.records }
termination_by rest.length
decreasing_by
  have := r.size_pos
  rw [List.length_drop]
  omega

section Walk

variable {prev computed : Sha256Digest} {seq : UInt64} {rest : Bytes} {r : LogRecord}

theorem walk_nil : walk prev seq [] = ⟨[], prev, seq, [], .clean⟩ := by
  rw [walk, if_pos List.length_nil]

theorem walk_torn (h : readEntry prev seq rest = .torn) (hne : rest ≠ []) :
    walk prev seq rest = ⟨[], prev, seq, rest, .torn⟩ := by
  rw [walk, if_neg (mt List.length_eq_zero_iff.1 hne), h]

theorem walk_failed {status : RecoveryStatus} (h : readEntry prev seq rest = .failed status) :
    walk prev seq rest = ⟨[], prev, seq, rest, .failed status⟩ := by
  have hne : rest.length ≠ 0 := by
    intro h0
    rw [readEntry, if_pos (by rw [h0]; decide)] at h
    cases h
  rw [walk, if_neg hne, h]

theorem walk_entry (h : readEntry prev seq rest = .entry r computed) :
    walk prev seq rest = { walk computed (seq + 1) (rest.drop r.size) with
      records := r :: (walk computed (seq + 1) (rest.drop r.size)).records } := by
  have hne : rest.length ≠ 0 := by
    have := (readEntry_exact h).2.2.1
    have := r.size_pos
    omega
  rw [walk, if_neg hne, h]

/-- **The walk passes over a chain that was written**, whatever follows it. -/
theorem walk_encodeLog {rs : List LogRecord} (h : ∀ r ∈ rs, r.Fits) (tail : Bytes) :
    walk prev seq (encodeLog prev seq rs ++ tail) =
      { walk (chainHead prev seq rs) (seq + UInt64.ofNat rs.length) tail with
        records := rs ++ (walk (chainHead prev seq rs) (seq + UInt64.ofNat rs.length) tail).records }
    := by
  induction rs generalizing prev seq with
  | nil => simp [encodeLog, chainHead]
  | cons r rs ih =>
    have hr : readEntry prev seq
        (r.encode prev seq ++ (encodeLog (r.hash prev seq) (seq + 1) rs ++ tail)) =
        .entry r (r.hash prev seq) := readEntry_encode (h r List.mem_cons_self) _
    rw [encodeLog, List.append_assoc, walk_entry hr,
      List.drop_left' (LogRecord.length_encode prev seq r),
      ih fun r' hr' => h r' (List.mem_cons_of_mem _ hr')]
    simp only [chainHead, List.length_cons, add_succ_ofNat, List.cons_append]

/-- What is known where a walk stops. -/
def Stop.Says (stop : Stop) (prev : Sha256Digest) (seq : UInt64) (rest : Bytes) : Prop :=
  match stop with
  | .clean => rest = []
  | .torn => rest ≠ [] ∧ readEntry prev seq rest = .torn
  | .failed status => readEntry prev seq rest = .failed status

/-- **What the walk passes over is exactly a chain that was written**, and the bytes behind it are
the reason why it stopped. -/
theorem walk_exact (prev : Sha256Digest) (seq : UInt64) (rest : Bytes) :
    (∀ r ∈ (walk prev seq rest).records, r.Fits) ∧
      encodeLog prev seq (walk prev seq rest).records ++ (walk prev seq rest).rest = rest ∧
      (walk prev seq rest).head = chainHead prev seq (walk prev seq rest).records ∧
      (walk prev seq rest).seq = seq + UInt64.ofNat (walk prev seq rest).records.length ∧
      (walk prev seq rest).stop.Says (walk prev seq rest).head (walk prev seq rest).seq
        (walk prev seq rest).rest := by
  induction hn : rest.length using Nat.strong_induction_on generalizing prev seq rest with
  | _ n ih =>
    by_cases hne : rest = []
    · subst hne
      rw [walk_nil]
      exact ⟨by simp, rfl, rfl, by simp, rfl⟩
    · cases hentry : readEntry prev seq rest with
      | torn =>
        rw [walk_torn hentry hne]
        exact ⟨by simp, rfl, rfl, by simp, hne, hentry⟩
      | failed status =>
        rw [walk_failed hentry]
        exact ⟨by simp, rfl, rfl, by simp, hentry⟩
      | entry r computed =>
        obtain ⟨hfits, rfl, hsize, hbytes⟩ := readEntry_exact hentry
        have hpos := r.size_pos
        obtain ⟨h1, h2, h3, h4, h5⟩ := ih (rest.length - r.size) (by omega) (r.hash prev seq)
          (seq + 1) (rest.drop r.size) List.length_drop
        rw [walk_entry hentry]
        refine ⟨?_, ?_, ?_, ?_, h5⟩
        · rintro r' hr'
          rcases List.mem_cons.1 hr' with rfl | hr'
          · exact hfits
          · exact h1 r' hr'
        · rw [encodeLog, List.append_assoc, h2, hbytes]
        · rw [h3, chainHead]
        · rw [h4, List.length_cons, add_succ_ofNat]

end Walk

/-! ### The programs -/

/-- Files on which nothing that the walk does fails. -/
structure Faults.ReadsOk (F : Faults) (fd : Path) : Prop where
  read : ∀ pos len, ¬F.mayFail (.read fd pos len)
  fstat : ¬F.mayFail (.fstat fd)
  lseek : ∀ off whence, ¬F.mayFail (.lseek fd off whence)

theorem Faults.none_readsOk (n : ℕ) (fd : Path) : (Faults.none n).ReadsOk fd :=
  ⟨fun _ _ h => h, fun h => h, fun _ _ h => h⟩

namespace Walk

/-- The result that `walkChain` reports for a file of `size` bytes. -/
def result (w : Walk) (size : ℕ) : RecoveryResult :=
  match w.stop with
  | .clean => { entriesVerified := w.seq, headHash := w.head }
  | .torn => { status := .truncatedTail, entriesVerified := w.seq, headHash := w.head }
  | .failed status => ⟨status, w.seq, UInt64.ofNat (size - w.rest.length), w.seq, w.head⟩

/-- The bytes that a walk with `allowTruncate` leaves of the file `b`. -/
def left (w : Walk) (b : Bytes) : Bytes :=
  if w.stop = .torn then b.take (b.length - w.rest.length) else b

variable {σ : Type}

/-- The visitor's state after its turn at every record. -/
def visited (w : Walk) (visitor : Option (Visitor σ)) (minEpochExclusive : Option UInt64) (s : σ) :
    σ :=
  w.records.foldl (fun s r => visit visitor minEpochExclusive r s) s

/-- How the loop of `walkChain` exits. -/
def exit (w : Walk) (size : ℕ) (visitor : Option (Visitor σ)) (minEpochExclusive : Option UInt64)
    (s : σ) : LoopExit σ :=
  let st : WalkState σ := ⟨w.head, w.seq, w.visited visitor minEpochExclusive s⟩
  match w.stop with
  | .clean => .done false size st
  | .torn => .done true ((size - w.rest.length : ℕ) : ℤ) st
  | .failed status => .failed status (size - w.rest.length) st

end Walk

/-- The walk along the log file `b`. -/
def walkFile (b : Bytes) : Walk := walk .zero 0 (b.drop kHeaderSize)

/-- A walk fails as malformed or as tampered. -/
theorem walkFile_failed {b : Bytes} {status : RecoveryStatus}
    (h : (walkFile b).stop = .failed status) : status = .malformed ∨ status = .tampered := by
  have hsays := (walk_exact .zero 0 (b.drop kHeaderSize)).2.2.2.2
  rw [← walkFile, h] at hsays
  exact readEntry_failed hsays

section Programs

variable {F : Faults} {fd : Path} {fs : FileSystem} {b : Bytes} {C : FileSystem → Prop} {σ : Type}
  {visitor : Option (Visitor σ)} {minEpochExclusive : Option UInt64}

theorem wp_walkLoop {Q : LoopExit σ → FileSystem → Prop} {pos : ℕ} {st : WalkState σ}
    (hF : F.ReadsOk fd) (hfs : fs fd = some b) (hpos : pos ≤ b.length) (hC : C fs)
    (hQ : Q ((walk st.prevHash st.expectedSeq (b.drop pos)).exit b.length visitor
      minEpochExclusive st.visited) fs) :
    wp F.env (walkLoop fd b.length visitor minEpochExclusive pos st) Q C fs := by
  induction hn : b.length - pos using Nat.strong_induction_on generalizing pos st with
  | _ n ih =>
    have hlen : (b.drop pos).length = b.length - pos := List.length_drop
    rw [walkLoop]
    split_ifs with hlt
    · have hne : b.drop pos ≠ [] := by
        intro h0
        rw [h0, List.length_nil] at hlen
        omega
      rw [wp_bind]
      refine wp_walkEntry hF.read hfs hpos hC ?_
      cases hentry : readEntry st.prevHash st.expectedSeq (b.drop pos) with
      | torn =>
        rw [walk_torn hentry hne] at hQ
        simp only [Walk.exit, Walk.visited, List.foldl_nil, hlen, Nat.sub_sub_self hpos] at hQ
        exact ⟨hC, hQ⟩
      | failed status =>
        rw [walk_failed hentry] at hQ
        simp only [Walk.exit, Walk.visited, List.foldl_nil, hlen, Nat.sub_sub_self hpos] at hQ
        exact ⟨hC, hQ⟩
      | entry r computed =>
        have hsize := (readEntry_exact hentry).2.2.1
        have hsize0 := r.size_pos
        refine wp_sys_ok (hF.lseek 0 .cur) rfl hC ?_
        refine ih (b.length - (pos + r.size)) (by omega) (by omega) ?_ rfl
        rw [walk_entry hentry, List.drop_drop] at hQ
        exact hQ
    · have hpos' : pos = b.length := by omega
      rw [hpos', List.drop_length, walk_nil] at hQ
      rw [hpos']
      exact ⟨hC, hQ⟩

/-- **`walkChain` computes the walk.** -/
theorem wp_walkChain {Q : RecoveryResult × σ → FileSystem → Prop} {allowTruncate : Bool} {s : σ}
    (hF : F.ReadsOk fd) (hT : ∀ n, ¬F.mayFail (.ftruncate fd n)) (hfs : fs fd = some b)
    (hC : C fs) (hC' : allowTruncate → C (fs.put fd ((walkFile b).left b)))
    (hQ : Q ((walkFile b).result b.length, (walkFile b).visited visitor minEpochExclusive s)
      (if allowTruncate then fs.put fd ((walkFile b).left b) else fs)) :
    wp F.env (walkChain (some fd) visitor minEpochExclusive allowTruncate s) Q C fs := by
  have hput : (walkFile b).stop ≠ .torn → fs.put fd ((walkFile b).left b) = fs := fun h => by
    rw [Walk.left, if_neg h, FileSystem.put_eq_self hfs]
  have hsame : (walkFile b).stop ≠ .torn →
      (if allowTruncate then fs.put fd ((walkFile b).left b) else fs) = fs := fun h => by
    rw [hput h, ite_self]
  rw [walkChain]
  refine wp_sys_ok hF.fstat rfl hC ?_
  simp only [posix, FileSystem.bytes_of_some hfs]
  refine wp_sys_ok (hF.lseek _ _) rfl hC ?_
  simp only [posix, if_true]
  rw [wp_bind]
  by_cases hshort : b.length < kHeaderSize
  · -- a file shorter than its header has nothing to walk along
    have hw : walkFile b = ⟨[], .zero, 0, [], .clean⟩ := by
      rw [walkFile, List.drop_of_length_le (by omega), walk_nil]
    rw [hsame (by rw [hw]; exact Stop.noConfusion), hw] at hQ
    rw [walkLoop, if_neg (by omega)]
    exact ⟨hC, hC, hQ⟩
  · refine wp_walkLoop hF hfs (not_lt.1 hshort) hC ?_
    dsimp only
    rw [← walkFile]
    cases hstop : (walkFile b).stop with
    | clean =>
      rw [hsame (by rw [hstop]; exact Stop.noConfusion)] at hQ
      simp only [Walk.result, hstop] at hQ
      simp only [Walk.exit, hstop]
      exact ⟨hC, hQ⟩
    | failed status =>
      rw [hsame (by rw [hstop]; exact Stop.noConfusion)] at hQ
      simp only [Walk.result, hstop] at hQ
      simp only [Walk.exit, hstop]
      exact ⟨hC, hQ⟩
    | torn =>
      simp only [Walk.result, hstop] at hQ
      simp only [Walk.exit, hstop, if_true]
      cases allowTruncate with
      | false => exact ⟨hC, hQ⟩
      | true =>
        have hcut : fs.put fd (resize b (b.length - (walkFile b).rest.length)) =
            fs.put fd ((walkFile b).left b) := by
          rw [Walk.left, if_pos hstop, resize_of_le (Nat.sub_le ..)]
        simp only [if_true] at hQ ⊢
        refine wp_sys_ok (hT _) rfl hC ?_
        have h0 : ¬(((b.length - (walkFile b).rest.length : ℕ) : ℤ) < 0) := by omega
        simp only [posix, h0, if_false, Int.toNat_natCast, FileSystem.bytes_of_some hfs, hcut]
        refine wp_sys_ok (hF.lseek _ _) rfl (hC' rfl) ?_
        exact ⟨hC' rfl, hQ⟩

theorem wp_verify {wal : WAL} {Q : RecoveryResult → FileSystem → Prop} (hfd : wal.fd = some fd)
    (hF : F.ReadsOk fd) (hT : ∀ n, ¬F.mayFail (.ftruncate fd n)) (hfs : fs fd = some b)
    (hC : C fs) (hQ : Q ((walkFile b).result b.length) fs) : wp F.env wal.verify Q C fs := by
  rw [WAL.verify, hfd, wp_bind]
  exact wp_walkChain hF hT hfs hC (fun h => absurd h (by decide)) ⟨hC, hQ⟩

/-- The object after `recover`: the chain state is that of the walk, unless the walk failed. -/
def WAL.adopt (wal : WAL) (w : Walk) : WAL :=
  match w.stop with
  | .clean | .torn => { wal with seq := w.seq, headHash := w.head }
  | .failed _ => wal

@[simp] theorem adopt_fd (wal : WAL) (w : Walk) : (wal.adopt w).fd = wal.fd := by
  rw [WAL.adopt]
  split <;> rfl

@[simp] theorem adopt_syncEveryN (wal : WAL) (w : Walk) :
    (wal.adopt w).syncEveryN = wal.syncEveryN := by
  rw [WAL.adopt]
  split <;> rfl

@[simp] theorem adopt_pendingWrites (wal : WAL) (w : Walk) :
    (wal.adopt w).pendingWrites = wal.pendingWrites := by
  rw [WAL.adopt]
  split <;> rfl

theorem wp_recover {wal : WAL} {f : Visitor σ} {Q : RecoveryResult × WAL × σ → FileSystem → Prop}
    {s : σ} (hfd : wal.fd = some fd) (hF : F.ReadsOk fd) (hT : ∀ n, ¬F.mayFail (.ftruncate fd n))
    (hfs : fs fd = some b) (hC : C fs) (hC' : C (fs.put fd ((walkFile b).left b)))
    (hQ : Q ((walkFile b).result b.length, wal.adopt (walkFile b),
      (walkFile b).visited (some f) minEpochExclusive s) (fs.put fd ((walkFile b).left b))) :
    wp F.env (wal.recover f minEpochExclusive s) Q C fs := by
  rw [WAL.recover, hfd, wp_bind]
  refine wp_walkChain hF hT hfs hC (fun _ => hC') ?_
  simp only [if_true]
  cases hstop : (walkFile b).stop with
  | clean =>
    simp only [Walk.result, WAL.adopt, hstop, hfd, true_or, if_true] at hQ ⊢
    exact ⟨hC', hQ⟩
  | torn =>
    simp only [Walk.result, WAL.adopt, hstop, hfd, or_true, if_true] at hQ ⊢
    exact ⟨hC', hQ⟩
  | failed status =>
    have hstatus := walkFile_failed hstop
    simp only [Walk.result, WAL.adopt, hstop] at hQ ⊢
    rw [if_neg (by rcases hstatus with rfl | rfl <;> decide)]
    exact ⟨hC', hQ⟩

end Programs

end LiteSpeedStore
