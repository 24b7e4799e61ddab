import LiteSpeedStore.Wal.Log
import Mathlib.Algebra.BigOperators.Group.List.Basic
import Mathlib.Data.Nat.Find

/-!
# What the reader accepts

`verify` and `recover` on the files that `append` writes, on their prefixes, and on files spliced
together from their entries.

* `verify_ok_iff` : the reader accepts exactly the writer's language, and delivers what was written.
* `recover_prefix` : a log cut anywhere is recovered up to its last whole entry, and can be appended
  to.
* `verify_splice` : entries that are deleted, repeated or reordered are located.
-/

namespace LiteSpeedStore

open Prog WAL

section Runs

variable {p : Path} {fs : FileSystem} {b : Bytes} {wal : WAL} {σ : Type}

/-- `verify` computes the walk and leaves the files alone. -/
theorem run_verify (hfd : wal.fd = some p) (hfs : fs p = some b) :
    run posix wal.verify fs = ((walkFile b).result b.length, fs) := by
  have hw : wp (Faults.none 0).env wal.verify
      (fun a fs' => (a, fs') = ((walkFile b).result b.length, fs)) (fun _ => True) fs :=
    wp_verify hfd (Faults.none_readsOk 0 p) (fun _ => Faults.none_mayFail) hfs trivial rfl
  exact wp_run Faults.allows_posix hw

/-- `recover` computes the walk, adopts it, and cuts a torn tail. -/
theorem run_recover (hfd : wal.fd = some p) (hfs : fs p = some b) (visitor : Visitor σ)
    (minEpochExclusive : Option UInt64) (s : σ) :
    run posix (wal.recover visitor minEpochExclusive s) fs =
      (((walkFile b).result b.length, wal.adopt (walkFile b),
        (walkFile b).visited (some visitor) minEpochExclusive s),
        fs.put p ((walkFile b).left b)) := by
  have hw : wp (Faults.none 0).env (wal.recover visitor minEpochExclusive s)
      (fun a fs' => (a, fs') = (((walkFile b).result b.length, wal.adopt (walkFile b),
        (walkFile b).visited (some visitor) minEpochExclusive s),
        fs.put p ((walkFile b).left b))) (fun _ => True) fs :=
    wp_recover hfd (Faults.none_readsOk 0 p) (fun _ => Faults.none_mayFail) hfs trivial trivial rfl
  exact wp_run Faults.allows_posix hw

end Runs

/-! ### Logs -/

section Logs

variable {rs : List LogRecord}

/-- The walk along a chain that was written is clean. -/
theorem walk_chain (hfits : ∀ r ∈ rs, r.Fits) (prev : Sha256Digest) (seq : UInt64) :
    walk prev seq (encodeLog prev seq rs) =
      ⟨rs, chainHead prev seq rs, seq + UInt64.ofNat rs.length, [], .clean⟩ := by
  rw [← List.append_nil (encodeLog prev seq rs), walk_encodeLog hfits, walk_nil]
  simp only [List.append_nil]

theorem walkFile_chain {b : Bytes} (hfits : ∀ r ∈ rs, r.Fits)
    (hb : b.drop kHeaderSize = (logOf rs).drop kHeaderSize) :
    walkFile b = ⟨rs, chainHead .zero 0 rs, UInt64.ofNat rs.length, [], .clean⟩ := by
  rw [walkFile, hb, drop_logOf hfits, walk_chain hfits, UInt64.zero_add]

theorem result_clean {w : Walk} {size : ℕ} :
    (w.result size).status = .ok ↔ w.stop = .clean ∨ w.stop = .failed .ok := by
  cases h : w.stop <;> simp [Walk.result, h]

theorem verify_ok_iff_clean {b : Bytes} :
    ((walkFile b).result b.length).status = .ok ↔ (walkFile b).stop = .clean := by
  refine result_clean.trans ⟨fun h => h.resolve_right fun hf => ?_, .inl⟩
  rcases walkFile_failed hf with h | h <;> cases h

/-- Where the entries that a clean walk passed over came from. -/
theorem records_of_clean {b : Bytes} (h : (walkFile b).stop = .clean) :
    (∀ r ∈ (walkFile b).records, r.Fits) ∧
      b.drop kHeaderSize = (logOf (walkFile b).records).drop kHeaderSize := by
  obtain ⟨hfits, hbytes, -, -, hsays⟩ := walk_exact .zero 0 (b.drop kHeaderSize)
  rw [← walkFile, h] at hsays
  rw [← walkFile, hsays, List.append_nil] at hbytes
  exact ⟨hfits, hbytes.symm.trans (drop_logOf hfits).symm⟩

/-- The records whose epoch exceeds the bound, all of them without one. -/
def epochAbove (minEpochExclusive : Option UInt64) (r : LogRecord) : Bool :=
  minEpochExclusive.all (· < r.epoch)

/-- The visitor called with each record in turn. -/
def visitEach {σ : Type} (visitor : Visitor σ) (rs : List LogRecord) (s : σ) : σ :=
  rs.foldl (fun s r => visitor r.type r.key r.value r.timestamp s) s

theorem visited_eq {σ : Type} (w : Walk) (visitor : Visitor σ) (m : Option UInt64) (s : σ) :
    w.visited (some visitor) m s = visitEach visitor (w.records.filter (epochAbove m)) s := by
  rw [Walk.visited, visitEach, List.foldl_filter]
  rfl

/-- A file that a 64-bit `off_t` can address holds fewer than 2^64 entries. -/
theorem length_records_lt {b : Bytes} (hfits : ∀ r ∈ rs, r.Fits) (hsize : b.length < 2 ^ 63)
    (hb : b.drop kHeaderSize = (logOf rs).drop kHeaderSize) : rs.length < 2 ^ 64 := by
  have hlen := congrArg List.length hb
  rw [drop_logOf hfits, length_encodeLog, List.length_drop] at hlen
  have hsum : rs.length ≤ (rs.map LogRecord.size).sum := by
    rw [← List.length_map (f := LogRecord.size)]
    exact List.length_le_sum_of_one_le _ fun n hn => by
      obtain ⟨r, -, rfl⟩ := List.mem_map.1 hn
      exact r.size_pos
  omega

/-- **The reader accepts exactly the writer's language.**  `verify` reports a clean chain of `n`
entries if and only if the bytes behind the header are those that some `n` appends to an empty chain
write; `recover` then delivers exactly the records above the epoch bound, and the head that is
reported is the writer's.  The walk does not look at the header, which `construct` has checked. -/
theorem verify_ok_iff {p : Path} {fs : FileSystem} {b : Bytes} {wal : WAL}
    (hfd : wal.fd = some p) (hfs : fs p = some b) :
    (∀ n : UInt64, (run posix wal.verify fs).1.status = .ok ∧
        (run posix wal.verify fs).1.entriesVerified = n ↔
      ∃ rs : List LogRecord, (∀ r ∈ rs, r.Fits) ∧ UInt64.ofNat rs.length = n ∧
        b.drop kHeaderSize = (logOf rs).drop kHeaderSize) ∧
    ∀ rs : List LogRecord, (∀ r ∈ rs, r.Fits) →
      b.drop kHeaderSize = (logOf rs).drop kHeaderSize →
      (b.length < 2 ^ 63 → (run posix wal.verify fs).1.entriesVerified.toNat = rs.length) ∧
      (∀ (σ : Type) (visitor : Visitor σ) (m : Option UInt64) (s : σ),
        let (res, _, s') := (run posix (wal.recover visitor m s) fs).1
        res = (run posix wal.verify fs).1 ∧
          s' = visitEach visitor (rs.filter (epochAbove m)) s) ∧
      ∀ (q : Path) (syncEveryN : ℕ) (fs₀ : FileSystem) (w : WAL), fs₀.bytes q = [] →
        (run posix (writeLog q syncEveryN rs) fs₀).1 = .ok w →
        w.head = ⟨(run posix wal.verify fs).1.entriesVerified,
          (run posix wal.verify fs).1.headHash⟩ := by
  rw [run_verify hfd hfs]
  refine ⟨fun n => ⟨?_, ?_⟩, fun rs hfits hb => ?_⟩
  · rintro ⟨hok, hn⟩
    have hclean := verify_ok_iff_clean.1 hok
    obtain ⟨hfits, hb⟩ := records_of_clean hclean
    refine ⟨_, hfits, ?_, hb⟩
    rw [walkFile_chain hfits hb] at hn
    exact hn
  · rintro ⟨rs, hfits, hn, hb⟩
    rw [walkFile_chain hfits hb]
    exact ⟨rfl, hn⟩
  · have hw := walkFile_chain hfits hb
    refine ⟨fun hsize => ?_, fun σ visitor m s => ?_, fun q k fs₀ w hnew hrun => ?_⟩
    · rw [hw]
      exact UInt64.toNat_ofNat_of_lt' (length_records_lt hfits hsize hb)
    · rw [run_recover hfd hfs]
      refine ⟨rfl, ?_⟩
      rw [visited_eq, hw]
    · obtain ⟨wal', hres, -, hhead, -⟩ := wp_run Faults.allows_posix
        (wp_writeLog (n := 0) hfits hnew)
      rw [hrun, Except.ok.injEq] at hres
      rw [hres, hhead, hw]
      rfl

theorem verify_ok_iff_one :
    let log := logOf [⟨.put, [107], [118], -1, 0⟩]
    (run posix (WAL.fresh "a" 1).verify fun _ => some log).1.status = .ok ∧
      (run posix (WAL.fresh "a" 1).verify fun _ => some log).1.entriesVerified = 1 :=
  ((verify_ok_iff rfl rfl).1 1).2 ⟨[⟨.put, [107], [118], -1, 0⟩], by decide, rfl, rfl⟩

end Logs

/-! ### Prefixes of a log -/

/-- The size of a log with only the first `k` records: where entry `k` starts. -/
def boundary (rs : List LogRecord) (k : ℕ) : ℕ := (logOf (rs.take k)).length

/-- The number of entries that lie wholly within the first `L` bytes of the log. -/
def wholeEntries (rs : List LogRecord) (L : ℕ) : ℕ :=
  Nat.findGreatest (fun k => boundary rs k ≤ L) rs.length

section Prefixes

variable {rs : List LogRecord} {L k : ℕ}

theorem length_logOf (hfits : ∀ r ∈ rs, r.Fits) :
    (logOf rs).length = kHeaderSize + (rs.map LogRecord.size).sum := by
  rw [logOf_eq hfits, List.length_append, length_encodeLog, length_walHeader]

theorem fits_take (hfits : ∀ r ∈ rs, r.Fits) (k : ℕ) : ∀ r ∈ rs.take k, r.Fits :=
  fun r hr => hfits r (List.mem_of_mem_take hr)

theorem boundary_zero : boundary rs 0 = kHeaderSize := by
  rw [boundary, List.take_zero, length_logOf (by simp)]
  rfl

theorem boundary_succ (hfits : ∀ r ∈ rs, r.Fits) (hk : k < rs.length) :
    boundary rs (k + 1) = boundary rs k + rs[k].size := by
  rw [boundary, boundary, length_logOf (fits_take hfits _), length_logOf (fits_take hfits _),
    List.take_succ_eq_append_getElem hk, List.map_append, List.sum_append]
  simp [Nat.add_assoc]

theorem boundary_length (rs : List LogRecord) : boundary rs rs.length = (logOf rs).length := by
  rw [boundary, List.take_length]

theorem boundary_wholeEntries (rs : List LogRecord) (hL : kHeaderSize ≤ L) :
    boundary rs (wholeEntries rs L) ≤ L :=
  Nat.findGreatest_spec (P := fun k => boundary rs k ≤ L) (Nat.zero_le _)
    (boundary_zero.trans_le hL)

theorem wholeEntries_le : wholeEntries rs L ≤ rs.length := Nat.findGreatest_le _

theorem lt_boundary_succ (h : wholeEntries rs L < rs.length) :
    L < boundary rs (wholeEntries rs L + 1) :=
  not_le.1 (Nat.findGreatest_is_greatest (P := fun k => boundary rs k ≤ L) (Nat.lt_succ_self _) h)

/-- A log is the log of its first records, followed by the entries of the others. -/
theorem logOf_split (hfits : ∀ r ∈ rs, r.Fits) (k : ℕ) : logOf rs = logOf (rs.take k) ++
    encodeLog (chainHead .zero 0 (rs.take k)) (UInt64.ofNat (rs.take k).length) (rs.drop k) := by
  rw [logOf_eq hfits, logOf_eq (fits_take hfits k), List.append_assoc]
  conv_lhs => rw [← List.take_append_drop k rs, encodeLog_append, UInt64.zero_add]

theorem fits_append {rs' : List LogRecord} (hfits : ∀ r ∈ rs, r.Fits) (hfits' : ∀ r ∈ rs', r.Fits) :
    ∀ r ∈ rs ++ rs', r.Fits := fun r hr => (List.mem_append.1 hr).elim (hfits r) (hfits' r)

theorem fits_concat {r : LogRecord} (hfits : ∀ r ∈ rs, r.Fits) (hfit : r.Fits) :
    ∀ r' ∈ rs ++ [r], r'.Fits :=
  fits_append hfits fun r' hr' => by rwa [List.mem_singleton.1 hr']

/-- A log with one more record. -/
theorem logOf_concat {r : LogRecord} (hfits : ∀ r ∈ rs, r.Fits) (hfit : r.Fits) :
    logOf (rs ++ [r]) = logOf rs ++ r.encode (chainHead .zero 0 rs) (UInt64.ofNat rs.length) := by
  rw [logOf_split (fits_concat hfits hfit) rs.length, List.take_left, List.drop_left, encodeLog,
    encodeLog, List.append_nil]

theorem boundary_mono (hfits : ∀ r ∈ rs, r.Fits) {i j : ℕ} (h : i ≤ j) :
    boundary rs i ≤ boundary rs j := by
  rw [boundary, boundary, logOf_split (fits_take hfits j) i, List.take_take, Nat.min_eq_left h,
    List.length_append]
  exact Nat.le_add_right ..

/-- A log and some bytes behind it: the walk passes over the log. -/
theorem walkFile_logOf_append (hfits : ∀ r ∈ rs, r.Fits) (tail : Bytes) :
    walkFile (logOf rs ++ tail) =
      { walk (chainHead .zero 0 rs) (UInt64.ofNat rs.length) tail with
        records := rs ++ (walk (chainHead .zero 0 rs) (UInt64.ofNat rs.length) tail).records } := by
  rw [logOf_eq hfits, List.append_assoc, walkFile_header, walk_encodeLog hfits, UInt64.zero_add]

/-- The bytes behind a log are none, or an entry that is cut short. -/
def TornTail (rs : List LogRecord) (tail : Bytes) : Prop :=
  tail ≠ [] → readEntry (chainHead .zero 0 rs) (UInt64.ofNat rs.length) tail = .torn

theorem tornTail_nil (rs : List LogRecord) : TornTail rs [] := fun h => absurd rfl h

theorem tornTail_take {r : LogRecord} (hfit : r.Fits) (hk : k < r.size) :
    TornTail rs ((r.encode (chainHead .zero 0 rs) (UInt64.ofNat rs.length)).take k) :=
  fun _ => readEntry_take hfit hk

section TornTails

variable {tail : Bytes} (hfits : ∀ r ∈ rs, r.Fits) (htorn : TornTail rs tail)

include hfits htorn

/-- The walk passes over the log and stops at the torn entry. -/
theorem walkFile_tornTail : walkFile (logOf rs ++ tail) = ⟨rs, chainHead .zero 0 rs,
    UInt64.ofNat rs.length, tail, if tail = [] then .clean else .torn⟩ := by
  rw [walkFile_logOf_append hfits]
  by_cases ht : tail = []
  · subst ht
    rw [walk_nil, if_pos rfl]
    simp only [List.append_nil]
  · rw [walk_torn (htorn ht) ht, if_neg ht]
    simp only [List.append_nil]

theorem stop_tornTail (s : RecoveryStatus) : (walkFile (logOf rs ++ tail)).stop ≠ .failed s := by
  rw [walkFile_tornTail hfits htorn]
  by_cases ht : tail = [] <;> simp [ht]

/-- Recovery cuts the torn entry off. -/
theorem left_tornTail : (walkFile (logOf rs ++ tail)).left (logOf rs ++ tail) = logOf rs := by
  rw [Walk.left, walkFile_tornTail hfits htorn]
  by_cases ht : tail = [] <;> simp [ht]

theorem adopt_tornTail (wal : WAL) : wal.adopt (walkFile (logOf rs ++ tail)) =
    { wal with seq := UInt64.ofNat rs.length, headHash := chainHead .zero 0 rs } := by
  rw [WAL.adopt, walkFile_tornTail hfits htorn]
  by_cases ht : tail = [] <;> simp [ht]

end TornTails

/-- The bytes behind the last whole entry of a prefix are none, or a torn entry. -/
theorem take_logOf (hfits : ∀ r ∈ rs, r.Fits) (hL : kHeaderSize ≤ L)
    (hL' : L ≤ (logOf rs).length) : ∃ tail,
      (logOf rs).take L = logOf (rs.take (wholeEntries rs L)) ++ tail ∧
      tail.length = L - boundary rs (wholeEntries rs L) ∧
      TornTail (rs.take (wholeEntries rs L)) tail := by
  have hle : boundary rs (wholeEntries rs L) ≤ L := boundary_wholeEntries rs hL
  have hlast : ∀ h : wholeEntries rs L < rs.length,
      L < boundary rs (wholeEntries rs L) + rs[wholeEntries rs L].size := fun h => by
    rw [← boundary_succ hfits h]
    exact lt_boundary_succ h
  generalize wholeEntries rs L = k at hle hlast
  rw [logOf_split hfits k] at hL' ⊢
  rw [List.take_append, List.take_of_length_le hle]
  refine ⟨_, rfl, ?_, fun hne => ?_⟩
  · rw [List.length_append] at hL'
    rw [List.length_take, boundary]
    omega
  · rcases Nat.lt_or_ge k rs.length with hk | hk
    · -- the cut falls into entry `k`
      rw [List.drop_eq_getElem_cons hk, encodeLog]
      have hlt : L - boundary rs k < rs[k].size := by
        have := hlast hk
        omega
      have hfit : rs[k].Fits := hfits _ (List.getElem_mem hk)
      rw [List.take_append_of_le_length (by rw [LogRecord.length_encode]; exact hlt.le)]
      exact readEntry_take hfit hlt
    · rw [List.drop_of_length_le hk, encodeLog, List.take_nil] at hne
      exact absurd rfl hne

/-- **Every crash prefix recovers.**  On a log cut anywhere behind its header, `recover` reports a
clean chain if the cut is an entry's end and a torn tail otherwise; it delivers exactly the entries
that lie wholly within the cut and leaves the file ending at the last of them, and a log continued
from there verifies with all kept and new entries. -/
theorem recover_prefix {p : Path} {fs : FileSystem} {wal : WAL} (hfits : ∀ r ∈ rs, r.Fits)
    (hL : kHeaderSize ≤ L) (hL' : L ≤ (logOf rs).length) (hfd : wal.fd = some p)
    (hfs : fs p = some ((logOf rs).take L)) {σ : Type} (visitor : Visitor σ) (m : Option UInt64)
    (s : σ) :
    ∃ res wal' fs', run posix (wal.recover visitor m s) fs = ((res, wal',
        visitEach visitor ((rs.take (wholeEntries rs L)).filter (epochAbove m)) s), fs') ∧
      res.status = (if ∃ k ≤ rs.length, L = boundary rs k then .ok else .truncatedTail) ∧
      fs' = fs.put p (logOf (rs.take (wholeEntries rs L))) ∧
      ∀ rs' : List LogRecord, (∀ r ∈ rs', r.Fits) → ∃ w fs'',
        run posix (wal'.appendAll rs') fs' = (.ok w, fs'') ∧
        fs'' = fs.put p (logOf (rs.take (wholeEntries rs L) ++ rs')) ∧
        (run posix w.verify fs'').1 =
          { status := .ok
            entriesVerified := UInt64.ofNat (wholeEntries rs L + rs'.length)
            headHash := w.headHash } := by
  obtain ⟨tail, htake, htail, htorn⟩ := take_logOf hfits hL hL'
  have hbound : (∃ k ≤ rs.length, L = boundary rs k) ↔ tail = [] := by
    have hk := boundary_wholeEntries rs hL
    rw [← List.length_eq_zero_iff, htail]
    constructor
    · rintro ⟨j, hj, rfl⟩
      have hjk : j ≤ wholeEntries rs (boundary rs j) := Nat.le_findGreatest hj le_rfl
      exact Nat.sub_eq_zero_of_le (boundary_mono hfits hjk)
    · exact fun h => ⟨wholeEntries rs L, wholeEntries_le, by omega⟩
  have hcount : (rs.take (wholeEntries rs L)).length = wholeEntries rs L :=
    List.length_take_of_le wholeEntries_le
  have hfits' := fits_take hfits (wholeEntries rs L)
  set ks := rs.take (wholeEntries rs L) with hks
  have hwalk : walkFile ((logOf rs).take L) = ⟨ks, chainHead .zero 0 ks, UInt64.ofNat ks.length,
      tail, if tail = [] then .clean else .torn⟩ := by
    rw [htake, walkFile_tornTail hfits' htorn]
  have hleft : (walkFile ((logOf rs).take L)).left ((logOf rs).take L) = logOf ks := by
    rw [htake, left_tornTail hfits' htorn]
  have hadopt : wal.adopt (walkFile ((logOf rs).take L)) =
      { wal with seq := UInt64.ofNat ks.length, headHash := chainHead .zero 0 ks } := by
    rw [htake, adopt_tornTail hfits' htorn]
  refine ⟨_, _, _, by rw [run_recover hfd hfs, visited_eq, hwalk], ?_, ?_, ?_⟩
  · simp only [hbound]
    by_cases ht : tail = [] <;> simp [ht, Walk.result]
  · rw [← hwalk, hleft]
  · intro rs' hfits''
    rw [← hwalk, hleft, hadopt]
    have hfd' : ({ wal with
        seq := UInt64.ofNat ks.length, headHash := chainHead .zero 0 ks } : WAL).fd = some p := hfd
    obtain ⟨w, hres, hwfd, -, hhead, hfs'⟩ := wp_run Faults.allows_posix
      (wp_appendAll (n := 0) hfits'' hfd' (FileSystem.put_self fs p (logOf ks)))
    have hall := fits_append hfits' hfits''
    have hlog : logOf ks ++ encodeLog (chainHead .zero 0 ks) (UInt64.ofNat ks.length) rs' =
        logOf (ks ++ rs') := by
      rw [logOf_split hall ks.length, List.take_left, List.drop_left]
    rw [hlog, FileSystem.put_put] at hfs'
    refine ⟨w, fs.put p (logOf (ks ++ rs')), Prod.ext hres hfs', rfl, ?_⟩
    rw [run_verify hwfd (FileSystem.put_self ..), walkFile_chain hall rfl, hhead]
    simp only [Walk.result, List.length_append, hcount, chainHead_append, UInt64.zero_add]

theorem recover_prefix_torn : ∃ res wal' fs',
    run posix ((WAL.fresh "a" 1).recover (fun _ key _ _ keys => key :: keys) none [])
      (FileSystem.put (fun _ => none) "a" ((logOf [⟨.put, [107], [118], -1, 0⟩]).take 20)) =
        ((res, wal', []), fs') ∧
      fs' "a" = some (logOf []) := by
  have hwhole : wholeEntries [⟨.put, [107], [118], -1, 0⟩] 20 = 0 := by
    rw [wholeEntries, Nat.findGreatest_eq_zero_iff]
    intro k hk hk'
    have hk1 : k = 1 := by simp at hk'; omega
    rw [hk1, boundary, length_logOf (by decide)]
    decide
  have hfile := FileSystem.put_self (fun _ => none) "a"
    ((logOf [⟨.put, [107], [118], -1, 0⟩]).take 20)
  have hopen : (WAL.fresh "a" 1).fd = some "a" := rfl
  obtain ⟨res, wal', fs', hrun, -, hfs', -⟩ := recover_prefix (by decide) (by decide)
    (by rw [length_logOf (by decide)]; decide) hopen hfile (fun _ key _ _ keys => key :: keys)
    none []
  rw [hwhole] at hrun hfs'
  exact ⟨res, wal', fs', hrun, by rw [hfs', FileSystem.put_self]; rfl⟩

end Prefixes

/-! ### Spliced logs -/

/-- The bytes of entry `i` of the log. -/
def entryBytes (rs : List LogRecord) (i : ℕ) : Bytes :=
  (logOf (rs.take (i + 1))).drop (boundary rs i)

/-- The header followed by the entries with these indices. -/
def splice (rs : List LogRecord) (s : List ℕ) : Bytes := logOf [] ++ (s.map (entryBytes rs)).flatten

section Splices

variable {rs : List LogRecord}

theorem entryBytes_eq (hfits : ∀ r ∈ rs, r.Fits) {i : ℕ} (hi : i < rs.length) :
    entryBytes rs i = rs[i].encode (chainHead .zero 0 (rs.take i)) (UInt64.ofNat i) := by
  have hlast : (rs.take (i + 1)).drop i = [rs[i]] := by
    rw [List.take_succ_eq_append_getElem hi, List.drop_left' (List.length_take_of_le hi.le)]
  rw [entryBytes, boundary, logOf_split (fits_take hfits (i + 1)) i, List.take_take,
    Nat.min_eq_left (Nat.le_succ i), List.drop_left' rfl, hlast, List.length_take_of_le hi.le,
    encodeLog, encodeLog, List.append_nil]

theorem logOf_take_succ (hfits : ∀ r ∈ rs, r.Fits) (i : ℕ) :
    logOf (rs.take (i + 1)) = logOf (rs.take i) ++ entryBytes rs i := by
  rw [entryBytes, boundary, logOf_split (fits_take hfits (i + 1)) i, List.take_take,
    Nat.min_eq_left (Nat.le_succ i), List.drop_left' rfl]

/-- The entries in their order are the log. -/
theorem splice_range (hfits : ∀ r ∈ rs, r.Fits) (k : ℕ) :
    splice rs (List.range k) = logOf (rs.take k) := by
  induction k with
  | zero => simp [splice]
  | succ k ih =>
    rw [logOf_take_succ hfits, ← ih, splice, List.range_succ, List.map_append, List.flatten_append,
      ← List.append_assoc, ← splice]
    simp

theorem eq_range {s : List ℕ} (h : ∀ j (hj : j < s.length), s[j] = j) : s = List.range s.length :=
  List.ext_getElem (by simp) fun j hj _ => by rw [h j hj, List.getElem_range]

/-- **Deletion, duplication and reordering are localised.**  A file spliced together from the
entries of one log verifies if they stand in their places, and is reported as tampered at the first
entry that does not, with the offset where that entry starts. -/
theorem verify_splice {p : Path} {fs : FileSystem} {wal : WAL} {s : List ℕ}
    (hfits : ∀ r ∈ rs, r.Fits) (hn : rs.length < 2 ^ 64) (hs : ∀ j ∈ s, j < rs.length)
    (hfd : wal.fd = some p) (hfs : fs p = some (splice rs s)) :
    ((∀ j (hj : j < s.length), s[j] = j) → (run posix wal.verify fs).1.status = .ok ∧
      (run posix wal.verify fs).1.entriesVerified.toNat = s.length) ∧
    ∀ i (hi : i < s.length), s[i] ≠ i → (∀ j (hj : j < i), s[j] = j) →
      (run posix wal.verify fs).1.status = .tampered ∧
      (run posix wal.verify fs).1.entriesVerified.toNat = i ∧
      (run posix wal.verify fs).1.tamperSeq.toNat = i ∧
      (run posix wal.verify fs).1.tamperOffset = UInt64.ofNat (splice rs (s.take i)).length := by
  -- the indices in their places do not run past the log
  have hle : ∀ k ≤ s.length, (∀ j (hj : j < k) (_ : j < s.length), s[j] = j) → k ≤ rs.length := by
    intro k hk h
    rcases Nat.eq_zero_or_pos k with rfl | hpos
    · exact Nat.zero_le _
    · have hlast := hs _ (List.getElem_mem (show k - 1 < s.length by omega))
      rw [h (k - 1) (by omega) (by omega)] at hlast
      omega
  rw [run_verify hfd hfs]
  refine ⟨fun hall => ?_, fun i hi hne hbefore => ?_⟩
  · have hm := hle s.length le_rfl fun j _ hj => hall j hj
    have hfile : splice rs s = logOf (rs.take s.length) := by
      rw [← splice_range hfits, ← eq_range hall]
    rw [hfile, walkFile_chain (fits_take hfits _) rfl, List.length_take_of_le hm]
    exact ⟨rfl, UInt64.toNat_ofNat_of_lt' (hm.trans_lt hn)⟩
  · have hm : i ≤ rs.length := hle i hi.le fun j hj _ => hbefore j hj
    have hsi : s[i] < rs.length := hs _ (List.getElem_mem hi)
    have htake : s.take i = List.range i := by
      have h := eq_range (s := s.take i) fun j hj => by
        rw [List.getElem_take]
        exact hbefore j (hj.trans_le (List.length_take_le ..))
      rwa [List.length_take_of_le hi.le] at h
    have hfile : splice rs s = logOf (rs.take i) ++
        (entryBytes rs s[i] ++ ((s.drop (i + 1)).map (entryBytes rs)).flatten) := by
      have hs' : s = s.take i ++ s[i] :: s.drop (i + 1) := by
        rw [← List.drop_eq_getElem_cons hi, List.take_append_drop]
      calc splice rs s = splice rs (s.take i ++ s[i] :: s.drop (i + 1)) := by rw [← hs']
        _ = _ := by
          rw [← splice_range hfits, ← htake, splice, splice, List.map_append, List.flatten_append,
            List.map_cons, List.flatten_cons, List.append_assoc]
    have hseq : UInt64.ofNat s[i] ≠ UInt64.ofNat (rs.take i).length := by
      rw [List.length_take_of_le hm]
      intro h
      have hnat := congrArg UInt64.toNat h
      rw [UInt64.toNat_ofNat_of_lt' (hsi.trans hn),
        UInt64.toNat_ofNat_of_lt' (hm.trans_lt hn)] at hnat
      exact hne hnat
    have hread : readEntry (chainHead .zero 0 (rs.take i)) (UInt64.ofNat (rs.take i).length)
        (entryBytes rs s[i] ++ ((s.drop (i + 1)).map (entryBytes rs)).flatten) =
        .failed .tampered := by
      rw [entryBytes_eq hfits hsi]
      exact readEntry_displaced (hfits _ (List.getElem_mem hsi)) hseq _
    have hoff : (splice rs (s.take i)).length = (logOf (rs.take i)).length := by
      rw [htake, splice_range hfits]
    rw [hoff, hfile, walkFile_logOf_append (fits_take hfits _), walk_failed hread,
      List.length_take_of_le hm]
    simp only [Walk.result, List.length_append, Nat.add_sub_cancel, and_true, true_and, and_self]
    exact UInt64.toNat_ofNat_of_lt' (hm.trans_lt hn)

theorem verify_splice_deleted :
    let rs : List LogRecord := [⟨.put, [107], [118], -1, 0⟩, ⟨.delete, [107], [], 5, 0⟩]
    (run posix (WAL.fresh "a" 1).verify fun _ => some (splice rs [1])).1.status = .tampered :=
  ((verify_splice (by decide) (by decide) (by decide) rfl rfl).2 0 (by decide) (by decide)
    (by simp)).1

end Splices

end LiteSpeedStore
