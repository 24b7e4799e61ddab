import LiteSpeedStore.Wal.Reader

/-!
# `verify` and `recover` agree

Both walk along the chain.  `verify` changes nothing; `recover` cuts a torn tail off, and what it
leaves is a log that both accept.

* `walkFile_cut` : the walk along what is left of a torn log is clean and passes over the same
  records.
* `recover_verify` : `recover` reports what `verify` reports, changes the file only to cut it behind
  the last entry that verified, and does the same again when it is called again.
-/

namespace LiteSpeedStore

open Prog WAL

variable {b : Bytes}

/-- The entries that a walk passes over, and what is behind them. -/
theorem records_append_rest (b : Bytes) :
    encodeLog .zero 0 (walkFile b).records ++ (walkFile b).rest = b.drop kHeaderSize :=
  (walk_exact .zero 0 (b.drop kHeaderSize)).2.1

/-- A torn tail is cut behind the last entry. -/
theorem left_torn (h : (walkFile b).stop = .torn) : (walkFile b).left b =
    b.take kHeaderSize ++ encodeLog .zero 0 (walkFile b).records := by
  have hsays := (walk_exact .zero 0 (b.drop kHeaderSize)).2.2.2.2
  rw [← walkFile, h] at hsays
  have hrest := List.length_pos_iff.2 hsays.1
  have hbytes := records_append_rest b
  have hlen := congrArg List.length hbytes
  rw [List.length_append, List.length_drop] at hlen
  have hcut : b.length - (walkFile b).rest.length =
      kHeaderSize + (encodeLog .zero 0 (walkFile b).records).length := by omega
  rw [Walk.left, if_pos h, hcut, List.take_add, ← hbytes, List.take_left]

/-- **The walk along what is left** is clean, and passes over the same records. -/
theorem walkFile_cut (h : (walkFile b).stop = .torn) : walkFile ((walkFile b).left b) =
    { walkFile b with rest := [], stop := .clean } := by
  obtain ⟨hfits, -, hhead, hseq, hsays⟩ := walk_exact .zero 0 (b.drop kHeaderSize)
  rw [← walkFile] at hfits hhead hseq hsays
  rw [h] at hsays
  have hlong : kHeaderSize ≤ b.length := by
    have hpos := List.length_pos_iff.2 hsays.1
    have hlen := congrArg List.length (records_append_rest b)
    rw [List.length_append, List.length_drop] at hlen
    omega
  rw [left_torn h, walkFile, List.drop_left' (List.length_take_of_le hlong), walk_chain hfits,
    ← hhead, ← hseq]

/-- The status that is reported tells how the walk stopped. -/
theorem status_torn : ((walkFile b).result b.length).status = .truncatedTail ↔
    (walkFile b).stop = .torn := by
  cases hstop : (walkFile b).stop with
  | clean => simp [Walk.result, hstop]
  | torn => simp [Walk.result, hstop]
  | failed status =>
    rcases walkFile_failed hstop with rfl | rfl <;> simp [Walk.result, hstop]

/-- A log that failed is left alone. -/
theorem left_of_not_torn (h : (walkFile b).stop ≠ .torn) : (walkFile b).left b = b := by
  rw [Walk.left, if_neg h]

section Agreement

variable {p : Path} {fs : FileSystem} {wal : WAL}

/-- **`verify` and `recover` agree**, and `recover` cuts a log that is torn to one that both accept,
with the same entries. -/
theorem recover_verify (hfd : wal.fd = some p) (hfs : fs p = some b) {σ : Type}
    (visitor : Visitor σ) (m : Option UInt64) (s : σ) :
    ∃ res wal' s' fs', run posix wal.verify fs = (res, fs) ∧
      run posix (wal.recover visitor m s) fs = ((res, wal', s'), fs') ∧
      (res.status = .tampered ∨ res.status = .malformed → fs' = fs ∧ wal' = wal) ∧
      (res.status = .ok → fs' = fs) ∧
      (res.status = .truncatedTail → ∃ rs tail, (∀ r ∈ rs, r.Fits) ∧
        b = b.take kHeaderSize ++ encodeLog .zero 0 rs ++ tail ∧
        res.entriesVerified = UInt64.ofNat rs.length ∧ res.headHash = chainHead .zero 0 rs ∧
        fs' = fs.put p (b.take kHeaderSize ++ encodeLog .zero 0 rs) ∧
        run posix wal'.verify fs' = ({ res with status := .ok }, fs') ∧
        s' = visitEach visitor (rs.filter (epochAbove m)) s ∧
        (run posix (wal'.recover visitor m s) fs').1.2.2 = s') := by
  refine ⟨_, _, _, _, run_verify hfd hfs, run_recover hfd hfs visitor m s, fun hstatus => ?_,
    fun hstatus => ?_, fun hstatus => ?_⟩
  · have hstop : ∃ status, (walkFile b).stop = .failed status := by
      cases hstop : (walkFile b).stop with
      | clean => simp [Walk.result, hstop] at hstatus
      | torn => simp [Walk.result, hstop] at hstatus
      | failed status => exact ⟨status, rfl⟩
    obtain ⟨status, hstop⟩ := hstop
    rw [left_of_not_torn (by rw [hstop]; exact Stop.noConfusion), FileSystem.put_eq_self hfs,
      WAL.adopt, hstop]
    exact ⟨rfl, rfl⟩
  · have hclean := verify_ok_iff_clean.1 hstatus
    rw [left_of_not_torn (by rw [hclean]; exact Stop.noConfusion), FileSystem.put_eq_self hfs]
  · have htorn := status_torn.1 hstatus
    obtain ⟨hfits, -, hhead, hseq, -⟩ := walk_exact .zero 0 (b.drop kHeaderSize)
    rw [← walkFile] at hfits hhead hseq
    have hfile : fs.put p ((walkFile b).left b) p = some ((walkFile b).left b) :=
      FileSystem.put_self ..
    have hfd' : (wal.adopt (walkFile b)).fd = some p := by rw [adopt_fd, hfd]
    refine ⟨(walkFile b).records, (walkFile b).rest, hfits, ?_, ?_, ?_, ?_, ?_, ?_, ?_⟩
    · rw [List.append_assoc, records_append_rest, List.take_append_drop]
    · rw [Walk.result, htorn]
      rwa [UInt64.zero_add] at hseq
    · rw [Walk.result, htorn]
      exact hhead
    · rw [left_torn htorn]
    · rw [run_verify hfd' hfile, walkFile_cut htorn, Walk.result, Walk.result, htorn]
    · rw [visited_eq]
    · rw [run_recover hfd' hfile, walkFile_cut htorn]
      rfl

theorem recover_verify_torn : ∃ res wal' s' fs',
    run posix (WAL.fresh "a" 1).verify (FileSystem.put (fun _ => none) "a" (walHeader ++ [0])) =
      (res, FileSystem.put (fun _ => none) "a" (walHeader ++ [0])) ∧
    run posix ((WAL.fresh "a" 1).recover (fun _ key _ _ keys => key :: keys) none [])
      (FileSystem.put (fun _ => none) "a" (walHeader ++ [0])) = ((res, wal', s'), fs') ∧
    res.status = .truncatedTail ∧
    run posix wal'.verify fs' = ({ res with status := .ok }, fs') := by
  have hopen : (WAL.fresh "a" 1).fd = some "a" := rfl
  have hfile := FileSystem.put_self (fun _ => none) "a" (walHeader ++ [0])
  have hentry : readEntry .zero 0 [0] = .torn := by rw [readEntry, if_pos (by decide)]
  have htorn : (walkFile (walHeader ++ [0])).stop = .torn := by
    rw [walkFile_header, walk_torn hentry (by simp)]
  obtain ⟨res, wal', s', fs', hverify, hrecover, -, -, hcut⟩ :=
    recover_verify hopen hfile (fun _ key _ _ keys => key :: keys) none []
  have hres : res = (walkFile (walHeader ++ [0])).result (walHeader ++ [0]).length := by
    have hrun := hverify.symm.trans (run_verify hopen hfile)
    exact congrArg Prod.fst hrun
  have hstatus : res.status = .truncatedTail := by
    rw [hres]
    exact status_torn.2 htorn
  obtain ⟨rs, tail, -, -, -, -, -, hagain, -⟩ := hcut hstatus
  exact ⟨res, wal', s', fs', hverify, hrecover, hstatus, hagain⟩

end Agreement

end LiteSpeedStore
