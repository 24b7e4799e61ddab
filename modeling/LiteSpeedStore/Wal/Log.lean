import LiteSpeedStore.Wal.Walk

/-!
# Writing the log

What the constructor, `append`, `reset` and `close` do to the file and to the object, for every
failure the environment allows, and the logs that a run of appends writes.

* `wp_construct`, `wp_append`, `wp_reset`, `wp_close` : one rule for each method.
* `logOf` : the file that opening a new log and appending some records leaves.
* `exec_writeLog` : every new log with these appends is `logOf`, whatever its name and however often
  it is synced.
-/

namespace LiteSpeedStore

open Prog WAL

/-! ### The header -/

@[simp] theorem length_walHeader : walHeader.length = kHeaderSize := rfl

/-- The checks of `validateHeader`: the flags are not among them. -/
def ValidHeader (b : Bytes) : Prop :=
  kHeaderSize ≤ b.length ∧ getLE32 ((b.take kHeaderSize).drop hdrOffMagic) = walMagic ∧
    getLE32 ((b.take kHeaderSize).drop hdrOffVersion) = walVersion

instance (b : Bytes) : Decidable (ValidHeader b) := inferInstanceAs (Decidable (_ ∧ _ ∧ _))

theorem validHeader_append (tail : Bytes) : ValidHeader (walHeader ++ tail) := by
  rw [ValidHeader, List.take_left' length_walHeader, List.length_append, length_walHeader]
  exact ⟨Nat.le_add_right .., by decide, by decide⟩

theorem ValidHeader.ne_nil {b : Bytes} (h : ValidHeader b) : b ≠ [] := by
  rintro rfl
  exact absurd h (by decide)

theorem file_of_header {fs : FileSystem} {p : Path} (h : ValidHeader (fs.bytes p)) :
    fs p = some (fs.bytes p) := by
  cases hfile : fs p with
  | none => exact absurd (by rw [FileSystem.bytes, hfile, Option.getD_none]) h.ne_nil
  | some b => rw [FileSystem.bytes_of_some hfile]

/-- The object that the constructor makes. -/
def WAL.fresh (p : Path) (syncEveryN : ℕ) : WAL :=
  { path := p, fd := some p, syncEveryN := if syncEveryN < 1 then 1 else syncEveryN }

/-- The object once an entry is in the file. -/
def WAL.pushed (wal : WAL) (r : LogRecord) : WAL :=
  { wal with
    headHash := r.hash wal.headHash wal.seq, seq := wal.seq + 1
    pendingWrites := wal.pendingWrites + 1 }

/-- The object after the `fsync` that may be due. -/
def WAL.synced (wal : WAL) : WAL :=
  if wal.pendingWrites ≥ wal.syncEveryN then { wal with pendingWrites := 0 } else wal

/-- The object at the start of a chain generation. -/
def WAL.rewound (wal : WAL) : WAL :=
  { wal with seq := 0, headHash := .zero, pendingWrites := 0 }

section Fields

variable (wal : WAL) (r : LogRecord)

@[simp] theorem synced_fd : wal.synced.fd = wal.fd := by
  rw [WAL.synced, apply_ite WAL.fd, ite_self]

@[simp] theorem synced_seq : wal.synced.seq = wal.seq := by
  rw [WAL.synced, apply_ite WAL.seq, ite_self]

@[simp] theorem synced_epoch : wal.synced.epoch = wal.epoch := by
  rw [WAL.synced, apply_ite WAL.epoch, ite_self]

@[simp] theorem synced_headHash : wal.synced.headHash = wal.headHash := by
  rw [WAL.synced, apply_ite WAL.headHash, ite_self]

@[simp] theorem synced_syncEveryN : wal.synced.syncEveryN = wal.syncEveryN := by
  rw [WAL.synced, apply_ite WAL.syncEveryN, ite_self]

@[simp] theorem pushed_fd : (wal.pushed r).fd = wal.fd := rfl

@[simp] theorem pushed_seq : (wal.pushed r).seq = wal.seq + 1 := rfl

@[simp] theorem pushed_epoch : (wal.pushed r).epoch = wal.epoch := rfl

@[simp] theorem pushed_headHash :
    (wal.pushed r).headHash = r.hash wal.headHash wal.seq := rfl

/-- The object counts the entry, and has its hash as head. -/
theorem synced_pushed_seq {rs : List LogRecord} (hseq : wal.seq = UInt64.ofNat rs.length) :
    (wal.pushed r).synced.seq = UInt64.ofNat (rs ++ [r]).length := by
  rw [synced_seq, pushed_seq, hseq, List.length_append, UInt64.ofNat_add]
  rfl

theorem synced_pushed_headHash {rs : List LogRecord} (hseq : wal.seq = UInt64.ofNat rs.length)
    (hhead : wal.headHash = chainHead .zero 0 rs) :
    (wal.pushed r).synced.headHash = chainHead .zero 0 (rs ++ [r]) := by
  rw [synced_headHash, pushed_headHash, hhead, hseq, chainHead_append, UInt64.zero_add]
  rfl

@[simp] theorem setEpoch_seq (e : UInt64) : (wal.setEpoch e).seq = wal.seq := rfl

@[simp] theorem setEpoch_headHash (e : UInt64) : (wal.setEpoch e).headHash = wal.headHash := rfl

end Fields

/-! ### The rules of the methods -/

section Rules

variable {F : Faults} {p : Path} {fs : FileSystem} {b : Bytes} {C : FileSystem → Prop} {wal : WAL}

theorem wp_writeHeader {Q : Bool → FileSystem → Prop} (hfs : fs p = some b)
    (hC : ∀ k, F.Cut kHeaderSize k → C (fs.put p (b ++ walHeader.take k)))
    (hok : Q true (fs.put p (b ++ walHeader)))
    (hfail : (∃ d, F.mayFail (.write p d)) → ∀ k, F.Cut kHeaderSize k → k < kHeaderSize →
      Q false (fs.put p (b ++ walHeader.take k)))
    (hsync : F.mayFail (.fsync p) → Q false (fs.put p (b ++ walHeader))) :
    wp F.env (writeHeader p) Q C fs := by
  have hCall : C (fs.put p (b ++ walHeader)) := by
    simpa only [← length_walHeader, List.take_length] using hC kHeaderSize (.inr (.inl rfl))
  rw [writeHeader, wp_bind]
  refine wp_writeExact hfs hC ?_ fun k hk hlt hmay => ?_
  · rw [if_pos rfl, ← bind_ret (sys _)]
    refine wp_sys rfl hCall ⟨hCall, hok⟩ fun hmay r hr => ?_
    simp only [failed] at hr
    subst hr
    exact ⟨hCall, hsync hmay⟩
  · rw [if_neg (by decide)]
    exact ⟨hC k hk, hfail hmay k hk hlt⟩

theorem wp_validateHeader {Q : Bool → FileSystem → Prop} (hF : F.ReadsOk p) (hfs : fs p = some b)
    (hC : C fs) (hQ : Q (decide (ValidHeader b)) fs) : wp F.env (validateHeader p) Q C fs := by
  rw [validateHeader]
  refine wp_sys_ok (hF.lseek _ _) rfl hC ?_
  simp only [posix, if_true]
  refine wp_readExact_bind hF.read hfs hC ?_
  by_cases hlen : kHeaderSize ≤ b.length
  · rw [slice, if_pos (.inr (by omega)), List.drop_zero]
    have hdec : decide (ValidHeader b) =
        decide (getLE32 ((b.take kHeaderSize).drop hdrOffMagic) = walMagic ∧
          getLE32 ((b.take kHeaderSize).drop hdrOffVersion) = walVersion) :=
      decide_eq_decide.2 (and_iff_right hlen)
    rw [hdec] at hQ
    dsimp only
    by_cases hm : getLE32 ((b.take kHeaderSize).drop hdrOffMagic) = walMagic
    · by_cases hv : getLE32 ((b.take kHeaderSize).drop hdrOffVersion) = walVersion
      · rw [if_neg (not_not.2 hm), if_neg (not_not.2 hv)]
        exact ⟨hC, by simpa only [hm, hv, and_self, decide_true] using hQ⟩
      · rw [if_neg (not_not.2 hm), if_pos hv]
        exact ⟨hC, by simpa only [hv, and_false, decide_false] using hQ⟩
    · rw [if_pos hm]
      exact ⟨hC, by simpa only [hm, false_and, decide_false] using hQ⟩
  · rw [slice, if_neg (by rw [kHeaderSize] at hlen ⊢; omega)]
    refine ⟨hC, ?_⟩
    rwa [decide_eq_false fun h : ValidHeader b => hlen h.1] at hQ

/-- The rule of the constructor, in which the file may not be opened. -/
theorem wp_constructAny {n : ℕ} {Q : Except Exception WAL → FileSystem → Prop} (hF : F.ReadsOk p)
    (hC : C fs) (hopen : F.mayFail (.openAppend p) → ∀ e, Q (.error e) fs)
    (hCnew : fs.bytes p = [] → ∀ k, F.Cut kHeaderSize k → C (fs.put p (walHeader.take k)))
    (hnew : fs.bytes p = [] → Q (.ok (.fresh p n)) (fs.put p walHeader))
    (hnewFail : fs.bytes p = [] → (∃ d, F.mayFail (.write p d)) → ∀ k, F.Cut kHeaderSize k →
      k < kHeaderSize → ∀ e, Q (.error e) (fs.put p (walHeader.take k)))
    (hnewSync : fs.bytes p = [] → F.mayFail (.fsync p) → ∀ e, Q (.error e) (fs.put p walHeader))
    (hold : ValidHeader (fs.bytes p) → Q (.ok (.fresh p n)) fs)
    (hbad : fs.bytes p ≠ [] → ¬ValidHeader (fs.bytes p) → ∀ e, Q (.error e) fs) :
    wp F.env (construct p n) Q C fs := by
  rw [construct]
  refine wp_sys rfl hC ?_ fun hmay r hr => ?_
  swap
  · simp only [failed] at hr
    subst hr
    exact ⟨hC, hopen hmay _⟩
  simp only [posix, if_true]
  by_cases hb : fs.bytes p = []
  · -- a new file gets its header
    have hC0 : C (fs.put p []) := hCnew hb 0 (.inl rfl)
    rw [hb]
    refine wp_sys_ok hF.fstat rfl hC0 ?_
    simp only [posix, FileSystem.bytes_put, List.length_nil, if_true]
    rw [wp_bind]
    refine wp_writeHeader (FileSystem.put_self ..) ?_ ?_ ?_ ?_
    · intro k hk
      rw [FileSystem.put_put, List.nil_append]
      exact hCnew hb k hk
    · rw [FileSystem.put_put, List.nil_append, if_pos rfl]
      exact ⟨hCnew hb kHeaderSize (.inr (.inl rfl)), hnew hb⟩
    · intro hmay k hk hlt
      rw [FileSystem.put_put, List.nil_append, if_neg (by decide)]
      have hend := hnewFail hb hmay k hk hlt
      exact wp_sys rfl (hCnew hb k hk) ⟨hCnew hb k hk, hend _⟩ fun _ _ _ => ⟨hCnew hb k hk, hend _⟩
    · intro hmay
      have hCall : C (fs.put p walHeader) := hCnew hb kHeaderSize (.inr (.inl rfl))
      rw [FileSystem.put_put, List.nil_append, if_neg (by decide)]
      have hend := hnewSync hb hmay
      exact wp_sys rfl hCall ⟨hCall, hend _⟩ fun _ _ _ => ⟨hCall, hend _⟩
  · -- the header of any other file is checked
    have hfs : fs p = some (fs.bytes p) := by
      cases h : fs p with
      | none => exact absurd (by rw [FileSystem.bytes, h]; rfl) hb
      | some b => rw [FileSystem.bytes_of_some h]
    rw [FileSystem.put_eq_self hfs]
    refine wp_sys_ok hF.fstat rfl hC ?_
    simp only [posix, List.length_eq_zero_iff, hb, if_false]
    rw [wp_bind]
    refine wp_validateHeader hF hfs hC ?_
    by_cases hv : ValidHeader (fs.bytes p)
    · rw [if_pos (decide_eq_true hv)]
      exact ⟨hC, hold hv⟩
    · rw [if_neg (by simpa using hv)]
      exact wp_sys rfl hC ⟨hC, hbad hb hv _⟩ fun _ _ _ => ⟨hC, hbad hb hv _⟩

/-- The rule of the constructor. -/
theorem wp_construct {n : ℕ} {Q : Except Exception WAL → FileSystem → Prop} (hF : F.ReadsOk p)
    (hopen : ¬F.mayFail (.openAppend p)) (hC : C fs)
    (hCnew : fs.bytes p = [] → ∀ k, F.Cut kHeaderSize k → C (fs.put p (walHeader.take k)))
    (hnew : fs.bytes p = [] → Q (.ok (.fresh p n)) (fs.put p walHeader))
    (hnewFail : fs.bytes p = [] → (∃ d, F.mayFail (.write p d)) → ∀ k, F.Cut kHeaderSize k →
      k < kHeaderSize → ∀ e, Q (.error e) (fs.put p (walHeader.take k)))
    (hnewSync : fs.bytes p = [] → F.mayFail (.fsync p) → ∀ e, Q (.error e) (fs.put p walHeader))
    (hold : ValidHeader (fs.bytes p) → Q (.ok (.fresh p n)) fs)
    (hbad : fs.bytes p ≠ [] → ¬ValidHeader (fs.bytes p) → ∀ e, Q (.error e) fs) :
    wp F.env (construct p n) Q C fs :=
  wp_constructAny hF hC (fun hmay => absurd hmay hopen) hCnew hnew hnewFail hnewSync hold hbad

/-- The rule of `append` for a record within the limits. -/
theorem wp_append {r : LogRecord} {Q : Except Exception Unit × WAL → FileSystem → Prop}
    (hfd : wal.fd = some p) (hfs : fs p = some b) (hfits : r.Fits) (hepoch : r.epoch = wal.epoch)
    (hC : ∀ k, F.Cut r.size k → C (fs.put p (b ++ (r.encode wal.headHash wal.seq).take k)))
    (hok : Q (.ok (), (wal.pushed r).synced) (fs.put p (b ++ r.encode wal.headHash wal.seq)))
    (hfail : (∃ d, F.mayFail (.write p d)) → ∀ k, F.Cut r.size k → k < r.size → ∀ e,
      Q (.error (.runtimeError e), wal) (fs.put p (b ++ (r.encode wal.headHash wal.seq).take k)))
    (hsync : F.mayFail (.fsync p) → ∀ e,
      Q (.error (.runtimeError e), wal.pushed r) (fs.put p (b ++ r.encode wal.headHash wal.seq))) :
    wp F.env (wal.append r.type r.key r.value r.timestamp) Q C fs := by
  have hover : ¬(r.key.length > kMaxFieldSize.toNat ∨ r.value.length > kMaxFieldSize.toNat) := by
    rw [not_or, not_lt, not_lt]
    exact hfits
  have hlen : (r.encode wal.headHash wal.seq).length = r.size := LogRecord.length_encode ..
  have hCall : C (fs.put p (b ++ r.encode wal.headHash wal.seq)) := by
    simpa only [← hlen, List.take_length] using hC r.size (.inr (.inl rfl))
  have hfixed : fixedFields wal.seq r.timestamp wal.epoch (UInt32.ofNat r.key.length)
      (UInt32.ofNat r.value.length) r.type = r.fixed wal.seq := by rw [← hepoch]; rfl
  rw [append, if_neg hover, hfd]
  simp only [hfixed]
  rw [wp_bind]
  change wp F.env (writeExact p (r.encode wal.headHash wal.seq)) _ C fs
  refine wp_writeExact hfs ?_ ?_ ?_
  · rw [hlen]
    exact hC
  · simp only [if_true]
    rw [WAL.synced] at hok
    by_cases hdue : wal.pendingWrites + 1 ≥ wal.syncEveryN
    · rw [if_pos (c := (wal.pushed r).pendingWrites ≥ (wal.pushed r).syncEveryN) hdue] at hok
      rw [if_pos hdue]
      refine wp_sys rfl hCall ⟨hCall, ?_⟩ fun hmay x hx => ?_
      · rw [← hfd]
        exact hok
      · simp only [failed] at hx
        subst hx
        refine ⟨hCall, ?_⟩
        rw [← hfd]
        exact hsync hmay _
    · rw [if_neg (c := (wal.pushed r).pendingWrites ≥ (wal.pushed r).syncEveryN) hdue] at hok
      rw [if_neg hdue]
      refine ⟨hCall, ?_⟩
      rw [← hfd]
      exact hok
  · rw [hlen]
    intro k hk hlt hmay
    exact ⟨hC k hk, hfail hmay k hk hlt _⟩

/-- `append` can fail with any proper part of its entry in the file. -/
theorem exec_append_cut {r : LogRecord} {k : ℕ} (hmay : ∀ d, F.mayFail (.write p d))
    (hatomic : F.atomic = 0) (hfd : wal.fd = some p) (hfs : fs p = some b) (hfits : r.Fits)
    (hepoch : r.epoch = wal.epoch) (hk : k < r.size) :
    Exec F.env (wal.append r.type r.key r.value r.timestamp) fs
      (.error (.runtimeError "Failed to write entry to WAL"), wal)
      (fs.put p (b ++ (r.encode wal.headHash wal.seq).take k)) := by
  have hover : ¬(r.key.length > kMaxFieldSize.toNat ∨ r.value.length > kMaxFieldSize.toNat) := by
    rw [not_or, not_lt, not_lt]
    exact hfits
  have hfixed : fixedFields wal.seq r.timestamp wal.epoch (UInt32.ofNat r.key.length)
      (UInt32.ofNat r.value.length) r.type = r.fixed wal.seq := by rw [← hepoch]; rfl
  have hlt : k < (r.encode wal.headHash wal.seq).length := by rwa [LogRecord.length_encode]
  rw [append, if_neg hover, hfd]
  simp only [hfixed]
  exact exec_bind.2 ⟨false, _, exec_writeExact_cut hmay hatomic hfs hlt, .ret _ _⟩

/-- `append` can fail with its entry in the file, when it syncs. -/
theorem exec_append_sync {r : LogRecord} (hmay : F.mayFail (.fsync p)) (hfd : wal.fd = some p)
    (hfs : fs p = some b) (hfits : r.Fits) (hepoch : r.epoch = wal.epoch)
    (hdue : wal.pendingWrites + 1 ≥ wal.syncEveryN) :
    Exec F.env (wal.append r.type r.key r.value r.timestamp) fs
      (.error (.runtimeError "fsync failed"), wal.pushed r)
      (fs.put p (b ++ r.encode wal.headHash wal.seq)) := by
  have hover : ¬(r.key.length > kMaxFieldSize.toNat ∨ r.value.length > kMaxFieldSize.toNat) := by
    rw [not_or, not_lt, not_lt]
    exact hfits
  have hfixed : fixedFields wal.seq r.timestamp wal.epoch (UInt32.ofNat r.key.length)
      (UInt32.ofNat r.value.length) r.type = r.fixed wal.seq := by rw [← hepoch]; rfl
  have hwrite : Exec F.env (writeExact p (r.encode wal.headHash wal.seq)) fs true _ :=
    exec_of_run Faults.allows_posix (run_writeExact (fun _ _ => rfl) hfs)
  have hfail : F.env.step (.fsync p) (fs.put p (b ++ r.encode wal.headHash wal.seq)) false _ :=
    Faults.step_fail hmay rfl
  rw [append, if_neg hover, hfd]
  simp only [hfixed]
  refine exec_bind.2 ⟨true, _, hwrite, ?_⟩
  rw [if_pos rfl, if_pos hdue, WAL.pushed, hfd]
  exact .call hfail (.ret _ _)

theorem append_rejects {r : LogRecord} (hfits : ¬r.Fits) :
    wal.append r.type r.key r.value r.timestamp = ret (.error (.lengthError
      ("WAL field exceeds " ++ toString kMaxFieldSize ++ " bytes")), wal) := by
  rw [append, if_pos]
  rwa [LogRecord.Fits, not_and_or, not_le, not_le] at hfits

/-- The rule of `reset`, in which each call may fail. -/
theorem wp_resetAny {Q : Bool × WAL → FileSystem → Prop} (hfd : wal.fd = some p)
    (hfs : fs p = some b) (hC : C fs)
    (hCnew : ∀ k, F.Cut kHeaderSize k → C (fs.put p (walHeader.take k)))
    (hok : Q (true, wal.rewound) (fs.put p walHeader))
    (htrunc : F.mayFail (.ftruncate p 0) → Q (false, wal) fs)
    (hseek : F.mayFail (.lseek p 0 .set) → Q (false, wal) (fs.put p []))
    (hfail : (∃ d, F.mayFail (.write p d)) → ∀ k, F.Cut kHeaderSize k → k < kHeaderSize →
      Q (false, wal) (fs.put p (walHeader.take k)))
    (hsync : F.mayFail (.fsync p) → Q (false, wal) (fs.put p walHeader)) :
    wp F.env wal.reset Q C fs := by
  have hC0 : C (fs.put p []) := hCnew 0 (.inl rfl)
  have hCall : C (fs.put p walHeader) := hCnew kHeaderSize (.inr (.inl rfl))
  have hrest : wp F.env (do
      let truncated ← sys (.ftruncate p 0)
      if truncated then do
        let sought ← sys (.lseek p 0 .set)
        if sought then do
          let written ← writeHeader p
          if written then ret (true, wal.rewound) else ret (false, wal)
        else ret (false, wal)
      else ret (false, wal)) Q C fs := by
    refine wp_sys rfl hC ?_ fun hmay r hr => ?_
    · simp only [posix, lt_irrefl, if_false, if_true, FileSystem.bytes_of_some hfs, Int.toNat_zero,
        resize_of_le (Nat.zero_le _), List.take_zero]
      refine wp_sys rfl hC0 ?_ fun hmay r hr => ?_
      · simp only [posix, if_true]
        rw [wp_bind]
        refine wp_writeHeader (FileSystem.put_self ..) ?_ ?_ ?_ ?_
        · intro k hk
          rw [FileSystem.put_put, List.nil_append]
          exact hCnew k hk
        · rw [FileSystem.put_put, List.nil_append]
          exact ⟨hCall, hok⟩
        · intro hmay k hk hlt
          rw [FileSystem.put_put, List.nil_append]
          exact ⟨hCnew k hk, hfail hmay k hk hlt⟩
        · intro hmay
          rw [FileSystem.put_put, List.nil_append]
          exact ⟨hCall, hsync hmay⟩
      · simp only [failed] at hr
        subst hr
        exact ⟨hC0, hseek hmay⟩
    · simp only [failed] at hr
      subst hr
      exact ⟨hC, htrunc hmay⟩
  rw [reset, hfd]
  rw [WAL.rewound, hfd] at hrest
  exact wp_sys rfl hC hrest fun _ _ _ => hrest

/-- The rule of `reset` on a file in which `lseek` does not fail. -/
theorem wp_reset {Q : Bool × WAL → FileSystem → Prop} (hfd : wal.fd = some p) (hF : F.ReadsOk p)
    (hfs : fs p = some b) (hC : C fs)
    (hCnew : ∀ k, F.Cut kHeaderSize k → C (fs.put p (walHeader.take k)))
    (hok : Q (true, wal.rewound) (fs.put p walHeader))
    (htrunc : F.mayFail (.ftruncate p 0) → Q (false, wal) fs)
    (hfail : (∃ d, F.mayFail (.write p d)) → ∀ k, F.Cut kHeaderSize k → k < kHeaderSize →
      Q (false, wal) (fs.put p (walHeader.take k)))
    (hsync : F.mayFail (.fsync p) → Q (false, wal) (fs.put p walHeader)) :
    wp F.env wal.reset Q C fs :=
  wp_resetAny hfd hfs hC hCnew hok htrunc (fun hmay => absurd hmay (hF.lseek _ _)) hfail hsync

/-- The rule of `close`. -/
theorem wp_close {Q : WAL → FileSystem → Prop} (hC : C fs) (hQ : ∀ wal', wal'.fd = none → Q wal' fs) :
    wp F.env wal.close Q C fs := by
  rw [close]
  cases hfd : wal.fd with
  | none => exact ⟨hC, hQ wal hfd⟩
  | some p =>
    dsimp only
    have hclose : ∀ wal' : WAL, wal'.fd = none →
        wp F.env (sys (.close p) >>= fun _ => ret wal') Q C fs := fun wal' h =>
      wp_sys rfl hC ⟨hC, hQ _ h⟩ fun _ _ _ => ⟨hC, hQ _ h⟩
    by_cases hpend : wal.pendingWrites > 0
    · rw [if_pos hpend]
      exact wp_sys rfl hC (hclose _ rfl) fun _ _ _ => hclose _ rfl
    · rw [if_neg hpend]
      exact hclose _ rfl

end Rules

/-! ### The logs that appends write -/

namespace WAL

/-- Appends the records one after another, each stamped with its epoch, up to the first that is
refused. -/
def appendAll (wal : WAL) : List LogRecord → Io (Except Exception WAL)
  | [] => ret (.ok wal)
  | r :: rs => do
    match ← (wal.setEpoch r.epoch).append r.type r.key r.value r.timestamp with
    | (.error e, _) => ret (.error e)
    | (.ok (), wal) => wal.appendAll rs

/-- Opens a log and appends the records to it. -/
def writeLog (p : Path) (syncEveryN : ℕ) (rs : List LogRecord) : Io (Except Exception WAL) := do
  match ← construct p syncEveryN with
  | .error e => ret (.error e)
  | .ok wal => wal.appendAll rs

end WAL

/-- The default name of the log. -/
def defaultPath : Path := "litespeed.wal"

/-- What a new log holds once the records are appended. -/
def logOf (rs : List LogRecord) : Bytes :=
  (run posix (writeLog defaultPath 1 rs) fun _ => none).2.bytes defaultPath

section Logs

variable {n : ℕ} {p : Path} {fs : FileSystem} {b : Bytes} {wal : WAL}

theorem wp_appendAll {rs : List LogRecord} (hfits : ∀ r ∈ rs, r.Fits) (hfd : wal.fd = some p)
    (hfs : fs p = some b) :
    wp (Faults.none n).env (wal.appendAll rs) (fun res fs' => ∃ wal', res = .ok wal' ∧
      wal'.fd = some p ∧ wal'.seq = wal.seq + UInt64.ofNat rs.length ∧
      wal'.headHash = chainHead wal.headHash wal.seq rs ∧
      fs' = fs.put p (b ++ encodeLog wal.headHash wal.seq rs)) (fun _ => True) fs := by
  induction rs generalizing wal b fs with
  | nil =>
    refine ⟨trivial, wal, rfl, hfd, by simp, rfl, ?_⟩
    rw [encodeLog, List.append_nil, FileSystem.put_eq_self hfs]
  | cons r rs ih =>
    rw [appendAll, wp_bind]
    have hfd' : (wal.setEpoch r.epoch).fd = some p := hfd
    refine wp_append hfd' hfs (hfits r List.mem_cons_self) rfl (fun _ _ => trivial) ?_
      (fun h => absurd h.choose_spec Faults.none_mayFail) (fun h => absurd h Faults.none_mayFail)
    have hnext : (((wal.setEpoch r.epoch).pushed r).synced).fd = some p := by
      rw [synced_fd, pushed_fd, hfd']
    have hrest := ih (fun r' hr' => hfits r' (List.mem_cons_of_mem _ hr')) hnext
      (FileSystem.put_self fs p
        (b ++ r.encode (wal.setEpoch r.epoch).headHash (wal.setEpoch r.epoch).seq))
    refine wp_mono hrest ?_ fun _ h => h
    rintro res fs' ⟨wal', rfl, hfd'', hseq, hhead, rfl⟩
    simp only [synced_seq, pushed_seq, setEpoch_seq, synced_headHash, pushed_headHash,
      setEpoch_headHash] at hseq hhead
    refine ⟨wal', rfl, hfd'', ?_, by rw [hhead, chainHead], ?_⟩
    · rw [hseq, add_succ_ofNat, List.length_cons]
    · simp only [synced_seq, pushed_seq, setEpoch_seq, synced_headHash, pushed_headHash,
        setEpoch_headHash, FileSystem.put_put, List.append_assoc, encodeLog]

theorem wp_writeLog {rs : List LogRecord} {m : ℕ} (hfits : ∀ r ∈ rs, r.Fits)
    (hnew : fs.bytes p = []) :
    wp (Faults.none n).env (writeLog p m rs) (fun res fs' => ∃ wal', res = .ok wal' ∧
      wal'.fd = some p ∧ wal'.head = ⟨UInt64.ofNat rs.length, chainHead .zero 0 rs⟩ ∧
      fs' = fs.put p (walHeader ++ encodeLog .zero 0 rs)) (fun _ => True) fs := by
  rw [writeLog, wp_bind]
  refine wp_construct (Faults.none_readsOk n p) Faults.none_mayFail trivial
    (fun _ _ _ => trivial) (fun _ => ?_)
    (fun _ h => absurd h.choose_spec Faults.none_mayFail)
    (fun _ h => absurd h Faults.none_mayFail) (fun h => ?_) (fun h => absurd hnew h)
  · refine wp_mono (wp_appendAll hfits rfl (FileSystem.put_self ..)) ?_ fun _ h => h
    rintro res fs' ⟨wal', rfl, hfd, hseq, hhead, rfl⟩
    refine ⟨wal', rfl, hfd, ?_, by rw [FileSystem.put_put]; rfl⟩
    rw [head, hseq, hhead]
    simp [WAL.fresh]
  · rw [hnew] at h
    exact absurd h (by decide)

theorem logOf_eq {rs : List LogRecord} (hfits : ∀ r ∈ rs, r.Fits) :
    logOf rs = walHeader ++ encodeLog .zero 0 rs := by
  have hnew : FileSystem.bytes (fun _ => none) defaultPath = [] := rfl
  obtain ⟨wal, -, -, -, hfs⟩ := wp_run Faults.allows_posix
    (wp_writeLog (n := 0) (m := 1) hfits hnew)
  rw [logOf, hfs, FileSystem.bytes_put]

theorem logOf_nil : logOf [] = walHeader := by
  rw [logOf_eq (by simp), encodeLog, List.append_nil]

/-- **Every new log with these appends is `logOf`**, whatever its name, however often it is synced,
and however the writes are cut up. -/
theorem exec_writeLog {rs : List LogRecord} {m : ℕ} {res : Except Exception WAL} {fs' : FileSystem}
    (hfits : ∀ r ∈ rs, r.Fits) (hnew : fs.bytes p = [])
    (hx : Exec (Faults.none n).env (writeLog p m rs) fs res fs') :
    fs' = fs.put p (logOf rs) ∧ ∃ wal', res = .ok wal' ∧ wal'.fd = some p ∧
      wal'.head = ⟨UInt64.ofNat rs.length, chainHead .zero 0 rs⟩ := by
  obtain ⟨wal', rfl, hfd, hhead, rfl⟩ := wp_exec (wp_writeLog hfits hnew) hx
  exact ⟨by rw [logOf_eq hfits], wal', rfl, hfd, hhead⟩

theorem walkFile_header (tail : Bytes) : walkFile (walHeader ++ tail) = walk .zero 0 tail := by
  rw [walkFile, List.drop_left' length_walHeader]

theorem drop_logOf {rs : List LogRecord} (hfits : ∀ r ∈ rs, r.Fits) :
    (logOf rs).drop kHeaderSize = encodeLog .zero 0 rs := by
  rw [logOf_eq hfits, List.drop_left' length_walHeader]

end Logs

end LiteSpeedStore
