import LiteSpeedStore.Wal.Session
import LiteSpeedStore.Wal.Calls
import Mathlib.Data.List.Infix

/-!
# Verification while the log is written

The verifier of `verify.cpp` walks along a log while an engine in another process appends to it and
resets it.  Each system call is one step, and the steps of both come in any order.  The verifier asks
for the size once and then reads piece by piece, so it can read one entry of the log before a reset
and the next one from a log that was written after it.

* `wp_litespeedVerify` : what is read from one log is never reported as tampered or malformed.
* `live_verify_intact` : runs in which the entries are read from one generation of the log.
* `live_verify_malformed` : a run with a reset between two entries.
-/

namespace LiteSpeedStore

open Prog WAL

/-- `main` of `verify.cpp`, which opens the log, verifies it, and closes it. -/
def litespeedVerify (p : Path) : Io (Except Exception RecoveryResult) := do
  match ← construct p 1 with
  | .error e => ret (.error e)
  | .ok wal => do
    let result ← wal.verify
    let _ ← wal.close
    ret (.ok result)

/-- What an engine does to its log. -/
inductive LogOp where
  | append (type : RecordType) (key value : Bytes) (timestamp : Int64)
  | setEpoch (epoch : UInt64)
  | reset

/-- The operation on an object. -/
def LogOp.perform (op : LogOp) (wal : WAL) : Io WAL :=
  match op with
  | .append type key value timestamp => do
    let (_, wal) ← wal.append type key value timestamp
    ret wal
  | .setEpoch epoch => ret (wal.setEpoch epoch)
  | .reset => do
    let (_, wal) ← wal.reset
    ret wal

/-- A read that delivers less than there is. -/
def ShortRead : (c : Call) → FileSystem → Res c → FileSystem → Prop
  | .read p pos _, fs, r, fs' =>
    (∃ d, r = some d ∧ d.1 ≠ [] ∧ d.1 <+: (fs.bytes p).drop pos) ∧ fs' = fs
  | _, _, _, _ => False

/-- The verifier's calls can fail, and its reads can stop short. -/
def verifierEnv : Env Res FileSystem where
  step c fs r fs' := (Faults.env ⟨fun _ => True, 0⟩).step c fs r fs' ∨ ShortRead c fs r fs'

/-- The two processes and the files. -/
structure Live where
  fs : FileSystem
  /-- The engine's object, as of its last operation. -/
  wal : WAL
  /-- What is left of the engine's operation. -/
  writing : Option (Io WAL)
  /-- What is left of the verifier's run. -/
  verifying : Io (Except Exception RecoveryResult)
  /-- How often the log was cut by a reset. -/
  generation : ℕ
  /-- The generation from which the first bytes of an entry were read. -/
  readIn : Option ℕ

/-- What is observed of a step. -/
inductive LiveEvent where
  | begins (op : LogOp)
  | writes (c : Call)
  | ends
  | verifies (c : Call) (r : Res c)

/-- The calls that can take bytes away from a file. -/
def Call.shrinks : Call → Bool
  | .ftruncate _ _ | .openTrunc _ | .rename _ _ => true
  | _ => false

/-- The call has read some bytes of an entry. -/
def Call.deliversEntry : (c : Call) → Res c → Bool
  | .read _ pos _, some d => decide (kHeaderSize ≤ pos) && !d.1.isEmpty
  | _, _ => false

namespace Live

/-- The steps of the engine and of the verifier. -/
inductive Step : Live → LiveEvent → Live → Prop
  | begins {s : Live} (op : LogOp) : s.writing = none →
      Step s (.begins op) { s with writing := some (op.perform s.wal) }
  | writes {s : Live} {prog prog' : Io WAL} {c : Call} {r : Res c} {fs' : FileSystem} :
      s.writing = some prog → Prog.Step (Faults.none 0).env prog s.fs c r prog' fs' →
      Step s (.writes c) { s with
        writing := some prog', fs := fs',
        generation := if c.shrinks then s.generation + 1 else s.generation }
  | ends {s : Live} {wal : WAL} : s.writing = some (ret wal) →
      Step s .ends { s with writing := none, wal }
  | verifies {s : Live} {prog' : Io (Except Exception RecoveryResult)} {c : Call} {r : Res c}
      {fs' : FileSystem} : Prog.Step verifierEnv s.verifying s.fs c r prog' fs' →
      Step s (.verifies c r) { s with
        verifying := prog', fs := fs',
        readIn := if c.deliversEntry r then some (s.readIn.getD s.generation) else s.readIn }

end Live

/-- Every order of the steps. -/
def live : Lts Live LiveEvent := ⟨Live.Step⟩

/-- The verifier does not write the header of a log that it finds empty, and the entries that it
reads are of one generation. -/
def OneGeneration (s : Live) : LiveEvent → Prop
  | .verifies c r => c.writeSize = 0 ∧ (c.deliversEntry r → ∀ g ∈ s.readIn, g = s.generation)
  | _ => True

/-- Neither tampering nor a malformed file is reported. -/
def Intact (result : Except Exception RecoveryResult) : Prop :=
  ∀ r, result = .ok r → r.status ≠ .tampered ∧ r.status ≠ .malformed

/-! ### The calls of the verifier -/

/-- The verifier calls on its own file, and takes nothing away from it. -/
def VerifierCall (p : Path) : Call → Prop
  | .openAppend q | .fstat q | .lseek q _ _ | .read q _ _ | .write q _ | .fsync q | .close q => q = p
  | _ => False

section Calls

variable {p : Path} {α : Type}

/-- The program makes only such calls. -/
abbrev Io.CallsOn (p : Path) (prog : Io α) : Prop := Prog.Only (VerifierCall p) (fun _ => True) prog

theorem LooksAt.verifierCall {c : Call} (h : LooksAt p c) : VerifierCall p c := by
  cases c with
  | fstat q => exact h
  | lseek q off whence => exact h
  | read q pos len => exact h
  | _ => exact h.elim

theorem only_litespeedVerify : Io.CallsOn p (litespeedVerify p) := by
  rw [litespeedVerify]
  refine only_bind (only_construct (fun _ => LooksAt.verifierCall) rfl (fun _ => rfl) rfl rfl 1)
    fun result hresult => ?_
  rcases result with e | wal
  · exact trivial
  · have hfd := hresult wal rfl
    have hverify : Io.CallsOn p wal.verify := by
      rw [WAL.verify, hfd]
      exact only_bind (only_walkChain (fun _ => LooksAt.verifierCall) none none
        (fun h => absurd h Bool.false_ne_true) ()) fun _ _ => trivial
    exact only_bind hverify fun _ _ =>
      only_bind (only_close (P := VerifierCall p) rfl rfl hfd) fun _ _ => trivial

end Calls

/-! ### Reading from one log -/

/-- The walk along the file does not fail: it holds whole entries and at most a part of one. -/
def Unbroken (b : Bytes) : Prop := ∀ status, (walkFile b).stop ≠ .failed status

/-- Calls can answer anything, but what is read of the entries is in `b`. -/
def readsOf (b : Bytes) : Env Res Unit where
  step c _ r _ :=
    match c with
    | .read _ pos _ => kHeaderSize ≤ pos → ∀ d, r = some d → d.1 <+: b.drop pos
    | _ => True

section Reads

variable {b : Bytes} {p : Path} {pos : ℕ}

theorem wp_readExact_view {size : ℕ} {Q : Option Bytes → Unit → Prop} (hpos : kHeaderSize ≤ pos)
    (hnone : Q none ()) (hsome : ∀ d, slice b pos size = some d → Q (some d) ()) :
    wp (readsOf b) (readExact p pos size) Q (fun _ => True) () := by
  induction size using Nat.strong_induction_on generalizing pos Q with
  | _ size ih =>
    rw [readExact]
    split_ifs with h0
    · subst h0
      exact ⟨trivial, hsome [] (by rw [slice, if_pos (.inl rfl), List.take_zero])⟩
    · refine ⟨trivial, fun r _ hread => ?_⟩
      rcases r with _ | ⟨d, hd⟩
      · exact ⟨trivial, hnone⟩
      · dsimp only
        split_ifs with hz
        · exact ⟨trivial, hnone⟩
        · -- the loop goes on behind the bytes that were read
          have hpre : d <+: b.drop pos := hread hpos _ rfl
          have hin := hpre.length_le
          rw [List.length_drop] at hin
          rw [wp_bind]
          refine ih (size - d.length) (by omega) (by omega) ⟨trivial, hnone⟩ fun rest hrest => ?_
          refine ⟨trivial, hsome _ ?_⟩
          rw [← slice_map hd (by omega), hrest, ← List.prefix_iff_eq_take.1 hpre]
          rfl

theorem wp_readExact_view_bind {α : Type} {size : ℕ} {f : Option Bytes → Io α}
    {Q : α → Unit → Prop} (hpos : kHeaderSize ≤ pos)
    (hnone : wp (readsOf b) (f none) Q (fun _ => True) ())
    (hsome : ∀ d, slice b pos size = some d → wp (readsOf b) (f (some d)) Q (fun _ => True) ()) :
    wp (readsOf b) (readExact p pos size >>= f) Q (fun _ => True) () :=
  (wp_bind _ _).2 (wp_readExact_view hpos hnone hsome)

/-- A call whose answer does not matter. -/
theorem wp_sys_view {α : Type} {c : Call} {f : Res c → Io α} {Q : α → Unit → Prop}
    (h : ∀ r, wp (readsOf b) (f r) Q (fun _ => True) ()) :
    wp (readsOf b) (sys c >>= f) Q (fun _ => True) () := ⟨trivial, fun r _ _ => h r⟩

/-- The loop body finds what is in `b`, or takes the entry for a torn one. -/
theorem wp_walkEntry_view {stSize : ℕ} {prev : Sha256Digest} {seq : UInt64}
    {Q : EntryOutcome → Unit → Prop} (hpos : kHeaderSize ≤ pos) (htorn : Q .torn ())
    (hfound : Q (readEntry prev seq (b.drop pos)) ()) :
    wp (readsOf b) (walkEntry p stSize pos prev seq) Q (fun _ => True) () := by
  rw [walkEntry]
  refine wp_readExact_view_bind hpos ⟨trivial, htorn⟩ fun crc hcrc => ?_
  refine wp_readExact_view_bind (Nat.le_add_right_of_le hpos) ⟨trivial, htorn⟩ fun fixed hfixed => ?_
  have h37 : pos + crcSize + entryFixedSize ≤ b.length := length_le_of_slice hfixed (by decide)
  obtain rfl := eq_of_slice hfixed
  obtain rfl := eq_of_slice hcrc
  have hlen : (b.drop pos).length = b.length - pos := List.length_drop
  rw [readEntry, if_neg (by omega)] at hfound
  dsimp only at hfound ⊢
  rw [← List.drop_drop]
  generalize ((b.drop pos).drop crcSize).take entryFixedSize = fixed at hfound ⊢
  by_cases hover : getLE32 (fixed.drop offKeyLen) > kMaxFieldSize ∨
      getLE32 (fixed.drop offValueLen) > kMaxFieldSize
  · rw [if_pos hover] at hfound ⊢
    exact ⟨trivial, hfound⟩
  rw [if_neg hover] at hfound ⊢
  split_ifs with hneed
  · exact ⟨trivial, htorn⟩
  refine wp_readExact_view_bind (by omega) ⟨trivial, htorn⟩ fun key hkey => ?_
  refine wp_readExact_view_bind (by omega) ⟨trivial, htorn⟩ fun value hvalue => ?_
  refine wp_readExact_view_bind (by omega) ⟨trivial, htorn⟩ fun hash hhash => ?_
  have hend := length_le_of_slice hhash (by decide)
  rw [if_neg (by rw [neededSize_eq]; omega)] at hfound
  rw [← eq_of_slice hkey, ← eq_of_slice hvalue, ← eq_of_slice hhash]
  simp only [List.drop_drop, Nat.add_assoc] at hfound ⊢
  exact ⟨trivial, hfound⟩

/-- The loop does not fail on an unbroken file, whatever size it was given. -/
theorem wp_walkLoop_view {σ : Type} {stSize : ℕ} {visitor : Option (Visitor σ)}
    {minEpochExclusive : Option UInt64} {st : WalkState σ} {Q : LoopExit σ → Unit → Prop}
    (hpos : kHeaderSize ≤ pos)
    (hunbroken : ∀ status, (walk st.prevHash st.expectedSeq (b.drop pos)).stop ≠ .failed status)
    (hQ : ∀ torn currentPos st', Q (.done torn currentPos st') ()) :
    wp (readsOf b) (walkLoop p stSize visitor minEpochExclusive pos st) Q (fun _ => True) () := by
  induction hn : stSize - pos using Nat.strong_induction_on generalizing pos st with
  | _ n ih =>
    rw [walkLoop]
    split_ifs with hlt
    · rw [wp_bind]
      refine wp_walkEntry_view hpos ⟨trivial, hQ ..⟩ ?_
      cases hentry : readEntry st.prevHash st.expectedSeq (b.drop pos) with
      | torn => exact ⟨trivial, hQ ..⟩
      | failed status =>
        rw [walk_failed hentry] at hunbroken
        exact absurd rfl (hunbroken status)
      | entry r computed =>
        have hsize0 := r.size_pos
        rw [walk_entry hentry, List.drop_drop] at hunbroken
        refine wp_sys_view fun told => ?_
        split_ifs
        · exact ih (stSize - (pos + r.size)) (by omega) (by omega) hunbroken rfl
        · exact ⟨trivial, hQ ..⟩
    · exact ⟨trivial, hQ ..⟩

theorem wp_verify_view {wal : WAL} (hunbroken : Unbroken b) (hfd : wal.fd = some p) :
    wp (readsOf b) wal.verify
      (fun result _ => result.status ≠ .tampered ∧ result.status ≠ .malformed)
      (fun _ => True) () := by
  rw [WAL.verify, hfd, walkChain, wp_bind]
  refine wp_sys_view fun size => ?_
  rcases size with _ | size
  · exact ⟨trivial, trivial, by decide⟩
  · dsimp only
    refine wp_sys_view fun sought => ?_
    by_cases hsought : sought = true
    · rw [if_pos hsought, wp_bind]
      refine wp_walkLoop_view le_rfl hunbroken fun torn currentPos st' => ?_
      cases torn
      · exact ⟨trivial, trivial, by rintro ⟨⟩, by rintro ⟨⟩⟩
      · dsimp only
        rw [if_pos rfl, if_neg Bool.false_ne_true]
        exact ⟨trivial, trivial, by rintro ⟨⟩, by rintro ⟨⟩⟩
    · rw [if_neg hsought]
      exact ⟨trivial, trivial, by decide⟩

/-- **What is read from one log is never reported as tampered or malformed.** -/
theorem wp_litespeedVerify (hunbroken : Unbroken b) :
    wp (readsOf b) (litespeedVerify p) (fun result _ => Intact result) (fun _ => True) () := by
  have herror : ∀ e, Intact (.error e) := fun e r h => by cases h
  rw [litespeedVerify, wp_bind]
  have hconstruct : (construct p 1).Only (fun _ => True) _ :=
    only_construct (fun _ _ => trivial) trivial (fun _ => trivial) trivial trivial 1
  refine wp_mono (hconstruct.wp ()) (fun result _ hresult => ?_) fun _ h => h
  cases result with
  | error e => exact ⟨trivial, herror e⟩
  | ok wal =>
    have hfd := hresult wal rfl
    dsimp only
    rw [wp_bind]
    refine wp_mono (wp_verify_view hunbroken hfd) (fun result _ hintact => ?_) fun _ h => h
    rw [wp_bind]
    have hclose : wal.close.Only (fun _ => True) _ := only_close trivial trivial hfd
    refine wp_mono (hclose.wp ()) (fun _ _ _ => ⟨trivial, fun r h => ?_⟩) fun _ h => h
    obtain rfl := Except.ok.inj h
    exact hintact

end Reads


/-! ### Writing the log -/

/-- The object is open on a clean log, at its end. -/
def AtEnd (p : Path) (wal : WAL) (fs : FileSystem) : Prop :=
  wal.fd = some p ∧ ∃ b, fs p = some b ∧ kHeaderSize ≤ b.length ∧ (walkFile b).stop = .clean ∧
    wal.headHash = (walkFile b).head ∧ wal.seq = (walkFile b).seq

/-- The file is there and unbroken. -/
def Holds (p : Path) (fs : FileSystem) : Prop := ∃ b, fs p = some b ∧ Unbroken b

section Writing

variable {p : Path} {fs fs' : FileSystem} {b : Bytes} {r : LogRecord} {wal : WAL}

theorem unbroken_of_clean (h : (walkFile b).stop = .clean) : Unbroken b := by
  intro status
  rw [h]
  exact Stop.noConfusion

theorem AtEnd.holds (h : AtEnd p wal fs) : Holds p fs := by
  obtain ⟨-, b, hfile, -, hclean, -⟩ := h
  exact ⟨b, hfile, unbroken_of_clean hclean⟩

/-- The head and the number of a clean chain with one more entry. -/
theorem walkFile_concat_end (hlen : kHeaderSize ≤ b.length) (hclean : (walkFile b).stop = .clean)
    (hfit : r.Fits) : (walkFile (b ++ r.encode (walkFile b).head (walkFile b).seq)).head =
      r.hash (walkFile b).head (walkFile b).seq ∧
    (walkFile (b ++ r.encode (walkFile b).head (walkFile b).seq)).seq = (walkFile b).seq + 1 := by
  obtain ⟨hrecords, -⟩ := walkFile_concat hlen hclean hfit
  obtain ⟨-, -, hhead, hseq, -⟩ := walk_exact .zero 0 (b.drop kHeaderSize)
  obtain ⟨-, -, hhead', hseq', -⟩ := walk_exact .zero 0
    ((b ++ r.encode (walkFile b).head (walkFile b).seq).drop kHeaderSize)
  rw [← walkFile] at hhead hseq hhead' hseq'
  rw [hhead', hseq', hrecords, chainHead_append, ← hhead, ← hseq, List.length_append,
    UInt64.ofNat_add, ← UInt64.add_assoc, ← hseq]
  exact ⟨rfl, rfl⟩

/-- A part of the entry that continues a clean chain does not break it. -/
theorem unbroken_cut {k : ℕ} (hlen : kHeaderSize ≤ b.length) (hclean : (walkFile b).stop = .clean)
    (hfit : r.Fits) (hk : k ≤ r.size) :
    Unbroken (b ++ (r.encode (walkFile b).head (walkFile b).seq).take k) := by
  rcases hk.lt_or_eq with hlt | rfl
  · intro status
    obtain ⟨hfits, -⟩ := records_of_clean hclean
    obtain ⟨-, -, hhead, hseq, -⟩ := walk_exact .zero 0 (b.drop kHeaderSize)
    rw [← walkFile] at hhead hseq
    have hwalk : (walkFile (b ++ (r.encode (walkFile b).head (walkFile b).seq).take k)).stop =
        (walk (walkFile b).head (walkFile b).seq
          ((r.encode (walkFile b).head (walkFile b).seq).take k)).stop := by
      conv_lhs => rw [walkFile, List.drop_append_of_le_length hlen, drop_of_stop hclean,
        walk_encodeLog hfits, ← hhead, ← hseq]
    rw [hwalk]
    by_cases hnil : (r.encode (walkFile b).head (walkFile b).seq).take k = []
    · rw [hnil, walk_nil]
      exact Stop.noConfusion
    · rw [walk_torn (readEntry_take hfit hlt) hnil]
      exact Stop.noConfusion
  · have hlength := LogRecord.length_encode (walkFile b).head (walkFile b).seq r
    rw [← hlength, List.take_length]
    exact unbroken_of_clean (walkFile_concat hlen hclean hfit).2

/-- A part of a header has no entries. -/
theorem unbroken_header (k : ℕ) : Unbroken (walHeader.take k) := by
  intro status
  rw [walkFile, List.drop_of_length_le ?_, walk_nil]
  · exact Stop.noConfusion
  · rw [List.length_take, length_walHeader]
    exact Nat.min_le_right ..

/-- **An operation of the engine** leaves its object at the end of the log, and never breaks it. -/
theorem wp_perform (op : LogOp) (h : AtEnd p wal fs) :
    wp (Faults.none 0).env (op.perform wal) (AtEnd p) (Holds p) fs := by
  have hholds := h.holds
  obtain ⟨hfd, b, hfile, hlen, hclean, hhead, hseq⟩ := h
  cases op with
  | setEpoch epoch => exact ⟨hholds, hfd, b, hfile, hlen, hclean, hhead, hseq⟩
  | append type key value timestamp =>
    rw [LogOp.perform, wp_bind]
    by_cases hfit : (⟨type, key, value, timestamp, wal.epoch⟩ : LogRecord).Fits
    · refine wp_append (r := ⟨type, key, value, timestamp, wal.epoch⟩) hfd hfile hfit rfl
        (fun k hk => ?_) ?_ (fun hmay => absurd hmay.choose_spec Faults.none_mayFail)
        (fun hmay => absurd hmay Faults.none_mayFail)
      · rw [hhead, hseq]
        exact ⟨_, FileSystem.put_self .., unbroken_cut hlen hclean hfit hk.le⟩
      · obtain ⟨hhead', hseq'⟩ := walkFile_concat_end hlen hclean hfit
        have hclean' := (walkFile_concat hlen hclean hfit).2
        rw [← hhead, ← hseq] at hhead' hseq' hclean'
        have hend : AtEnd p (wal.pushed ⟨type, key, value, timestamp, wal.epoch⟩).synced
            (fs.put p (b ++ (⟨type, key, value, timestamp, wal.epoch⟩ : LogRecord).encode
              wal.headHash wal.seq)) := by
          refine ⟨by rw [synced_fd, pushed_fd, hfd], _, FileSystem.put_self .., ?_, hclean', ?_, ?_⟩
          · rw [List.length_append]
            exact hlen.trans (Nat.le_add_right ..)
          · rw [synced_headHash, pushed_headHash, hhead']
          · rw [synced_seq, pushed_seq, hseq']
        exact ⟨hend.holds, hend⟩
    · have hreject : wal.append type key value timestamp = _ :=
        append_rejects (r := ⟨type, key, value, timestamp, wal.epoch⟩) hfit
      rw [hreject]
      exact ⟨hholds, hholds, hfd, b, hfile, hlen, hclean, hhead, hseq⟩
  | reset =>
    rw [LogOp.perform, wp_bind]
    have hend : AtEnd p wal.rewound (fs.put p walHeader) := by
      refine ⟨hfd, _, FileSystem.put_self .., length_walHeader.ge, ?_, ?_, ?_⟩
      · rw [walkFile_walHeader]
      · rw [walkFile_walHeader]
        rfl
      · rw [walkFile_walHeader]
        rfl
    exact wp_reset hfd (Faults.none_readsOk 0 p) hfile hholds
      (fun k _ => ⟨_, FileSystem.put_self .., unbroken_header k⟩) ⟨hend.holds, hend⟩
      (fun hmay => absurd hmay Faults.none_mayFail)
      (fun hmay => absurd hmay.choose_spec Faults.none_mayFail)
      (fun hmay => absurd hmay Faults.none_mayFail)

end Writing

/-! ### Every order of the steps -/

section Running

variable {p : Path} {fs fs' : FileSystem} {b : Bytes} {c : Call} {r : Res c}

theorem FileSystem.bytes_put_of_ne {q : Path} (h : q ≠ p) : (fs.put p b).bytes q = fs.bytes q := by
  rw [FileSystem.bytes, FileSystem.put_of_ne h, FileSystem.bytes]

theorem FileSystem.bytes_put_append (q : Path) (d : Bytes) :
    fs.bytes q <+: (fs.put p (fs.bytes p ++ d)).bytes q := by
  by_cases h : q = p
  · subst h
    rw [FileSystem.bytes_put]
    exact List.prefix_append ..
  · exact ⟨[], by rw [List.append_nil, FileSystem.bytes_put_of_ne h]⟩

/-- A call that does not shrink a file adds to it. -/
theorem prefix_of_step (hst : (Faults.none 0).env.step c fs r fs') (hc : c.shrinks = false)
    (q : Path) : fs.bytes q <+: fs'.bytes q := by
  have hsame : fs' = fs → fs.bytes q <+: fs'.bytes q :=
    fun h => ⟨[], by rw [List.append_nil, h]⟩
  rcases hst with heq | ⟨hmay, -⟩ | ⟨-, hshort⟩
  · obtain ⟨-, rfl⟩ := Prod.ext_iff.1 heq
    cases c with
    | openAppend p =>
      have happend : fs.bytes q <+: (fs.put p (fs.bytes p ++ [])).bytes q :=
        FileSystem.bytes_put_append q []
      rwa [List.append_nil] at happend
    | write p data => exact FileSystem.bytes_put_append q data
    | openTrunc p => cases hc
    | ftruncate p len => cases hc
    | rename src dst => cases hc
    | _ => exact hsame rfl
  · exact absurd hmay Faults.none_mayFail
  · cases c with
    | write p data =>
      obtain ⟨k, -, -, -, rfl⟩ := hshort
      exact FileSystem.bytes_put_append q _
    | _ => exact hshort.elim

/-- A call of the verifier that writes nothing leaves the files alone, and what it reads is there. -/
theorem verifier_step (hst : verifierEnv.step c fs r fs') (hc : VerifierCall p c)
    (hw : c.writeSize = 0) (hfile : fs p = some b) :
    fs' = fs ∧ (readsOf b).step c () r () := by
  have hb := FileSystem.bytes_of_some hfile
  rcases hst with (heq | ⟨-, hfailed, rfl⟩ | ⟨hlt, -⟩) | hshort
  · obtain ⟨rfl, rfl⟩ := Prod.ext_iff.1 heq
    cases c with
    | openAppend q =>
      obtain rfl : q = p := hc
      exact ⟨FileSystem.put_eq_self (by rw [hb, hfile]), trivial⟩
    | read q pos len =>
      obtain rfl : q = p := hc
      refine ⟨rfl, fun _ d hd => ?_⟩
      obtain rfl := Option.some.inj hd
      rw [← hb]
      exact List.take_prefix ..
    | write q data =>
      obtain rfl : q = p := hc
      obtain rfl := List.length_eq_zero_iff.1 hw
      exact ⟨FileSystem.put_eq_self (by rw [hb, hfile, List.append_nil]), trivial⟩
    | fstat q => exact ⟨rfl, trivial⟩
    | lseek q off whence => exact ⟨rfl, trivial⟩
    | fsync q => exact ⟨rfl, trivial⟩
    | close q => exact ⟨rfl, trivial⟩
    | _ => exact hc.elim
  · cases c with
    | read q pos len =>
      obtain rfl : r = none := hfailed
      exact ⟨rfl, fun _ d hd => by cases hd⟩
    | _ => exact ⟨rfl, trivial⟩
  · exact absurd hlt (by omega)
  · cases c with
    | read q pos len =>
      obtain rfl : q = p := hc
      obtain ⟨⟨d, rfl, -, hpre⟩, rfl⟩ := hshort
      refine ⟨rfl, fun _ d' hd => ?_⟩
      obtain rfl := Option.some.inj hd
      rwa [hb] at hpre
    | _ => exact hshort.elim

/-- An answer that delivers nothing of an entry says nothing about the entries. -/
theorem readsOf_silent (h : c.deliversEntry r = false) : (readsOf b).step c () r () := by
  cases c with
  | read q pos len =>
    intro hpos d hd
    subst hd
    have hnil : d.1 = [] := by
      simpa [Call.deliversEntry, hpos] using h
    rw [hnil]
    exact List.nil_prefix
  | _ => trivial

/-- What can be read from a log can be read from every longer one. -/
theorem readsOf_mono {b' : Bytes} (hb : b <+: b') (h : (readsOf b).step c () r ()) :
    (readsOf b').step c () r () := by
  cases c with
  | read q pos len =>
    exact fun hpos d hd => (h hpos d hd).trans (List.IsPrefix.drop hb pos)
  | _ => trivial

/-- Everything that the verifier has read of the entries is in `b`. -/
structure Live.View (p : Path) (s : Live) (b : Bytes) : Prop where
  unbroken : Unbroken b
  unread : s.readIn = none → b = []
  current : s.readIn = some s.generation → b <+: s.fs.bytes p
  intact : ∀ b', Unbroken b' → b <+: b' →
    wp (readsOf b') s.verifying (fun result _ => Intact result) (fun _ => True) ()

/-- The engine is between two operations, at the end of the log, or in one that gets there. -/
def Live.Writing (p : Path) (s : Live) : Prop :=
  (∀ prog ∈ s.writing, wp (Faults.none 0).env prog (AtEnd p) (Holds p) s.fs) ∧
    (s.writing = none → AtEnd p s.wal s.fs)

/-- What holds in every state. -/
structure Live.Sound (p : Path) (s : Live) : Prop where
  writing : s.Writing p
  past : ∀ g ∈ s.readIn, g ≤ s.generation
  calls : s.verifying.CallsOn p
  view : ∃ b, s.View p b

theorem Live.Writing.holds {s : Live} (h : s.Writing p) : Holds p s.fs := by
  rcases hwriting : s.writing with _ | prog
  · exact (h.2 hwriting).holds
  · exact wp_here (h.1 prog hwriting)

theorem Live.sound_start {wal : WAL} (h : AtEnd p wal fs) :
    Live.Sound p ⟨fs, wal, none, litespeedVerify p, 0, none⟩ where
  writing := ⟨by rintro _ ⟨⟩, fun _ => h⟩
  past := by rintro _ ⟨⟩
  calls := only_litespeedVerify
  view := by
    refine ⟨[], ⟨unbroken_of_clean ?_, fun _ => rfl, fun _ => List.nil_prefix,
      fun b' hb' _ => wp_litespeedVerify hb'⟩⟩
    rw [walkFile, List.drop_nil, walk_nil]

/-- A step of the verifier. -/
theorem Live.Sound.verifies {s : Live} {prog' : Io (Except Exception RecoveryResult)}
    (h : s.Sound p) (hst : Prog.Step verifierEnv s.verifying s.fs c r prog' fs')
    (hone : OneGeneration s (.verifies c r)) :
    Live.Sound p { s with
      verifying := prog', fs := fs',
      readIn := if c.deliversEntry r then some (s.readIn.getD s.generation) else s.readIn } := by
  obtain ⟨hw, hsame⟩ := hone
  obtain ⟨hcall, hcalls⟩ := h.calls.step hst
  obtain ⟨b, hfile, hunbroken⟩ := h.writing.holds
  obtain ⟨b₀, hview⟩ := h.view
  obtain ⟨rfl, hreads⟩ := verifier_step hst.env hcall hw hfile
  have hb := FileSystem.bytes_of_some hfile
  by_cases hdelivers : c.deliversEntry r = true
  · -- the bytes are of the current generation, like those that were read before
    have hgen : s.readIn.getD s.generation = s.generation := by
      cases hreadIn : s.readIn with
      | none => rfl
      | some g => exact hsame hdelivers g hreadIn
    have hb₀ : b₀ <+: b := by
      cases hreadIn : s.readIn with
      | none =>
        rw [hview.unread hreadIn]
        exact List.nil_prefix
      | some g =>
        rw [← hb]
        exact hview.current (by rw [hreadIn, hsame hdelivers g hreadIn])
    simp only [hdelivers, ↓reduceIte, hgen]
    refine ⟨h.writing, ?_, hcalls, b, hunbroken, by rintro ⟨⟩, fun _ => hb ▸ List.prefix_rfl, ?_⟩
    · intro g hg
      exact (Option.mem_some_iff.1 hg).ge
    · exact fun b' hb' hpre => wp_view (hview.intact b' hb' (hb₀.trans hpre)) hst
        (readsOf_mono hpre hreads)
  · rw [Bool.not_eq_true] at hdelivers
    simp only [hdelivers, Bool.false_eq_true, ↓reduceIte]
    exact ⟨h.writing, h.past, hcalls, b₀, hview.unbroken, hview.unread, hview.current,
      fun b' hb' hpre => wp_view (hview.intact b' hb' hpre) hst (readsOf_silent hdelivers)⟩

/-- A call of the engine. -/
theorem Live.Sound.writes {s : Live} {prog prog' : Io WAL} (h : s.Sound p)
    (hprog : s.writing = some prog)
    (hst : Prog.Step (Faults.none 0).env prog s.fs c r prog' fs') :
    Live.Sound p { s with
      writing := some prog', fs := fs',
      generation := if c.shrinks then s.generation + 1 else s.generation } := by
  obtain ⟨b₀, hview⟩ := h.view
  have hle : s.generation ≤ if c.shrinks then s.generation + 1 else s.generation := by
    split_ifs <;> omega
  refine ⟨⟨?_, by rintro ⟨⟩⟩, fun g hg => (h.past g hg).trans hle, h.calls, b₀, hview.unbroken,
    hview.unread, fun hreadIn => ?_, hview.intact⟩
  · intro prog'' hprog''
    obtain rfl := Option.some.inj hprog''
    exact wp_step (h.writing.1 prog hprog) hst
  · by_cases hc : c.shrinks = true
    · -- nothing was read of the generation that begins here
      rw [if_pos hc] at hreadIn
      exact absurd (h.past _ hreadIn) (Nat.not_succ_le_self s.generation)
    · rw [Bool.not_eq_true] at hc
      rw [if_neg (by rw [hc]; exact Bool.false_ne_true)] at hreadIn
      exact (hview.current hreadIn).trans (prefix_of_step hst.env hc p)

/-- One step, when the entries are read from one generation. -/
theorem Live.Sound.step {s s' : Live} {e : LiveEvent} (h : s.Sound p)
    (hst : (live.restrict OneGeneration).step s e s') : s'.Sound p := by
  obtain ⟨hone, hst⟩ := hst
  cases hst with
  | begins op hidle =>
    obtain ⟨b₀, hview⟩ := h.view
    refine ⟨⟨fun prog hprog => ?_, by rintro ⟨⟩⟩, h.past, h.calls, b₀, hview.unbroken,
      hview.unread, hview.current, hview.intact⟩
    obtain rfl := Option.some.inj hprog
    exact wp_perform op (h.writing.2 hidle)
  | writes hprog hcall => exact h.writes hprog hcall
  | ends hprog =>
    obtain ⟨b₀, hview⟩ := h.view
    exact ⟨⟨by rintro _ ⟨⟩, fun _ => (h.writing.1 _ hprog).2⟩, h.past, h.calls, b₀, hview.unbroken,
      hview.unread, hview.current, hview.intact⟩
  | verifies hcall => exact h.verifies hcall hone

end Running

/-! ### Runs that can be made -/

section Runs

variable {p : Path} {fs fs' : FileSystem} {b : Bytes} {wal wal' : WAL} {c : Call} {r : Res c}

/-- A call that leaves the length as it was has written nothing. -/
theorem writeSize_of_length (hst : (Faults.none 0).env.step c fs r fs') (hc : VerifierCall p c)
    (hlength : (fs'.bytes p).length ≤ (fs.bytes p).length) : c.writeSize = 0 := by
  cases c with
  | write q data =>
    obtain rfl : q = p := hc
    rcases hst with heq | ⟨hmay, -⟩ | ⟨-, k, hk, -, -, rfl⟩
    · obtain ⟨-, rfl⟩ := Prod.ext_iff.1 heq
      rw [posix, FileSystem.bytes_put, List.length_append] at hlength
      rw [Call.writeSize]
      omega
    · exact absurd hmay Faults.none_mayFail
    · rw [FileSystem.bytes_put, List.length_append, List.length_take] at hlength
      rw [Call.writeSize]
      omega
  | _ => rfl

theorem VerifierCall.shrinks_eq (hc : VerifierCall p c) : c.shrinks = false := by
  cases c with
  | openTrunc q => exact hc.elim
  | ftruncate q len => exact hc.elim
  | rename src dst => exact hc.elim
  | _ => rfl

theorem length_le_of_steps {α : Type} {v v' : Io α} (h : Steps (Faults.none 0).env v fs v' fs')
    (hcalls : v.CallsOn p) : (fs.bytes p).length ≤ (fs'.bytes p).length := by
  induction h with
  | nil => exact le_rfl
  | cons hst _ ih =>
    obtain ⟨hc, hcalls'⟩ := hcalls.step hst
    exact (prefix_of_step hst.env hc.shrinks_eq p).length_le.trans (ih hcalls')

theorem none_allows (hst : (Faults.none 0).env.step c fs r fs') : verifierEnv.step c fs r fs' := by
  rcases hst with h | ⟨h, -⟩ | h
  · exact .inl (.inl h)
  · exact absurd h Faults.none_mayFail
  · exact .inl (.inr (.inr h))

/-- Calls of the verifier, with nothing in between, that leave the log as it was. -/
theorem run_undisturbed (wal : WAL) (o : Option (Io WAL))
    {v v' : Io (Except Exception RecoveryResult)} (g : ℕ) (readIn : Option ℕ)
    (h : Steps (Faults.none 0).env v fs v' fs') (hcalls : v.CallsOn p)
    (hlength : (fs'.bytes p).length ≤ (fs.bytes p).length) (hread : ∀ g' ∈ readIn, g' = g) :
    ∃ es readIn', (live.restrict OneGeneration).Run ⟨fs, wal, o, v, g, readIn⟩ es
      ⟨fs', wal, o, v', g, readIn'⟩ := by
  induction h generalizing readIn with
  | nil => exact ⟨[], readIn, .nil _⟩
  | @cons v v₁ v₂ fs fs₁ fs₂ c r hst hsteps ih =>
    obtain ⟨hc, hcalls'⟩ := hcalls.step hst
    have hgrows := (prefix_of_step hst.env hc.shrinks_eq p).length_le
    have hgrows' := length_le_of_steps hsteps hcalls'
    have hread' : ∀ g' ∈ if c.deliversEntry r then some (readIn.getD g) else readIn, g' = g := by
      intro g' hg'
      split_ifs at hg'
      · obtain rfl := Option.some.inj hg'
        cases readIn with
        | none => rfl
        | some g'' => exact hread g'' rfl
      · exact hread g' hg'
    obtain ⟨es, readIn', hrun⟩ := ih _ hcalls' (hlength.trans hgrows) hread'
    refine ⟨.verifies c r :: es, readIn', .cons ⟨⟨?_, fun _ => hread⟩, .verifies ?_⟩ hrun⟩
    · exact writeSize_of_length hst.env hc (hgrows'.trans hlength)
    · cases hst with
      | call hstep => exact .call (none_allows hstep)

/-- The verifier alone, on a clean log. -/
theorem exec_litespeedVerify (hfile : fs p = some b) (hvalid : ValidHeader b) :
    ∃ result, Exec (Faults.none 0).env (litespeedVerify p) fs (.ok result) fs := by
  have hb := FileSystem.bytes_of_some hfile
  have hw : wp (Faults.none 0).env (litespeedVerify p)
      (fun result fs' => ∃ r, (result, fs') = (.ok r, fs)) (fun _ => True) fs := by
    rw [litespeedVerify, wp_bind]
    refine wp_mono (wp_constructNone (m := 0)) (fun result fs' hresult => ?_) fun _ h => h
    rcases hresult with ⟨e, -, -, -, hbad⟩ | ⟨rfl, ⟨hempty, -⟩ | ⟨-, rfl⟩⟩
    · exact absurd (hb ▸ hvalid) hbad
    · exact absurd (hb ▸ hempty) hvalid.ne_nil
    · dsimp only
      rw [wp_bind]
      refine wp_verify rfl (Faults.none_readsOk 0 p) (fun _ => Faults.none_mayFail) hfile trivial ?_
      rw [wp_bind]
      exact wp_close trivial fun _ _ => ⟨trivial, _, rfl⟩
  obtain ⟨r, hr⟩ := wp_run Faults.allows_posix hw
  exact ⟨r, exec_of_run Faults.allows_posix hr⟩

/-- Calls of the verifier, with nothing in between. -/
theorem run_verifies {o : Option (Io WAL)} {v v' : Io (Except Exception RecoveryResult)} {g : ℕ}
    {r : Option ℕ} (h : Steps verifierEnv v fs v' fs') :
    ∃ es r', live.Run ⟨fs, wal, o, v, g, r⟩ es ⟨fs', wal, o, v', g, r'⟩ := by
  induction h generalizing r with
  | nil => exact ⟨[], r, .nil _⟩
  | cons hst _ ih =>
    obtain ⟨es, r', hrun⟩ := ih
    exact ⟨_, r', .cons (.verifies hst) hrun⟩

/-- An operation of the engine begins in front of a run. -/
theorem Lts.Run.begun {v : Io (Except Exception RecoveryResult)} {g : ℕ} {r : Option ℕ}
    {es : List LiveEvent} {s : Live} (op : LogOp)
    (h : (live.restrict OneGeneration).Run ⟨fs, wal, some (op.perform wal), v, g, r⟩ es s) :
    (live.restrict OneGeneration).Run ⟨fs, wal, none, v, g, r⟩ (.begins op :: es) s :=
  .cons ⟨trivial, .begins op rfl⟩ h

/-- Calls of the engine, with nothing in between. -/
theorem run_writes {prog prog' : Io WAL} (wal : WAL) (v : Io (Except Exception RecoveryResult))
    (g : ℕ) (r : Option ℕ) (h : Steps (Faults.none 0).env prog fs prog' fs') :
    ∃ es g', live.Run ⟨fs, wal, some prog, v, g, r⟩ es ⟨fs', wal, some prog', v, g', r⟩ := by
  induction h generalizing g with
  | nil => exact ⟨[], g, .nil _⟩
  | cons hst _ ih =>
    obtain ⟨es, g', hrun⟩ := ih _
    exact ⟨_, g', .cons (.writes rfl hst) hrun⟩

/-- An operation of the engine, with nothing in between. -/
theorem run_operation {op : LogOp} {v : Io (Except Exception RecoveryResult)} {g : ℕ} {r : Option ℕ}
    (h : Exec (Faults.none 0).env (op.perform wal) fs wal' fs') :
    ∃ es g', live.Run ⟨fs, wal, none, v, g, r⟩ es ⟨fs', wal', none, v, g', r⟩ := by
  obtain ⟨es, g', hrun⟩ := run_writes wal v g r (steps_of_exec h)
  exact ⟨_, g', .cons (.begins op rfl) (hrun.append (.single (.ends rfl)))⟩

theorem exec_performReset (hfd : wal.fd = some p) (hfile : fs p = some b) :
    Exec (Faults.none 0).env (LogOp.reset.perform wal) fs wal.rewound (fs.put p walHeader) := by
  have hw : wp (Faults.none 0).env (LogOp.reset.perform wal)
      (fun wal' fs' => (wal', fs') = (wal.rewound, fs.put p walHeader)) (fun _ => True) fs := by
    rw [LogOp.perform, wp_bind]
    exact wp_reset hfd (Faults.none_readsOk 0 p) hfile trivial (fun _ _ => trivial) ⟨trivial, rfl⟩
      (fun hmay => absurd hmay Faults.none_mayFail)
      (fun hmay => absurd hmay.choose_spec Faults.none_mayFail)
      (fun hmay => absurd hmay Faults.none_mayFail)
  exact exec_of_run Faults.allows_posix (wp_run Faults.allows_posix hw)

theorem exec_performAppend {r : LogRecord} (hfd : wal.fd = some p) (hfile : fs p = some b)
    (hfit : r.Fits) (hepoch : r.epoch = wal.epoch) :
    Exec (Faults.none 0).env ((LogOp.append r.type r.key r.value r.timestamp).perform wal) fs
      (wal.pushed r).synced (fs.put p (b ++ r.encode wal.headHash wal.seq)) := by
  have hw : wp (Faults.none 0).env ((LogOp.append r.type r.key r.value r.timestamp).perform wal)
      (fun wal' fs' => (wal', fs') =
        ((wal.pushed r).synced, fs.put p (b ++ r.encode wal.headHash wal.seq)))
      (fun _ => True) fs := by
    rw [LogOp.perform, wp_bind]
    exact wp_append hfd hfile hfit hepoch (fun _ _ => trivial) ⟨trivial, rfl⟩
      (fun hmay => absurd hmay.choose_spec Faults.none_mayFail)
      (fun hmay => absurd hmay Faults.none_mayFail)
  exact exec_of_run Faults.allows_posix (wp_run Faults.allows_posix hw)

/-- One turn of the loop, up to the next entry. -/
theorem steps_walkLoop {σ : Type} (visitor : Option (Visitor σ)) (m : Option UInt64) {pos : ℕ}
    (st : WalkState σ) {r : LogRecord} {computed : Sha256Digest} (hfile : fs p = some b)
    (hlt : pos < b.length)
    (hentry : readEntry st.prevHash st.expectedSeq (b.drop pos) = .entry r computed) :
    Steps (Faults.none 0).env (walkLoop p b.length visitor m pos st) fs
      (walkLoop p b.length visitor m (pos + r.size)
        ⟨computed, st.expectedSeq + 1, visit visitor m r st.visited⟩) fs := by
  have hw : wp (Faults.none 0).env (walkEntry p b.length pos st.prevHash st.expectedSeq)
      (fun outcome fs' => (outcome, fs') = (.entry r computed, fs)) (fun _ => True) fs :=
    wp_walkEntry (fun _ _ => Faults.none_mayFail) hfile hlt.le trivial (by rw [hentry])
  have hx := exec_of_run (E := (Faults.none 0).env) Faults.allows_posix
    (wp_run Faults.allows_posix hw)
  conv => arg 2; rw [walkLoop, if_pos hlt]
  exact (steps_bind_of_exec hx _).trans (.cons (.call (Faults.step_ok rfl)) (.nil _ _))

/-- `walkChain` up to its loop. -/
theorem steps_walkChain {σ : Type} (visitor : Option (Visitor σ)) (m : Option UInt64)
    (allowTruncate : Bool) (state : σ) (hfile : fs p = some b) :
    ∃ report : LoopExit σ → Io (RecoveryResult × σ),
      Steps (Faults.none 0).env (walkChain (some p) visitor m allowTruncate state) fs
        (walkLoop p b.length visitor m kHeaderSize ⟨.zero, 0, state⟩ >>= report) fs ∧
      ∀ status pos st, report (.failed status pos st) =
        ret (⟨status, st.expectedSeq, UInt64.ofNat pos, st.expectedSeq, st.prevHash⟩,
          st.visited) := by
  rw [walkChain, ← FileSystem.bytes_of_some hfile]
  exact ⟨_, .cons (.call (Faults.step_ok rfl)) (.cons (.call (Faults.step_ok rfl)) (.nil _ _)),
    fun _ _ _ => rfl⟩

/-- The loop at an entry that is refused. -/
theorem exec_walkLoopRefused {σ : Type} (visitor : Option (Visitor σ)) (m : Option UInt64)
    {pos : ℕ} (st : WalkState σ) {status : RecoveryStatus} (hfile : fs p = some b)
    (hpos : pos ≤ b.length)
    (hrefused : readEntry st.prevHash st.expectedSeq (b.drop pos) = .failed status) :
    ∃ pos' st', Exec (Faults.none 0).env (walkLoop p b.length visitor m pos st) fs
      (.failed status pos' st') fs := by
  have hw : wp (Faults.none 0).env (walkLoop p b.length visitor m pos st) (fun exit fs' =>
      (exit, fs') = (.failed status (b.length - (b.drop pos).length)
        ⟨st.prevHash, st.expectedSeq, st.visited⟩, fs)) (fun _ => True) fs := by
    refine wp_walkLoop (Faults.none_readsOk 0 p) hfile hpos trivial ?_
    rw [walk_failed hrefused]
    rfl
  exact ⟨_, _, exec_of_run Faults.allows_posix (wp_run Faults.allows_posix hw)⟩

/-- The verifier stops between its first two entries.  When it goes on, it takes what it finds there
for the second one. -/
theorem steps_litespeedVerify {r : LogRecord} {computed : Sha256Digest} (hfile : fs p = some b)
    (hvalid : ValidHeader b) (hlt : kHeaderSize < b.length)
    (hentry : readEntry .zero 0 (b.drop kHeaderSize) = .entry r computed) :
    ∃ v, Steps (Faults.none 0).env (litespeedVerify p) fs v fs ∧
      ∀ fs' b' status, fs' p = some b' → b'.length = b.length → kHeaderSize + r.size < b.length →
        readEntry computed 1 (b'.drop (kHeaderSize + r.size)) = .failed status →
        ∃ result fs'', Steps (Faults.none 0).env v fs' (ret (.ok result)) fs'' ∧
          result.status = status := by
  have hb := FileSystem.bytes_of_some hfile
  have hconstruct : Exec (Faults.none 0).env (construct p 1) fs (.ok (.fresh p 1)) fs := by
    have hw : wp (Faults.none 0).env (construct p 1) _ _ fs := wp_constructNone (m := 0)
    rcases wp_run Faults.allows_posix hw with ⟨e, -, -, -, hbad⟩ | ⟨hok, ⟨hempty, -⟩ | ⟨-, hfs⟩⟩
    · exact absurd (hb ▸ hvalid) hbad
    · exact absurd (hb ▸ hempty) hvalid.ne_nil
    · exact exec_of_run Faults.allows_posix (Prod.ext hok hfs)
  obtain ⟨report, hwalk, hreport⟩ := steps_walkChain none none false () hfile
  have hturn := (steps_walkLoop none none ⟨.zero, 0, ()⟩ hfile hlt hentry).bind report
  let conclude : RecoveryResult → Io (Except Exception RecoveryResult) := fun result => do
    let _ ← (WAL.fresh p 1).close
    ret (.ok result)
  refine ⟨_, (steps_bind_of_exec hconstruct _).trans
    (((hwalk.trans hturn).bind fun result => ret result.1).bind conclude), ?_⟩
  intro fs' b' status hfile' hlength hpos hrefused
  obtain ⟨pos', st', hloop⟩ :=
    exec_walkLoopRefused none none ⟨computed, 1, ()⟩ hfile' (by omega) hrefused
  have hclose : ∀ result, run posix (conclude result) fs' = (.ok result, fs') := fun _ => rfl
  rw [hlength] at hloop
  have hfailed := ((steps_bind_of_exec hloop report).bind fun result => ret result.1).bind conclude
  rw [hreport] at hfailed
  exact ⟨_, _, hfailed.trans (steps_of_exec (exec_of_run Faults.allows_posix (hclose _))), rfl⟩

/-- The object that has written a log. -/
def WAL.behind (p : Path) (rs : List LogRecord) : WAL :=
  { path := p, fd := some p, seq := UInt64.ofNat rs.length, headHash := chainHead .zero 0 rs }

theorem atEnd_logOf (p : Path) (fs : FileSystem) {rs : List LogRecord} (hfits : ∀ r ∈ rs, r.Fits) :
    AtEnd p (.behind p rs) (fs.put p (logOf rs)) := by
  have hwalk := walkFile_logOf_append hfits []
  rw [List.append_nil, walk_nil] at hwalk
  refine ⟨rfl, _, FileSystem.put_self .., ?_, ?_, ?_, ?_⟩
  · rw [length_logOf hfits]
    exact Nat.le_add_right ..
  · rw [hwalk]
  · rw [hwalk]
    rfl
  · rw [hwalk]
    rfl

end Runs

/-- A record that is written twice, and one that takes as much room as both. -/
def shortRecord : LogRecord := ⟨.put, [107], [], 0, 0⟩
def longRecord : LogRecord := ⟨.put, [107], List.replicate 70 255, 0, 0⟩

/-- At the offset of the second entry of the one log, the other has the middle of a value. -/
theorem readEntry_covered (prev : Sha256Digest) (seq : UInt64) :
    readEntry prev seq ((walHeader ++ longRecord.encode .zero 0).drop
      (kHeaderSize + shortRecord.size)) = .failed .malformed := by
  have hsplit : walHeader ++ longRecord.encode .zero 0 =
      (walHeader ++ putLE32 [] (CRC32.calculate (longRecord.body .zero 0)) ++ longRecord.fixed 0 ++
        longRecord.key ++ List.replicate 32 255) ++
      (List.replicate 38 255 ++ (longRecord.hash .zero 0).toList) := by
    have hvalue : longRecord.value = List.replicate 32 255 ++ List.replicate 38 255 := rfl
    simp only [LogRecord.encode, LogRecord.body, hvalue, List.append_assoc]
  have hlength : (walHeader ++ putLE32 [] (CRC32.calculate (longRecord.body .zero 0)) ++
      longRecord.fixed 0 ++ longRecord.key ++ List.replicate 32 255).length =
      kHeaderSize + shortRecord.size := by
    simp only [List.length_append, length_walHeader, length_putLE32, LogRecord.length_fixed]
    rfl
  rw [hsplit, List.drop_left' hlength, readEntry,
    if_neg (by rw [List.length_append, List.length_replicate]; decide)]
  have hfixed : ((List.replicate 38 255 ++ (longRecord.hash .zero 0).toList).drop crcSize).take
      entryFixedSize = List.replicate 33 255 := rfl
  rw [hfixed]
  exact if_pos (.inl (by decide))

/-- **Verification while live.**  While the verifier writes nothing and reads the entries from one
generation of the log, it does not report tampering or a malformed file. -/
theorem live_verify_intact {p : Path} {fs : FileSystem} {wal : WAL} {s : Live}
    {es : List LiveEvent} {result : Except Exception RecoveryResult} (h : AtEnd p wal fs)
    (hrun : (live.restrict OneGeneration).Run ⟨fs, wal, none, litespeedVerify p, 0, none⟩ es s)
    (hdone : s.verifying = ret result) : Intact result := by
  have hsound : s.Sound p := hrun.invariant (Live.sound_start h) fun _ _ _ hs hst => hs.step hst
  obtain ⟨b, hview⟩ := hsound.view
  have hintact := hview.intact b hview.unbroken ⟨[], List.append_nil b⟩
  rw [hdone] at hintact
  exact hintact.2

/-- The engine has begun an append when the verifier runs. -/
theorem live_verify_intact_begun : ∃ (fs : FileSystem) (wal : WAL) (es : List LiveEvent) (s : Live)
    (r : RecoveryResult), AtEnd "a" wal fs ∧
    (live.restrict OneGeneration).Run ⟨fs, wal, none, litespeedVerify "a", 0, none⟩ es s ∧
    s.verifying = ret (.ok r) ∧ r.status ≠ .tampered ∧ r.status ≠ .malformed := by
  have hfits : ∀ r ∈ [shortRecord, shortRecord], r.Fits := by decide
  have hstart := atEnd_logOf "a" (fun _ => none) hfits
  have hfile := FileSystem.put_self (fun _ => none) "a" (logOf [shortRecord, shortRecord])
  obtain ⟨r, hx⟩ := exec_litespeedVerify hfile (by rw [logOf_eq hfits]; exact validHeader_append _)
  obtain ⟨es, readIn, hrun⟩ := run_undisturbed (.behind "a" [shortRecord, shortRecord])
    (some ((LogOp.append .put [107] [] 0).perform (.behind "a" [shortRecord, shortRecord]))) 0 none
    (steps_of_exec hx) only_litespeedVerify le_rfl (by rintro g ⟨⟩)
  have hbegun := hrun.begun (.append .put [107] [] 0)
  exact ⟨_, _, _, _, r, hstart, hbegun, rfl, live_verify_intact hstart hbegun rfl r rfl⟩

/-- **A verification that calls a good log malformed.**  The log holds two entries.  The verifier has
read the first when the engine resets the log and appends an entry with a long value; it takes the
middle of that value for the second entry. -/
theorem live_verify_malformed : ∃ (fs : FileSystem) (wal : WAL) (es : List LiveEvent) (s : Live)
    (r : RecoveryResult), AtEnd "a" wal fs ∧
    live.Run ⟨fs, wal, none, litespeedVerify "a", 0, none⟩ es s ∧
    s.verifying = ret (.ok r) ∧ r.status = .malformed := by
  have hfits : ∀ r ∈ [shortRecord, shortRecord], r.Fits := by decide
  have hlog := logOf_eq hfits
  have hlength := length_logOf hfits
  have hstart := atEnd_logOf "a" (fun _ => none) hfits
  set fs := FileSystem.put (fun _ => none) "a" (logOf [shortRecord, shortRecord])
  have hfile : fs "a" = some (logOf [shortRecord, shortRecord]) := FileSystem.put_self ..
  -- the verifier reads the first entry
  obtain ⟨v, hfirst, hrest⟩ := steps_litespeedVerify hfile (by rw [hlog]; exact validHeader_append _)
    (by rw [hlength]; decide)
    (by rw [drop_logOf hfits, encodeLog]; exact readEntry_encode (hfits _ List.mem_cons_self) _)
  -- the engine writes the log anew
  have hreset := exec_performReset hstart.1 hfile
  have hrewound : (WAL.behind "a" [shortRecord, shortRecord]).rewound.fd = some "a" := rfl
  have happend := exec_performAppend (r := longRecord) hrewound
    (FileSystem.put_self fs "a" walHeader) (by decide) rfl
  -- the verifier goes on
  obtain ⟨r, fs', hsecond, hstatus⟩ := hrest _ _ .malformed (FileSystem.put_self ..)
    (by rw [hlength, List.length_append, LogRecord.length_encode]; rfl) (by rw [hlength]; decide)
    (readEntry_covered _ 1)
  obtain ⟨_, _, hrun₁⟩ := run_verifies (hfirst.mono fun _ _ _ _ => none_allows)
  obtain ⟨_, _, hrun₂⟩ := run_operation hreset
  obtain ⟨_, _, hrun₃⟩ := run_operation happend
  obtain ⟨_, _, hrun₄⟩ := run_verifies (hsecond.mono fun _ _ _ _ => none_allows)
  exact ⟨_, _, _, _, r, hstart, hrun₁.append (hrun₂.append (hrun₃.append hrun₄)), rfl, hstatus⟩

end LiteSpeedStore
