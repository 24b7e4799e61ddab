import LiteSpeedStore.Theory.Monitor
import LiteSpeedStore.Wal.Session

/-!
# A log that threads share

Every public method of `WAL` takes its mutex, and `append` checks the sizes before that.  To its
users a log is a `Ledger`: a list of records that is appended to, reset, verified and closed, with
the chain head of these records as its checkpoint.

* `WAL.method` : the public methods as methods of a shared object.
* `wp_request` : alone, a method does what the ledger does.
* `log_linearizable` : concurrent calls are calls on a ledger, also when the process dies in them.
* `checkpoint_prefix` : a checkpoint stays the chain head of a prefix until the log is reset.
-/

namespace LiteSpeedStore

open Prog WAL
open Monitor (Method Act Client Config threads guarded atomic)

/-- A call on a log. -/
inductive LogRequest where
  | append (type : RecordType) (key value : Bytes) (timestamp : Int64)
  | epoch
  | setEpoch (epoch : UInt64)
  | head
  | reset
  | verify
  | recover (minEpochExclusive : Option UInt64)
  | close

/-- What a call returns; `recover` shows the records to its visitor. -/
inductive LogAnswer where
  | done
  | epoch (epoch : UInt64)
  | checkpoint (checkpoint : Checkpoint)
  | reset (done : Bool)
  | verified (result : RecoveryResult)
  | recovered (result : RecoveryResult) (shown : List (RecordType × Bytes × Bytes × Int64))

namespace WAL

/-- The program of a call. -/
def request (wal : WAL) : LogRequest → Io (Except Exception LogAnswer × WAL)
  | .append type key value timestamp => do
    let (result, wal) ← wal.append type key value timestamp
    ret (result.map fun _ => .done, wal)
  | .epoch => ret (.ok (.epoch wal.epoch), wal)
  | .setEpoch epoch => ret (.ok .done, wal.setEpoch epoch)
  | .head => ret (.ok (.checkpoint wal.head), wal)
  | .reset => do
    let (done, wal) ← wal.reset
    ret (.ok (.reset done), wal)
  | .verify => do
    let result ← wal.verify
    ret (.ok (.verified result), wal)
  | .recover minEpochExclusive => do
    let (result, wal, shown) ← wal.recover lister minEpochExclusive []
    ret (.ok (.recovered result shown), wal)
  | .close => do
    let wal ← wal.close
    ret (.ok .done, wal)

/-- The public methods, with their lock. -/
def method (request : LogRequest) : Method Res WAL Unit (Except Exception LogAnswer) :=
  match request with
  | .append _ key value _ =>
    if key.length > kMaxFieldSize.toNat ∨ value.length > kMaxFieldSize.toNat then
      .refuse (.error (.lengthError ("WAL field exceeds " ++ toString kMaxFieldSize ++ " bytes")))
    else .work fun _ wal => wal.request request
  | _ => .work fun _ wal => wal.request request

end WAL

/-! ### The log as its users see it -/

/-- The chain head of a log with these records. -/
def anchor (rs : List LogRecord) : Checkpoint := ⟨UInt64.ofNat rs.length, chainHead .zero 0 rs⟩

/-- A log. -/
structure Ledger where
  records : List LogRecord := []
  epoch : UInt64 := 0
  /-- What `head` answers once the log is closed. -/
  closed : Option Checkpoint := none

namespace Ledger

/-- The chain head. -/
def head (ledger : Ledger) : Checkpoint := ledger.closed.getD (anchor ledger.records)

/-- What a walk along the chain reports. -/
def result (ledger : Ledger) : RecoveryResult :=
  if ledger.closed.isSome then {}
  else { entriesVerified := (anchor ledger.records).seq, headHash := (anchor ledger.records).head }

/-- What a call answers, and the ledger after it.  A log that is closed takes no records, is not
reset, has nothing to walk along, and its `recover` forgets the chain head. -/
def step (ledger : Ledger) : LogRequest → Except Exception LogAnswer × Ledger
  | .append type key value timestamp =>
    if key.length > kMaxFieldSize.toNat ∨ value.length > kMaxFieldSize.toNat then
      (.error (.lengthError ("WAL field exceeds " ++ toString kMaxFieldSize ++ " bytes")), ledger)
    else if ledger.closed.isSome then (.ok .done, ledger)
    else (.ok .done, { ledger with
      records := ledger.records ++ [⟨type, key, value, timestamp, ledger.epoch⟩] })
  | .epoch => (.ok (.epoch ledger.epoch), ledger)
  | .setEpoch epoch => (.ok .done, { ledger with epoch })
  | .head => (.ok (.checkpoint ledger.head), ledger)
  | .reset =>
    if ledger.closed.isSome then (.ok (.reset false), ledger)
    else (.ok (.reset true), { ledger with records := [] })
  | .verify => (.ok (.verified ledger.result), ledger)
  | .recover minEpochExclusive =>
    if ledger.closed.isSome then
      (.ok (.recovered {} []), { ledger with closed := some ⟨0, .zero⟩ })
    else (.ok (.recovered ledger.result
      ((ledger.records.filter (epochAbove minEpochExclusive)).map LogRecord.shown)), ledger)
  | .close => (.ok .done, { ledger with closed := some ledger.head })

/-- The calls on a ledger. -/
def Does (request : LogRequest) (ledger : Ledger) (answer : Except Exception LogAnswer)
    (ledger' : Ledger) : Prop := ledger.step request = (answer, ledger')

/-- The object and its file are those of the ledger. -/
structure Stands (p : Path) (wal : WAL) (fs : FileSystem) (ledger : Ledger) : Prop where
  fits : ∀ r ∈ ledger.records, r.Fits
  file : fs p = some (logOf ledger.records)
  epoch : wal.epoch = ledger.epoch
  head : wal.head = ledger.head
  fd : wal.fd = if ledger.closed.isSome then none else some p

/-- The file is the log of these records, with nothing but a torn entry behind them, or its header
has yet to be written. -/
structure Left (p : Path) (fs : FileSystem) (rs : List LogRecord) : Prop where
  fits : ∀ r ∈ rs, r.Fits
  file : (fs p = some [] ∧ rs = []) ∨ ∃ tail, fs p = some (logOf rs ++ tail) ∧ TornTail rs tail

end Ledger

section Rules

variable {p : Path} {fs : FileSystem} {wal : WAL} {ledger : Ledger} {rs : List LogRecord}

theorem left_logOf (hfits : ∀ r ∈ rs, r.Fits) (hfile : fs p = some (logOf rs)) :
    Ledger.Left p fs rs :=
  ⟨hfits, .inr ⟨[], by rw [List.append_nil, hfile], tornTail_nil rs⟩⟩

theorem Ledger.Stands.left (h : ledger.Stands p wal fs) : Ledger.Left p fs ledger.records :=
  left_logOf h.fits h.file

/-- What a new object walks along. -/
theorem Ledger.Left.records (h : Ledger.Left p fs rs) : (walkFile (fs.bytes p)).records = rs := by
  rcases h.file with ⟨hfile, rfl⟩ | ⟨tail, hfile, htorn⟩
  · rw [FileSystem.bytes_of_some hfile, walkFile_nil]
  · rw [FileSystem.bytes_of_some hfile, walkFile_tornTail h.fits htorn]

/-- A part of the next entry is a torn entry, or all of it. -/
theorem left_cut {r : LogRecord} {F : Faults} {k : ℕ} (hfits : ∀ r ∈ rs, r.Fits) (hfit : r.Fits)
    (hk : F.Cut r.size k) :
    Ledger.Left p (fs.put p (logOf rs ++
        (r.encode (chainHead .zero 0 rs) (UInt64.ofNat rs.length)).take k)) rs ∨
      Ledger.Left p (fs.put p (logOf rs ++
        (r.encode (chainHead .zero 0 rs) (UInt64.ofNat rs.length)).take k)) (rs ++ [r]) := by
  rcases hk.le.lt_or_eq with hlt | rfl
  · exact .inl ⟨hfits, .inr ⟨_, FileSystem.put_self .., tornTail_take hfit hlt⟩⟩
  · refine .inr (left_logOf (fits_append hfits (List.forall_mem_singleton.2 hfit)) ?_)
    rw [FileSystem.put_self, logOf_concat hfits hfit,
      List.take_of_length_le (LogRecord.length_encode ..).le]

/-- A walk along the log of the ledger. -/
theorem walk_ledger (h : ∀ r ∈ rs, r.Fits) :
    (walkFile (logOf rs)).result (logOf rs).length =
        { entriesVerified := (anchor rs).seq, headHash := (anchor rs).head } ∧
      (walkFile (logOf rs)).left (logOf rs) = logOf rs ∧ (walkFile (logOf rs)).records = rs := by
  have hwalk : walkFile (logOf rs) = ⟨rs, chainHead .zero 0 rs, UInt64.ofNat rs.length, [],
    .clean⟩ := walkFile_chain h rfl
  rw [hwalk]
  exact ⟨rfl, rfl, rfl⟩

/-- A call on an object that is closed makes no system calls. -/
theorem request_closed {checkpoint : Checkpoint} (h : ledger.Stands p wal fs)
    (hclosed : ledger.closed = some checkpoint) (request : LogRequest) :
    ∃ wal', wal.request request = ret ((ledger.step request).1, wal') ∧
      (ledger.step request).2.Stands p wal' fs ∧
      (ledger.step request).2.records = ledger.records := by
  obtain ⟨hfits, hfile, hepoch, hhead, hfd⟩ := id h
  rw [hclosed, Option.isSome_some, if_pos rfl] at hfd
  cases request with
  | append type key value timestamp =>
    rw [WAL.request, WAL.append, hfd, Ledger.step, hclosed]
    split_ifs with hover
    · exact ⟨wal, rfl, h, rfl⟩
    · exact ⟨wal, rfl, h, rfl⟩
    · exact absurd rfl ‹_›
  | epoch => exact ⟨wal, by rw [WAL.request, hepoch]; rfl, h, rfl⟩
  | setEpoch epoch =>
    refine ⟨wal.setEpoch epoch, rfl, ⟨hfits, hfile, rfl, hhead, ?_⟩, rfl⟩
    rw [Ledger.step, hclosed, ← hfd]
    rfl
  | head => exact ⟨wal, by rw [WAL.request, hhead]; rfl, h, rfl⟩
  | reset =>
    rw [WAL.request, WAL.reset, hfd, Ledger.step, hclosed]
    exact ⟨wal, rfl, h, rfl⟩
  | verify =>
    rw [WAL.request, WAL.verify, hfd, Ledger.step, Ledger.result, hclosed]
    exact ⟨wal, rfl, h, rfl⟩
  | recover minEpochExclusive =>
    rw [WAL.request, WAL.recover, hfd, Ledger.step, hclosed]
    exact ⟨_, rfl, ⟨hfits, hfile, hepoch, rfl, rfl⟩, rfl⟩
  | close =>
    rw [WAL.request, WAL.close, hfd, Ledger.step]
    refine ⟨wal, rfl, ⟨hfits, hfile, hepoch, hhead, hfd⟩, rfl⟩

/-- Alone, a call on the object does what the ledger does; a death in between leaves the file
before the call or after it. -/
def Ledger.Serves (ledger : Ledger) (p : Path) (wal : WAL) (fs : FileSystem)
    (request : LogRequest) : Prop :=
  wp (Faults.none kHeaderSize).env (wal.request request)
    (fun result fs' => result.1 = (ledger.step request).1 ∧
      (ledger.step request).2.Stands p result.2 fs')
    (fun fs' => Ledger.Left p fs' ledger.records ∨
      Ledger.Left p fs' (ledger.step request).2.records) fs

/-- The chain state of an object that is open. -/
theorem Ledger.Stands.opened (h : ledger.Stands p wal fs) (hclosed : ledger.closed = none) :
    wal.fd = some p ∧ wal.seq = UInt64.ofNat ledger.records.length ∧
      wal.headHash = chainHead .zero 0 ledger.records := by
  have hfd := h.fd
  have hhead := h.head
  rw [hclosed, Option.isSome_none, if_neg Bool.false_ne_true] at hfd
  rw [Ledger.head, hclosed, Option.getD_none] at hhead
  exact ⟨hfd, Checkpoint.mk.inj hhead⟩

theorem serves_append (h : ledger.Stands p wal fs) (hclosed : ledger.closed = none)
    (type : RecordType) (key value : Bytes) (timestamp : Int64) :
    ledger.Serves p wal fs (.append type key value timestamp) := by
  obtain ⟨hfd, hseq, hhash⟩ := h.opened hclosed
  by_cases hfit : (⟨type, key, value, timestamp, wal.epoch⟩ : LogRecord).Fits
  · have hover : ¬(key.length > kMaxFieldSize.toNat ∨ value.length > kMaxFieldSize.toNat) := by
      rw [not_or, not_lt, not_lt]
      exact hfit
    have hstep : ledger.step (.append type key value timestamp) = (.ok .done, { ledger with
        records := ledger.records ++ [⟨type, key, value, timestamp, wal.epoch⟩] }) := by
      rw [Ledger.step, if_neg hover, hclosed, h.epoch]
      rfl
    have hfits' := fits_append h.fits (List.forall_mem_singleton.2 hfit)
    have hfile' := logOf_concat h.fits hfit
    rw [Ledger.Serves, hstep, WAL.request, wp_bind]
    refine wp_append (r := ⟨type, key, value, timestamp, wal.epoch⟩) hfd h.file hfit rfl
      (fun k hk => ?_) ?_ (fun hmay => absurd hmay.choose_spec Faults.none_mayFail)
      (fun hmay => absurd hmay Faults.none_mayFail)
    · rw [hhash, hseq]
      exact left_cut h.fits hfit hk
    · rw [hhash, hseq, ← hfile']
      refine ⟨.inr (left_logOf hfits' (FileSystem.put_self ..)), rfl, hfits',
        FileSystem.put_self .., ?_, ?_, ?_⟩
      · rw [synced_epoch, pushed_epoch, h.epoch]
      · rw [Ledger.head, hclosed]
        exact congrArg₂ Checkpoint.mk (synced_pushed_seq _ _ hseq)
          (synced_pushed_headHash _ _ hseq hhash)
      · rw [synced_fd, pushed_fd, hfd, hclosed]
        rfl
  · have hover : key.length > kMaxFieldSize.toNat ∨ value.length > kMaxFieldSize.toNat := by
      rwa [LogRecord.Fits, not_and_or, not_le, not_le] at hfit
    rw [Ledger.Serves, WAL.request, WAL.append, if_pos hover, Ledger.step, if_pos hover]
    exact ⟨.inl h.left, rfl, h⟩

theorem serves_reset (h : ledger.Stands p wal fs) (hclosed : ledger.closed = none) :
    ledger.Serves p wal fs .reset := by
  have hfd := (h.opened hclosed).1
  have hstep : ledger.step .reset = (.ok (.reset true), { ledger with records := [] }) := by
    rw [Ledger.step, hclosed]
    rfl
  have hstands : Ledger.Stands p wal.rewound (fs.put p walHeader)
      { ledger with records := [] } := by
    refine ⟨by simp, by rw [FileSystem.put_self, logOf_nil], h.epoch, ?_, ?_⟩
    · rw [Ledger.head, hclosed]
      rfl
    · rw [hclosed]
      exact hfd
  rw [Ledger.Serves, hstep, WAL.request, wp_bind]
  refine wp_reset hfd (Faults.none_readsOk _ p) h.file (.inl h.left) (fun k hk => ?_)
    ⟨.inr hstands.left, rfl, hstands⟩
    (fun hmay => absurd hmay Faults.none_mayFail)
    (fun hmay => absurd hmay.choose_spec Faults.none_mayFail)
    (fun hmay => absurd hmay Faults.none_mayFail)
  -- the header is written in one piece
  rcases hk with rfl | rfl | ⟨hlt, -⟩
  · exact .inr ⟨hstands.fits, .inl ⟨FileSystem.put_self .., rfl⟩⟩
  · rw [List.take_of_length_le length_walHeader.le]
    exact .inr hstands.left
  · exact absurd hlt (lt_irrefl _)

theorem serves_verify (h : ledger.Stands p wal fs) (hclosed : ledger.closed = none) :
    ledger.Serves p wal fs .verify := by
  have hstep : ledger.step .verify = (.ok (.verified ((walkFile (logOf ledger.records)).result
      (logOf ledger.records).length)), ledger) := by
    rw [Ledger.step, Ledger.result, hclosed, (walk_ledger h.fits).1]
    rfl
  rw [Ledger.Serves, hstep, WAL.request, wp_bind]
  exact wp_verify (h.opened hclosed).1 (Faults.none_readsOk _ p) (fun _ => Faults.none_mayFail)
    h.file (.inl h.left) ⟨.inl h.left, rfl, h⟩

theorem serves_recover (h : ledger.Stands p wal fs) (hclosed : ledger.closed = none)
    (minEpochExclusive : Option UInt64) :
    ledger.Serves p wal fs (.recover minEpochExclusive) := by
  obtain ⟨hfd, hseq, hhash⟩ := h.opened hclosed
  obtain ⟨hresult, hcut, hrecords⟩ := walk_ledger h.fits
  have hvisited : (walkFile (logOf ledger.records)).visited (some lister) minEpochExclusive [] =
      (ledger.records.filter (epochAbove minEpochExclusive)).map LogRecord.shown := by
    rw [visited_eq, visitEach_lister, hrecords, List.nil_append]
  have hstep : ledger.step (.recover minEpochExclusive) = (.ok (.recovered
      ((walkFile (logOf ledger.records)).result (logOf ledger.records).length)
      ((walkFile (logOf ledger.records)).visited (some lister) minEpochExclusive [])),
      ledger) := by
    rw [Ledger.step, Ledger.result, hclosed, hresult, hvisited]
    rfl
  have hfs : fs.put p ((walkFile (logOf ledger.records)).left (logOf ledger.records)) = fs := by
    rw [hcut, FileSystem.put_eq_self h.file]
  have hadopt : wal.adopt (walkFile (logOf ledger.records)) = wal := by
    have hadopt := adopt_tornTail h.fits (tornTail_nil ledger.records) wal
    rw [List.append_nil, ← hseq, ← hhash] at hadopt
    exact hadopt
  rw [Ledger.Serves, hstep, WAL.request, wp_bind]
  refine wp_recover hfd (Faults.none_readsOk _ p) (fun _ => Faults.none_mayFail) h.file
    (.inl h.left) ?_ ?_
  · rw [hfs]
    exact .inl h.left
  · rw [hfs, hadopt]
    exact ⟨.inl h.left, rfl, h⟩

theorem serves_close (h : ledger.Stands p wal fs) (hclosed : ledger.closed = none) :
    ledger.Serves p wal fs .close := by
  have hstands : ∀ n : ℕ, Ledger.Stands p { wal with fd := none, pendingWrites := n } fs
      { ledger with closed := some ledger.head } :=
    fun _ => ⟨h.fits, h.file, h.epoch, h.head, rfl⟩
  have hend : ∀ n : ℕ, wp (Faults.none kHeaderSize).env
      (sys (.close p) >>= fun _ => ret { wal with fd := none, pendingWrites := n })
      (fun wal' fs' => fs' = fs ∧ Ledger.Stands p wal' fs { ledger with
        closed := some ledger.head }) (fun fs' => fs' = fs) fs := fun n =>
    wp_sys_ok Faults.none_mayFail rfl rfl ⟨rfl, rfl, hstands n⟩
  have hclose : wp (Faults.none kHeaderSize).env wal.close (fun wal' fs' => fs' = fs ∧
      Ledger.Stands p wal' fs { ledger with closed := some ledger.head })
      (fun fs' => fs' = fs) fs := by
    rw [WAL.close, (h.opened hclosed).1]
    dsimp only
    split_ifs with hpending
    · exact wp_sys_ok Faults.none_mayFail rfl rfl (hend 0)
    · exact hend wal.pendingWrites
  rw [Ledger.Serves, WAL.request, wp_bind]
  refine wp_mono hclose ?_ ?_
  · rintro wal' fs' ⟨rfl, hstands'⟩
    exact ⟨.inl h.left, rfl, hstands'⟩
  · rintro fs' rfl
    exact .inl h.left

/-- **Alone, a call on an object does what the ledger does**. -/
theorem serves_request (h : ledger.Stands p wal fs) (request : LogRequest) :
    ledger.Serves p wal fs request := by
  cases hclosed : ledger.closed with
  | some checkpoint =>
    obtain ⟨wal', hret, hstands, -⟩ := request_closed h hclosed request
    rw [Ledger.Serves, hret]
    exact ⟨.inl h.left, rfl, hstands⟩
  | none =>
    cases request with
    | append type key value timestamp => exact serves_append h hclosed type key value timestamp
    | epoch => exact ⟨.inl h.left, by rw [h.epoch]; rfl, h⟩
    | setEpoch epoch => exact ⟨.inl h.left, rfl, h.fits, h.file, rfl, h.head, h.fd⟩
    | head => exact ⟨.inl h.left, by rw [h.head]; rfl, h⟩
    | reset => exact serves_reset h hclosed
    | verify => exact serves_verify h hclosed
    | recover minEpochExclusive => exact serves_recover h hclosed minEpochExclusive
    | close => exact serves_close h hclosed

end Rules

/-- A new log. -/
theorem stands_new (p : Path) (n : ℕ) (fs : FileSystem) :
    Ledger.Stands p (.fresh p n) (fs.put p walHeader) {} where
  fits := by simp
  file := by rw [FileSystem.put_self, logOf_nil]
  epoch := rfl
  head := rfl
  fd := rfl

/-! ### Threads -/

section Threads

variable {Tid : Type} [DecidableEq Tid] {p : Path} {fs : FileSystem} {wal : WAL} {ledger : Ledger}
  {ls : List (Option (Act Tid LogRequest (Except Exception LogAnswer)))}
  {c : Config Res WAL LogRequest (Except Exception LogAnswer) Tid FileSystem}

/-- Threads, and the file, are where a ledger and its clients are: at rest the object and the file
are those of the ledger, and in the middle of a call the file is left as before it or after it. -/
structure Ledger.Follows (p : Path)
    (c : Config Res WAL LogRequest (Except Exception LogAnswer) Tid FileSystem) (ledger : Ledger)
    (client : Tid → Client LogRequest (Except Exception LogAnswer)) : Prop where
  clients : ∀ t, (c.thread t).client = client t
  quiet : (∀ t, ¬(c.thread t).AtWork) → ledger.Stands p c.members c.state
  left : Ledger.Left p c.state ledger.records ∨ ∃ t request, client t = .called request ∧
    Ledger.Left p c.state (ledger.step request).2.records

/-- The public methods, but for `append` on what is too long, make the call inside the lock. -/
theorem logMethod_cases (request : LogRequest) :
    WAL.method request = .work (fun _ wal => wal.request request) ∨ ∃ e,
      WAL.method request = .refuse (.error e) ∧
        ∀ ledger : Ledger, ledger.step request = (.error e, ledger) := by
  cases request with
  | append type key value timestamp =>
    rw [WAL.method]
    split_ifs with hover
    · exact .inr ⟨_, rfl, fun ledger => by rw [Ledger.step, if_pos hover]⟩
    · exact .inl rfl
  | _ => exact .inl rfl

/-- A call that runs alone on the object of a ledger is one of the ledger. -/
theorem does_of_alone {request : LogRequest} {s s' : WAL × FileSystem}
    {answer : Except Exception LogAnswer} (h : ledger.Stands p s.1 s.2)
    (halone : Monitor.Alone (Faults.none kHeaderSize).env WAL.method (fun _ _ => True) request s
      answer s') : ∃ ledger', ledger.Does request answer ledger' ∧ ledger'.Stands p s'.1 s'.2 := by
  obtain ⟨-, hdoes⟩ := halone
  rcases logMethod_cases request with hmethod | ⟨e, hmethod, hstep⟩
  · rw [hmethod, Method.does_work] at hdoes
    obtain ⟨-, hx⟩ := hdoes
    obtain ⟨hanswer, hstands⟩ := wp_exec (serves_request h request) hx
    exact ⟨_, Prod.ext hanswer.symm rfl, hstands⟩
  · rw [hmethod, Method.does_refuse] at hdoes
    obtain ⟨rfl, rfl⟩ := hdoes
    exact ⟨ledger, hstep ledger, h⟩

/-- Whatever the schedule, the threads follow a ledger. -/
theorem threads_follow (h : ledger.Stands p wal fs)
    (hrun : (threads (Faults.none kHeaderSize).env WAL.method).Run (.start wal fs) ls c) :
    ∃ ledger' client, (atomic Ledger.Does).Run (ledger, fun _ => .idle) ls.reduceOption
      (ledger', client) ∧ ledger'.Follows p c client := by
  have hguarded : (guarded (Faults.none kHeaderSize).env WAL.method fun _ _ => True).Run
    (.start wal fs) ls c := hrun.restrict fun _ _ _ _ _ => trivial
  obtain ⟨⟨s, client⟩, hatomic, hcoupled⟩ := Monitor.threads_atomic hguarded
  have hsim : Lts.Simulation
      (atomic (Monitor.Alone (Faults.none kHeaderSize).env WAL.method fun _ _ => True) : Lts
        (_ × (Tid → Client LogRequest (Except Exception LogAnswer))) _)
      (atomic Ledger.Does) fun a b => Ledger.Stands p a.1.1 a.1.2 b.1 ∧ a.2 = b.2 :=
    Monitor.atomic_simulation
      (R := fun (s : WAL × FileSystem) (ledger : Ledger) => ledger.Stands p s.1 s.2)
      fun hs halone => does_of_alone hs halone
  obtain ⟨⟨ledger', client'⟩, hrun', hstands, rfl⟩ :=
    hsim.run (a := (ledger, fun _ => .idle)) hatomic ⟨h, rfl⟩
  refine ⟨ledger', client, hrun', hcoupled.client, fun hquiet => ?_, ?_⟩
  · obtain ⟨hmembers, hstate⟩ := hcoupled.quiet hquiet
    rw [hmembers, hstate]
    exact hstands
  · by_cases hwork : ∃ t, (c.thread t).AtWork
    · obtain ⟨t, ht⟩ := hwork
      have hsound := hcoupled.sound t
      have hclient := hcoupled.client t
      cases hphase : c.thread t with
      | working request rest =>
        rw [hphase] at hsound hclient
        obtain ⟨body, input, hbody, -, hsteps⟩ := hsound
        rcases logMethod_cases request with hmethod | ⟨e, hmethod, -⟩
        · rw [hmethod] at hbody
          obtain rfl := Method.work.inj hbody
          exact (wp_crash (serves_request hstands request) hsteps.crash).imp_right fun hleft =>
            ⟨t, request, hclient.symm, hleft⟩
        · rw [hmethod] at hbody
          cases hbody
      | _ =>
        rw [hphase] at ht
        exact ht.elim
    · obtain ⟨-, hstate⟩ := hcoupled.quiet (not_exists.1 hwork)
      rw [hstate]
      exact .inl hstands.left

end Threads

/-! ### Checkpoints -/

/-- The chain head that an answer reports. -/
def LogAnswer.reported : LogAnswer → Option Checkpoint
  | .checkpoint current => some current
  | .verified result | .recovered result _ => some ⟨result.entriesVerified, result.headHash⟩
  | .done | .epoch _ | .reset _ => none

/-- The checkpoint is the chain head of some first records. -/
def Checkpoint.Of (checkpoint : Checkpoint) (rs : List LogRecord) : Prop :=
  ∃ first, first <+: rs ∧ checkpoint = anchor first

section Checkpoints

variable {Tid : Type} [DecidableEq Tid] {p : Path} {fs : FileSystem} {wal : WAL}
  {ledger ledger' : Ledger} {rs rs' : List LogRecord} {checkpoint : Checkpoint}

theorem Checkpoint.Of.mono (h : checkpoint.Of rs) (hrs : rs <+: rs') : checkpoint.Of rs' := by
  obtain ⟨first, hfirst, hanchor⟩ := h
  exact ⟨first, hfirst.trans hrs, hanchor⟩

theorem anchor_of (rs : List LogRecord) : (anchor rs).Of rs := ⟨rs, List.prefix_rfl, rfl⟩

theorem empty_of (rs : List LogRecord) : Checkpoint.Of ⟨0, .zero⟩ rs :=
  ⟨[], List.nil_prefix, rfl⟩

/-- What a walk reports is the chain head of some first records. -/
theorem Ledger.result_of (ledger : Ledger) :
    Checkpoint.Of ⟨ledger.result.entriesVerified, ledger.result.headHash⟩ ledger.records := by
  rw [Ledger.result]
  split_ifs
  · exact empty_of ledger.records
  · exact anchor_of ledger.records

/-- **A call other than `reset`** keeps the records, and what it reports is the chain head of some
of the first. -/
theorem Ledger.step_of {request : LogRequest} (hhead : ledger.head.Of ledger.records)
    (hreset : request ≠ .reset) : ledger.records <+: (ledger.step request).2.records ∧
      (ledger.step request).2.head.Of (ledger.step request).2.records ∧
      ∀ answer, (ledger.step request).1 = .ok answer → ∀ checkpoint ∈ answer.reported,
        checkpoint.Of (ledger.step request).2.records := by
  cases request with
  | append type key value timestamp =>
    rw [Ledger.step]
    split_ifs with hover hclosed
    · exact ⟨List.prefix_rfl, hhead, by rintro answer ⟨⟩⟩
    · refine ⟨List.prefix_rfl, hhead, ?_⟩
      rintro answer ⟨⟩ checkpoint ⟨⟩
    · refine ⟨List.prefix_append .., ?_, ?_⟩
      · rw [Ledger.head, Option.not_isSome_iff_eq_none.1 hclosed]
        exact anchor_of _
      · rintro answer ⟨⟩ checkpoint ⟨⟩
  | epoch => exact ⟨List.prefix_rfl, hhead, by rintro answer ⟨⟩ checkpoint ⟨⟩⟩
  | setEpoch epoch => exact ⟨List.prefix_rfl, hhead, by rintro answer ⟨⟩ checkpoint ⟨⟩⟩
  | head =>
    refine ⟨List.prefix_rfl, hhead, ?_⟩
    rintro answer ⟨⟩ checkpoint ⟨⟩
    exact hhead
  | reset => exact absurd rfl hreset
  | verify =>
    refine ⟨List.prefix_rfl, hhead, ?_⟩
    rintro answer ⟨⟩ checkpoint ⟨⟩
    exact ledger.result_of
  | recover minEpochExclusive =>
    rw [Ledger.step]
    split_ifs with hclosed
    · refine ⟨List.prefix_rfl, empty_of _, ?_⟩
      rintro answer ⟨⟩ checkpoint ⟨⟩
      exact empty_of _
    · refine ⟨List.prefix_rfl, hhead, ?_⟩
      rintro answer ⟨⟩ checkpoint ⟨⟩
      exact ledger.result_of
  | close => exact ⟨List.prefix_rfl, hhead, by rintro answer ⟨⟩ checkpoint ⟨⟩⟩

/-- Over a run in which no `reset` is called. -/
theorem run_of {acts : List (Act Tid LogRequest (Except Exception LogAnswer))}
    {a a' : Ledger × (Tid → Client LogRequest (Except Exception LogAnswer))}
    (hrun : (atomic Ledger.Does).Run a acts a') (hhead : a.1.head.Of a.1.records)
    (hclient : ∀ t, a.2 t ≠ .called .reset) (hreset : ∀ t, .invoke t .reset ∉ acts) :
    a.1.records <+: a'.1.records ∧ a'.1.head.Of a'.1.records ∧ (∀ t, a'.2 t ≠ .called .reset) ∧
      ∀ t request answer, .perform t request (.ok answer) ∈ acts →
        ∀ checkpoint ∈ answer.reported, checkpoint.Of a'.1.records := by
  induction hrun with
  | nil a => exact ⟨List.prefix_rfl, hhead, hclient, by simp⟩
  | @cons a a₁ a' act acts hst _ ih =>
    have hreset' : ∀ t, .invoke t .reset ∉ acts := fun t h => hreset t (List.mem_cons_of_mem _ h)
    have hne : ∀ {client : Tid → Client LogRequest (Except Exception LogAnswer)} {t phase},
        (∀ u, client u ≠ .called .reset) → phase ≠ .called .reset →
        ∀ u, Function.update client t phase u ≠ .called .reset := by
      intro client t phase hall hphase u
      by_cases hut : u = t
      · subst hut
        rwa [Function.update_self]
      · rw [Function.update_of_ne hut]
        exact hall u
    cases hst with
    | @invoke ledger client t request ht =>
      have hrequest : request ≠ .reset := fun h => hreset t (h ▸ List.mem_cons_self)
      obtain ⟨hkept, hhead', hclient', hreported⟩ := ih hhead
        (hne hclient fun h => hrequest (Client.called.inj h)) hreset'
      refine ⟨hkept, hhead', hclient', fun u request' answer hmem => ?_⟩
      exact hreported u request' answer ((List.mem_cons.1 hmem).resolve_left (by simp))
    | @perform ledger ledger₁ client t request answer ht hdoes =>
      have hrequest : request ≠ .reset := by
        rintro rfl
        exact hclient t ht
      obtain ⟨hkept₁, hhead₁, hreported₁⟩ := Ledger.step_of hhead hrequest
      have hdoes : ledger.step request = (answer, ledger₁) := hdoes
      rw [hdoes] at hkept₁ hhead₁ hreported₁
      obtain ⟨hkept, hhead', hclient', hreported⟩ := ih hhead₁ (hne hclient (by simp)) hreset'
      refine ⟨hkept₁.trans hkept, hhead', hclient', fun u request' answer' hmem => ?_⟩
      rcases List.mem_cons.1 hmem with heq | hmem
      · obtain ⟨-, -, rfl⟩ := Act.perform.inj heq
        exact fun checkpoint hcheckpoint => (hreported₁ answer' rfl checkpoint hcheckpoint).mono
          hkept
      · exact hreported u request' answer' hmem
    | @reply ledger client t answer ht =>
      obtain ⟨hkept, hhead', hclient', hreported⟩ := ih hhead (hne hclient (by simp)) hreset'
      refine ⟨hkept, hhead', hclient', fun u request' answer' hmem => ?_⟩
      exact hreported u request' answer' ((List.mem_cons.1 hmem).resolve_left (by simp))

/-- What a call of the ledger has reported is the chain head of the first records of the file. -/
theorem Ledger.Follows.reported {c : Config Res WAL LogRequest (Except Exception LogAnswer) Tid
      FileSystem} {client : Tid → Client LogRequest (Except Exception LogAnswer)}
    {acts : List (Act Tid LogRequest (Except Exception LogAnswer))} {t : Tid} {request : LogRequest}
    {answer : LogAnswer} (h : ledger'.Follows p c client)
    (hatomic : (atomic Ledger.Does).Run (ledger, fun _ => .idle) acts (ledger', client))
    (hopen : ledger.closed = none) (hreset : ∀ t, .invoke t .reset ∉ acts)
    (hreply : .perform t request (.ok answer) ∈ acts) (hreport : checkpoint ∈ answer.reported) :
    checkpoint.Of (walkFile (c.state.bytes p)).records := by
  have hhead : ledger.head.Of ledger.records := by
    rw [Ledger.head, hopen]
    exact anchor_of ledger.records
  obtain ⟨-, hhead', hclient, hreported⟩ := run_of hatomic hhead (fun t => by simp) hreset
  have hof : checkpoint.Of ledger'.records := hreported t request answer hreply checkpoint hreport
  rcases h.left with hleft | ⟨u, pending, hpending, hleft⟩
  · rwa [hleft.records]
  · have hne : pending ≠ .reset := by
      rintro rfl
      exact hclient u hpending
    rw [hleft.records]
    exact hof.mono (Ledger.step_of hhead' hne).1

end Checkpoints

end LiteSpeedStore
