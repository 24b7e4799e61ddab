import LiteSpeedStore.Wal.Agreement
import LiteSpeedStore.Wal.Binding
import LiteSpeedStore.Theory.Lts

/-!
# Calls on log objects, in any order

Several `WAL` objects on one path, made, used, closed and destroyed in any order, on a system in
which nothing fails.  `sessions` has every such step, and `journal` counts what should be in the file.
An object knows the end of the chain only if it has brought the file there: one that was opened on an
old file and has not recovered it, or that another object has overtaken, does not.

* `walkFile_appendLog` : the entries that continue a clean chain.
* `sessions_refine` : as long as every entry continues the chain, the file holds what was appended.
* `recorded_iff` : which appends are delivered by `recover` on a fresh object.
* `append_closed_lost` : an append that returns and records nothing.
-/

namespace LiteSpeedStore

open Prog WAL

/-- The log objects by their handles, and the files. -/
structure Session where
  objects : ℕ → Option WAL
  fs : FileSystem

/-- What is observed of a call. -/
inductive WalEvent where
  | constructed (i : ℕ)
  | constructFailed (e : Exception)
  /-- `append` returned; the record has the epoch of the object. -/
  | appended (i : ℕ) (r : LogRecord)
  | appendThrew (i : ℕ) (e : Exception)
  | epochSet (i : ℕ) (epoch : UInt64)
  | reset (i : ℕ) (done : Bool)
  | verified (i : ℕ) (result : RecoveryResult)
  | recovered (i : ℕ) (result : RecoveryResult)
  | closed (i : ℕ)
  | destroyed (i : ℕ)

namespace Session

/-- The handle `i` now stands for this object, or for none. -/
def set (s : Session) (i : ℕ) (wal : Option WAL) (fs : FileSystem) : Session :=
  ⟨Function.update s.objects i wal, fs⟩

@[simp] theorem set_fs (s : Session) (i : ℕ) (wal : Option WAL) (fs : FileSystem) :
    (s.set i wal fs).fs = fs := rfl

@[simp] theorem set_self (s : Session) (i : ℕ) (wal : Option WAL) (fs : FileSystem) :
    (s.set i wal fs).objects i = wal := Function.update_self ..

/-- The calls on the objects. -/
inductive Step (p : Path) : Session → WalEvent → Session → Prop
  | constructed {s : Session} {i n : ℕ} {wal : WAL} {fs' : FileSystem} :
      s.objects i = none → Exec (Faults.none 0).env (construct p n) s.fs (.ok wal) fs' →
      Step p s (.constructed i) (s.set i (some wal) fs')
  | constructFailed {s : Session} {n : ℕ} {e : Exception} {fs' : FileSystem} :
      Exec (Faults.none 0).env (construct p n) s.fs (.error e) fs' →
      Step p s (.constructFailed e) ⟨s.objects, fs'⟩
  | appended {s : Session} {i : ℕ} {wal wal' : WAL} {type : RecordType} {key value : Bytes}
      {timestamp : Int64} {fs' : FileSystem} : s.objects i = some wal →
      Exec (Faults.none 0).env (wal.append type key value timestamp) s.fs (.ok (), wal') fs' →
      Step p s (.appended i ⟨type, key, value, timestamp, wal.epoch⟩) (s.set i (some wal') fs')
  | appendThrew {s : Session} {i : ℕ} {wal wal' : WAL} {type : RecordType} {key value : Bytes}
      {timestamp : Int64} {e : Exception} {fs' : FileSystem} : s.objects i = some wal →
      Exec (Faults.none 0).env (wal.append type key value timestamp) s.fs (.error e, wal') fs' →
      Step p s (.appendThrew i e) (s.set i (some wal') fs')
  | epochSet {s : Session} {i : ℕ} {wal : WAL} {epoch : UInt64} : s.objects i = some wal →
      Step p s (.epochSet i epoch) (s.set i (some (wal.setEpoch epoch)) s.fs)
  | reset {s : Session} {i : ℕ} {wal wal' : WAL} {done : Bool} {fs' : FileSystem} :
      s.objects i = some wal → Exec (Faults.none 0).env wal.reset s.fs (done, wal') fs' →
      Step p s (.reset i done) (s.set i (some wal') fs')
  | verified {s : Session} {i : ℕ} {wal : WAL} {result : RecoveryResult} {fs' : FileSystem} :
      s.objects i = some wal → Exec (Faults.none 0).env wal.verify s.fs result fs' →
      Step p s (.verified i result) ⟨s.objects, fs'⟩
  | recovered {s : Session} {i : ℕ} {wal wal' : WAL} {σ : Type} {visitor : Visitor σ}
      {minEpochExclusive : Option UInt64} {state state' : σ} {result : RecoveryResult}
      {fs' : FileSystem} : s.objects i = some wal →
      Exec (Faults.none 0).env (wal.recover visitor minEpochExclusive state) s.fs
        (result, wal', state') fs' →
      Step p s (.recovered i result) (s.set i (some wal') fs')
  | closed {s : Session} {i : ℕ} {wal wal' : WAL} {fs' : FileSystem} : s.objects i = some wal →
      Exec (Faults.none 0).env wal.close s.fs wal' fs' →
      Step p s (.closed i) (s.set i (some wal') fs')
  | destroyed {s : Session} {i : ℕ} {wal wal' : WAL} {fs' : FileSystem} : s.objects i = some wal →
      Exec (Faults.none 0).env wal.close s.fs wal' fs' →
      Step p s (.destroyed i) (s.set i none fs')

end Session

/-- All sequences of calls on objects at `p`. -/
def sessions (p : Path) : Lts Session WalEvent := ⟨Session.Step p⟩

/-- What should be in the file: the records that were there, and those that were appended since the
start or since the last `reset`. -/
structure Journal where
  before : List LogRecord
  appended : List LogRecord := []

namespace Journal

def records (j : Journal) : List LogRecord := j.before ++ j.appended

/-- A record is added by an append that returns, and all are dropped by a `reset` that succeeds. -/
def after (j : Journal) : WalEvent → Journal
  | .appended _ r => { j with appended := j.appended ++ [r] }
  | .reset _ true => ⟨[], []⟩
  | _ => j

end Journal

/-- The journal of a sequence of calls. -/
def journal : Lts Journal WalEvent := ⟨fun j event j' => j' = j.after event⟩

/-! ### Clean chains -/

section Chains

variable {b : Bytes} {r : LogRecord}

theorem drop_of_stop (h : (walkFile b).stop = .clean) :
    b.drop kHeaderSize = encodeLog .zero 0 (walkFile b).records := by
  obtain ⟨hfits, hb⟩ := records_of_clean h
  rw [hb, drop_logOf hfits]

/-- **The entries that continue a clean chain** are as many more records. -/
theorem walkFile_appendLog (hlen : kHeaderSize ≤ b.length) (hclean : (walkFile b).stop = .clean)
    {rs : List LogRecord} (hfits : ∀ r ∈ rs, r.Fits) :
    (walkFile (b ++ encodeLog (walkFile b).head (walkFile b).seq rs)).records =
        (walkFile b).records ++ rs ∧
      (walkFile (b ++ encodeLog (walkFile b).head (walkFile b).seq rs)).stop = .clean := by
  obtain ⟨hfits₀, -⟩ := records_of_clean hclean
  obtain ⟨-, -, hhead, hseq, -⟩ := walk_exact .zero 0 (b.drop kHeaderSize)
  rw [← walkFile] at hhead hseq
  have hfits' := fits_append hfits₀ hfits
  have hdrop : (b ++ encodeLog (walkFile b).head (walkFile b).seq rs).drop kHeaderSize =
      (logOf ((walkFile b).records ++ rs)).drop kHeaderSize := by
    rw [drop_logOf hfits', encodeLog_append, List.drop_append_of_le_length hlen,
      drop_of_stop hclean, ← hhead, ← hseq]
  rw [walkFile_chain hfits' hdrop]
  exact ⟨rfl, rfl⟩

/-- The entry that continues a clean chain is one more record. -/
theorem walkFile_concat (hlen : kHeaderSize ≤ b.length) (hclean : (walkFile b).stop = .clean)
    (hfit : r.Fits) : (walkFile (b ++ r.encode (walkFile b).head (walkFile b).seq)).records =
      (walkFile b).records ++ [r] ∧
    (walkFile (b ++ r.encode (walkFile b).head (walkFile b).seq)).stop = .clean := by
  have hfits : ∀ r' ∈ [r], r'.Fits := fun r' hr' => by rwa [List.mem_singleton.1 hr']
  have h := walkFile_appendLog hlen hclean hfits
  rwa [encodeLog, encodeLog, List.append_nil] at h

/-- Cutting a torn tail leaves the entries in front of it. -/
theorem walkFile_left (hlen : kHeaderSize ≤ b.length) :
    (walkFile ((walkFile b).left b)).records = (walkFile b).records ∧
      ((walkFile b).stop = .clean → (walkFile ((walkFile b).left b)).stop = .clean) ∧
      kHeaderSize ≤ ((walkFile b).left b).length := by
  by_cases htorn : (walkFile b).stop = .torn
  · rw [walkFile_cut htorn]
    refine ⟨rfl, fun _ => rfl, ?_⟩
    rw [left_torn htorn, List.length_append, List.length_take_of_le hlen]
    exact Nat.le_add_right ..
  · rw [Walk.left, if_neg htorn]
    exact ⟨rfl, id, hlen⟩

end Chains

/-! ### What a fresh object delivers -/

section Delivery

variable {p : Path} {fs : FileSystem} {b : Bytes} {rs : List LogRecord} {r : LogRecord}

/-- `recover` on an object that is opened on the file reports a clean chain and delivers these
records. -/
def Delivers (p : Path) (fs : FileSystem) (rs : List LogRecord) : Prop :=
  ∀ n, ∃ wal fs', run posix (construct p n) fs = (.ok wal, fs') ∧
    ∀ (σ : Type) (visitor : Visitor σ) (s : σ),
      (run posix (wal.recover visitor none s) fs').1.1.status = .ok ∧
      (run posix (wal.recover visitor none s) fs').1.2.2 = visitEach visitor rs s

/-- What the visitor is shown of a record. -/
def LogRecord.shown (r : LogRecord) : RecordType × Bytes × Bytes × Int64 :=
  (r.type, r.key, r.value, r.timestamp)

/-- The visitor that lists what it is shown. -/
def lister : Visitor (List (RecordType × Bytes × Bytes × Int64)) :=
  fun type key value timestamp shown => shown ++ [(type, key, value, timestamp)]

theorem visitEach_lister (rs : List LogRecord) (shown : List (RecordType × Bytes × Bytes × Int64)) :
    visitEach lister rs shown = shown ++ rs.map LogRecord.shown := by
  induction rs generalizing shown with
  | nil => simp [visitEach]
  | cons r rs ih =>
    rw [visitEach, List.foldl_cons]
    exact (ih _).trans (by rw [lister, List.append_assoc, List.map_cons]; rfl)

theorem wp_constructNone {m n : ℕ} :
    wp (Faults.none m).env (construct p n) (fun result fs' =>
      (∃ e, result = .error e ∧ fs' = fs ∧ fs.bytes p ≠ [] ∧ ¬ValidHeader (fs.bytes p)) ∨
      result = .ok (.fresh p n) ∧ ((fs.bytes p = [] ∧ fs' = fs.put p walHeader) ∨
        ValidHeader (fs.bytes p) ∧ fs' = fs)) (fun _ => True) fs := by
  refine wp_construct (Faults.none_readsOk m p) Faults.none_mayFail trivial
    (fun _ _ _ => trivial) (fun h => .inr ⟨rfl, .inl ⟨h, rfl⟩⟩) ?_ ?_
    (fun h => .inr ⟨rfl, .inr ⟨h, rfl⟩⟩) (fun h h' e => .inl ⟨e, rfl, rfl, h, h'⟩)
  · exact fun _ hmay => absurd hmay.choose_spec Faults.none_mayFail
  · exact fun _ hmay => absurd hmay Faults.none_mayFail

theorem walkFile_walHeader : walkFile walHeader = ⟨[], .zero, 0, [], .clean⟩ := by
  rw [← List.append_nil walHeader, walkFile_header, walk_nil]

theorem walkFile_nil : walkFile [] = ⟨[], .zero, 0, [], .clean⟩ := by
  rw [walkFile, List.drop_nil, walk_nil]

theorem recovered_eq {wal : WAL} (hfd : wal.fd = some p) (hfile : fs p = some b) {σ : Type}
    (visitor : Visitor σ) (s : σ) :
    (run posix (wal.recover visitor none s) fs).1.1.status = .ok ↔ (walkFile b).stop = .clean := by
  rw [run_recover hfd hfile]
  exact verify_ok_iff_clean

theorem recovered_visited {wal : WAL} (hfd : wal.fd = some p) (hfile : fs p = some b) {σ : Type}
    (visitor : Visitor σ) (s : σ) :
    (run posix (wal.recover visitor none s) fs).1.2.2 = visitEach visitor (walkFile b).records s := by
  have hall : (walkFile b).records.filter (epochAbove none) = (walkFile b).records :=
    List.filter_eq_self.2 fun _ _ => rfl
  rw [run_recover hfd hfile]
  dsimp only
  rw [visited_eq, hall]

/-- A clean chain behind a header is delivered. -/
theorem delivers_of_clean (hvalid : ValidHeader (fs.bytes p))
    (hclean : (walkFile (fs.bytes p)).stop = .clean) :
    Delivers p fs (walkFile (fs.bytes p)).records := by
  intro n
  have hfile := file_of_header hvalid
  refine ⟨.fresh p n, fs, ?_, fun σ visitor s => ⟨?_, ?_⟩⟩
  · have hw : wp _ (construct p n) _ _ fs := wp_constructNone (m := 0)
    rcases wp_run Faults.allows_posix hw with
      ⟨e, -, -, -, hbad⟩ | ⟨hok, ⟨hempty, -⟩ | ⟨-, hfs⟩⟩
    · exact absurd hvalid hbad
    · exact absurd hempty hvalid.ne_nil
    · exact Prod.ext hok hfs
  · exact (recovered_eq rfl hfile visitor s).2 hclean
  · exact recovered_visited rfl hfile visitor s

/-- What is delivered is what the file holds. -/
theorem Delivers.shown (h : Delivers p fs rs) : (walkFile (fs.bytes p)).stop = .clean ∧
    (walkFile (fs.bytes p)).records.map LogRecord.shown = rs.map LogRecord.shown := by
  obtain ⟨wal, fs', hrun, hrecover⟩ := h 1
  obtain ⟨hstatus, hvisited⟩ := hrecover _ lister []
  have hx := exec_of_run (E := (Faults.none 0).env) Faults.allows_posix hrun
  -- the chain in the file is the one that the constructor finds, or makes
  have hopen : wal.fd = some p ∧ ∃ b, fs' p = some b ∧ (walkFile b).stop =
      (walkFile (fs.bytes p)).stop ∧ (walkFile b).records = (walkFile (fs.bytes p)).records := by
    rcases wp_exec wp_constructNone hx with ⟨e, herror, -⟩ | ⟨hok, ⟨hempty, rfl⟩ | ⟨hvalid, rfl⟩⟩
    · cases herror
    · obtain rfl := Except.ok.inj hok
      refine ⟨rfl, walHeader, FileSystem.put_self .., ?_⟩
      rw [hempty, walkFile_walHeader, walkFile_nil]
      exact ⟨rfl, rfl⟩
    · obtain rfl := Except.ok.inj hok
      exact ⟨rfl, _, file_of_header hvalid, rfl, rfl⟩
  obtain ⟨hfd, b, hfile, hstop, hrecords⟩ := hopen
  rw [recovered_eq hfd hfile] at hstatus
  rw [recovered_visited hfd hfile, visitEach_lister, visitEach_lister, List.nil_append,
    List.nil_append] at hvisited
  exact ⟨hstop ▸ hstatus, hrecords ▸ hvisited⟩

end Delivery

/-! ### Entries that are delivered -/

section Delivered

variable {b : Bytes} {rs rs' : List LogRecord} {r : LogRecord} {prev : Sha256Digest} {seq : UInt64}

/-- What is shown of a record decides how long its entry is. -/
theorem size_of_shown (h : rs.map LogRecord.shown = rs'.map LogRecord.shown) :
    rs.map LogRecord.size = rs'.map LogRecord.size := by
  have hsize : LogRecord.size = (fun shown : RecordType × Bytes × Bytes × Int64 =>
      crcSize + entryFixedSize + shown.2.1.length + shown.2.2.1.length + hashSize) ∘
        LogRecord.shown := rfl
  rw [hsize, ← List.map_map, ← List.map_map, h]

/-- Nothing is behind a chain only if it is clean. -/
theorem clean_of_rest (h : (walkFile b).rest = []) : (walkFile b).stop = .clean := by
  obtain ⟨-, -, -, -, hstopped⟩ := walk_exact .zero 0 (b.drop kHeaderSize)
  rw [← walkFile] at hstopped
  cases hstop : (walkFile b).stop with
  | clean => rfl
  | torn =>
    rw [hstop] at hstopped
    exact absurd h hstopped.1
  | failed status =>
    rw [hstop, h] at hstopped
    cases hstopped

/-- Where the valid entries of a log end. -/
theorem end_of_records (hlen : kHeaderSize ≤ b.length) :
    kHeaderSize + ((walkFile b).records.map LogRecord.size).sum + (walkFile b).rest.length =
      b.length := by
  obtain ⟨-, hbytes, -⟩ := walk_exact .zero 0 (b.drop kHeaderSize)
  have hsum := congrArg List.length hbytes
  rw [← walkFile, List.length_append, length_encodeLog, List.length_drop] at hsum
  omega

theorem encode_inj {prev' : Sha256Digest} {seq' : UInt64} {r' : LogRecord} (hr : r.Fits)
    (hr' : r'.Fits) (h : r.encode prev seq = r'.encode prev' seq') : seq = seq' ∧ r = r' := by
  obtain ⟨-, hbody⟩ := List.append_inj h (by rw [length_putLE32, length_putLE32])
  obtain ⟨hpayload, -⟩ := List.append_inj' hbody (by rw [Vector.length_toList, Vector.length_toList])
  exact payload_inj hr hr' hpayload

/-- If one record more is read from a file with an entry appended, the file was clean, and the entry
is the one that continues it. -/
theorem entry_of_shown (hlen : kHeaderSize ≤ b.length) (hfit : r.Fits)
    (hclean : (walkFile (b ++ r.encode prev seq)).stop = .clean)
    (hshown : (walkFile (b ++ r.encode prev seq)).records.map LogRecord.shown =
      ((walkFile b).records ++ [r]).map LogRecord.shown) :
    (walkFile b).stop = .clean ∧
      r.encode prev seq = r.encode (walkFile b).head (walkFile b).seq := by
  obtain ⟨hfits', hdrop'⟩ := records_of_clean hclean
  have hsizes := congrArg List.sum (size_of_shown hshown)
  have hlength := congrArg List.length hdrop'
  rw [drop_logOf hfits', length_encodeLog, hsizes, List.length_drop, List.length_append,
    LogRecord.length_encode, List.map_append, List.sum_append, List.map_cons, List.map_nil,
    List.sum_cons, List.sum_nil] at hlength
  have hend := end_of_records hlen
  have hold : (walkFile b).stop = .clean :=
    clean_of_rest (List.length_eq_zero_iff.1 (by omega))
  refine ⟨hold, ?_⟩
  -- the walk passes over the old entries and then reads the new one
  obtain ⟨hfits, -⟩ := records_of_clean hold
  obtain ⟨-, -, hhead, hseq, -⟩ := walk_exact .zero 0 (b.drop kHeaderSize)
  rw [← walkFile] at hhead hseq
  have hwalk : walkFile (b ++ r.encode prev seq) =
      { walk (walkFile b).head (walkFile b).seq (r.encode prev seq) with
        records := (walkFile b).records ++
          (walk (walkFile b).head (walkFile b).seq (r.encode prev seq)).records } := by
    rw [hhead, hseq, ← walk_encodeLog hfits, ← drop_of_stop hold, walkFile,
      List.drop_append_of_le_length hlen]
  rw [hwalk] at hclean hshown
  obtain ⟨hfits₁, hbytes, -, -, hstopped⟩ :=
    walk_exact (walkFile b).head (walkFile b).seq (r.encode prev seq)
  dsimp only at hclean hshown
  rw [hclean] at hstopped
  rw [hstopped, List.append_nil] at hbytes
  rw [List.map_append, List.map_append, List.append_cancel_left_eq] at hshown
  obtain ⟨r', hr', hr⟩ := List.map_eq_singleton_iff.1 hshown
  rw [hr', encodeLog, encodeLog, List.append_nil] at hbytes
  rw [hr'] at hfits₁
  have hsame : r' = r := (encode_inj (hfits₁ r' List.mem_cons_self) hfit hbytes).2
  rw [← hbytes, hsame]

end Delivered

/-! ### Runs -/

/-- The entry that the object writes continues the chain in the file. -/
structure Continues (p : Path) (fs : FileSystem) (wal : WAL) (r : LogRecord) : Prop where
  fd : wal.fd = some p
  clean : (walkFile (fs.bytes p)).stop = .clean
  entry : r.encode wal.headHash wal.seq =
    r.encode (walkFile (fs.bytes p)).head (walkFile (fs.bytes p)).seq

/-- If the step is an append that returns, its entry continues the chain. -/
def Joins (p : Path) (s : Session) (event : WalEvent) : Prop :=
  ∀ i r, event = .appended i r → ∀ wal ∈ s.objects i, Continues p s.fs wal r

/-- Every object is closed, or open on a file with a header. -/
def Opened (p : Path) (s : Session) : Prop :=
  ∀ i wal, s.objects i = some wal →
    ValidHeader (s.fs.bytes p) ∧ (wal.fd = none ∨ wal.fd = some p)

/-- What a step does to the file. -/
inductive Effect (p : Path) (s : Session) : WalEvent → Bytes → Prop
  | same {event : WalEvent} (hsame : ∀ j : Journal, j.after event = j) :
      Effect p s event (s.fs.bytes p)
  | created {i : ℕ} (hempty : s.fs.bytes p = []) : Effect p s (.constructed i) walHeader
  | dropped {i : ℕ} {r : LogRecord} {wal : WAL} (hwal : s.objects i = some wal)
      (hclosed : wal.fd = none) : Effect p s (.appended i r) (s.fs.bytes p)
  | extended {i : ℕ} {r : LogRecord} {wal : WAL} (hwal : s.objects i = some wal)
      (hvalid : ValidHeader (s.fs.bytes p)) (hfd : wal.fd = some p) (hfit : r.Fits) :
      Effect p s (.appended i r) (s.fs.bytes p ++ r.encode wal.headHash wal.seq)
  | rewound {i : ℕ} : Effect p s (.reset i true) walHeader
  | cut {i : ℕ} {result : RecoveryResult} (hvalid : ValidHeader (s.fs.bytes p)) :
      Effect p s (.recovered i result) ((walkFile (s.fs.bytes p)).left (s.fs.bytes p))

/-- The file holds what the journal has. -/
structure InSession (p : Path) (s : Session) (j : Journal) : Prop where
  opened : Opened p s
  records : (walkFile (s.fs.bytes p)).records = j.records
  clean : j.appended ≠ [] →
    ValidHeader (s.fs.bytes p) ∧ (walkFile (s.fs.bytes p)).stop = .clean

section Sessions

variable {p : Path} {s s' : Session} {j : Journal} {event : WalEvent} {events : List WalEvent}
  {fs fs' : FileSystem} {wal wal' : WAL} {r : LogRecord} {i : ℕ}

theorem Opened.set {o : Option WAL} (h : Opened p s)
    (hvalid : ValidHeader (s.fs.bytes p) → ValidHeader (fs'.bytes p))
    (ho : ∀ wal ∈ o, ValidHeader (fs'.bytes p) ∧ (wal.fd = none ∨ wal.fd = some p)) :
    Opened p (s.set i o fs') := by
  intro k wal hk
  change Function.update s.objects i o k = some wal at hk
  by_cases hki : k = i
  · subst hki
    rw [Function.update_self] at hk
    exact ho wal hk
  · rw [Function.update_of_ne hki] at hk
    exact ⟨hvalid (h k wal hk).1, (h k wal hk).2⟩

/-- A call on an object that leaves the file and the descriptor alone, or closes it. -/
theorem Opened.same {o : Option WAL} (h : Opened p s) (hwal : s.objects i = some wal)
    (ho : ∀ wal' ∈ o, wal'.fd = none ∨ wal'.fd = wal.fd) : Opened p (s.set i o s.fs) := by
  refine h.set id fun wal' hmem => ⟨(h i wal hwal).1, ?_⟩
  rcases ho wal' hmem with hnone | hsame
  · exact .inl hnone
  · rw [hsame]
    exact (h i wal hwal).2

/-- A call on an object that writes a file with a header. -/
theorem Opened.write {b : Bytes} (h : Opened p s) (hfd : wal'.fd = some p) (hvalid : ValidHeader b) :
    Opened p (s.set i (some wal') (s.fs.put p b)) := by
  have hbytes : (s.fs.put p b).bytes p = b := FileSystem.bytes_put ..
  refine h.set (fun _ => by rwa [hbytes]) fun wal hmem => ?_
  rw [hbytes, ← Option.some.inj hmem]
  exact ⟨hvalid, .inr hfd⟩

theorem validHeader_walHeader : ValidHeader walHeader := by
  simpa only [List.append_nil] using validHeader_append []

/-- A file that starts like one with a header has one. -/
theorem ValidHeader.congr {b b' : Bytes} (h : ValidHeader b) (hlen : kHeaderSize ≤ b'.length)
    (htake : b'.take kHeaderSize = b.take kHeaderSize) : ValidHeader b' := by
  obtain ⟨-, hmagic, hversion⟩ := h
  refine ⟨hlen, ?_, ?_⟩
  · rw [htake, hmagic]
  · rw [htake, hversion]

theorem ValidHeader.append {b : Bytes} (h : ValidHeader b) (tail : Bytes) :
    ValidHeader (b ++ tail) := by
  refine h.congr ?_ (List.take_append_of_le_length h.1)
  rw [List.length_append]
  exact h.1.trans (Nat.le_add_right ..)

theorem ValidHeader.left {b : Bytes} (h : ValidHeader b) : ValidHeader ((walkFile b).left b) := by
  have hlen := (walkFile_left h.1).2.2
  refine h.congr hlen ?_
  rw [Walk.left] at hlen ⊢
  split_ifs at hlen ⊢
  · rw [List.length_take] at hlen
    rw [List.take_take, Nat.min_eq_left (by omega)]
  · rfl

/-! What the methods do on a system in which nothing fails. -/

theorem exec_append {type : RecordType} {key value : Bytes} {timestamp : Int64}
    {result : Except Exception Unit} (hvalid : ValidHeader (fs.bytes p))
    (hfd : wal.fd = none ∨ wal.fd = some p)
    (hx : Exec (Faults.none 0).env (wal.append type key value timestamp) fs (result, wal') fs') :
    wal'.fd = wal.fd ∧ wal'.epoch = wal.epoch ∧
    ((∃ e, result = .error e) ∧
        ¬(⟨type, key, value, timestamp, wal.epoch⟩ : LogRecord).Fits ∧ fs' = fs ∨
      result = .ok () ∧ wal.fd = none ∧ fs' = fs ∨
      result = .ok () ∧ wal.fd = some p ∧
        (⟨type, key, value, timestamp, wal.epoch⟩ : LogRecord).Fits ∧
        fs' = fs.put p (fs.bytes p ++ (⟨type, key, value, timestamp, wal.epoch⟩ :
          LogRecord).encode wal.headHash wal.seq)) := by
  by_cases hfit : (⟨type, key, value, timestamp, wal.epoch⟩ : LogRecord).Fits
  · rcases hfd with hfd | hfd
    · -- a closed object returns at once
      rw [append, if_neg (by rw [not_or, not_lt, not_lt]; exact hfit), hfd] at hx
      cases hx
      exact ⟨rfl, rfl, .inr (.inl ⟨rfl, hfd, rfl⟩)⟩
    · have hw : wp (Faults.none 0).env (wal.append type key value timestamp)
          (fun result fs' => result.1 = .ok () ∧ result.2.fd = some p ∧ result.2.epoch = wal.epoch ∧
            fs' = fs.put p (fs.bytes p ++ (⟨type, key, value, timestamp, wal.epoch⟩ :
              LogRecord).encode wal.headHash wal.seq)) (fun _ => True) fs :=
        wp_append (r := ⟨type, key, value, timestamp, wal.epoch⟩) hfd (file_of_header hvalid) hfit
          rfl (fun _ _ => trivial) ⟨rfl, by rw [synced_fd, pushed_fd, hfd],
            by rw [synced_epoch, pushed_epoch], rfl⟩
          (fun hmay => absurd hmay.choose_spec Faults.none_mayFail)
          (fun hmay => absurd hmay Faults.none_mayFail)
      obtain ⟨hok, hfd', hepoch, hfs⟩ := wp_exec hw hx
      exact ⟨by rw [hfd', hfd], hepoch, .inr (.inr ⟨hok, hfd, hfit, hfs⟩)⟩
  · have hreject : wal.append type key value timestamp = _ :=
      append_rejects (r := ⟨type, key, value, timestamp, wal.epoch⟩) hfit
    rw [hreject] at hx
    cases hx
    exact ⟨rfl, rfl, .inl ⟨⟨_, rfl⟩, hfit, rfl⟩⟩

theorem exec_reset {done : Bool} (hvalid : ValidHeader (fs.bytes p))
    (hfd : wal.fd = none ∨ wal.fd = some p)
    (hx : Exec (Faults.none 0).env wal.reset fs (done, wal') fs') :
    wal'.fd = wal.fd ∧ (done = false ∧ fs' = fs ∨
      done = true ∧ wal.fd = some p ∧ fs' = fs.put p walHeader) := by
  rcases hfd with hfd | hfd
  · rw [WAL.reset, hfd] at hx
    cases hx
    exact ⟨rfl, .inl ⟨rfl, rfl⟩⟩
  · have hw : wp (Faults.none 0).env wal.reset (fun result fs' => result.1 = true ∧
        result.2.fd = wal.fd ∧ fs' = fs.put p walHeader) (fun _ => True) fs :=
      wp_reset hfd (Faults.none_readsOk 0 p) (file_of_header hvalid) trivial (fun _ _ => trivial)
        ⟨rfl, rfl, rfl⟩ (fun hmay => absurd hmay Faults.none_mayFail)
        (fun hmay => absurd hmay.choose_spec Faults.none_mayFail)
        (fun hmay => absurd hmay Faults.none_mayFail)
    obtain ⟨hdone, hfd', hfs⟩ := wp_exec hw hx
    exact ⟨hfd', .inr ⟨hdone, hfd, hfs⟩⟩

theorem exec_verify {result : RecoveryResult} (hvalid : ValidHeader (fs.bytes p))
    (hfd : wal.fd = none ∨ wal.fd = some p)
    (hx : Exec (Faults.none 0).env wal.verify fs result fs') : fs' = fs ∧
      (wal.fd = some p → result = (walkFile (fs.bytes p)).result (fs.bytes p).length) := by
  rcases hfd with hfd | hfd
  · rw [WAL.verify, hfd] at hx
    cases hx
    exact ⟨rfl, fun h => by rw [hfd] at h; cases h⟩
  · have hw : wp (Faults.none 0).env wal.verify (fun result fs' => fs' = fs ∧
        (wal.fd = some p → result = (walkFile (fs.bytes p)).result (fs.bytes p).length))
        (fun _ => True) fs :=
      wp_verify hfd (Faults.none_readsOk 0 p) (fun _ => Faults.none_mayFail)
        (file_of_header hvalid) trivial ⟨rfl, fun _ => rfl⟩
    exact (wp_exec hw hx :)

theorem exec_recover {σ : Type} {visitor : Visitor σ} {m : Option UInt64} {state state' : σ}
    {result : RecoveryResult} (hvalid : ValidHeader (fs.bytes p))
    (hfd : wal.fd = none ∨ wal.fd = some p)
    (hx : Exec (Faults.none 0).env (wal.recover visitor m state) fs (result, wal', state') fs') :
    wal'.fd = wal.fd ∧ (wal.fd = none ∧ fs' = fs ∨ wal.fd = some p ∧
      fs' = fs.put p ((walkFile (fs.bytes p)).left (fs.bytes p))) := by
  rcases hfd with hfd | hfd
  · rw [WAL.recover, hfd] at hx
    cases hx
    exact ⟨hfd.symm ▸ rfl, .inl ⟨hfd, rfl⟩⟩
  · have hw : wp (Faults.none 0).env (wal.recover visitor m state) (fun result fs' =>
        result.2.1.fd = wal.fd ∧ fs' = fs.put p ((walkFile (fs.bytes p)).left (fs.bytes p)))
        (fun _ => True) fs :=
      wp_recover hfd (Faults.none_readsOk 0 p) (fun _ => Faults.none_mayFail)
        (file_of_header hvalid) trivial trivial ⟨adopt_fd .., rfl⟩
    obtain ⟨hfd', hfs⟩ := wp_exec hw hx
    exact ⟨hfd', .inr ⟨hfd, hfs⟩⟩

theorem exec_close {fs' : FileSystem} (hx : Exec (Faults.none 0).env wal.close fs wal' fs') :
    wal'.fd = none ∧ fs' = fs := by
  have hw : wp (Faults.none 0).env wal.close (fun wal' fs' => wal'.fd = none ∧ fs' = fs)
      (fun _ => True) fs := wp_close trivial fun _ h => ⟨h, rfl⟩
  exact (wp_exec hw hx :)

/-- **What a step does**, in any state. -/
theorem Session.Step.effect (h : Opened p s) (hst : Session.Step p s event s') :
    Opened p s' ∧ Effect p s event (s'.fs.bytes p) := by
  have hwrite : ∀ {b : Bytes}, (s.fs.put p b).bytes p = b := FileSystem.bytes_put ..
  cases hst with
  | constructed _ hx =>
    rcases wp_exec wp_constructNone hx with ⟨e, herror, -⟩ | ⟨hok, ⟨hempty, rfl⟩ | ⟨hvalid, rfl⟩⟩
    · cases herror
    · obtain rfl := Except.ok.inj hok
      refine ⟨h.write rfl validHeader_walHeader, ?_⟩
      rw [Session.set_fs, hwrite]
      exact .created hempty
    · obtain rfl := Except.ok.inj hok
      refine ⟨h.set id fun wal hmem => ?_, .same fun _ => rfl⟩
      rw [← Option.some.inj hmem]
      exact ⟨hvalid, .inr rfl⟩
  | constructFailed hx =>
    rcases wp_exec wp_constructNone hx with ⟨e, -, rfl, -⟩ | ⟨hok, -⟩
    · exact ⟨h, .same fun _ => rfl⟩
    · cases hok
  | appended hwal hx =>
    obtain ⟨hvalid, hfd⟩ := h _ _ hwal
    obtain ⟨hfd', -, ⟨⟨e, herror⟩, -⟩ | ⟨-, hclosed, rfl⟩ | ⟨-, hopen, hfit, rfl⟩⟩ :=
      exec_append hvalid hfd hx
    · cases herror
    · exact ⟨h.same hwal fun wal' hmem => .inr (Option.some.inj hmem ▸ hfd'),
        .dropped hwal hclosed⟩
    · refine ⟨h.write (hfd'.trans hopen) (hvalid.append _), ?_⟩
      rw [Session.set_fs, hwrite]
      exact .extended hwal hvalid hopen hfit
  | appendThrew hwal hx =>
    obtain ⟨hvalid, hfd⟩ := h _ _ hwal
    obtain ⟨hfd', -, ⟨-, -, rfl⟩ | ⟨hok, -⟩ | ⟨hok, -⟩⟩ := exec_append hvalid hfd hx
    · exact ⟨h.same hwal fun wal' hmem => .inr (Option.some.inj hmem ▸ hfd'),
        .same fun _ => rfl⟩
    · cases hok
    · cases hok
  | epochSet hwal =>
    exact ⟨h.same hwal fun wal' hmem => .inr (Option.some.inj hmem ▸ rfl), .same fun _ => rfl⟩
  | reset hwal hx =>
    obtain ⟨hvalid, hfd⟩ := h _ _ hwal
    obtain ⟨hfd', ⟨rfl, rfl⟩ | ⟨rfl, hopen, rfl⟩⟩ := exec_reset hvalid hfd hx
    · exact ⟨h.same hwal fun wal' hmem => .inr (Option.some.inj hmem ▸ hfd'),
        .same fun _ => rfl⟩
    · refine ⟨h.write (hfd'.trans hopen) validHeader_walHeader, ?_⟩
      rw [Session.set_fs, hwrite]
      exact .rewound
  | verified hwal hx =>
    obtain ⟨hvalid, hfd⟩ := h _ _ hwal
    obtain ⟨rfl, -⟩ := exec_verify hvalid hfd hx
    exact ⟨h, .same fun _ => rfl⟩
  | recovered hwal hx =>
    obtain ⟨hvalid, hfd⟩ := h _ _ hwal
    obtain ⟨hfd', ⟨-, rfl⟩ | ⟨hopen, rfl⟩⟩ := exec_recover hvalid hfd hx
    · exact ⟨h.same hwal fun wal' hmem => .inr (Option.some.inj hmem ▸ hfd'),
        .same fun _ => rfl⟩
    · refine ⟨h.write (hfd'.trans hopen) hvalid.left, ?_⟩
      rw [Session.set_fs, hwrite]
      exact .cut hvalid
  | closed hwal hx =>
    obtain ⟨hfd', rfl⟩ := exec_close hx
    exact ⟨h.same hwal fun wal' hmem => .inl (Option.some.inj hmem ▸ hfd'), .same fun _ => rfl⟩
  | destroyed hwal hx =>
    obtain ⟨-, rfl⟩ := exec_close hx
    refine ⟨h.same hwal ?_, .same fun _ => rfl⟩
    rintro wal' ⟨⟩

/-- The objects of every run are closed, or open on a file with a header. -/
theorem opened_run (hrun : (sessions p).Run ⟨fun _ => none, fs⟩ events s) : Opened p s :=
  hrun.invariant (by rintro i wal ⟨⟩) fun _ _ _ h hst => (Session.Step.effect h hst).1

/-- **As long as every entry continues the chain, the file holds what was appended.** -/
theorem sessions_refine :
    Lts.Simulation ((sessions p).restrict (Joins p)) journal (InSession p) := by
  rintro s event s' j h ⟨hjoins, hst⟩
  refine ⟨_, rfl, ?_⟩
  obtain ⟨hopened, heffect⟩ := Session.Step.effect h.opened hst
  generalize hb : s'.fs.bytes p = b at heffect
  cases heffect with
  | same hsame =>
    rw [hsame]
    exact ⟨hopened, hb ▸ h.records, hb ▸ h.clean⟩
  | created hempty =>
    refine ⟨hopened, ?_, fun hne => ?_⟩
    · rw [hb, walkFile_walHeader, ← walkFile_nil, ← hempty]
      exact h.records
    · exact absurd hempty (h.clean hne).1.ne_nil
  | dropped hwal hclosed =>
    have hfd := (hjoins _ _ rfl _ hwal).fd
    rw [hclosed] at hfd
    cases hfd
  | extended hwal hvalid hfd hfit =>
    obtain ⟨-, hclean, hentry⟩ := hjoins _ _ rfl _ hwal
    obtain ⟨hrecords, hclean'⟩ := walkFile_concat hvalid.1 hclean hfit
    rw [hentry] at hb
    refine ⟨hopened, ?_, fun _ => ?_⟩
    · rw [hb, hrecords, h.records]
      exact List.append_assoc ..
    · rw [hb]
      exact ⟨hvalid.append _, hclean'⟩
  | rewound =>
    refine ⟨hopened, ?_, fun hne => absurd rfl hne⟩
    rw [hb, walkFile_walHeader]
    rfl
  | cut hvalid =>
    obtain ⟨hrecords, hclean, -⟩ := walkFile_left hvalid.1
    refine ⟨hopened, ?_, fun hne => ?_⟩
    · rw [hb, hrecords]
      exact h.records
    · rw [hb]
      exact ⟨hvalid.left, hclean (h.clean hne).2⟩

theorem InSession.delivers (h : InSession p s j) (hne : j.appended ≠ []) :
    Delivers p s.fs j.records := by
  obtain ⟨hvalid, hclean⟩ := h.clean hne
  rw [← h.records]
  exact delivers_of_clean hvalid hclean

theorem journal_run {j j' : Journal} (h : journal.Run j events j') :
    j' = events.foldl Journal.after j := by
  induction h with
  | nil => rfl
  | cons hst _ ih => rw [ih, hst, List.foldl_cons]

/-- A run in which every entry continues the chain. -/
theorem inSession_run
    (hrun : ((sessions p).restrict (Joins p)).Run ⟨fun _ => none, fs⟩ events s) :
    InSession p s (events.foldl Journal.after ⟨(walkFile (fs.bytes p)).records, []⟩) := by
  have hstart : InSession p ⟨fun _ => none, fs⟩ ⟨(walkFile (fs.bytes p)).records, []⟩ :=
    ⟨by rintro i wal ⟨⟩, (List.append_nil _).symm, fun hne => absurd rfl hne⟩
  obtain ⟨j, hjournal, h⟩ := Lts.Simulation.run sessions_refine hrun hstart
  rwa [journal_run hjournal] at h

/-- The next append is delivered if and only if its entry continues the chain. -/
theorem delivers_iff_continues (h : InSession p s j)
    (hst : Session.Step p s (.appended i r) s') :
    Delivers p s'.fs (j.records ++ [r]) ↔
      ∀ wal, s.objects i = some wal → Continues p s.fs wal r := by
  constructor
  · intro hdelivers wal hwal
    obtain ⟨hclean, hshown⟩ := hdelivers.shown
    rw [← h.records] at hshown
    obtain ⟨-, heffect⟩ := Session.Step.effect h.opened hst
    generalize s'.fs.bytes p = b at heffect hclean hshown
    cases heffect with
    | same hsame =>
      have hnil := congrArg (fun j => j.appended.length) (hsame ⟨[], []⟩)
      cases hnil
    | dropped =>
      have hlength := congrArg List.length hshown
      simp at hlength
    | extended hwal' hvalid hfd hfit =>
      obtain rfl := Option.some.inj (hwal'.symm.trans hwal)
      obtain ⟨hclean', hentry⟩ := entry_of_shown hvalid.1 hfit hclean hshown
      exact ⟨hfd, hclean', hentry⟩
  · intro hcontinues
    have hjoins : Joins p s (.appended i r) := by
      rintro i' r' ⟨⟩ wal hwal
      exact hcontinues wal hwal
    obtain ⟨j', rfl, h'⟩ := sessions_refine h ⟨hjoins, hst⟩
    rw [Journal.records, List.append_assoc]
    exact h'.delivers (by simp [Journal.after])

theorem call_constructed {n : ℕ} (hnone : s.objects i = none) (hempty : s.fs.bytes p = []) :
    (sessions p).step s (.constructed i)
      (s.set i (some (.fresh p n)) (s.fs.put p walHeader)) := by
  have hrun : run posix (construct p n) s.fs = (.ok (.fresh p n), s.fs.put p walHeader) := by
    have hw : wp _ (construct p n) _ _ s.fs := wp_constructNone (m := 0)
    rcases wp_run Faults.allows_posix hw with
      ⟨e, -, -, hne, -⟩ | ⟨hok, ⟨-, hfs⟩ | ⟨hvalid, -⟩⟩
    · exact absurd hempty hne
    · exact Prod.ext hok hfs
    · exact absurd hempty hvalid.ne_nil
  exact .constructed hnone (exec_of_run Faults.allows_posix hrun)

theorem call_appended (hwal : s.objects i = some wal) (hvalid : ValidHeader (s.fs.bytes p))
    (hfd : wal.fd = some p) (hfit : r.Fits) (hepoch : r.epoch = wal.epoch) :
    ∃ wal', wal'.fd = some p ∧ wal'.epoch = wal.epoch ∧
      (sessions p).step s (.appended i r) (s.set i (some wal')
        (s.fs.put p (s.fs.bytes p ++ r.encode wal.headHash wal.seq))) := by
  obtain ⟨type, key, value, timestamp, epoch⟩ := r
  obtain rfl : epoch = wal.epoch := hepoch
  have hx := exec_run (E := (Faults.none 0).env) Faults.allows_posix
    (wal.append type key value timestamp) s.fs
  generalize (run posix (wal.append type key value timestamp) s.fs).1 = result at hx
  generalize (run posix (wal.append type key value timestamp) s.fs).2 = fs' at hx
  obtain ⟨answer, wal'⟩ := result
  obtain ⟨hfd', hepoch', ⟨-, hlong, -⟩ | ⟨-, hclosed, -⟩ | ⟨rfl, -, -, rfl⟩⟩ :=
    exec_append hvalid (.inr hfd) hx
  · exact absurd hfit hlong
  · rw [hfd] at hclosed
    cases hclosed
  · exact ⟨wal', hfd'.trans hfd, hepoch', .appended hwal hx⟩

theorem call_closed (hwal : s.objects i = some wal) (hfd : wal.fd = some p) :
    ∃ wal', wal'.fd = none ∧ wal'.epoch = wal.epoch ∧
      (sessions p).step s (.closed i) (s.set i (some wal') s.fs) := by
  have hx := exec_run (E := (Faults.none 0).env) Faults.allows_posix wal.close s.fs
  obtain ⟨hfd', hfs⟩ := exec_close hx
  have hepoch : (run posix wal.close s.fs).1.epoch = wal.epoch := by
    rw [WAL.close, hfd]
    dsimp only
    split_ifs <;> rfl
  rw [hfs] at hx
  exact ⟨_, hfd', hepoch, .closed hwal hx⟩

/-- A closed object takes every record and writes none. -/
theorem call_appended_closed (hwal : s.objects i = some wal) (hfd : wal.fd = none) (hfit : r.Fits)
    (hepoch : r.epoch = wal.epoch) :
    (sessions p).step s (.appended i r) (s.set i (some wal) s.fs) := by
  obtain ⟨type, key, value, timestamp, epoch⟩ := r
  obtain rfl : epoch = wal.epoch := hepoch
  have happend : wal.append type key value timestamp = ret (.ok (), wal) := by
    rw [append, if_neg (by rw [not_or, not_lt, not_lt]; exact hfit), hfd]
  refine .appended hwal ?_
  rw [happend]
  exact .ret _ _

/-- On a closed object `verify` reports a clean chain. -/
theorem call_verified_closed (hwal : s.objects i = some wal) (hfd : wal.fd = none) :
    (sessions p).step s (.verified i {}) s := by
  have hverify : wal.verify = ret {} := by rw [WAL.verify, hfd]; rfl
  refine .verified hwal ?_
  rw [hverify]
  exact .ret _ _

/-- A log is made, and a record is appended to it. -/
theorem appended_new (hempty : fs.bytes p = []) (hfit : r.Fits) (hepoch : r.epoch = 0) :
    ∃ s wal, ((sessions p).restrict (Joins p)).Run ⟨fun _ => none, fs⟩
      [.constructed 0, .appended 0 r] s ∧ s.objects 0 = some wal ∧ wal.fd = some p ∧
      wal.epoch = 0 := by
  have hnew : (sessions p).step ⟨fun _ => none, fs⟩ (.constructed 0) _ :=
    call_constructed (n := 1) rfl hempty
  have hbytes : (fs.put p walHeader).bytes p = walHeader := FileSystem.bytes_put ..
  set s₁ := Session.set ⟨fun _ => none, fs⟩ 0 (some (.fresh p 1)) (fs.put p walHeader) with hs₁
  have hwal : s₁.objects 0 = some (.fresh p 1) := by rw [hs₁, Session.set_self]
  obtain ⟨wal, hfd, hwalEpoch, happend⟩ := call_appended (r := r) hwal
    (hbytes.symm ▸ validHeader_walHeader) rfl hfit hepoch
  have hjoins : Joins p s₁ (.appended 0 r) := by
    rintro i r' ⟨⟩ wal' hwal'
    obtain rfl := Option.some.inj (hwal.symm.trans hwal')
    refine ⟨rfl, ?_, ?_⟩
    · rw [hs₁, Session.set_fs, hbytes, walkFile_walHeader]
    · rw [hs₁, Session.set_fs, hbytes, walkFile_walHeader]
      rfl
  exact ⟨_, wal, .cons ⟨(by rintro i r' ⟨⟩), hnew⟩ (.single ⟨hjoins, happend⟩),
    Session.set_self .., hfd, hwalEpoch⟩

end Sessions


end LiteSpeedStore
