import LiteSpeedStore.Wal.Session

/-!
# The verifier

`tools/verify.cpp`: a program that opens a log, verifies it and answers with its exit code.  It goes
through the constructor of the log, which writes a header to a file that is empty.

* `readEntry_torn_iff`, `readEntry_tampered_iff` : when the bytes of an entry are torn or fail.
* `longestChain_iff` : the walk finds the longest chain that a file begins with.
* `main_right_iff` : the verifier changes nothing and answers rightly, unless the file is empty.
-/

namespace LiteSpeedStore

/-- The text that an exception carries. -/
def Exception.what : Exception → String
  | lengthError what | runtimeError what => what
  | nullDereference => ""

namespace Verify

open Prog WAL

/-! ### The program -/

/-- How the program ends: its exit code, and what it has printed itself. -/
structure Exit where
  code : ℕ
  printed : String

/-- The bytes of a digest in hexadecimal digits. -/
def toHex (d : Sha256Digest) : String :=
  let hex := "0123456789abcdef".toList
  d.toList.foldl (fun s (b : UInt8) =>
    (s.push (hex.getD (b >>> 4).toNat '0')).push (hex.getD (b &&& 0x0F).toNat '0')) ""

/-- The answer to each outcome of the verification. -/
def report (r : RecoveryResult) : Exit :=
  match r.status with
  | .ok => ⟨0, "OK    chain intact - " ++ toString r.entriesVerified ++ " entries verified\n" ++
      "      head: " ++ toHex r.headHash ++ "\n"⟩
  | .truncatedTail => ⟨0, "WARN  torn tail after " ++ toString r.entriesVerified ++
      " entries (incomplete final write)\n"⟩
  | .malformed => ⟨2, "ERROR field exceeds the size limit at offset " ++ toString r.tamperOffset ++
      " (after " ++ toString r.entriesVerified ++ " valid entries)\n" ++
      "      not tamper evidence: a foreign or stale file\n"⟩
  | .tampered => ⟨1, "FAIL  TAMPERING DETECTED at offset " ++ toString r.tamperOffset ++
      " (after " ++ toString r.entriesVerified ++ " valid entries)\n"⟩

/-- `std::filesystem::exists`, which like opening a stream finds a file or does not, and makes
none. -/
def fileExists (path : Path) : Io Bool := sys (.streamOpen path)

/-- The program on its arguments, the first of them its own name. -/
def main (argv : List String) : Io Exit :=
  match argv with
  | [_, file] => do
    let found ← fileExists file
    if found then do
      match ← WAL.construct file 1 with
      | .error e => ret ⟨2, "error: " ++ e.what ++ "\n"⟩
      | .ok wal => do
        let r ← wal.verify
        -- the log is closed when its scope is left
        let _ ← wal.close
        ret (report r)
    else ret ⟨2, "error: no such file: " ++ file ++ "\n"⟩
  | _ => ret ⟨2, "usage: litespeed-verify <wal-file>\n"⟩

/-! ### What the answers stand for -/

/-- The fields of fixed size of the entry at the start of these bytes. -/
def fixedAt (rest : Bytes) : Bytes := (rest.drop crcSize).take entryFixedSize

def keyLenAt (rest : Bytes) : UInt32 := getLE32 ((fixedAt rest).drop offKeyLen)

def valueLenAt (rest : Bytes) : UInt32 := getLE32 ((fixedAt rest).drop offValueLen)

/-- The lengths can be read, and are not above the limit. -/
def Announced (rest : Bytes) : Prop :=
  crcSize + entryFixedSize ≤ rest.length ∧ keyLenAt rest ≤ kMaxFieldSize ∧
    valueLenAt rest ≤ kMaxFieldSize

/-- The size of the entry with these lengths. -/
def announcedSize (rest : Bytes) : ℕ :=
  crcSize + entryFixedSize + hashSize + (keyLenAt rest).toNat + (valueLenAt rest).toNat

/-- The bytes end before the lengths of an entry, or before the entry that these announce. -/
def Torn (rest : Bytes) : Prop :=
  rest.length < crcSize + entryFixedSize ∨ Announced rest ∧ rest.length < announcedSize rest

/-- The bytes start with all of an entry. -/
def Complete (rest : Bytes) : Prop := Announced rest ∧ announcedSize rest ≤ rest.length

/-- The key of the entry. -/
def keyAt (rest : Bytes) : Bytes :=
  (rest.drop (crcSize + entryFixedSize)).take (keyLenAt rest).toNat

/-- The value of the entry. -/
def valueAt (rest : Bytes) : Bytes :=
  (rest.drop (crcSize + entryFixedSize + (keyLenAt rest).toNat)).take (valueLenAt rest).toNat

/-- The chain hash that is stored with the entry. -/
def hashAt (rest : Bytes) : Bytes :=
  (rest.drop (crcSize + entryFixedSize + (keyLenAt rest).toNat + (valueLenAt rest).toNat)).take
    hashSize

/-- The entry fails its CRC, its chain hash or its sequence number. -/
def Fails (prev : Sha256Digest) (seq : UInt64) (rest : Bytes) : Prop :=
  CRC32.calculate (fixedAt rest ++ keyAt rest ++ valueAt rest ++ hashAt rest) ≠
      getLE32 (rest.take crcSize) ∨
    (chainHash prev (fixedAt rest) (keyAt rest) (valueAt rest)).toList ≠ hashAt rest ∨
    getLE64 ((fixedAt rest).drop offSeq) ≠ seq

/-- The file has the chain of these records behind its header, followed by `tail`, and no longer
chain. -/
structure LongestChain (b : Bytes) (rs : List LogRecord) (tail : Bytes) : Prop where
  fits : ∀ r ∈ rs, r.Fits
  bytes : b.drop kHeaderSize = encodeLog .zero 0 rs ++ tail
  longest : ∀ rs', (∀ r ∈ rs', r.Fits) → encodeLog .zero 0 rs' <+: b.drop kHeaderSize → rs' <+: rs

/-- A valid header, a valid chain, and at most a torn tail. -/
def Intact (b : Bytes) : Prop :=
  ValidHeader b ∧ ∃ rs tail, LongestChain b rs tail ∧ (tail = [] ∨ Torn tail)

/-- A valid header, and behind the longest chain a complete entry that fails. -/
def Tampered (b : Bytes) : Prop :=
  ValidHeader b ∧ ∃ rs tail, LongestChain b rs tail ∧ Complete tail ∧
    Fails (chainHead .zero 0 rs) (UInt64.ofNat rs.length) tail

section Entries

variable {prev : Sha256Digest} {seq : UInt64} {rest : Bytes}

theorem readEntry_eq (prev : Sha256Digest) (seq : UInt64) (rest : Bytes) :
    readEntry prev seq rest =
      if rest.length < crcSize + entryFixedSize then .torn
      else if keyLenAt rest > kMaxFieldSize ∨ valueLenAt rest > kMaxFieldSize then
        .failed .malformed
      else if neededSize (keyLenAt rest) (valueLenAt rest) > rest.length then .torn
      else verifyEntry prev seq (getLE32 (rest.take crcSize)) (fixedAt rest) (keyAt rest)
        (valueAt rest) (hashAt rest) := rfl

theorem announced_iff : Announced rest ↔ ¬rest.length < crcSize + entryFixedSize ∧
    ¬(keyLenAt rest > kMaxFieldSize ∨ valueLenAt rest > kMaxFieldSize) := by
  rw [Announced, not_lt, not_or, gt_iff_lt, gt_iff_lt, UInt32.not_lt, UInt32.not_lt]

theorem announcedSize_eq (rest : Bytes) :
    neededSize (keyLenAt rest) (valueLenAt rest) = announcedSize rest :=
  neededSize_eq ..

/-- The checks of an entry end in a failure, or deliver it. -/
theorem verifyEntry_eq (prev : Sha256Digest) (seq : UInt64) (rest : Bytes) :
    verifyEntry prev seq (getLE32 (rest.take crcSize)) (fixedAt rest) (keyAt rest) (valueAt rest)
        (hashAt rest) = .failed .tampered ∧ Fails prev seq rest ∨
      (∃ r computed, verifyEntry prev seq (getLE32 (rest.take crcSize)) (fixedAt rest)
        (keyAt rest) (valueAt rest) (hashAt rest) = .entry r computed) ∧ ¬Fails prev seq rest := by
  rw [verifyEntry, Fails]
  dsimp only
  split_ifs with hcrc hhash hseq
  · exact .inl ⟨rfl, .inl hcrc⟩
  · exact .inl ⟨rfl, .inr (.inl hhash)⟩
  · exact .inl ⟨rfl, .inr (.inr hseq)⟩
  · exact .inr ⟨⟨_, _, rfl⟩, by simp only [hcrc, hhash, hseq, or_self, not_false_eq_true]⟩

/-- **When an entry is taken for torn.** -/
theorem readEntry_torn_iff : readEntry prev seq rest = .torn ↔ Torn rest := by
  rw [Torn, announced_iff, ← announcedSize_eq, readEntry_eq]
  by_cases hshort : rest.length < crcSize + entryFixedSize
  · simp only [hshort, if_true, true_or]
  rw [if_neg hshort]
  by_cases hover : keyLenAt rest > kMaxFieldSize ∨ valueLenAt rest > kMaxFieldSize
  · simp only [hover, hshort, if_true, reduceCtorEq, not_true_eq_false, and_false, false_and,
      or_self]
  rw [if_neg hover]
  by_cases hneed : neededSize (keyLenAt rest) (valueLenAt rest) > rest.length
  · simp only [hshort, hover, hneed, if_true, not_false_eq_true, and_self, or_true]
  rw [if_neg hneed]
  simp only [hshort, hneed, and_false, or_self, iff_false]
  obtain ⟨h, -⟩ | ⟨⟨r, computed, h⟩, -⟩ := verifyEntry_eq prev seq rest
  · rw [h]
    exact EntryOutcome.noConfusion
  · rw [h]
    exact EntryOutcome.noConfusion

/-- **When an entry is taken for tampered with.** -/
theorem readEntry_tampered_iff :
    readEntry prev seq rest = .failed .tampered ↔ Complete rest ∧ Fails prev seq rest := by
  rw [Complete, announced_iff, ← announcedSize_eq, readEntry_eq]
  by_cases hshort : rest.length < crcSize + entryFixedSize
  · simp only [hshort, if_true, reduceCtorEq, not_true_eq_false, false_and]
  rw [if_neg hshort]
  by_cases hover : keyLenAt rest > kMaxFieldSize ∨ valueLenAt rest > kMaxFieldSize
  · simp only [hover, if_true, EntryOutcome.failed.injEq, reduceCtorEq, not_true_eq_false,
      and_false, false_and]
  rw [if_neg hover]
  by_cases hneed : neededSize (keyLenAt rest) (valueLenAt rest) > rest.length
  · simp only [hneed, if_true, reduceCtorEq, not_le.2 hneed, and_false, false_and]
  rw [if_neg hneed]
  simp only [hshort, hover, not_lt.1 hneed, not_false_eq_true, and_self, true_and]
  obtain ⟨h, hfails⟩ | ⟨⟨r, computed, h⟩, hfails⟩ := verifyEntry_eq prev seq rest
  · simp only [h, hfails]
  · simp only [h, hfails, reduceCtorEq]

end Entries

section Files

variable {b : Bytes}

/-- A chain at the start of the entries is a part of what the walk passes over. -/
theorem prefix_records {rs : List LogRecord} (hfits : ∀ r ∈ rs, r.Fits)
    (h : encodeLog .zero 0 rs <+: b.drop kHeaderSize) : rs <+: (walkFile b).records := by
  obtain ⟨tail, htail⟩ := h
  rw [walkFile, ← htail, walk_encodeLog hfits]
  exact List.prefix_append ..

theorem longestChain_walkFile (b : Bytes) :
    LongestChain b (walkFile b).records (walkFile b).rest where
  fits := (walk_exact .zero 0 (b.drop kHeaderSize)).1
  bytes := (records_append_rest b).symm
  longest _ := prefix_records

/-- **The walk finds the longest chain.** -/
theorem longestChain_iff {rs : List LogRecord} {tail : Bytes} :
    LongestChain b rs tail ↔ rs = (walkFile b).records ∧ tail = (walkFile b).rest := by
  constructor
  · rintro ⟨hfits, hbytes, hlongest⟩
    have hwalk := longestChain_walkFile b
    have hle : rs <+: (walkFile b).records := prefix_records hfits ⟨tail, hbytes.symm⟩
    have hge : (walkFile b).records <+: rs := hlongest _ hwalk.fits ⟨_, hwalk.bytes.symm⟩
    obtain rfl := hle.eq_of_length_le hge.length_le
    exact ⟨rfl, List.append_cancel_left (hbytes.symm.trans hwalk.bytes)⟩
  · rintro ⟨rfl, rfl⟩
    exact longestChain_walkFile b

/-- What is known of the bytes behind the longest chain. -/
theorem says_walkFile (b : Bytes) : (walkFile b).stop.Says (chainHead .zero 0 (walkFile b).records)
    (UInt64.ofNat (walkFile b).records.length) (walkFile b).rest := by
  obtain ⟨-, -, hhead, hseq, hsays⟩ := walk_exact .zero 0 (b.drop kHeaderSize)
  rw [← walkFile] at hhead hseq hsays
  rwa [hhead, hseq, UInt64.zero_add] at hsays

theorem intact_iff : Intact b ↔ ValidHeader b ∧
    ((walkFile b).stop = .clean ∨ (walkFile b).stop = .torn) := by
  have hsays := says_walkFile b
  rw [Intact, and_congr_right_iff]
  intro
  constructor
  · rintro ⟨rs, tail, hchain, htail⟩
    obtain ⟨rfl, rfl⟩ := longestChain_iff.1 hchain
    cases hstop : (walkFile b).stop with
    | clean => exact .inl rfl
    | torn => exact .inr rfl
    | failed status =>
      rw [hstop] at hsays
      have htorn : readEntry (chainHead .zero 0 (walkFile b).records)
          (UInt64.ofNat (walkFile b).records.length) (walkFile b).rest = .torn := by
        refine readEntry_torn_iff.2 (htail.elim (fun h => .inl ?_) id)
        rw [h]
        decide
      cases htorn.symm.trans hsays
  · rintro (hstop | hstop)
    · rw [hstop] at hsays
      exact ⟨_, _, longestChain_walkFile b, .inl hsays⟩
    · rw [hstop] at hsays
      exact ⟨_, _, longestChain_walkFile b, .inr (readEntry_torn_iff.1 hsays.2)⟩

theorem tampered_iff : Tampered b ↔ ValidHeader b ∧ (walkFile b).stop = .failed .tampered := by
  have hsays := says_walkFile b
  rw [Tampered, and_congr_right_iff]
  intro
  constructor
  · rintro ⟨rs, tail, hchain, hcomplete, hfails⟩
    obtain ⟨rfl, rfl⟩ := longestChain_iff.1 hchain
    have hentry := readEntry_tampered_iff.2 ⟨hcomplete, hfails⟩
    cases hstop : (walkFile b).stop with
    | clean =>
      rw [hstop] at hsays
      have hnil : (walkFile b).rest = [] := hsays
      rw [hnil, readEntry, if_pos (by decide)] at hentry
      cases hentry
    | torn =>
      rw [hstop] at hsays
      cases hentry.symm.trans hsays.2
    | failed status =>
      rw [hstop] at hsays
      cases hentry.symm.trans hsays
      rfl
  · intro hstop
    rw [hstop] at hsays
    exact ⟨_, _, longestChain_walkFile b, readEntry_tampered_iff.1 hsays⟩

end Files

/-! ### The runs -/

section Runs

variable {n : ℕ} {p : Path} {fs : FileSystem} {b : Bytes}

/-- The verifier on a file: the header that an empty file gets, or the answer to what is there. -/
theorem wp_main (program : String) (hfs : fs p = some b) :
    wp (Faults.none n).env (main [program, p]) (fun exit fs' =>
      b = [] ∧ exit = report ((walkFile b).result b.length) ∧ fs' = fs.put p walHeader ∨
      b ≠ [] ∧ ¬ValidHeader b ∧ exit.code = 2 ∧ fs' = fs ∨
      ValidHeader b ∧ exit = report ((walkFile b).result b.length) ∧ fs' = fs)
      (fun _ => True) fs := by
  have hopens : ∀ (wal : WAL) (fs' : FileSystem) (b' : Bytes) {Q : Exit → FileSystem → Prop},
      wal.fd = some p → fs' p = some b' → Q (report ((walkFile b').result b'.length)) fs' →
      wp (Faults.none n).env (wal.verify >>= fun r => wal.close >>= fun _ => ret (report r)) Q
        (fun _ => True) fs' := by
    intro wal fs' b' Q hfd hfile hQ
    rw [wp_bind]
    refine wp_verify hfd (Faults.none_readsOk n p) (fun _ => Faults.none_mayFail) hfile trivial ?_
    rw [wp_bind]
    exact wp_close trivial fun _ _ => ⟨trivial, hQ⟩
  rw [main, fileExists]
  refine wp_sys_ok Faults.none_mayFail rfl trivial ?_
  simp only [posix, hfs, Option.isSome_some, if_true]
  rw [wp_bind]
  refine wp_mono wp_constructNone ?_ fun _ h => h
  rw [FileSystem.bytes_of_some hfs]
  rintro result fs' (⟨e, rfl, rfl, hne, hinvalid⟩ | ⟨rfl, ⟨hnew, rfl⟩ | ⟨hvalid, rfl⟩⟩)
  · exact ⟨trivial, .inr (.inl ⟨hne, hinvalid, rfl, rfl⟩)⟩
  · refine hopens _ _ walHeader rfl (FileSystem.put_self ..) (.inl ⟨hnew, ?_, rfl⟩)
    rw [hnew, walkFile_walHeader, walkFile_nil]
    rfl
  · exact hopens _ _ b rfl hfs (.inr (.inr ⟨hvalid, rfl, rfl⟩))

/-- The exit codes say how the walk stopped. -/
theorem report_code (b : Bytes) :
    ((report ((walkFile b).result b.length)).code = 0 ↔
      (walkFile b).stop = .clean ∨ (walkFile b).stop = .torn) ∧
    ((report ((walkFile b).result b.length)).code = 1 ↔ (walkFile b).stop = .failed .tampered) ∧
    ((report ((walkFile b).result b.length)).code = 2 ↔
      ¬((walkFile b).stop = .clean ∨ (walkFile b).stop = .torn) ∧
        (walkFile b).stop ≠ .failed .tampered) := by
  cases hstop : (walkFile b).stop with
  | clean => simp [Walk.result, hstop, report]
  | torn => simp [Walk.result, hstop, report]
  | failed status =>
    rcases walkFile_failed hstop with rfl | rfl <;> simp [Walk.result, hstop, report]

/-- The verifier leaves the bytes of the file as they are, and exits with 0 on an intact file, with
1 on a file that was tampered with, and with 2 on any other. -/
def Right (n : ℕ) (program : String) (p : Path) (fs : FileSystem) (b : Bytes) : Prop :=
  ∀ exit fs', Exec (Faults.none n).env (main [program, p]) fs exit fs' →
    fs' p = some b ∧ (exit.code = 0 ↔ Intact b) ∧ (exit.code = 1 ↔ Tampered b) ∧
      (exit.code = 2 ↔ ¬Intact b ∧ ¬Tampered b)

/-- An empty file gets a header, and is taken for a log. -/
theorem exec_main_nil {program : String} {exit : Exit} {fs' : FileSystem} (hfs : fs p = some [])
    (hx : Exec (Faults.none n).env (main [program, p]) fs exit fs') :
    exit.code = 0 ∧ fs' p = some walHeader := by
  rcases wp_exec (wp_main program hfs) hx with ⟨-, rfl, rfl⟩ | ⟨hne, -⟩ | ⟨hvalid, -⟩
  · rw [walkFile_nil]
    exact ⟨rfl, FileSystem.put_self ..⟩
  · exact absurd rfl hne
  · exact absurd rfl hvalid.ne_nil

/-- **The verifier is right unless the file is empty.** -/
theorem right_iff (n : ℕ) (program : String) (hfs : fs p = some b) :
    Right n program p fs b ↔ b ≠ [] := by
  constructor
  · rintro hright rfl
    obtain ⟨exit, fs', hx⟩ : ∃ exit fs', Exec (Faults.none n).env (main [program, p]) fs exit fs' :=
      ⟨_, _, exec_run Faults.allows_posix _ _⟩
    have hsame := (hright exit fs' hx).1
    rw [(exec_main_nil hfs hx).2] at hsame
    cases hsame
  · intro hne exit fs' hx
    rw [intact_iff, tampered_iff]
    rcases wp_exec (wp_main program hfs) hx with ⟨h, -⟩ | ⟨-, hinvalid, hcode, rfl⟩ |
      ⟨hvalid, rfl, rfl⟩
    · exact absurd h hne
    · simp only [hfs, hinvalid, hcode, false_and, not_false_eq_true, and_self]
      simp
    · obtain ⟨h0, h1, h2⟩ := report_code b
      simp only [hfs, hvalid, h0, h1, h2, true_and, and_self]

theorem right_iff_walHeader :
    Right 0 "litespeed-verify" "a" (FileSystem.put (fun _ => none) "a" walHeader) walHeader :=
  (right_iff 0 "litespeed-verify" (FileSystem.put_self ..)).2 (by decide)

/-- The verifier writes to an empty file, and calls it intact. -/
theorem right_fails : ∃ exit fs', Exec (Faults.none 0).env (main ["litespeed-verify", "a"])
      (FileSystem.put (fun _ => none) "a" []) exit fs' ∧
    exit.code = 0 ∧ fs' "a" = some walHeader ∧ ¬Intact [] ∧
    ¬Right 0 "litespeed-verify" "a" (FileSystem.put (fun _ => none) "a" []) [] := by
  have hfs := FileSystem.put_self (fun _ => none) "a" []
  obtain ⟨exit, fs', hx⟩ : ∃ exit fs', Exec (Faults.none 0).env (main ["litespeed-verify", "a"])
      (FileSystem.put (fun _ => none) "a" []) exit fs' :=
    ⟨_, _, exec_run Faults.allows_posix _ _⟩
  obtain ⟨hcode, hfile⟩ := exec_main_nil hfs hx
  refine ⟨exit, fs', hx, hcode, hfile, fun h => h.1.ne_nil rfl, fun hright => ?_⟩
  have hsame := (hright exit fs' hx).1
  rw [hfile] at hsame
  cases hsame

end Runs

end Verify

end LiteSpeedStore
