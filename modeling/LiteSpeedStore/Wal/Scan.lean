import LiteSpeedStore.Wal.Entry

/-!
# What a log can make its reader do

The lengths that `recover` and `verify` ask for are read from the file.  Whatever is in it, and
whatever the calls answer (reads may fail, deliver less than they should or bytes that were not
there before, and the size may be wrong), the walk is one scan of the file.

* `Scan` : the reads follow one on another, none asks for more than a field may be long, and those
  whose length is taken from the file stay within its size.
* `wp_readExactScan`, `wp_walkEntryScan`, `wp_walkLoopScan` : the steps of the scan.
* `walk_scans` : what `recover` and `verify` call, and how often.
-/

namespace LiteSpeedStore

open Prog WAL

/-- A call and its answer. -/
abbrev Answered := Σ c : Call, Res c

/-- Every call can be answered in any way.  The calls and their answers are kept, the last first. -/
def anyAnswers : Env Res (List Answered) where
  step c before r after := after = ⟨c, r⟩ :: before

/-- The number of bytes that were read. -/
def delivered : List Answered → ℕ
  | [] => 0
  | ⟨.read _ _ _, some b⟩ :: before => delivered before + b.val.length
  | _ :: before => delivered before

/-- A scan of the file can go on with this call.  It may cut the file off between the header and
what was read, if it may change it at all; a length below zero is refused by the system. -/
def ScanCall (allowTruncate : Bool) (p : Path) (before : List Answered) : Call → Prop
  | .fstat q => q = p ∧ before = []
  | .lseek q _ _ => q = p
  | .read q pos len => q = p ∧ pos = kHeaderSize + delivered before ∧
      (len ≤ entryFixedSize ∨ len ≤ kMaxFieldSize.toNat ∧
        ∃ size, ⟨.fstat p, some size⟩ ∈ before ∧ pos + len ≤ size)
  | .ftruncate q len => allowTruncate ∧ q = p ∧
      (len = -1 ∨ (kHeaderSize : ℤ) ≤ len ∧ len ≤ (kHeaderSize + delivered before : ℕ))
  | _ => False

/-- The calls are those of a scan of the file. -/
def Scan (allowTruncate : Bool) (p : Path) : List Answered → Prop
  | [] => True
  | ⟨c, _⟩ :: before => ScanCall allowTruncate p before c ∧ Scan allowTruncate p before

/-- Where a scan can be stopped: the number of calls is linear in the size that was told. -/
def Bounded (allowTruncate : Bool) (p : Path) (calls : List Answered) : Prop :=
  Scan allowTruncate p calls ∧
    (calls.length ≤ 1 ∨ ∃ size, ⟨.fstat p, some size⟩ ∈ calls ∧ calls.length ≤ 2 * size + 26)

section Scans

variable {allowTruncate : Bool} {p : Path} {size k pos len : ℕ} {calls calls' : List Answered}
  {α σ : Type} {C : List Answered → Prop} {Q : α → List Answered → Prop}

/-- The scan has come to `pos`; not counting `k` calls, each has read a byte. -/
structure Scanning (allowTruncate : Bool) (p : Path) (size k pos : ℕ) (calls : List Answered) :
    Prop where
  scan : Scan allowTruncate p calls
  told : ⟨.fstat p, some size⟩ ∈ calls
  place : pos = kHeaderSize + delivered calls
  calls : calls.length ≤ delivered calls + k

/-- The scan is over, and the file can be cut off at `place`. -/
structure Halted (allowTruncate : Bool) (p : Path) (size : ℕ) (place : ℤ) (calls : List Answered) :
    Prop where
  scan : Scan allowTruncate p calls
  told : ⟨.fstat p, some size⟩ ∈ calls
  place : place = -1 ∨ (kHeaderSize : ℤ) ≤ place ∧ place ≤ (kHeaderSize + delivered calls : ℕ)
  calls : calls.length ≤ 2 * size + 24

theorem wp_any {c : Call} {f : Res c → Io α} (hC : C calls)
    (h : ∀ r, wp anyAnswers (f r) Q C (⟨c, r⟩ :: calls)) :
    wp anyAnswers (sys c >>= f) Q C calls := by
  refine ⟨hC, ?_⟩
  rintro r _ rfl
  exact h r

theorem Halted.bounded {place : ℤ} (h : Halted allowTruncate p size place calls) :
    Bounded allowTruncate p calls :=
  ⟨h.scan, .inr ⟨size, h.told, h.calls.trans (by omega)⟩⟩

/-- A scan that has not gone far behind the size can stop, at its place or at one before it. -/
theorem Scanning.halted (h : Scanning allowTruncate p size k pos calls) (hk : k ≤ size + 2)
    (hpos : pos ≤ size + 37) {start : ℕ} (hstart : kHeaderSize ≤ start) (hle : start ≤ pos) :
    Halted allowTruncate p size start calls := by
  have hplace := h.place
  have hcalls := h.calls
  refine ⟨h.scan, h.told, .inr ⟨by omega, by omega⟩, ?_⟩
  rw [kHeaderSize] at hplace
  omega

/-- One more read, of nothing. -/
theorem Scanning.stop (h : Scanning allowTruncate p size k pos calls) (hk : k ≤ size + 2)
    (hpos : pos ≤ size + 37) {start : ℕ} (hstart : kHeaderSize ≤ start) (hle : start ≤ pos)
    (hcall : ScanCall allowTruncate p calls (.read p pos len)) {r : Res (.read p pos len)}
    (hr : delivered (⟨.read p pos len, r⟩ :: calls) = delivered calls) :
    Halted allowTruncate p size start (⟨.read p pos len, r⟩ :: calls) := by
  have hplace := h.place
  have hcalls := h.calls
  refine ⟨⟨hcall, h.scan⟩, List.mem_cons_of_mem _ h.told, .inr ⟨by omega, by omega⟩, ?_⟩
  rw [kHeaderSize] at hplace
  rw [List.length_cons]
  omega

/-- One more read, of a part of what was asked for. -/
theorem Scanning.more (h : Scanning allowTruncate p size k pos calls)
    (hcall : ScanCall allowTruncate p calls (.read p pos len)) {b : Bytes} (hb : b.length ≤ len)
    (hz : b.length ≠ 0) : Scanning allowTruncate p size k (pos + b.length)
      (⟨.read p pos len, some ⟨b, hb⟩⟩ :: calls) := by
  have hplace := h.place
  have hcalls := h.calls
  have hdelivered : delivered (⟨.read p pos len, some ⟨b, hb⟩⟩ :: calls) =
      delivered calls + b.length := rfl
  refine ⟨⟨hcall, h.scan⟩, List.mem_cons_of_mem _ h.told, ?_, ?_⟩
  · rw [hdelivered]
    omega
  · rw [hdelivered, List.length_cons]
    omega

/-- **`readExact` in a scan** that has read an entry from `start` to `pos`: it has read all, or the
scan is over. -/
theorem wp_readExactScan (h : Scanning allowTruncate p size k pos calls) (hk : k ≤ size + 2)
    {start : ℕ} (hstart : kHeaderSize ≤ start) (hle : start ≤ pos) (hend : pos + len ≤ size + 37)
    (hlen : len ≤ entryFixedSize ∨ len ≤ kMaxFieldSize.toNat ∧ pos + len ≤ size) :
    wp anyAnswers (readExact p pos len)
      (fun result calls' => (∀ d, result = some d → d.length = len ∧
          Scanning allowTruncate p size k (pos + len) calls') ∧
        (result = none → Halted allowTruncate p size start calls'))
      (Bounded allowTruncate p) calls := by
  induction len using Nat.strong_induction_on generalizing pos calls with
  | _ len ih =>
    have hC := (h.halted hk (by omega) hstart hle).bounded
    have hcall : ScanCall allowTruncate p calls (.read p pos len) :=
      ⟨rfl, h.place, hlen.imp_right fun hlen => ⟨hlen.1, size, h.told, hlen.2⟩⟩
    rw [readExact]
    split_ifs with h0
    · subst h0
      refine ⟨hC, ?_, by rintro ⟨⟩⟩
      rintro d ⟨⟩
      exact ⟨rfl, h⟩
    · refine ⟨hC, ?_⟩
      rintro r _ rfl
      rcases r with _ | ⟨b, hb⟩
      · -- the read failed
        have hstop := h.stop hk (by omega) hstart hle hcall (r := none) rfl
        exact ⟨hstop.bounded, by rintro _ ⟨⟩, fun _ => hstop⟩
      · dsimp only
        split_ifs with hz
        · have hstop := h.stop hk (by omega) hstart hle hcall (r := some ⟨b, hb⟩)
            (by rw [delivered, hz, Nat.add_zero])
          exact ⟨hstop.bounded, by rintro _ ⟨⟩, fun _ => hstop⟩
        · have hlen' : len - b.length ≤ entryFixedSize ∨
              len - b.length ≤ kMaxFieldSize.toNat ∧ pos + b.length + (len - b.length) ≤ size := by
            rcases hlen with hlen | ⟨hmax, hin⟩
            · exact .inl (by omega)
            · exact .inr ⟨by omega, by omega⟩
          have hpos : pos + b.length + (len - b.length) = pos + len := by omega
          rw [wp_bind]
          refine wp_mono (ih (len - b.length) (by omega) (h.more hcall hb hz) (by omega) (by omega)
            hlen') ?_ fun _ h => h
          rintro rest calls' ⟨hsome, hnone⟩
          rcases rest with _ | rest
          · exact ⟨(hnone rfl).bounded, by rintro _ ⟨⟩, fun _ => hnone rfl⟩
          · obtain ⟨hrest, hscan⟩ := hsome rest rfl
            rw [hpos] at hscan
            refine ⟨(hscan.halted hk hend hstart (by omega)).bounded, ?_, by rintro ⟨⟩⟩
            rintro d ⟨⟩
            exact ⟨by rw [List.length_append, hrest]; omega, hscan⟩

/-- A program that reads a part of an entry and goes on. -/
theorem wp_readNext (h : Scanning allowTruncate p size k pos calls) (hk : k ≤ size + 2)
    {start : ℕ} (hstart : kHeaderSize ≤ start) (hle : start ≤ pos) (hend : pos + len ≤ size + 37)
    (hlen : len ≤ entryFixedSize ∨ len ≤ kMaxFieldSize.toNat ∧ pos + len ≤ size)
    {f : Option Bytes → Io α}
    (hnone : ∀ calls', Halted allowTruncate p size start calls' →
      wp anyAnswers (f none) Q (Bounded allowTruncate p) calls')
    (hsome : ∀ d calls', d.length = len → Scanning allowTruncate p size k (pos + len) calls' →
      wp anyAnswers (f (some d)) Q (Bounded allowTruncate p) calls') :
    wp anyAnswers (readExact p pos len >>= f) Q (Bounded allowTruncate p) calls := by
  rw [wp_bind]
  refine wp_mono (wp_readExactScan h hk hstart hle hend hlen) ?_ fun _ h => h
  rintro result calls' ⟨hs, hn⟩
  rcases result with _ | d
  · exact hnone calls' (hn rfl)
  · obtain ⟨hd, hscan⟩ := hs d rfl
    exact hsome d calls' hd hscan

/-- What the body of the loop leaves behind at `pos`: a whole entry, or the end of the scan. -/
def EntryScanned (allowTruncate : Bool) (p : Path) (size k pos : ℕ) :
    EntryOutcome → List Answered → Prop
  | .entry r _, calls => pos + r.size ≤ size ∧
      Scanning allowTruncate p size k (pos + r.size) calls
  | _, calls => Halted allowTruncate p size pos calls

/-- A verified entry has the key and the value that were read. -/
theorem verifyEntry_size {prev : Sha256Digest} {seq : UInt64} {crc : UInt32}
    {fixed key value hash : Bytes} {r : LogRecord} {computed : Sha256Digest}
    (h : verifyEntry prev seq crc fixed key value hash = .entry r computed) :
    r.size = crcSize + entryFixedSize + key.length + value.length + hashSize := by
  rw [verifyEntry] at h
  split_ifs at h
  cases h
  rfl

/-- **The body of the loop in a scan**. -/
theorem wp_walkEntryScan (h : Scanning allowTruncate p size k pos calls) (hk : k ≤ size + 2)
    (hpos : pos < size) (prev : Sha256Digest) (seq : UInt64) :
    wp anyAnswers (walkEntry p size pos prev seq) (EntryScanned allowTruncate p size k pos)
      (Bounded allowTruncate p) calls := by
  have hhead : kHeaderSize ≤ pos := by
    have hplace := h.place
    omega
  have htorn : ∀ calls', Halted allowTruncate p size pos calls' →
      wp anyAnswers (ret EntryOutcome.torn) (EntryScanned allowTruncate p size k pos)
        (Bounded allowTruncate p) calls' := fun _ hhalt => ⟨hhalt.bounded, hhalt⟩
  have hcrc : crcSize = 4 := rfl
  have hfix : entryFixedSize = 33 := rfl
  have hhash : hashSize = 32 := rfl
  rw [walkEntry]
  refine wp_readNext h hk hhead le_rfl (by omega) (.inl (by omega)) htorn fun crc _ _ h₁ => ?_
  refine wp_readNext h₁ hk hhead (by omega) (by omega) (.inl le_rfl) htorn
    fun fixed calls₂ _ h₂ => ?_
  have hhalt₂ := h₂.halted hk (by omega) hhead (by omega)
  dsimp only
  generalize getLE32 (fixed.drop offKeyLen) = keyLen
  generalize getLE32 (fixed.drop offValueLen) = valueLen
  split_ifs with hover hneed
  · exact ⟨hhalt₂.bounded, hhalt₂⟩
  · exact ⟨hhalt₂.bounded, hhalt₂⟩
  · -- the rest of the entry is within the size that was told
    rw [neededSize_eq] at hneed
    rw [not_or, gt_iff_lt, gt_iff_lt, UInt32.not_lt, UInt32.not_lt, UInt32.le_iff_toNat_le,
      UInt32.le_iff_toNat_le] at hover
    refine wp_readNext h₂ hk hhead (by omega) (by omega) (.inr ⟨hover.1, by omega⟩) htorn
      fun key _ hkey h₃ => ?_
    refine wp_readNext h₃ hk hhead (by omega) (by omega) (.inr ⟨hover.2, by omega⟩) htorn
      fun value _ hvalue h₄ => ?_
    refine wp_readNext h₄ hk hhead (by omega) (by omega) (.inl (by omega)) htorn
      fun hash calls₅ _ h₅ => ?_
    have hhalt₅ := h₅.halted hk (by omega) hhead (by omega)
    refine ⟨hhalt₅.bounded, ?_⟩
    generalize hout : verifyEntry prev seq (getLE32 crc) fixed key value hash = outcome
    cases outcome with
    | torn => exact hhalt₅
    | failed status => exact hhalt₅
    | entry r computed =>
      have hsize := verifyEntry_size hout
      have hplace : pos + crcSize + entryFixedSize + keyLen.toNat + valueLen.toNat + hashSize =
          pos + r.size := by omega
      rw [hplace] at h₅
      exact ⟨by omega, h₅⟩

/-- Where the loop has come to. -/
def WAL.LoopExit.place : LoopExit σ → ℤ
  | .failed _ pos _ => pos
  | .done _ currentPos _ => currentPos

/-- **The loop in a scan**: with every entry there is one call that reads nothing. -/
theorem wp_walkLoopScan (visitor : Option (Visitor σ)) (m : Option UInt64) (st : WalkState σ)
    (h : Scanning allowTruncate p size (delivered calls + 2) pos calls) (hpos : pos ≤ size + 16) :
    wp anyAnswers (walkLoop p size visitor m pos st)
      (fun exit calls' => Halted allowTruncate p size exit.place calls')
      (Bounded allowTruncate p) calls := by
  induction hn : size - pos using Nat.strong_induction_on generalizing pos st calls with
  | _ n ih =>
    have hplace := h.place
    have hk : delivered calls + 2 ≤ size + 2 := by
      rw [kHeaderSize] at hplace
      omega
    rw [walkLoop]
    split_ifs with hlt
    · rw [wp_bind]
      refine wp_mono (wp_walkEntryScan h hk hlt _ _) ?_ fun _ h => h
      intro outcome calls₁ hscanned
      cases outcome with
      | torn => exact ⟨hscanned.bounded, hscanned⟩
      | failed status => exact ⟨hscanned.bounded, hscanned⟩
      | entry r computed =>
        obtain ⟨hin, h₁⟩ := hscanned
        have hsize0 := r.size_pos
        have hplace₁ := h₁.place
        have hcalls₁ := h₁.calls
        have hhalt₁ := h₁.halted hk (by omega) (by omega) le_rfl
        refine wp_any hhalt₁.bounded fun told => ?_
        -- the entry was not empty, and pays for the call that tells the offset
        have h₂ : Scanning allowTruncate p size (delivered calls₁ + 2) (pos + r.size)
            (⟨.lseek p 0 .cur, told⟩ :: calls₁) :=
          ⟨⟨rfl, h₁.scan⟩, List.mem_cons_of_mem _ h₁.told, hplace₁, by
            rw [List.length_cons]
            change _ ≤ delivered calls₁ + _
            omega⟩
        have hk₂ : delivered calls₁ + 2 ≤ size + 2 := by
          rw [kHeaderSize] at hplace₁
          omega
        have hhalt₂ := h₂.halted hk₂ (by omega) (by omega) le_rfl
        cases told
        · exact ⟨hhalt₂.bounded, hhalt₂.scan, hhalt₂.told, .inl rfl, hhalt₂.calls⟩
        · exact ih (size - (pos + r.size)) (by omega) _ h₂ (by omega) rfl
    · have hhalt := h.halted hk (by omega) (by omega) le_rfl
      exact ⟨hhalt.bounded, hhalt⟩

/-- **The walk along the chain** is a scan. -/
theorem wp_walkChainScan (visitor : Option (Visitor σ)) (m : Option UInt64) (s : σ) :
    wp anyAnswers (walkChain (some p) visitor m allowTruncate s)
      (fun _ calls' => Bounded allowTruncate p calls') (Bounded allowTruncate p) [] := by
  have hone : ∀ r : Option ℕ, Bounded allowTruncate p [⟨.fstat p, r⟩] :=
    fun r => ⟨⟨⟨rfl, rfl⟩, trivial⟩, .inl le_rfl⟩
  rw [walkChain]
  refine wp_any ⟨trivial, .inl (Nat.zero_le 1)⟩ fun told => ?_
  rcases told with _ | size
  · exact ⟨hone none, hone none⟩
  · refine wp_any (hone _) fun sought => ?_
    have h : Scanning allowTruncate p size 2 kHeaderSize
        [⟨.lseek p kHeaderSize .set, sought⟩, ⟨.fstat p, some size⟩] :=
      ⟨⟨rfl, ⟨rfl, rfl⟩, trivial⟩, List.mem_cons_of_mem _ List.mem_cons_self, rfl, le_rfl⟩
    have hhead : kHeaderSize ≤ size + 16 := Nat.le_add_left ..
    have hhalt := h.halted (Nat.le_add_left ..) (hhead.trans (by omega)) le_rfl le_rfl
    by_cases hsought : sought = true
    · rw [if_pos hsought, wp_bind]
      refine wp_mono (wp_walkLoopScan visitor m _ h hhead) ?_ fun _ h => h
      intro exit calls₁ h₁
      rcases exit with _ | ⟨torn, currentPos, st⟩
      · exact ⟨h₁.bounded, h₁.bounded⟩
      · cases torn
        · exact ⟨h₁.bounded, h₁.bounded⟩
        · dsimp only
          rw [if_pos rfl]
          split_ifs with hallow
          · -- the torn tail is cut off, and the offset set behind what is left
            refine wp_any h₁.bounded fun cut => ?_
            have hcut : Scan allowTruncate p (⟨.ftruncate p currentPos, cut⟩ :: calls₁) :=
              ⟨⟨hallow, rfl, h₁.place⟩, h₁.scan⟩
            have hcalls₁ := h₁.calls
            refine wp_any ⟨hcut, .inr ⟨size, List.mem_cons_of_mem _ h₁.told, ?_⟩⟩ fun sought => ?_
            · rw [List.length_cons]
              omega
            · have hend : Bounded allowTruncate p
                  (⟨.lseek p 0 .fromEnd, sought⟩ :: ⟨.ftruncate p currentPos, cut⟩ :: calls₁) := by
                refine ⟨⟨rfl, hcut⟩, .inr ⟨size,
                  List.mem_cons_of_mem _ (List.mem_cons_of_mem _ h₁.told), ?_⟩⟩
                rw [List.length_cons, List.length_cons]
                omega
              exact ⟨hend, hend⟩
          · exact ⟨h₁.bounded, h₁.bounded⟩
    · rw [if_neg hsought]
      exact ⟨hhalt.bounded, hhalt.bounded⟩

/-- **What a log can make its reader do**: whatever the file holds and whatever the calls answer,
`recover` and `verify` make the calls of one scan of the file, their number is linear in the size
that was told, and `verify` changes nothing. -/
theorem walk_scans {wal : WAL} (hfd : wal.fd = some p) :
    (∀ (visitor : Visitor σ) (m : Option UInt64) (s : σ) (calls : List Answered),
      Crash anyAnswers (wal.recover visitor m s) [] calls → Bounded true p calls) ∧
    ∀ calls, Crash anyAnswers wal.verify [] calls → Bounded false p calls := by
  refine ⟨fun visitor m s calls hcrash => ?_, fun calls hcrash => ?_⟩
  · refine wp_crash (Q := fun _ => Bounded true p) ?_ hcrash
    rw [WAL.recover, hfd, wp_bind]
    refine wp_mono (wp_walkChainScan (some visitor) m s) ?_ fun _ h => h
    rintro ⟨result, s'⟩ calls' h
    dsimp only
    split_ifs
    · exact ⟨h, h⟩
    · exact ⟨h, h⟩
  · refine wp_crash (Q := fun _ => Bounded false p) ?_ hcrash
    rw [WAL.verify, hfd, wp_bind]
    refine wp_mono (wp_walkChainScan none none ()) ?_ fun _ h => h
    rintro ⟨result, _⟩ calls' h
    exact ⟨h, h⟩

/-- A log whose first read fails is cut off behind its header. -/
theorem walk_scans_unread : Bounded true "w" [⟨.ftruncate "w" 16, true⟩, ⟨.read "w" 16 4, none⟩,
    ⟨.lseek "w" 16 .set, true⟩, ⟨.fstat "w", some 1000⟩] := by
  have hfd : ({ path := "w", fd := some "w" } : WAL).fd = some "w" := rfl
  refine (walk_scans hfd).1 (fun _ _ _ _ (_ : Unit) => ()) none () _ ?_
  rw [WAL.recover, walkChain]
  refine .call (r := some 1000) rfl (.call (r := true) rfl ?_)
  change Crash anyAnswers
    (walkLoop "w" 1000 _ none kHeaderSize ⟨.zero, 0, ()⟩ >>= _ >>= _) _ _
  rw [walkLoop, if_pos (by decide), walkEntry, readExact, if_neg (by decide)]
  exact .call (r := none) rfl (.call (r := true) rfl (.here _ _))

end Scans

end LiteSpeedStore
