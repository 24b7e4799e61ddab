import LiteSpeedStore.Wal.Walk
import LiteSpeedStore.Theory.Interleave

/-!
# The calls of the log's methods

Which system calls a method can make, whatever they answer.

* `only_walkChain` : the walk along the chain looks at its file, and cuts it if it may.
* `only_construct`, `only_close` : the other methods that a reader of the log uses.
-/

namespace LiteSpeedStore

open Prog WAL

/-- A call that looks at the file. -/
def LooksAt (p : Path) : Call → Prop
  | .fstat q | .lseek q _ _ | .read q _ _ => q = p
  | _ => False

section Calls

variable {p : Path} {α : Type} {σ : Type} {P : Call → Prop} {Q : α → Prop}

theorem only_sys {c : Call} {f : Res c → Io α} (hc : P c) (hf : ∀ r, (f r).Only P Q) :
    (sys c >>= f).Only P Q := ⟨hc, hf⟩

theorem only_writeExact (hP : ∀ data, P (.write p data)) (data : Bytes) :
    (writeExact p data).Only P fun _ => True := by
  induction hn : data.length using Nat.strong_induction_on generalizing data with
  | _ n ih =>
    rw [writeExact]
    split_ifs with h0
    · exact trivial
    · refine ⟨hP data, fun r => ?_⟩
      rcases r with _ | rc
      · exact trivial
      · dsimp only
        split_ifs with hrc
        · exact trivial
        · exact ih (data.drop rc).length (by rw [List.length_drop]; omega) _ rfl

theorem only_readExact (hP : ∀ c, LooksAt p c → P c) (pos size : ℕ) :
    (readExact p pos size).Only P fun _ => True := by
  induction size using Nat.strong_induction_on generalizing pos with
  | _ size ih =>
    rw [readExact]
    split_ifs with h0
    · exact trivial
    · refine ⟨hP _ rfl, fun r => ?_⟩
      rcases r with _ | ⟨d, hd⟩
      · exact trivial
      · dsimp only
        split_ifs with hz
        · exact trivial
        · exact only_bind (ih _ (by omega) _) fun _ _ => trivial

theorem only_writeHeader (hwrite : ∀ data, P (.write p data)) (hsync : P (.fsync p)) :
    (writeHeader p).Only P fun _ => True := by
  rw [writeHeader]
  refine only_bind (only_writeExact hwrite _) fun written _ => ?_
  cases written
  · exact trivial
  · exact ⟨hsync, fun _ => trivial⟩

theorem only_validateHeader (hP : ∀ c, LooksAt p c → P c) :
    (validateHeader p).Only P fun _ => True := by
  rw [validateHeader]
  refine only_sys (hP _ rfl) fun sought => ?_
  cases sought
  · exact trivial
  · refine only_bind (only_readExact hP ..) fun header _ => ?_
    rcases header with _ | header
    · exact trivial
    · dsimp only
      split_ifs
      · exact trivial
      · exact trivial
      · exact trivial

theorem only_walkEntry (hP : ∀ c, LooksAt p c → P c) (stSize pos : ℕ) (prev : Sha256Digest)
    (seq : UInt64) : (walkEntry p stSize pos prev seq).Only P fun _ => True := by
  have hread : ∀ (pos size : ℕ) (f : Option Bytes → Io EntryOutcome),
      (f none).Only P (fun _ => True) → (∀ d, (f (some d)).Only P fun _ => True) →
      (readExact p pos size >>= f).Only P fun _ => True := by
    intro pos size f hnone hsome
    refine only_bind (only_readExact hP pos size) fun d _ => ?_
    cases d
    · exact hnone
    · exact hsome _
  rw [walkEntry]
  refine hread _ _ _ trivial fun crc => hread _ _ _ trivial fun fixed => ?_
  dsimp only
  split_ifs
  · exact trivial
  · exact trivial
  · exact hread _ _ _ trivial fun key => hread _ _ _ trivial fun value =>
      hread _ _ _ trivial fun hash => trivial

/-- The place of a torn entry is not the start of the file. -/
theorem only_walkLoop (hP : ∀ c, LooksAt p c → P c) (stSize : ℕ) {pos : ℕ} (hpos : 0 < pos)
    (visitor : Option (Visitor σ)) (m : Option UInt64) (st : WalkState σ) :
    (walkLoop p stSize visitor m pos st).Only P
      fun exit => ∀ currentPos st', exit = .done true currentPos st' → currentPos ≠ 0 := by
  have htorn : ∀ (currentPos : ℤ) (st₁ : WalkState σ), currentPos ≠ 0 →
      ∀ currentPos' st', LoopExit.done true currentPos st₁ = .done true currentPos' st' →
      currentPos' ≠ 0 := by
    rintro currentPos st₁ h _ _ ⟨⟩
    exact h
  induction hn : stSize - pos using Nat.strong_induction_on generalizing pos st with
  | _ n ih =>
    rw [walkLoop]
    split_ifs with hlt
    · refine only_bind (only_walkEntry hP ..) fun outcome _ => ?_
      cases outcome with
      | torn => exact htorn _ _ (Int.natCast_ne_zero.2 hpos.ne')
      | failed status => rintro _ _ ⟨⟩
      | entry r computed =>
        have hsize0 := r.size_pos
        refine only_sys (hP _ rfl) fun told => ?_
        cases told
        · exact htorn _ _ (by decide)
        · exact ih (stSize - (pos + r.size)) (by omega) (Nat.add_pos_left hpos _) _ rfl
    · rintro _ _ ⟨⟩

/-- **The walk along the chain** looks at its file, and cuts it if it may, but not to nothing. -/
theorem only_walkChain (hP : ∀ c, LooksAt p c → P c) (visitor : Option (Visitor σ))
    (m : Option UInt64) {allowTruncate : Bool}
    (hcut : allowTruncate → ∀ n, n ≠ 0 → P (.ftruncate p n))
    (s : σ) : (walkChain (some p) visitor m allowTruncate s).Only P fun _ => True := by
  rw [walkChain]
  refine only_sys (hP _ rfl) fun size => ?_
  rcases size with _ | size
  · exact trivial
  · refine only_sys (hP _ rfl) fun sought => ?_
    by_cases hsought : sought = true
    · rw [if_pos hsought]
      refine only_bind (only_walkLoop hP _ (by decide) ..) fun exit hexit => ?_
      rcases exit with _ | ⟨torn, currentPos, st⟩
      · exact trivial
      · cases torn
        · exact trivial
        · dsimp only
          rw [if_pos rfl]
          split_ifs with hallow
          · exact only_sys (hcut hallow _ (hexit _ _ rfl)) fun _ => only_sys (hP _ rfl)
              fun _ => trivial
          · exact trivial
    · rw [if_neg hsought]
      exact trivial

theorem only_recover (hP : ∀ c, LooksAt p c → P c) (hcut : ∀ n, n ≠ 0 → P (.ftruncate p n))
    {wal : WAL} (hfd : wal.fd = some p) (visitor : Visitor σ) (m : Option UInt64) (s : σ) :
    (wal.recover visitor m s).Only P fun result => result.2.1.fd = some p := by
  rw [WAL.recover, hfd]
  refine only_bind (only_walkChain hP (some visitor) m (fun _ => hcut) s) fun result _ => ?_
  dsimp only
  split_ifs
  · exact rfl
  · exact hfd

/-- What the constructor makes is open on the file. -/
theorem only_construct (hP : ∀ c, LooksAt p c → P c) (hopen : P (.openAppend p))
    (hwrite : ∀ data, P (.write p data)) (hsync : P (.fsync p)) (hclose : P (.close p)) (n : ℕ) :
    (construct p n).Only P fun result => ∀ wal, result = .ok wal → wal.fd = some p := by
  have hok : ∀ wal₀ : WAL, wal₀.fd = some p → ∀ wal : WAL,
      (Except.ok wal₀ : Except Exception WAL) = .ok wal → wal.fd = some p :=
    fun _ hfd wal h => Except.ok.inj h ▸ hfd
  have hgiveUp : ∀ what, Prog.Only P
      (fun result : Except Exception WAL => ∀ wal, result = .ok wal → wal.fd = some p) (do
        let _ ← sys (.close p)
        ret (.error (.runtimeError (what ++ p)))) :=
    fun what => only_sys hclose fun _ => by rintro wal ⟨⟩
  rw [construct]
  refine only_sys hopen fun opened => ?_
  cases opened
  · rintro wal ⟨⟩
  · refine only_sys (hP _ rfl) fun size => ?_
    rcases size with _ | size
    · exact hgiveUp _
    · dsimp only
      by_cases hnew : size = 0
      · rw [if_pos hnew]
        refine only_bind (only_writeHeader hwrite hsync) fun written _ => ?_
        cases written
        · exact hgiveUp _
        · exact hok _ rfl
      · rw [if_neg hnew]
        refine only_bind (only_validateHeader hP) fun valid _ => ?_
        cases valid
        · exact hgiveUp _
        · exact hok _ rfl

/-- `append` leaves the descriptor alone. -/
theorem only_append (hwrite : ∀ data, P (.write p data)) (hsync : P (.fsync p)) {wal : WAL}
    (hfd : wal.fd = some p) (type : RecordType) (key value : Bytes) (timestamp : Int64) :
    (wal.append type key value timestamp).Only P fun result => result.2.fd = some p := by
  rw [WAL.append]
  split_ifs with hover
  · exact hfd
  · rw [hfd]
    refine only_bind (only_writeExact hwrite _) fun written _ => ?_
    cases written
    · exact hfd
    · rw [if_pos rfl]
      dsimp only
      split_ifs
      · refine only_sys hsync fun synced => ?_
        cases synced
        · exact rfl
        · exact rfl
      · exact rfl

theorem only_reset (hP : ∀ c, LooksAt p c → P c) (hwrite : ∀ data, P (.write p data))
    (hsync : P (.fsync p)) (hcut : ∀ n, P (.ftruncate p n)) {wal : WAL} (hfd : wal.fd = some p) :
    wal.reset.Only P fun result => result.2.fd = some p := by
  rw [WAL.reset, hfd]
  refine only_sys hsync fun _ => only_sys (hcut 0) fun truncated => ?_
  cases truncated
  · exact hfd
  · refine only_sys (hP _ rfl) fun sought => ?_
    cases sought
    · exact hfd
    · refine only_bind (only_writeHeader hwrite hsync) fun written _ => ?_
      cases written
      · exact hfd
      · exact rfl

theorem only_close (hsync : P (.fsync p)) (hclose : P (.close p)) {wal : WAL}
    (hfd : wal.fd = some p) : wal.close.Only P fun _ => True := by
  rw [WAL.close, hfd]
  dsimp only
  split_ifs
  · exact only_sys hsync fun _ => only_sys hclose fun _ => trivial
  · exact only_sys hclose fun _ => trivial

end Calls

end LiteSpeedStore
