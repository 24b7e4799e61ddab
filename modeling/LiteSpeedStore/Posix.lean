import LiteSpeedStore.Theory.Prog
import LiteSpeedStore.Endian
import Mathlib.Logic.Function.Basic

/-!
# System calls and files

The store's code reaches its files only through the system calls listed in `Call` (and the file
stream that loads the snapshot).  Programs are `Io` values, so every system call of the source
appears in the model in its place.

* `posix` answers every call as a system without failures does.
* `Faults` names the calls that may fail and how small a write must be to be atomic;
  `Faults.env` is the environment in which exactly those failures, and short writes, can happen.
* `writeExact` and `readExact` are the retry loops of `WAL.cpp` and `Snapshot.cpp`, with one rule
  each (`wp_writeExact`, `wp_readExact`).

A call interrupted by a signal is retried by the source until it answers; `read` and `write` here
are those retried calls.  The offset of a descriptor is the argument `pos` of `read`: it is where
the last `lseek` put it, plus the bytes read since.  The descriptor of the log has `O_APPEND`, so a
write goes to the end of the file.
-/

namespace LiteSpeedStore

/-- The name of a file. -/
abbrev Path := String

/-- The origin of an `lseek`. -/
inductive Whence where
  | set
  | cur
  | fromEnd

/-- The calls the store makes. -/
inductive Call where
  /-- `open(p, O_RDWR | O_CREAT | O_APPEND)`. -/
  | openAppend (p : Path)
  /-- `open(p, O_WRONLY | O_CREAT | O_TRUNC)`. -/
  | openTrunc (p : Path)
  /-- `open(p, O_RDONLY)` on a directory. -/
  | openDir (p : Path)
  /-- `fstat`, for the size. -/
  | fstat (p : Path)
  /-- `lseek`. -/
  | lseek (p : Path) (off : ℕ) (whence : Whence)
  /-- `read` of up to `len` bytes at offset `pos`. -/
  | read (p : Path) (pos len : ℕ)
  /-- `write` at the end of the file. -/
  | write (p : Path) (data : Bytes)
  /-- `fsync`. -/
  | fsync (p : Path)
  /-- `ftruncate`; the length is an `off_t`, which can be negative. -/
  | ftruncate (p : Path) (len : ℤ)
  /-- `close`. -/
  | close (p : Path)
  /-- `std::filesystem::rename`. -/
  | rename (src dst : Path)
  /-- `std::ifstream in(p)`. -/
  | streamOpen (p : Path)
  /-- The bytes the stream delivers up to its end. -/
  | streamRead (p : Path)

/-- The answer of each call: whether it succeeded, and its result. -/
abbrev Res : Call → Type
  | .fstat _ => Option ℕ
  | .read _ _ len => Option {b : Bytes // b.length ≤ len}
  | .write _ data => Option (Fin (data.length + 1))
  | .streamRead _ => Bytes
  | _ => Bool

/-- Programs over the system calls. -/
abbrev Io := Prog Res

/-- The program that makes one system call. -/
def sys (c : Call) : Io (Res c) := Prog.perform c

/-- The files and what they hold. -/
abbrev FileSystem := Path → Option Bytes

namespace FileSystem

/-- The file `p` now holds `b`. -/
def put (fs : FileSystem) (p : Path) (b : Bytes) : FileSystem := Function.update fs p (some b)

/-- The bytes of a file, none if it does not exist. -/
def bytes (fs : FileSystem) (p : Path) : Bytes := (fs p).getD []

/-- `p` becomes the name of the file `q`. -/
def move (fs : FileSystem) (q p : Path) : FileSystem :=
  Function.update (Function.update fs p (fs q)) q none

@[simp] theorem put_self (fs : FileSystem) (p : Path) (b : Bytes) : fs.put p b p = some b :=
  Function.update_self ..

theorem put_of_ne {p q : Path} (h : q ≠ p) (fs : FileSystem) (b : Bytes) : fs.put p b q = fs q :=
  Function.update_of_ne h ..

@[simp] theorem put_put (fs : FileSystem) (p : Path) (a b : Bytes) :
    (fs.put p a).put p b = fs.put p b := Function.update_idem ..

theorem put_eq_self {fs : FileSystem} {p : Path} {b : Bytes} (h : fs p = some b) :
    fs.put p b = fs := by rw [put, ← h, Function.update_eq_self]

theorem bytes_of_some {fs : FileSystem} {p : Path} {b : Bytes} (h : fs p = some b) :
    fs.bytes p = b := by rw [bytes, h, Option.getD_some]

@[simp] theorem bytes_put (fs : FileSystem) (p : Path) (b : Bytes) : (fs.put p b).bytes p = b :=
  bytes_of_some (put_self ..)

theorem move_dst {q p : Path} (h : p ≠ q) (fs : FileSystem) : fs.move q p p = fs q := by
  rw [move, Function.update_of_ne h, Function.update_self]

theorem move_of_ne {q p r : Path} (hq : r ≠ q) (hp : r ≠ p) (fs : FileSystem) :
    fs.move q p r = fs r := by
  rw [move, Function.update_of_ne hq, Function.update_of_ne hp]

/-- Only the file `p` may differ. -/
def SameBut (p : Path) (fs fs' : FileSystem) : Prop := ∀ q, q ≠ p → fs' q = fs q

theorem sameBut_refl (p : Path) (fs : FileSystem) : fs.SameBut p fs := fun _ _ => rfl

theorem sameBut_put (p : Path) (fs : FileSystem) (b : Bytes) :
    fs.SameBut p (fs.put p b) := fun _ hq => put_of_ne hq ..

end FileSystem

/-- What `ftruncate` to `n` bytes leaves: a cut, or zeros added. -/
def resize (b : Bytes) (n : ℕ) : Bytes := b.take n ++ List.replicate (n - b.length) 0

theorem resize_of_le {b : Bytes} {n : ℕ} (h : n ≤ b.length) : resize b n = b.take n := by
  simp [resize, Nat.sub_eq_zero_of_le h]

/-- The answers of a system in which nothing fails. -/
def posix : (c : Call) → FileSystem → Res c × FileSystem
  | .openAppend p, fs => (true, fs.put p (fs.bytes p))
  | .openTrunc p, fs => (true, fs.put p [])
  | .openDir _, fs => (true, fs)
  | .fstat p, fs => (some (fs.bytes p).length, fs)
  | .lseek _ _ _, fs => (true, fs)
  | .read p pos len, fs => (some ⟨((fs.bytes p).drop pos).take len, List.length_take_le ..⟩, fs)
  | .write p data, fs => (some (Fin.last _), fs.put p (fs.bytes p ++ data))
  | .fsync _, fs => (true, fs)
  | .ftruncate p len, fs =>
    if len < 0 then (false, fs) else (true, fs.put p (resize (fs.bytes p) len.toNat))
  | .close _, fs => (true, fs)
  | .rename src dst, fs => if (fs src).isSome then (true, fs.move src dst) else (false, fs)
  | .streamOpen p, fs => ((fs p).isSome, fs)
  | .streamRead p, fs => (fs.bytes p, fs)

/-- The answer of a call that fails.  A failed call leaves the files alone; a stream that fails
while reading has delivered some of the file's bytes. -/
def failed : (c : Call) → FileSystem → Res c → Prop
  | .fstat _, _, r => r = none
  | .read _ _ _, _, r => r = none
  | .write _ _, _, r => r = none
  | .streamRead p, fs, r => r <+: fs.bytes p
  | .openAppend _, _, r | .openTrunc _, _, r | .openDir _, _, r | .lseek _ _ _, _, r
  | .fsync _, _, r | .ftruncate _ _, _, r | .close _, _, r | .rename _ _, _, r
  | .streamOpen _, _, r => r = false

/-- A write that stops short of its data. -/
def ShortWrite : (c : Call) → FileSystem → Res c → FileSystem → Prop
  | .write p data, fs, r, fs' => ∃ k : Fin (data.length + 1), 0 < k.val ∧ k.val < data.length ∧
      r = some k ∧ fs' = fs.put p (fs.bytes p ++ data.take k)
  | _, _, _, _ => False

/-- The failures an environment is allowed. -/
structure Faults where
  /-- The calls that may fail. -/
  mayFail : Call → Prop
  /-- A write of at most this many bytes happens in one piece. -/
  atomic : ℕ

/-- The number of bytes a write asks for; nothing for the other calls. -/
def Call.writeSize : Call → ℕ
  | .write _ data => data.length
  | _ => 0

namespace Faults

variable (F : Faults)

/-- Calls answer as `posix` does, or fail when they may, or write less than they were given. -/
def env : Env Res FileSystem where
  step c fs r fs' := (r, fs') = posix c fs ∨ (F.mayFail c ∧ failed c fs r ∧ fs' = fs) ∨
    (F.atomic < c.writeSize ∧ ShortWrite c fs r fs')

/-- No call fails; writes of more than `n` bytes can still be cut short. -/
def none (n : ℕ) : Faults := ⟨fun _ => False, n⟩

/-- The lengths a write of `n` bytes can have reached. -/
def Cut (n k : ℕ) : Prop := k = 0 ∨ k = n ∨ F.atomic < n ∧ k < n

theorem none_mayFail {n : ℕ} {c : Call} : ¬(none n).mayFail c := fun h => h

variable {F}

theorem allows_posix : Prog.Env.Allows F.env posix := fun _ _ => .inl rfl

theorem step_ok {c : Call} {fs fs' : FileSystem} {r : Res c} (h : posix c fs = (r, fs')) :
    F.env.step c fs r fs' := .inl h.symm

theorem step_fail {c : Call} {fs : FileSystem} {r : Res c} (hmay : F.mayFail c)
    (hr : failed c fs r) : F.env.step c fs r fs := .inr (.inl ⟨hmay, hr, rfl⟩)

theorem Cut.le {n k : ℕ} (h : F.Cut n k) : k ≤ n := by
  rcases h with rfl | rfl | h <;> omega

end Faults

open Prog

@[simp] theorem sys_bind {α : Type} (c : Call) (f : Res c → Io α) : sys c >>= f = call c f := rfl

section Rules

variable {F : Faults} {α : Type} {Q : α → FileSystem → Prop} {C : FileSystem → Prop}
  {fs : FileSystem}

/-- The rule of a call that is not a write. -/
theorem wp_sys {c : Call} {f : Res c → Io α} (hw : c.writeSize = 0) (hC : C fs)
    (hok : wp F.env (f (posix c fs).1) Q C (posix c fs).2)
    (hfail : F.mayFail c → ∀ r, failed c fs r → wp F.env (f r) Q C fs) :
    wp F.env (sys c >>= f) Q C fs := by
  refine ⟨hC, fun r fs' hst => ?_⟩
  rcases hst with heq | ⟨hmay, hr, rfl⟩ | ⟨hlt, -⟩
  · rw [← heq] at hok
    exact hok
  · exact hfail hmay r hr
  · omega

/-- The rule of a call that cannot fail. -/
theorem wp_sys_ok {c : Call} {f : Res c → Io α} (hf : ¬F.mayFail c) (hw : c.writeSize = 0)
    (hC : C fs) (h : wp F.env (f (posix c fs).1) Q C (posix c fs).2) :
    wp F.env (sys c >>= f) Q C fs :=
  wp_sys hw hC h fun hmay => absurd hmay hf

end Rules

/-! ### The retry loops -/

/-- Writes all of `data`, or stops at the first `write` that fails or makes no progress. -/
def writeExact (p : Path) (data : Bytes) : Io Bool :=
  if data.length = 0 then ret true
  else call (.write p data) fun
    | none => ret false
    | some rc => if _h : rc.val = 0 then ret false else writeExact p (data.drop rc.val)
termination_by data.length
decreasing_by rw [List.length_drop]; omega

/-- Reads exactly `size` bytes from offset `pos`; a `read` that fails or is at the end of the file
ends it. -/
def readExact (p : Path) (pos size : ℕ) : Io (Option Bytes) :=
  if size = 0 then ret (some [])
  else call (.read p pos size) fun
    | none => ret none
    | some ⟨b, _⟩ => if _h : b.length = 0 then ret none else do
      let rest ← readExact p (pos + b.length) (size - b.length)
      ret (rest.map (b ++ ·))
termination_by size

/-- The `size` bytes at `pos`, if the file has them. -/
def slice (b : Bytes) (pos size : ℕ) : Option Bytes :=
  if size = 0 ∨ pos + size ≤ b.length then some ((b.drop pos).take size) else none

section Slice

variable {b d : Bytes} {pos size : ℕ}

theorem slice_eq_none (h : size ≠ 0) (hlong : b.length < pos + size) : slice b pos size = none := by
  rw [slice, if_neg (by omega)]

/-- Bytes that are read in two pieces. -/
theorem slice_map {k : ℕ} (hk : k ≤ size) (hin : pos + k ≤ b.length) :
    (slice b (pos + k) (size - k)).map ((b.drop pos).take k ++ ·) = slice b pos size := by
  rw [slice, slice]
  by_cases h : pos + size ≤ b.length
  · rw [if_pos (.inr (by omega)), if_pos (.inr h), Option.map_some, ← List.drop_drop,
      ← List.take_add, Nat.add_sub_cancel' hk]
  · rw [if_neg (by omega), if_neg (by omega), Option.map_none]

theorem slice_some (h : pos + size ≤ b.length) :
    slice b pos size = some ((b.drop pos).take size) := by
  rw [slice, if_pos (.inr h)]

theorem eq_of_slice (h : slice b pos size = some d) :
    (b.drop pos).take size = d := by
  rw [slice] at h
  split_ifs at h
  exact Option.some.inj h

theorem length_le_of_slice (h : slice b pos size = some d) (h0 : size ≠ 0) :
    pos + size ≤ b.length := by
  by_contra hlong
  rw [slice_eq_none h0 (not_le.1 hlong)] at h
  cases h

end Slice

theorem Faults.Cut.of_drop {F : Faults} {n k j : ℕ} (h : F.Cut (n - j) k) (hj : j ≤ n)
    (hn : F.atomic < n) : F.Cut n (j + k) := by
  rcases h with rfl | rfl | ⟨-, h⟩
  · rcases Nat.lt_or_eq_of_le hj with hlt | rfl
    · exact .inr (.inr ⟨hn, by omega⟩)
    · exact .inr (.inl (by omega))
  · exact .inr (.inl (by omega))
  · exact .inr (.inr ⟨hn, by omega⟩)

section Rules

variable {F : Faults} {p : Path} {C : FileSystem → Prop} {fs : FileSystem}

/-- The rule of `writeExact`: it can be interrupted, and it can fail, with some prefix of the data
written; otherwise all of it is there. -/
theorem wp_writeExact {Q : Bool → FileSystem → Prop} {b data : Bytes} (hfs : fs p = some b)
    (hC : ∀ k, F.Cut data.length k → C (fs.put p (b ++ data.take k)))
    (hok : Q true (fs.put p (b ++ data)))
    (hfail : ∀ k, F.Cut data.length k → k < data.length → (∃ d, F.mayFail (.write p d)) →
      Q false (fs.put p (b ++ data.take k))) :
    wp F.env (writeExact p data) Q C fs := by
  induction hn : data.length using Nat.strong_induction_on generalizing data b fs with
  | _ n ih =>
    have hfs0 : fs.put p (b ++ data.take 0) = fs := by
      rw [List.take_zero, List.append_nil, FileSystem.put_eq_self hfs]
    have hC0 : C fs := by simpa only [hfs0] using hC 0 (.inl rfl)
    rw [writeExact]
    split_ifs with h0
    · rw [List.length_eq_zero_iff.1 h0, List.append_nil, FileSystem.put_eq_self hfs] at hok
      exact ⟨hC0, hok⟩
    · refine ⟨hC0, ?_⟩
      rintro r fs' (hst | ⟨hmay, hr, rfl⟩ | ⟨hat, k, hk0, hk, rfl, rfl⟩)
      · -- the write took everything
        obtain ⟨rfl, rfl⟩ := Prod.ext_iff.1 hst
        simp only [posix, Fin.val_last, h0, ↓reduceDIte, List.drop_length,
          FileSystem.bytes_of_some hfs]
        rw [writeExact]
        refine ⟨?_, hok⟩
        simpa only [List.take_length] using hC _ (.inr (.inl rfl))
      · -- the write failed
        simp only [failed] at hr
        subst hr
        have h := hfail 0 (.inl rfl) (by omega) ⟨_, hmay⟩
        rw [hfs0] at h
        exact ⟨hC0, h⟩
      · -- the write stopped short, and the loop writes the rest
        have hk0' : ¬k.val = 0 := by omega
        simp only [hk0', ↓reduceDIte, FileSystem.bytes_of_some hfs]
        have hlen : (data.drop k).length = data.length - k := List.length_drop
        have hput : ∀ d, (fs.put p (b ++ data.take k)).put p (b ++ data.take k ++ d) =
            fs.put p (b ++ (data.take k ++ d)) := fun d => by
          rw [FileSystem.put_put, List.append_assoc]
        have htake : ∀ j, data.take k ++ (data.drop k).take j = data.take (k + j) :=
          fun j => (List.take_add ..).symm
        have hcut : ∀ j, F.Cut (data.drop k).length j → F.Cut data.length (k + j) := by
          intro j hj
          rw [hlen] at hj
          exact hj.of_drop hk.le hat
        refine ih _ (by omega) (FileSystem.put_self ..) (fun j hj => ?_) ?_ (fun j hj hlt hm => ?_)
          rfl
        · rw [hput, htake]; exact hC _ (hcut j hj)
        · rw [hput, List.take_append_drop]; exact hok
        · rw [hput, htake]; exact hfail _ (hcut j hj) (by omega) hm

/-- `writeExact` fails only when a call does. -/
theorem wp_writeExact_false (p : Path) (data : Bytes) (fs : FileSystem) :
    wp F.env (writeExact p data) (fun done _ => done = false → ∃ c, F.mayFail c) (fun _ => True)
      fs := by
  induction hn : data.length using Nat.strong_induction_on generalizing data fs with
  | _ n ih =>
    rw [writeExact]
    split_ifs with h0
    · exact ⟨trivial, fun h => absurd h (by decide)⟩
    · refine ⟨trivial, ?_⟩
      rintro r fs' (hst | ⟨hmay, hr, rfl⟩ | ⟨-, k, hk0, hk, rfl, rfl⟩)
      · -- the write took everything
        obtain ⟨rfl, rfl⟩ := Prod.ext_iff.1 hst
        simp only [posix, Fin.val_last, h0, ↓reduceDIte, List.drop_length]
        exact ih 0 (by omega) [] _ List.length_nil
      · simp only [failed] at hr
        subst hr
        exact ⟨trivial, fun _ => ⟨_, hmay⟩⟩
      · have hk0' : ¬k.val = 0 := hk0.ne'
        simp only [hk0', ↓reduceDIte]
        exact ih (data.drop k).length (by rw [List.length_drop]; omega) _ _ rfl

/-- `writeExact` against a handler whose writes take everything. -/
theorem run_writeExact {h : (c : Call) → FileSystem → Res c × FileSystem} {b data : Bytes}
    (hwrite : ∀ d fs, h (.write p d) fs = posix (.write p d) fs) (hfs : fs p = some b) :
    run h (writeExact p data) fs = (true, fs.put p (b ++ data)) := by
  rw [writeExact]
  split_ifs with h0
  · rw [List.length_eq_zero_iff.1 h0, List.append_nil, FileSystem.put_eq_self hfs, run_ret]
  · rw [run_call, hwrite]
    simp only [posix, Fin.val_last, h0, ↓reduceDIte, List.drop_length, FileSystem.bytes_of_some hfs]
    rw [writeExact, if_pos List.length_nil, run_ret]

/-- A write that can fail can fail with any proper prefix of the data written. -/
theorem exec_writeExact_cut {b data : Bytes} {k : ℕ} (hmay : ∀ d, F.mayFail (.write p d))
    (hatomic : F.atomic = 0) (hfs : fs p = some b) (hk : k < data.length) :
    Exec F.env (writeExact p data) fs false (fs.put p (b ++ data.take k)) := by
  -- a write that fails at once
  have hfail : ∀ (fs : FileSystem) (d : Bytes), d.length ≠ 0 →
      Exec F.env (writeExact p d) fs false fs := by
    intro fs d hd
    rw [writeExact, if_neg hd]
    exact .call (.inr (.inl ⟨hmay d, rfl, rfl⟩)) (.ret false fs)
  rcases Nat.eq_zero_or_pos k with rfl | hpos
  · rw [List.take_zero, List.append_nil, FileSystem.put_eq_self hfs]
    exact hfail fs data hk.ne'
  · have hlt : k < data.length + 1 := hk.trans (Nat.lt_succ_self _)
    have hrest : (data.drop k).length ≠ 0 := by
      rw [List.length_drop]
      omega
    rw [writeExact, if_neg (Nat.ne_of_gt (hpos.trans hk))]
    refine .call (r := some ⟨k, hlt⟩) (.inr (.inr ⟨?_, ⟨k, hlt⟩, hpos, hk, rfl, rfl⟩)) ?_
    · rw [hatomic]
      exact hpos.trans hk
    · have hk0 : ¬k = 0 := hpos.ne'
      simp only [hk0, ↓reduceDIte, FileSystem.bytes_of_some hfs]
      exact hfail _ _ hrest

/-- The process can die with any proper part of the data written. -/
theorem crash_writeExact_cut {b data : Bytes} {k : ℕ} (hatomic : F.atomic = 0)
    (hfs : fs p = some b) (hk : k < data.length) :
    Crash F.env (writeExact p data) fs (fs.put p (b ++ data.take k)) := by
  rcases Nat.eq_zero_or_pos k with rfl | hpos
  · rw [List.take_zero, List.append_nil, FileSystem.put_eq_self hfs]
    exact .here _ _
  · rw [writeExact, if_neg (Nat.ne_of_gt (hpos.trans hk))]
    refine .call (r := some ⟨k, hk.trans (Nat.lt_succ_self _)⟩)
      (.inr (.inr ⟨?_, ⟨k, _⟩, hpos, hk, rfl, ?_⟩)) (.here _ _)
    · rw [hatomic]
      exact hpos.trans hk
    · rw [FileSystem.bytes_of_some hfs]

/-- The rule of `readExact` on a file whose reads do not fail. -/
theorem wp_readExact {Q : Option Bytes → FileSystem → Prop} {b : Bytes} {pos size : ℕ}
    (hr : ∀ pos len, ¬F.mayFail (.read p pos len)) (hfs : fs p = some b) (hC : C fs)
    (hQ : Q (slice b pos size) fs) : wp F.env (readExact p pos size) Q C fs := by
  have hb := FileSystem.bytes_of_some hfs
  rw [readExact]
  split_ifs with h0
  · subst h0
    rw [slice, if_pos (.inl rfl), List.take_zero] at hQ
    exact ⟨hC, hQ⟩
  · rw [← sys_bind]
    refine wp_sys_ok (hr _ _) rfl hC ?_
    simp only [posix, hb]
    have hlen : ((b.drop pos).take size).length = min size (b.length - pos) := by
      rw [List.length_take, List.length_drop]
    split_ifs with hz
    · -- at the end of the file
      rw [slice, if_neg (by omega)] at hQ
      exact ⟨hC, hQ⟩
    · rw [wp_bind, readExact]
      split_ifs with hs
      · -- the read was complete
        rw [slice, if_pos (by omega)] at hQ
        exact ⟨hC, hC, by simpa using hQ⟩
      · -- the read reached the end of the file, and the next one finds nothing
        rw [← sys_bind]
        refine wp_sys_ok (hr _ _) rfl hC ?_
        have hz' : (((b.drop (pos + ((b.drop pos).take size).length)).take
            (size - ((b.drop pos).take size).length)).length) = 0 := by
          rw [List.length_take, List.length_drop]; omega
        simp only [posix, hb, hz', ↓reduceDIte]
        rw [slice, if_neg (by omega)] at hQ
        exact ⟨hC, hC, hQ⟩

/-- `wp_readExact` in front of the rest of a program. -/
theorem wp_readExact_bind {α : Type} {f : Option Bytes → Io α} {Q : α → FileSystem → Prop}
    {b : Bytes} {pos size : ℕ} (hr : ∀ pos len, ¬F.mayFail (.read p pos len)) (hfs : fs p = some b)
    (hC : C fs) (h : wp F.env (f (slice b pos size)) Q C fs) :
    wp F.env (readExact p pos size >>= f) Q C fs :=
  (wp_bind _ _).2 (wp_readExact hr hfs hC h)

end Rules

end LiteSpeedStore
