import LiteSpeedStore.Snapshot
import LiteSpeedStore.Theory.Interleave

/-!
# Disks and power cuts

A `Disk` is the files as the processes see them, together with what of them is on the disk.  The
bytes of a file are kept from its last `fsync` on, and a name from the last `fsync` of its directory
on.  Of what came later a power cut keeps some: a prefix of what was added to a file, a cut of the
file or what was there before it, a new name or what the name stood for.

* `Disk.env` : the calls, as the processes see them, and what they do to the disk.
* `PowerCut` : the files that a power cut can leave.
* `wp_quietly` : a program that only looks and writes leaves the state of the disk alone.
-/

namespace LiteSpeedStore

open Prog

/-- What a file may hold after a power cut: each of these from its second component on, the number
of bytes that an `fsync` covers.  The first is what the file holds now, the others were there before
it was cut. -/
abbrev Stages := List (Bytes × ℕ)

/-- The files, and what of them is on the disk. -/
structure Disk where
  fs : FileSystem
  /-- How many bytes of a file its last `fsync` covers. -/
  synced : Path → ℕ
  /-- What a file held before it was cut below that. -/
  earlier : Path → Stages
  /-- What a name stood for since the last `fsync` of its directory. -/
  lost : Path → List (Option Stages)
  /-- How often a file was synced. -/
  syncs : Path → ℕ

namespace Disk

variable (d : Disk) (fs' : FileSystem)

/-- What the name stands for. -/
def entry (p : Path) : Option Stages := (d.fs p).map fun b => (b, d.synced p) :: d.earlier p

/-- A new file. -/
def created (p : Path) : Disk := { d with
  fs := fs'
  synced := Function.update d.synced p 0
  earlier := Function.update d.earlier p []
  lost := Function.update d.lost p (d.entry p :: d.lost p) }

/-- The file is cut to `n` bytes; if an `fsync` covers more, they may come back. -/
def cut (p : Path) (n : ℕ) : Disk :=
  if n < d.synced p then { d with
    fs := fs'
    synced := Function.update d.synced p n
    earlier := Function.update d.earlier p ((d.fs.bytes p, d.synced p) :: d.earlier p) }
  else { d with fs := fs' }

/-- The `fsync` of a file or of a directory. -/
def flushed (q : Path) : Disk := { d with
  synced := Function.update d.synced q (d.fs.bytes q).length
  earlier := Function.update d.earlier q []
  lost := fun p => if Snapshot.parentDir p = q then [] else d.lost p
  syncs := Function.update d.syncs q (d.syncs q + 1) }

/-- The file gets another name. -/
def moved (src dst : Path) : Disk := { d with
  fs := fs'
  synced := Function.update d.synced dst (d.synced src)
  earlier := Function.update d.earlier dst (d.earlier src)
  lost := Function.update (Function.update d.lost dst (d.entry dst :: d.lost dst)) src
    (d.entry src :: d.lost src) }

/-- The disk after a call that the processes see succeed. -/
def after : Call → Disk
  | .openAppend p => if (d.fs p).isSome then { d with fs := fs' } else d.created fs' p
  | .openTrunc p => if (d.fs p).isSome then d.cut fs' p 0 else d.created fs' p
  | .fsync q => { d.flushed q with fs := fs' }
  | .ftruncate p n => if n < 0 then { d with fs := fs' } else d.cut fs' p n.toNat
  | .rename src dst => if (d.fs src).isSome then d.moved fs' src dst else { d with fs := fs' }
  | _ => { d with fs := fs' }

/-- No call fails, and writes of more than `n` bytes can be cut short. -/
def env (n : ℕ) : Env Res Disk where
  step c d r d' := (Faults.none n).env.step c d.fs r d'.fs ∧ d' = d.after d'.fs c

variable {d fs'}

@[simp] theorem created_fs (p : Path) : (d.created fs' p).fs = fs' := rfl

@[simp] theorem cut_fs (p : Path) (n : ℕ) : (d.cut fs' p n).fs = fs' := by
  rw [cut]
  split_ifs <;> rfl

theorem synced_emptied (p : Path) : (d.cut fs' p 0).synced p = 0 := by
  rw [cut]
  split_ifs with h
  · exact Function.update_self ..
  · exact Nat.eq_zero_of_not_pos h

theorem lost_cut (p : Path) (n : ℕ) : (d.cut fs' p n).lost = d.lost := by
  rw [cut]
  split_ifs <;> rfl

@[simp] theorem flushed_fs (q : Path) : (d.flushed q).fs = d.fs := rfl

theorem synced_flushed (q : Path) : (d.flushed q).synced q = (d.fs.bytes q).length :=
  Function.update_self ..

theorem syncs_flushed (q : Path) : (d.flushed q).syncs q = d.syncs q + 1 := Function.update_self ..

theorem lost_flushed_parentDir (q : Path) : (d.flushed (Snapshot.parentDir q)).lost q = [] := by
  rw [flushed]
  exact if_pos rfl

@[simp] theorem moved_fs (src dst : Path) : (d.moved fs' src dst).fs = fs' := rfl

theorem after_fs (c : Call) : (d.after fs' c).fs = fs' := by
  cases c with
  | openAppend p =>
    rw [after]
    split_ifs <;> rfl
  | openTrunc p =>
    rw [after]
    split_ifs
    · exact cut_fs p 0
    · rfl
  | ftruncate p n =>
    rw [after]
    split_ifs
    · rfl
    · exact cut_fs p _
  | rename src dst =>
    rw [after]
    split_ifs <;> rfl
  | _ => rfl

/-- Every call that the processes can see is one on the disk. -/
theorem env_step {n : ℕ} {c : Call} {r : Res c} (h : (Faults.none n).env.step c d.fs r fs') :
    (env n).step c d r (d.after fs' c) := by
  refine ⟨?_, ?_⟩
  · rwa [after_fs]
  · rw [after_fs]

end Disk

/-- What may be left of a file. -/
def Survives : Option Stages → Option Bytes → Prop
  | none, f => f = none
  | some stages, f => ∃ x ∈ stages, ∃ k, x.2 ≤ k ∧ f = some (x.1.take k)

/-- **The files that a power cut can leave.** -/
def PowerCut (d : Disk) (fs' : FileSystem) : Prop :=
  ∀ p, ∃ o ∈ d.entry p :: d.lost p, Survives o (fs' p)

section Survives

variable {d d' : Disk} {p q : Path} {b c : Bytes} {f : Option Bytes} {fs' : FileSystem}

/-- The file as it is now may survive. -/
theorem survives_self (d : Disk) (p : Path) : Survives (d.entry p) (d.fs p) := by
  rw [Disk.entry]
  cases hfile : d.fs p with
  | none => rfl
  | some b =>
    refine ⟨(b, d.synced p), List.mem_cons_self, max b.length (d.synced p), le_max_right .., ?_⟩
    rw [List.take_of_length_le (le_max_left ..)]

theorem entry_of_some (h : d.fs p = some b) :
    d.entry p = some ((b, d.synced p) :: d.earlier p) := by
  rw [Disk.entry, h, Option.map_some]

/-- Some of what is written may survive. -/
theorem survives_append (hfile : d.fs p = some b)
    (h : Survives ({ d with fs := d.fs.put p (b ++ c) }.entry p) f) :
    Survives (d.entry p) f ∨ ∃ j, f = some (b ++ c.take j) := by
  rw [entry_of_some (FileSystem.put_self ..)] at h
  obtain ⟨x, hx, k, hk, rfl⟩ := h
  rw [entry_of_some hfile]
  rcases List.mem_cons.1 hx with rfl | hx
  · rcases Nat.lt_or_ge k b.length with hlt | hge
    · rw [List.take_append_of_le_length hlt.le]
      exact .inl ⟨_, List.mem_cons_self, k, hk, rfl⟩
    · refine .inr ⟨k - b.length, ?_⟩
      rw [List.take_append, List.take_of_length_le hge]
  · exact .inl ⟨x, List.mem_cons_of_mem _ hx, k, hk, rfl⟩

/-- What survives when the end of the file is cut off could survive before. -/
theorem survives_shorten (hfile : d.fs p = some (b ++ c)) (hsynced : d.synced p ≤ b.length)
    (h : Survives ({ d with fs := d.fs.put p b }.entry p) f) : Survives (d.entry p) f := by
  rw [entry_of_some (FileSystem.put_self ..)] at h
  obtain ⟨x, hx, k, hk, rfl⟩ := h
  rw [entry_of_some hfile]
  rcases List.mem_cons.1 hx with rfl | hx
  · refine ⟨_, List.mem_cons_self, min k b.length, le_min hk hsynced, ?_⟩
    rw [List.take_append_of_le_length (Nat.min_le_right ..), List.take_eq_take_min]
  · exact ⟨x, List.mem_cons_of_mem _ hx, k, hk, rfl⟩

theorem Disk.lost_flushed {o : Option Stages} (h : o ∈ (d.flushed q).lost p) : o ∈ d.lost p := by
  rw [Disk.flushed] at h
  dsimp only at h
  split_ifs at h
  · exact absurd h List.not_mem_nil
  · exact h

/-- A file that is synced survives as it is. -/
theorem survives_flushed (h : Survives ((d.flushed p).entry p) f) : f = d.fs p := by
  rw [Disk.entry, Disk.flushed_fs] at h
  cases hfile : d.fs p with
  | none =>
    rw [hfile] at h
    exact h
  | some b =>
    rw [hfile] at h
    obtain ⟨x, hx, k, hk, rfl⟩ := h
    simp only [Disk.flushed, Function.update_self, FileSystem.bytes_of_some hfile,
      List.mem_singleton] at hx
    subst hx
    rw [List.take_of_length_le hk]

/-- An `fsync` leaves less to chance. -/
theorem survives_of_flushed (h : Survives ((d.flushed q).entry p) f) : Survives (d.entry p) f := by
  by_cases hq : p = q
  · subst hq
    rw [survives_flushed h]
    exact survives_self d p
  · have hsynced : (d.flushed q).synced p = d.synced p := Function.update_of_ne hq ..
    have hearlier : (d.flushed q).earlier p = d.earlier p := Function.update_of_ne hq ..
    rwa [Disk.entry, hsynced, hearlier] at h

/-- A synced file that is emptied survives as it was, or empty. -/
theorem survives_emptied (hfile : d.fs p = some b)
    (h : Survives (((d.flushed p).cut (d.fs.put p []) p 0).entry p) f) :
    f = some b ∨ f = some [] := by
  rw [entry_of_some (by rw [Disk.cut_fs, FileSystem.put_self])] at h
  obtain ⟨x, hx, k, hk, rfl⟩ := h
  rw [Disk.cut] at hx
  split_ifs at hx with hsynced
  · simp only [Disk.flushed, Function.update_self, FileSystem.bytes_of_some hfile,
      List.mem_cons, List.not_mem_nil, or_false] at hx
    rcases hx with rfl | rfl
    · exact .inr (by rw [List.take_nil])
    · exact .inl (by rw [List.take_of_length_le hk])
  · simp only [Disk.flushed, Function.update_self, List.mem_singleton] at hx
    subst hx
    exact .inr (by rw [List.take_nil])

/-- A file with a new name survives as it could have before. -/
theorem survives_moved {src dst : Path} (hfs : fs' dst = d.fs src)
    (h : Survives ((d.moved fs' src dst).entry dst) f) : Survives (d.entry src) f := by
  have hsynced : (d.moved fs' src dst).synced dst = d.synced src := Function.update_self ..
  have hearlier : (d.moved fs' src dst).earlier dst = d.earlier src := Function.update_self ..
  rwa [Disk.entry, Disk.moved_fs, hfs, hsynced, hearlier] at h

/-- A new file is empty, if it is there at all. -/
theorem survives_created (h : Survives ((d.created (d.fs.put p []) p).entry p) f) :
    f = some [] := by
  rw [entry_of_some (FileSystem.put_self ..)] at h
  obtain ⟨x, hx, k, hk, rfl⟩ := h
  simp only [Disk.created, Function.update_self, List.mem_singleton] at hx
  subst hx
  rw [List.take_nil]

end Survives

/-- A disk on which everything is synced. -/
def Disk.new (fs : FileSystem) : Disk where
  fs := fs
  synced := fun p => (fs.bytes p).length
  earlier := fun _ => []
  lost := fun _ => []
  syncs := fun _ => 0

theorem survives_new {fs : FileSystem} {p : Path} {f : Option Bytes}
    (h : Survives ((Disk.new fs).entry p) f) : f = fs p := by
  rw [Disk.entry, Disk.new] at h
  dsimp only at h
  cases hfile : fs p with
  | none =>
    rw [hfile] at h
    exact h
  | some b =>
    rw [hfile, FileSystem.bytes_of_some hfile] at h
    obtain ⟨x, hx, k, hk, rfl⟩ := h
    rw [List.mem_singleton.1 hx] at hk ⊢
    rw [List.take_of_length_le hk]

/-- The name stands for the same file, which was not synced and not given another name. -/
structure Disk.Same (q : Path) (d d' : Disk) : Prop where
  fs : d'.fs q = d.fs q
  syncs : d'.syncs q = d.syncs q
  synced : d'.synced q = d.synced q
  earlier : d'.earlier q = d.earlier q
  lost : d'.lost q ⊆ d.lost q

namespace Disk.Same

variable {d d' d'' : Disk} {p q : Path} {fs' : FileSystem}

theorem trans (h : Same q d d') (h' : Same q d' d'') : Same q d d'' :=
  ⟨h'.fs.trans h.fs, h'.syncs.trans h.syncs, h'.synced.trans h.synced, h'.earlier.trans h.earlier,
    fun _ ho => h.lost (h'.lost ho)⟩

theorem entry (h : Same q d d') : d'.entry q = d.entry q := by
  rw [Disk.entry, Disk.entry, h.fs, h.synced, h.earlier]

/-- Only the processes see a difference, and not in this file. -/
theorem put (h : q ≠ p) (d : Disk) (b : Bytes) : Same q d { d with fs := d.fs.put p b } :=
  ⟨FileSystem.put_of_ne h .., rfl, rfl, rfl, fun _ ho => ho⟩

theorem created (h : q ≠ p) (hfs : fs' q = d.fs q) : Same q d (d.created fs' p) := by
  have hlost : (d.created fs' p).lost q = d.lost q := Function.update_of_ne h ..
  refine ⟨hfs, rfl, Function.update_of_ne h .., Function.update_of_ne h .., fun o ho => ?_⟩
  rwa [hlost] at ho

theorem cut {n : ℕ} (h : q ≠ p) (hfs : fs' q = d.fs q) : Same q d (d.cut fs' p n) := by
  rw [Disk.cut]
  split_ifs
  · exact ⟨hfs, rfl, Function.update_of_ne h .., Function.update_of_ne h .., fun _ ho => ho⟩
  · exact ⟨hfs, rfl, rfl, rfl, fun _ ho => ho⟩

theorem flushed (h : q ≠ p) (d : Disk) : Same q d (d.flushed p) :=
   ⟨rfl, Function.update_of_ne h .., Function.update_of_ne h .., Function.update_of_ne h ..,
    fun _ => Disk.lost_flushed⟩

/-- Another file is opened and emptied. -/
theorem openTrunc (h : q ≠ p) (d : Disk) :
    Same q d (d.after (d.fs.put p []) (.openTrunc p)) := by
  rw [Disk.after]
  split_ifs
  · exact .cut h (FileSystem.put_of_ne h ..)
  · exact .created h (FileSystem.put_of_ne h ..)

theorem moved {src dst : Path} (hsrc : q ≠ src) (hdst : q ≠ dst) (hfs : fs' q = d.fs q) :
    Same q d (d.moved fs' src dst) := by
  have hlost : (d.moved fs' src dst).lost q = d.lost q := by
    rw [Disk.moved]
    dsimp only
    rw [Function.update_of_ne hsrc, Function.update_of_ne hdst]
  refine ⟨hfs, rfl, Function.update_of_ne hdst .., Function.update_of_ne hdst .., fun o ho => ?_⟩
  rwa [hlost] at ho

end Disk.Same

/-- The answers of a system in which nothing fails, and what they do to the disk. -/
def Disk.posix (c : Call) (d : Disk) : Res c × Disk :=
  ((LiteSpeedStore.posix c d.fs).1, d.after (LiteSpeedStore.posix c d.fs).2 c)

theorem Disk.allows_posix {n : ℕ} : Env.Allows (Disk.env n) Disk.posix :=
  fun _ _ => Disk.env_step (Faults.allows_posix _ _)

/-! ### Rules -/

section Rules

variable {n : ℕ} {α β : Type} {d : Disk} {fs' : FileSystem} {Q : α → Disk → Prop} {C : Disk → Prop}

/-- A run on the disk is one that the processes see. -/
theorem exec_fs {prog : Io α} {a : α} {d' : Disk} (h : Exec (Disk.env n) prog d a d') :
    Exec (Faults.none n).env prog d.fs a d'.fs :=
  exec_view (E := Disk.env n) (v := Disk.fs) (fun _ _ _ _ hst => hst.1) h

theorem crash_fs {prog : Io α} {d' : Disk} (h : Crash (Disk.env n) prog d d') :
    Crash (Faults.none n).env prog d.fs d'.fs :=
  crash_view (E := Disk.env n) (v := Disk.fs) (fun _ _ _ _ hst => hst.1) h

/-- The rule of a call that is not a write. -/
theorem wp_onDisk {c : Call} {f : Res c → Io α} (hw : c.writeSize = 0) (hC : C d)
    (h : wp (Disk.env n) (f (posix c d.fs).1) Q C (d.after (posix c d.fs).2 c)) :
    wp (Disk.env n) (sys c >>= f) Q C d := by
  refine ⟨hC, ?_⟩
  rintro r d' ⟨heq | ⟨hmay, -⟩ | ⟨hlt, -⟩, hafter⟩
  · obtain ⟨rfl, hfs⟩ := Prod.ext_iff.1 heq
    dsimp only at hfs
    rw [hafter, hfs]
    exact h
  · exact absurd hmay Faults.none_mayFail
  · omega

/-- A call that looks or writes. -/
def Call.Quiet : Call → Prop
  | .openAppend _ | .openTrunc _ | .fsync _ | .ftruncate _ _ | .rename _ _ => False
  | _ => True

theorem Call.Quiet.after_eq {c : Call} (h : c.Quiet) (d : Disk) (fs' : FileSystem) :
    d.after fs' c = { d with fs := fs' } := by
  cases c with
  | openAppend p => exact h.elim
  | openTrunc p => exact h.elim
  | fsync q => exact h.elim
  | ftruncate p m => exact h.elim
  | rename src dst => exact h.elim
  | _ => rfl

/-- A call that looks or writes, or that cuts the file `p`, which holds what is synced of it in every
state that satisfies `C`. -/
def Call.Gentle (p : Path) (synced : ℕ) (C : FileSystem → Prop) (c : Call) : Prop :=
  c.Quiet ∨ (∃ m, c = .ftruncate p m) ∧ ∀ fs, C fs → synced ≤ (fs.bytes p).length

/-- **A program that only looks and writes leaves the state of the disk alone**; it may cut a file,
but not below what is synced. -/
theorem wp_quietly {p : Path} {prog : Io α} {Q : α → FileSystem → Prop} {C : FileSystem → Prop}
    (hcalls : prog.Only (Call.Gentle p (d.synced p) C) fun _ => True)
    (h : wp (Faults.none n).env prog Q C d.fs) :
    wp (Disk.env n) prog (fun a d' => d' = { d with fs := d'.fs } ∧ Q a d'.fs)
      (fun d' => d' = { d with fs := d'.fs } ∧ C d'.fs) d := by
  induction prog generalizing d with
  | ret a => exact ⟨⟨rfl, h.1⟩, rfl, h.2⟩
  | call c k ih =>
    refine ⟨⟨rfl, h.1⟩, ?_⟩
    rintro r d' ⟨hst, hafter⟩
    have hrest := h.2 r d'.fs hst
    have hquiet : d.after d'.fs c = { d with fs := d'.fs } := by
      rcases hcalls.1 with hc | ⟨⟨m, rfl⟩, hlength⟩
      · exact hc.after_eq d d'.fs
      · rw [Disk.after]
        split_ifs with hm
        · rfl
        · -- the file has the length it was cut to, which is at least what is synced
          have hnot : ¬m.toNat < d.synced p := by
            have hle := hlength _ (wp_here hrest)
            rcases hst with heq | ⟨hmay, -⟩ | ⟨hlt, -⟩
            · rw [posix, if_neg hm] at heq
              obtain ⟨-, hfs⟩ := Prod.ext_iff.1 heq
              dsimp only at hfs
              rw [hfs, FileSystem.bytes_put, resize, List.length_append, List.length_take,
                List.length_replicate] at hle
              omega
            · exact absurd hmay Faults.none_mayFail
            · exact absurd hlt (Nat.not_lt_zero _)
          rw [Disk.cut, if_neg hnot]
    rw [hquiet] at hafter
    rw [hafter] at hrest ⊢
    exact ih r (d := { d with fs := d'.fs }) (hcalls.2 r) hrest

/-- `wp_quietly` in front of the rest of a program. -/
theorem wp_quietly_bind {p : Path} {prog : Io β} {f : β → Io α} {Q' : β → FileSystem → Prop}
    {C' : FileSystem → Prop} (hcalls : prog.Only (Call.Gentle p (d.synced p) C') fun _ => True)
    (h : wp (Faults.none n).env prog Q' C' d.fs) (hC : ∀ fs', C' fs' → C { d with fs := fs' })
    (hQ : ∀ b fs', Q' b fs' → wp (Disk.env n) (f b) Q C { d with fs := fs' }) :
    wp (Disk.env n) (prog >>= f) Q C d := by
  rw [wp_bind]
  refine wp_mono (wp_quietly hcalls h) ?_ ?_
  · rintro b d' ⟨heq, hb⟩
    rw [heq]
    exact hQ b _ hb
  · rintro d' ⟨heq, hd'⟩
    rw [heq]
    exact hC _ hd'

end Rules

end LiteSpeedStore
