import LiteSpeedStore.Engine.Machine
import LiteSpeedStore.Engine.Calls
import Mathlib.Data.Set.Function
import Mathlib.Order.CompletePartialOrder

/-!
# Two stores on one file system

A store writes its log, its snapshot and the temporary file of the snapshot.  When two stores have
no file in common, nothing that happens to one of them changes what opening the other gives.  Two
paths can be different and lead to a common file, since the snapshot of a log `p.wal` is `p.snap`
and so is that of a log `p`.

* `storeFiles_disjoint_iff` : which paths lead to a common file.
* `pair_frame` : the steps of one store leave the files of the other alone.
* `separate_iff` : two stores are separate unless their paths clash.
-/

namespace LiteSpeedStore

open Prog StorageEngine

/-! ### Paths -/

/-- The path without the extension of a log. -/
def withoutWal (p : Path) : Path :=
  if extension p = ".wal" then String.ofList (p.toList.take (p.toList.length - ".wal".length))
  else p

/-- One path is the other but for the extension of a log, or one store's log is where the other has
its snapshot or the temporary file of it. -/
def Clash (p q : Path) : Prop :=
  withoutWal p = withoutWal q ∨ p = withoutWal q ++ ".snap" ∨ p = withoutWal q ++ ".snap.tmp" ∨
    q = withoutWal p ++ ".snap" ∨ q = withoutWal p ++ ".snap.tmp"

instance (p q : Path) : Decidable (Clash p q) := by
  unfold Clash
  infer_instance

section Paths

variable {p q : Path}

theorem makeSnapshotPath_eq (p : Path) : makeSnapshotPath p = withoutWal p ++ ".snap" := by
  rw [makeSnapshotPath, withoutWal]
  split_ifs
  · rfl
  · rfl

theorem tmpPath_eq (p : Path) :
    Snapshot.tmpPath (makeSnapshotPath p) = withoutWal p ++ ".snap.tmp" := by
  rw [Snapshot.tmpPath, makeSnapshotPath_eq, String.append_assoc]
  rfl

theorem append_left_inj {s t u : Path} : s ++ u = t ++ u ↔ s = t := by
  rw [← String.toList_inj, String.toList_append, String.toList_append, List.append_left_inj,
    String.toList_inj]

/-- No snapshot is the temporary file of one. -/
theorem snap_ne_tmp (s t : Path) : s ++ ".snap" ≠ t ++ ".snap.tmp" := by
  intro h
  -- the last but one character is that of the extension
  have hlast := congrArg (fun path => path.toList.reverse[1]?) h
  simp at hlast

theorem storeFiles_eq (p : Path) :
    storeFiles p = {p, withoutWal p ++ ".snap", withoutWal p ++ ".snap.tmp"} := by
  rw [storeFiles, tmpPath_eq, makeSnapshotPath_eq]

/-- **Which paths lead to a common file.** -/
theorem storeFiles_disjoint_iff (hne : p ≠ q) :
    Disjoint (storeFiles p) (storeFiles q) ↔ ¬Clash p q := by
  have hsnap : withoutWal p ++ ".snap" = withoutWal q ++ ".snap" ↔ withoutWal p = withoutWal q :=
    append_left_inj
  have htmp : withoutWal p ++ ".snap.tmp" = withoutWal q ++ ".snap.tmp" ↔
      withoutWal p = withoutWal q := append_left_inj
  have h₁ := snap_ne_tmp (withoutWal p) (withoutWal q)
  have h₂ := (snap_ne_tmp (withoutWal q) (withoutWal p)).symm
  rw [storeFiles_eq, storeFiles_eq, Clash]
  simp only [Set.disjoint_insert_left, Set.disjoint_singleton_left, Set.mem_insert_iff,
    Set.mem_singleton_iff, hne, hsnap, htmp, h₁, h₂, false_or, or_false, not_or]
  constructor
  · rintro ⟨⟨hpq, hpq'⟩, ⟨hqp, hstem⟩, hqp', -⟩
    exact ⟨hstem, hpq, hpq', Ne.symm hqp, Ne.symm hqp'⟩
  · rintro ⟨hstem, hpq, hpq', hqp, hqp'⟩
    exact ⟨⟨hpq, hpq'⟩, ⟨Ne.symm hqp, hstem⟩, Ne.symm hqp', hstem⟩

theorem withoutWal_append (h : extension p = ".wal") : p = withoutWal p ++ ".wal" := by
  -- read backwards, the name starts with the extension
  have hrev : ∃ rest, p.toList.reverse = ['l', 'a', 'w', '.'] ++ rest := by
    rw [extension] at h
    generalize hname : p.toList.reverse.takeWhile (· ≠ '/') = filename at h
    generalize hext : filename.takeWhile (· ≠ '.') = ext at h
    have hempty : ("" : Path) ≠ ".wal" := by decide
    have hdots : filename ≠ ['.', '.'] := fun hdots => hempty (by rwa [if_pos hdots] at h)
    rw [if_neg hdots] at h
    have hlt : ext.length + 1 < filename.length := by
      by_contra hlt
      exact hempty (by rwa [if_neg hlt] at h)
    rw [if_pos hlt] at h
    have hext' : ext = ['l', 'a', 'w'] := by
      have hl := congrArg String.toList h
      rw [String.toList_ofList] at hl
      exact List.reverse_injective (List.cons.inj hl).2
    have hsplit := filename.takeWhile_append_dropWhile (p := (· ≠ '.'))
    rw [hext, hext'] at hsplit
    cases hdot : filename.dropWhile (· ≠ '.') with
    | nil =>
      rw [hdot, List.append_nil] at hsplit
      rw [← hsplit, hext'] at hlt
      exact absurd hlt (by decide)
    | cons c rest =>
      have hc : c = '.' := by
        have hhead := List.head?_dropWhile_not (· ≠ '.') filename
        rw [hdot] at hhead
        simpa using hhead
      rw [hdot, hc] at hsplit
      refine ⟨rest ++ p.toList.reverse.dropWhile (· ≠ '/'), ?_⟩
      rw [← List.append_assoc, show ['l', 'a', 'w', '.'] ++ rest = filename from hsplit, ← hname,
        List.takeWhile_append_dropWhile]
  obtain ⟨rest, hrest⟩ := hrev
  have htoList : p.toList = rest.reverse ++ ".wal".toList := by
    have hback := congrArg List.reverse hrest
    rwa [List.reverse_reverse, List.reverse_append] at hback
  rw [withoutWal, if_pos h, ← String.toList_inj, String.toList_append, String.toList_ofList]
  have hlen : p.toList.length - ".wal".length = rest.reverse.length := by
    rw [htoList, List.length_append]
    exact Nat.add_sub_cancel _ 4
  rw [hlen, htoList, List.take_left]

/-- Logs with their extension never clash. -/
theorem not_clash_of_wal (hp : extension p = ".wal") (hq : extension q = ".wal") (hne : p ≠ q) :
    ¬Clash p q := by
  have hlast : ∀ s t : Path, s ++ ".wal" ≠ t ++ ".snap" ∧ s ++ ".wal" ≠ t ++ ".snap.tmp" := by
    intro s t
    constructor
    · intro h
      have hl := congrArg (fun path => path.toList.reverse[0]?) h
      simp at hl
    · intro h
      have hl := congrArg (fun path => path.toList.reverse[0]?) h
      simp at hl
  have hp' := withoutWal_append hp
  have hq' := withoutWal_append hq
  rintro (h | h | h | h | h)
  · exact hne (by rw [hp', hq', h])
  · exact (hlast _ _).1 (hp'.symm.trans h)
  · exact (hlast _ _).2 (hp'.symm.trans h)
  · exact (hlast _ _).1 (hq'.symm.trans h)
  · exact (hlast _ _).2 (hq'.symm.trans h)

end Paths

/-! ### Calls on some files -/

section Frame

variable {F : Faults} {S : Set Path} {c : Call} {fs fs' gs : FileSystem}

theorem eqOn_put (h : Set.EqOn fs gs S) (p : Path) (b : Bytes) :
    Set.EqOn (fs.put p b) (gs.put p b) S := by
  intro q hq
  by_cases hqp : q = p
  · rw [hqp, FileSystem.put_self, FileSystem.put_self]
  · rw [FileSystem.put_of_ne hqp, FileSystem.put_of_ne hqp, h hq]

theorem eqOn_move {src dst : Path} (h : Set.EqOn fs gs S) (hsrc : fs src = gs src) :
    Set.EqOn (fs.move src dst) (gs.move src dst) S := by
  intro q hq
  by_cases hqs : q = src
  · rw [hqs, FileSystem.move, FileSystem.move, Function.update_self, Function.update_self]
  · by_cases hqd : q = dst
    · subst hqd
      rw [FileSystem.move_dst hqs, FileSystem.move_dst hqs, hsrc]
    · rw [FileSystem.move_of_ne hqs hqd, FileSystem.move_of_ne hqs hqd, h hq]

/-- A call leaves the files alone that it does not touch. -/
theorem posix_frame (c : Call) (fs : FileSystem) : Set.EqOn (posix c fs).2 fs c.filesᶜ := by
  have hput : ∀ p b, Set.EqOn (fs.put p b) fs {p}ᶜ := fun p b q hq => FileSystem.put_of_ne hq ..
  cases c with
  | openAppend p => exact hput _ _
  | openTrunc p => exact hput _ _
  | write p data => exact hput _ _
  | ftruncate p n =>
    simp only [posix]
    split_ifs
    · exact Set.eqOn_refl _ _
    · exact hput _ _
  | rename src dst =>
    simp only [posix]
    split_ifs
    · intro q hq
      rw [Call.files, Set.mem_compl_iff, Set.mem_insert_iff, Set.mem_singleton_iff, not_or] at hq
      exact FileSystem.move_of_ne hq.1 hq.2 _
    · exact Set.eqOn_refl _ _
  | _ => exact Set.eqOn_refl _ _

theorem env_frame {r : Res c} (h : F.env.step c fs r fs') : Set.EqOn fs' fs c.filesᶜ := by
  rcases h with h | ⟨-, -, rfl⟩ | ⟨-, h⟩
  · obtain ⟨-, rfl⟩ := Prod.ext_iff.1 h
    exact posix_frame c fs
  · exact Set.eqOn_refl _ _
  · cases c with
    | write p data =>
      obtain ⟨k, -, -, -, rfl⟩ := h
      exact fun q hq => FileSystem.put_of_ne hq ..
    | _ => exact h.elim

/-- A call answers by the files it touches. -/
theorem posix_alike (hc : c.Within S) (h : Set.EqOn fs gs S) :
    (posix c fs).1 = (posix c gs).1 ∧ Set.EqOn (posix c fs).2 (posix c gs).2 S := by
  have hbytes : ∀ p, p ∈ S → fs.bytes p = gs.bytes p := fun p hp => by
    rw [FileSystem.bytes, h hp, FileSystem.bytes]
  cases c with
  | openAppend p =>
    simp only [posix, hbytes p (Set.singleton_subset_iff.1 hc)]
    exact ⟨trivial, eqOn_put h _ _⟩
  | openTrunc p => exact ⟨rfl, eqOn_put h _ _⟩
  | fstat p =>
    simp only [posix, hbytes p (Set.singleton_subset_iff.1 hc)]
    exact ⟨trivial, h⟩
  | read p pos len =>
    simp only [posix, hbytes p (Set.singleton_subset_iff.1 hc)]
    exact ⟨trivial, h⟩
  | write p data =>
    simp only [posix, hbytes p (Set.singleton_subset_iff.1 hc)]
    exact ⟨trivial, eqOn_put h _ _⟩
  | ftruncate p n =>
    simp only [posix, hbytes p (Set.singleton_subset_iff.1 hc)]
    split_ifs
    · exact ⟨rfl, h⟩
    · exact ⟨rfl, eqOn_put h _ _⟩
  | rename src dst =>
    have hsrc := h (hc (Set.mem_insert src {dst}))
    simp only [posix, hsrc]
    split_ifs
    · exact ⟨rfl, eqOn_move h hsrc⟩
    · exact ⟨rfl, h⟩
  | streamOpen p =>
    simp only [posix, h (Set.singleton_subset_iff.1 hc)]
    exact ⟨trivial, h⟩
  | streamRead p =>
    simp only [posix, hbytes p (Set.singleton_subset_iff.1 hc)]
    exact ⟨trivial, h⟩
  | _ => exact ⟨rfl, h⟩

theorem env_alike {r : Res c} (hc : c.Within S) (hst : F.env.step c fs r fs')
    (h : Set.EqOn fs gs S) : ∃ gs', F.env.step c gs r gs' ∧ Set.EqOn fs' gs' S := by
  have hbytes : ∀ p, p ∈ S → fs.bytes p = gs.bytes p := fun p hp => by
    rw [FileSystem.bytes, h hp, FileSystem.bytes]
  rcases hst with heq | ⟨hmay, hfailed, rfl⟩ | ⟨hat, hshort⟩
  · obtain ⟨rfl, rfl⟩ := Prod.ext_iff.1 heq
    obtain ⟨hres, heqOn⟩ := posix_alike hc h
    exact ⟨(posix c gs).2, .inl (Prod.ext hres rfl), heqOn⟩
  · refine ⟨gs, .inr (.inl ⟨hmay, ?_, rfl⟩), h⟩
    cases c with
    | streamRead p =>
      rw [failed, ← hbytes p (Set.singleton_subset_iff.1 hc)]
      exact hfailed
    | _ => exact hfailed
  · cases c with
    | write p data =>
      obtain ⟨k, hpos, hlt, rfl, rfl⟩ := hshort
      refine ⟨_, .inr (.inr ⟨hat, k, hpos, hlt, rfl, rfl⟩), ?_⟩
      rw [hbytes p (Set.singleton_subset_iff.1 hc)]
      exact eqOn_put h _ _
    | _ => exact hshort.elim

variable {α : Type} {prog : Io α} {Q : α → Prop}

/-- A program leaves the files alone that its calls do not touch. -/
theorem exec_frame {a : α} (h : prog.Only (Call.Within S) Q) (hx : Exec F.env prog fs a fs') :
    Q a ∧ Set.EqOn fs' fs Sᶜ :=
  h.exec (I := fun fs' => Set.EqOn fs' fs Sᶜ) (fun _ _ _ _ hc hst hfs =>
    ((env_frame hst).mono (Set.compl_subset_compl.2 hc)).trans hfs) hx (Set.eqOn_refl _ _)

theorem crash_frame (h : prog.Only (Call.Within S) Q) (hx : Crash F.env prog fs fs') :
    Set.EqOn fs' fs Sᶜ :=
  h.crash (I := fun fs' => Set.EqOn fs' fs Sᶜ) (fun _ _ _ _ hc hst hfs =>
    ((env_frame hst).mono (Set.compl_subset_compl.2 hc)).trans hfs) hx (Set.eqOn_refl _ _)

end Frame

/-! ### Two machines -/

/-- Two stores, each open in a process or not, and the files. -/
structure Worlds where
  first : Option StorageEngine
  second : Option StorageEngine
  fs : FileSystem

section Pair

variable (F : Faults) (host : ByteOrder) (p : Path) (maxHistoryPerKey : ℕ) (q : Path)
  (maxHistoryPerKey' : ℕ)

/-- A step of one of two stores. -/
inductive PairStep : Worlds → Event ⊕ Event → Worlds → Prop
  | first {e e' d : Option StorageEngine} {fs fs' : FileSystem} {event : Event} :
      (machine F host p maxHistoryPerKey).step ⟨e, fs⟩ event ⟨e', fs'⟩ →
      PairStep ⟨e, d, fs⟩ (.inl event) ⟨e', d, fs'⟩
  | second {e d d' : Option StorageEngine} {fs fs' : FileSystem} {event : Event} :
      (machine F host q maxHistoryPerKey').step ⟨d, fs⟩ event ⟨d', fs'⟩ →
      PairStep ⟨e, d, fs⟩ (.inr event) ⟨e, d', fs'⟩

/-- The stores at `p` and at `q`, with their steps in any order. -/
def pair : Lts Worlds (Event ⊕ Event) :=
  ⟨PairStep F host p maxHistoryPerKey q maxHistoryPerKey'⟩

/-- Opening the store can end like this. -/
def Gives (n : ℕ) (orders : Orders) (fs : FileSystem)
    (result : Except Exception StorageEngine) : Prop :=
  ∃ fs', Exec F.env (StorageEngine.construct host p maxHistoryPerKey n orders) fs result fs'

end Pair

/-- Opening the store gives the same from these files as from those. -/
def OpensAlike (p : Path) (fs fs' : FileSystem) : Prop :=
  ∀ F host maxHistoryPerKey n orders result, Gives F host p maxHistoryPerKey n orders fs result ↔
    Gives F host p maxHistoryPerKey n orders fs' result

/-- The stores have no file in common, and whatever the two have done before, no step of one of them
changes what opening the other gives. -/
def Separate (p q : Path) : Prop :=
  Disjoint (storeFiles p) (storeFiles q) ∧
    ∀ F host maxHistoryPerKey maxHistoryPerKey' fs events w event w',
      (pair F host p maxHistoryPerKey q maxHistoryPerKey').Run ⟨none, none, fs⟩ events w →
      (pair F host p maxHistoryPerKey q maxHistoryPerKey').step w event w' →
      (event.isLeft → OpensAlike q w.fs w'.fs) ∧ (event.isRight → OpensAlike p w.fs w'.fs)

section Steps

variable {F : Faults} {host : ByteOrder} {p q : Path} {maxHistoryPerKey maxHistoryPerKey' : ℕ}
  {w w' : World} {event : Event}

/-- A step of a store leaves all files but its own alone. -/
theorem step_frame (hat : ∀ engine ∈ w.engine, engine.At p maxHistoryPerKey)
    (hstep : (machine F host p maxHistoryPerKey).step w event w') :
    (∀ engine ∈ w'.engine, engine.At p maxHistoryPerKey) ∧ Set.EqOn w'.fs w.fs (storeFiles p)ᶜ := by
  have hnone : ∀ engine ∈ (none : Option StorageEngine), engine.At p maxHistoryPerKey := by
    rintro engine ⟨⟩
  cases hstep with
  | opened hx =>
    obtain ⟨hresult, hfs⟩ := exec_frame (only_engineConstruct host p maxHistoryPerKey _ _) hx
    refine ⟨fun engine hengine => ?_, hfs⟩
    obtain rfl := Option.some.inj hengine
    exact hresult _ rfl
  | openFailed hx =>
    exact ⟨hnone, (exec_frame (only_engineConstruct host p maxHistoryPerKey _ _) hx).2⟩
  | openCrashed hx =>
    exact ⟨hnone, crash_frame (only_engineConstruct host p maxHistoryPerKey _ _) hx⟩
  | @returned _ _ _ engine' _ _ _ hx =>
    obtain ⟨hresult, hfs⟩ := exec_frame (only_call (hat _ rfl) _) hx
    refine ⟨fun engine hengine => ?_, hfs⟩
    obtain rfl := Option.some.inj hengine
    exact hresult
  | threw hx =>
    obtain ⟨hresult, hfs⟩ := exec_frame (only_call (hat _ rfl) _) hx
    refine ⟨fun engine hengine => ?_, hfs⟩
    obtain rfl := Option.some.inj hengine
    exact hresult
  | crashed hx =>
    exact ⟨hnone, crash_frame (only_call (hat _ rfl) _) hx⟩
  | closed hx =>
    obtain rfl := exec_destroy hx
    exact ⟨hnone, Set.eqOn_refl _ _⟩
  | closeCrashed hx =>
    obtain rfl := crash_destroy hx
    exact ⟨hnone, Set.eqOn_refl _ _⟩

/-- Opening a store looks at no files but its own. -/
theorem opensAlike_of_eqOn {fs fs' : FileSystem} (h : Set.EqOn fs fs' (storeFiles p)) :
    OpensAlike p fs fs' := by
  have hgives : ∀ {fs fs' : FileSystem}, Set.EqOn fs fs' (storeFiles p) →
      ∀ {F host maxHistoryPerKey n orders result},
        Gives F host p maxHistoryPerKey n orders fs result →
        Gives F host p maxHistoryPerKey n orders fs' result := by
    rintro fs fs' h F host maxHistoryPerKey n orders result ⟨fs₁, hx⟩
    obtain ⟨fs₁', hx', -⟩ := (only_engineConstruct host p maxHistoryPerKey n orders).exec_alike
      (fun c _ _ _ _ hc hst hfs => env_alike hc hst hfs) hx h
    exact ⟨fs₁', hx'⟩
  exact fun F host maxHistoryPerKey n orders result => ⟨hgives h, hgives h.symm⟩

/-- In a run of two stores each engine has the files of its own store open. -/
theorem pair_at {fs : FileSystem} {events : List (Event ⊕ Event)} {s : Worlds}
    (hrun : (pair F host p maxHistoryPerKey q maxHistoryPerKey').Run ⟨none, none, fs⟩ events s) :
    (∀ engine ∈ s.first, engine.At p maxHistoryPerKey) ∧
      ∀ engine ∈ s.second, engine.At q maxHistoryPerKey' := by
  refine hrun.invariant (I := fun s : Worlds =>
    (∀ engine ∈ s.first, engine.At p maxHistoryPerKey) ∧
      ∀ engine ∈ s.second, engine.At q maxHistoryPerKey') ?_ ?_
  · exact ⟨fun _ h => absurd h (Option.not_mem_none _), fun _ h => absurd h (Option.not_mem_none _)⟩
  · rintro s event s' ⟨hfirst, hsecond⟩ hstep
    cases hstep with
    | first hst => exact ⟨(step_frame hfirst hst).1, hsecond⟩
    | second hst => exact ⟨hfirst, (step_frame hsecond hst).1⟩

/-- **Two stores are separate unless their paths clash.** -/
theorem separate_iff (hne : p ≠ q) : Separate p q ↔ ¬Clash p q := by
  rw [← storeFiles_disjoint_iff hne]
  refine ⟨fun h => h.1, fun hdisjoint => ⟨hdisjoint, ?_⟩⟩
  intro F host maxHistoryPerKey maxHistoryPerKey' fs events w event w' hrun hstep
  obtain ⟨hfirst, hsecond⟩ := pair_at hrun
  have hp : storeFiles p ⊆ (storeFiles q)ᶜ := Set.subset_compl_iff_disjoint_right.2 hdisjoint
  have hq : storeFiles q ⊆ (storeFiles p)ᶜ := Set.subset_compl_iff_disjoint_left.2 hdisjoint
  cases hstep with
  | first hst =>
    have hfs := (step_frame hfirst hst).2
    exact ⟨fun _ => opensAlike_of_eqOn (hfs.mono hq).symm, fun h => absurd h Bool.false_ne_true⟩
  | second hst =>
    have hfs := (step_frame hsecond hst).2
    exact ⟨fun h => absurd h Bool.false_ne_true, fun _ => opensAlike_of_eqOn (hfs.mono hp).symm⟩

theorem separate_iff_ab : Separate "a" "b" := (separate_iff (by decide)).2 (by decide)

/-- The logs `a` and `a.wal` have one snapshot. -/
theorem separate_fails : ¬∀ p q, p ≠ q → Separate p q := by
  intro h
  exact (storeFiles_disjoint_iff (by decide)).1 (h "a" "a.wal" (by decide)).1 (by decide)

end Steps

end LiteSpeedStore
