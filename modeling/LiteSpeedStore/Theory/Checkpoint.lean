import Mathlib.Data.List.Basic
import Mathlib.Data.Set.Insert
import Mathlib.Order.Basic
import Mathlib.Tactic.Common

/-!
# A log with checkpoints

A state is kept as a checkpoint and a log of the changes since.  Every entry of the log carries the
epoch it was written in, and a checkpoint of epoch `e` covers the entries up to `e`: they are in the
log until it is emptied, and restoring skips them.

* `restore` : the state that a checkpoint and a log stand for.
* `restore_concat` : an entry behind the checkpoint's epoch is one more change.
* `restore_concat_covered` : an entry that the checkpoint covers is lost.
* `restore_covered` : under a checkpoint that covers the whole log, only the checkpoint counts.
* `restore_map` : what maps each change maps what is restored.

On a disk that can lose its last changes there is more than one log and more than one checkpoint that
may be found afterwards.  `Outcomes` says what all of them restore.

* `Outcomes.append`, `Outcomes.sync` : an entry is written, and is on the disk.
* `Outcomes.save`, `Outcomes.sub` : a new checkpoint is written, and the old ones are gone.
* `Outcomes.rewind` : the log is emptied under a checkpoint that covers it.
-/

namespace LiteSpeedStore

namespace Checkpoint

variable {ε σ α : Type*} [LT ε] [DecidableLT ε] (epoch : α → ε) (apply : σ → α → σ)

/-- The entry is not covered by a checkpoint of this epoch. -/
def behind (base : Option ε) (a : α) : Bool := base.all (· < epoch a)

/-- The state that a checkpoint and the log behind it stand for. -/
def restore (base : Option ε) (s : σ) (log : List α) : σ :=
  (log.filter (behind epoch base)).foldl apply s

variable {epoch apply} {base : Option ε} {s : σ} {log : List α} {a : α}

theorem restore_append (log' : List α) : restore epoch apply base s (log ++ log') =
    restore epoch apply base (restore epoch apply base s log) log' := by
  unfold restore
  rw [List.filter_append, List.foldl_append]

/-- An entry behind the checkpoint's epoch is one more change. -/
theorem restore_concat (h : behind epoch base a) :
    restore epoch apply base s (log ++ [a]) = apply (restore epoch apply base s log) a := by
  rw [restore_append, restore, List.filter_cons_of_pos h, List.filter_nil]
  rfl

/-- An entry that the checkpoint covers is lost. -/
theorem restore_concat_covered (h : ¬behind epoch base a) :
    restore epoch apply base s (log ++ [a]) = restore epoch apply base s log := by
  rw [restore_append, restore, List.filter_cons_of_neg h, List.filter_nil]
  rfl

/-- Under a checkpoint that covers the whole log, only the checkpoint counts. -/
theorem restore_covered (h : ∀ a ∈ log, ¬behind epoch base a) :
    restore epoch apply base s log = s := by
  unfold restore
  rw [List.filter_eq_nil_iff.2 h, List.foldl_nil]

/-- What maps each change to one of another kind maps what is restored. -/
theorem restore_map {σ' : Type*} {apply' : σ' → α → σ'} {f : σ → σ'}
    (h : ∀ s a, f (apply s a) = apply' (f s) a) (s : σ) (log : List α) :
    restore epoch apply' base (f s) log = f (restore epoch apply base s log) := by
  unfold restore
  exact List.foldl_hom f fun s a => (h s a).symm

/-! ### Outcomes -/

section Outcomes

variable {β : Type*} (epoch apply) (base : β → Option ε) (state : β → σ)

/-- One of these logs and one of these checkpoints will be found.  On the log as it is now the
checkpoints agree, and whatever is found restores a state that satisfies `A`. -/
structure Outcomes (A : σ → Prop) (logs : Set (List α)) (checkpoints : Set β) (log : List α)
    (s : σ) : Prop where
  agree : ∀ i ∈ checkpoints, restore epoch apply (base i) (state i) log = s
  held : ∀ log' ∈ logs, ∀ i ∈ checkpoints, A (restore epoch apply (base i) (state i) log')

namespace Outcomes

variable {epoch apply base state} {A A' : σ → Prop} {logs logs' : Set (List α)}
  {checkpoints checkpoints' : Set β} {i : β}

theorem mono (h : Outcomes epoch apply base state A logs checkpoints log s)
    (hA : ∀ x, A x → A' x) : Outcomes epoch apply base state A' logs checkpoints log s :=
  ⟨h.agree, fun log' hlog i hi => hA _ (h.held log' hlog i hi)⟩

/-- Less may be found. -/
theorem sub (h : Outcomes epoch apply base state A logs checkpoints log s) (hlogs : logs' ⊆ logs)
    (hcheckpoints : checkpoints' ⊆ checkpoints) :
    Outcomes epoch apply base state A logs' checkpoints' log s :=
  ⟨fun i hi => h.agree i (hcheckpoints hi),
    fun log' hlog i hi => h.held log' (hlogs hlog) i (hcheckpoints hi)⟩

/-- An entry behind every checkpoint is written. -/
theorem append (h : Outcomes epoch apply base state A logs checkpoints log s)
    (ha : ∀ i ∈ checkpoints, behind epoch (base i) a) :
    Outcomes epoch apply base state (fun x => A x ∨ x = apply s a) (insert (log ++ [a]) logs)
      checkpoints (log ++ [a]) (apply s a) := by
  have hnew : ∀ i ∈ checkpoints,
      restore epoch apply (base i) (state i) (log ++ [a]) = apply s a := by
    intro i hi
    rw [restore_concat (ha i hi), h.agree i hi]
  refine ⟨hnew, ?_⟩
  rintro log' (rfl | hlog) i hi
  · exact .inr (hnew i hi)
  · exact .inl (h.held log' hlog i hi)

/-- The log as it is now is the one that will be found. -/
theorem sync (h : Outcomes epoch apply base state A logs checkpoints log s) (hlogs : logs' ⊆ {log}) :
    Outcomes epoch apply base state (fun x => x = s) logs' checkpoints log s := by
  refine ⟨h.agree, fun log' hlog i hi => ?_⟩
  rw [hlogs hlog]
  exact h.agree i hi

/-- A new checkpoint of the state is written, which covers every log. -/
theorem save (h : Outcomes epoch apply base state A logs checkpoints log s) (hi : state i = s)
    (hlog : ∀ a ∈ log, ¬behind epoch (base i) a)
    (hlogs : ∀ log' ∈ logs, ∀ a ∈ log', ¬behind epoch (base i) a) :
    Outcomes epoch apply base state (fun x => A x ∨ x = s) logs (insert i checkpoints) log s := by
  constructor
  · rintro j (rfl | hj)
    · rw [restore_covered hlog, hi]
    · exact h.agree j hj
  · rintro log' hlog' j (rfl | hj)
    · rw [restore_covered (hlogs log' hlog')]
      exact .inr hi
    · exact .inl (h.held log' hlog' j hj)

/-- The log is emptied under checkpoints that cover it; it may still be found. -/
theorem rewind (h : Outcomes epoch apply base state (fun x => x = s) logs checkpoints log s)
    (hcovered : ∀ i ∈ checkpoints, ∀ a ∈ log, ¬behind epoch (base i) a) :
    Outcomes epoch apply base state (fun x => x = s) (insert [] logs) checkpoints [] s := by
  -- what the checkpoints restore without the log
  have hempty : ∀ i ∈ checkpoints, restore epoch apply (base i) (state i) [] = s := by
    intro i hi
    rw [← h.agree i hi, restore_covered (hcovered i hi), restore_covered (by simp)]
  refine ⟨hempty, ?_⟩
  rintro log' (rfl | hlog) i hi
  · exact hempty i hi
  · exact h.held log' hlog i hi

end Outcomes

end Outcomes

end Checkpoint

end LiteSpeedStore
