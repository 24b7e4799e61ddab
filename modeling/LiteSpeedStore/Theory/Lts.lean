import Mathlib.Data.List.ReduceOption
import Mathlib.Tactic.TypeStar
import Mathlib.Tactic.Common

/-!
# Labelled transition systems

What the parties of a system do is a relation between states, labelled with what can be observed of
a step.

* `Lts.Run` : the runs, with the labels of their steps.
* `Lts.restrict` : the steps that meet a condition on the state before them and on their label.
* `Lts.Run.invariant` : what every step preserves holds at the end of a run.
* `Lts.Simulation.run` : a simulation matches every run by a run with the same labels.
* `Lts.silent` : the system with steps that nothing is observed of.
-/

namespace LiteSpeedStore

/-- A transition system with states `S` and labels `L`. -/
structure Lts (S L : Type*) where
  /-- `step s l s'` : the system can go from `s` to `s'`, and `l` is observed. -/
  step : S → L → S → Prop

namespace Lts

variable {S S' L : Type*}

/-- The runs from a state, with the labels in the order of the steps. -/
inductive Run (T : Lts S L) : S → List L → S → Prop
  | nil (s : S) : Run T s [] s
  | cons {s s' s'' : S} {l : L} {ls : List L} :
      T.step s l s' → Run T s' ls s'' → Run T s (l :: ls) s''

/-- The steps that are taken in a state, and with a label, that meet a condition. -/
def restrict (T : Lts S L) (P : S → L → Prop) : Lts S L where
  step s l s' := P s l ∧ T.step s l s'

/-- `R` relates the states of `T` to states of `A` that can follow every step. -/
def Simulation (T : Lts S L) (A : Lts S' L) (R : S → S' → Prop) : Prop :=
  ∀ ⦃s l s' a⦄, R s a → T.step s l s' → ∃ a', A.step a l a' ∧ R s' a'

/-- The steps of `T`, and steps that change nothing and that nothing is observed of. -/
def silent (T : Lts S L) : Lts S (Option L) where
  step s l s' := (l = none ∧ s' = s) ∨ ∃ x, l = some x ∧ T.step s x s'

variable {T : Lts S L} {A : Lts S' L}

theorem Run.single {s s' : S} {l : L} (h : T.step s l s') : T.Run s [l] s' := .cons h (.nil _)

theorem Run.append {s s' s'' : S} {ls ls' : List L} (h : T.Run s ls s') (h' : T.Run s' ls' s'') :
    T.Run s (ls ++ ls') s'' := by
  induction h with
  | nil => exact h'
  | cons hst _ ih => exact .cons hst (ih h')

theorem Run.split {s s'' : S} {ls ls' : List L} (h : T.Run s (ls ++ ls') s'') :
    ∃ s', T.Run s ls s' ∧ T.Run s' ls' s'' := by
  induction ls generalizing s with
  | nil => exact ⟨s, .nil s, h⟩
  | cons l ls ih =>
    cases h with
    | cons hst h =>
      obtain ⟨s', hrun, hrun'⟩ := ih h
      exact ⟨s', .cons hst hrun, hrun'⟩

theorem Run.of_restrict {P : S → L → Prop} {s s' : S} {ls : List L}
    (h : (T.restrict P).Run s ls s') : T.Run s ls s' := by
  induction h with
  | nil => exact .nil _
  | cons hst _ ih => exact .cons hst.2 ih

/-- A condition that always holds restricts nothing. -/
theorem Run.restrict {P : S → L → Prop} {s s' : S} {ls : List L} (h : T.Run s ls s')
    (hP : ∀ s l, P s l) : (T.restrict P).Run s ls s' := by
  induction h with
  | nil => exact .nil _
  | cons hst _ ih => exact .cons ⟨hP _ _, hst⟩ ih

/-- What every step preserves holds at the end of a run. -/
theorem Run.invariant {I : S → Prop} {s s' : S} {ls : List L} (h : T.Run s ls s') (h₀ : I s)
    (hstep : ∀ ⦃s l s'⦄, I s → T.step s l s' → I s') : I s' := by
  induction h with
  | nil => exact h₀
  | cons hst _ ih => exact ih (hstep h₀ hst)

/-- A simulation matches every run by a run with the same labels. -/
theorem Simulation.run {R : S → S' → Prop} (hsim : Simulation T A R) {s s' : S} {ls : List L}
    {a : S'} (h : T.Run s ls s') (h₀ : R s a) : ∃ a', A.Run a ls a' ∧ R s' a' := by
  induction h generalizing a with
  | nil s => exact ⟨a, .nil a, h₀⟩
  | cons hst _ ih =>
    obtain ⟨a₁, hst', h₁⟩ := hsim h₀ hst
    obtain ⟨a', hrun, h'⟩ := ih h₁
    exact ⟨a', .cons hst' hrun, h'⟩

/-- What is observed of a run with silent steps is a run without them. -/
theorem Run.of_silent {s s' : S} {ls : List (Option L)} (h : T.silent.Run s ls s') :
    T.Run s ls.reduceOption s' := by
  induction h with
  | nil s => exact .nil s
  | cons hst _ ih =>
    obtain ⟨rfl, rfl⟩ | ⟨x, rfl, hst⟩ := hst
    · rwa [List.reduceOption_cons_of_none]
    · rw [List.reduceOption_cons_of_some]
      exact .cons hst ih

end Lts

end LiteSpeedStore
