import Mathlib.Algebra.Order.Ring.Int
import Mathlib.Tactic.TypeStar
import Mathlib.Tactic.Common

/-!
# Statements with scope guards

A guard is set up when its scope is entered and torn down however the scope is left: at its end,
or early, by a jump or an exception.  A guard that fails while it is torn down ends the program.

* `Stmt.Plain` : the runs of a statement without its guards.
* `Stmt.Run` : its runs with them, and the spans of the guards that were torn down.
* `Stmt.Run.plain` : a statement that is not terminated does what it does without its guards.
* `Guards.Harmless.run_iff` : with guards that do not fail, that is all it can do.
* `Stmt.Run.fold` : what the guards leave behind, inner guards before outer ones.
* `Stmt.Run.within` : the spans are nested like the scopes.
-/

namespace LiteSpeedStore

/-- Statements over the states `σ`.  An `act` may leave early with some `ε`. -/
inductive Stmt (σ α γ ε : Type) where
  | skip
  | act (a : α) (f : σ → Option ε → σ → Prop)
  | seq (first second : Stmt σ α γ ε)
  | branch (c : σ → Bool) (yes no : Stmt σ α γ ε)
  | loop (c : σ → Bool) (body : Stmt σ α γ ε)
  /-- A scope with a guard. -/
  | scope (g : γ) (body : Stmt σ α γ ε)
  /-- Goes on with the handler where the body is left early. -/
  | attempt (body : Stmt σ α γ ε) (handler : ε → Stmt σ α γ ε)

/-- How a statement ends: it is left, at its end or early, or the program is terminated. -/
inductive Outcome (ε : Type) where
  | left (e : Option ε)
  | terminated

/-- What guards do to a state `τ` of their own: `γ` names a guard, `κ` is what it keeps while it is
set up, and `π` tells of one that was torn down. -/
structure Guards (σ τ α γ κ π : Type) where
  /-- What happens in the meantime. -/
  pass : α → τ → τ → Prop
  enter : γ → τ → κ → τ → Prop
  /-- Without a `π` it fails. -/
  leave : γ → κ → σ → τ → Option π → τ → Prop

/-- The guards that were torn down, one after the other, each with those in its scope. -/
inductive Spans (π : Type) where
  | nil
  | cons (x : π) (inner later : Spans π)

namespace Spans

variable {π : Type}

def append : Spans π → Spans π → Spans π
  | nil, spans => spans
  | cons x inner later, spans => cons x inner (later.append spans)

/-- In the order in which they were torn down. -/
def exits : Spans π → List π
  | nil => []
  | cons x inner later => inner.exits ++ x :: later.exits

/-- The outermost guards. -/
def outer : Spans π → List π
  | nil => []
  | cons x _ later => x :: later.outer

@[simp] theorem exits_append (s s' : Spans π) : (s.append s').exits = s.exits ++ s'.exits := by
  induction s with
  | nil => rfl
  | cons x inner later _ ih => simp only [append, exits, ih, List.append_assoc, List.cons_append]

/-- Between `a` and `b`, the spans follow each other, and so do those within each of them. -/
def Within (start stop : π → ℤ) (a b : ℤ) : Spans π → Prop
  | nil => a ≤ b
  | cons x inner later =>
    a ≤ start x ∧ inner.Within start stop (start x) (stop x) ∧ later.Within start stop (stop x) b

variable {start stop : π → ℤ} {a a' b b' : ℤ} {s s' : Spans π}

theorem Within.le (h : s.Within start stop a b) : a ≤ b := by
  induction s generalizing a b with
  | nil => exact h
  | cons x inner later ihInner ihLater =>
    obtain ⟨hstart, hinner, hlater⟩ := h
    exact hstart.trans ((ihInner hinner).trans (ihLater hlater))

theorem Within.mono (h : s.Within start stop a b) (ha : a' ≤ a) (hb : b ≤ b') :
    s.Within start stop a' b' := by
  induction s generalizing a a' with
  | nil => exact ha.trans (le_trans h hb)
  | cons x inner later _ ih =>
    obtain ⟨hstart, hinner, hlater⟩ := h
    exact ⟨ha.trans hstart, hinner, ih hlater le_rfl⟩

theorem Within.append {c : ℤ} (h : s.Within start stop a b) (h' : s'.Within start stop b c) :
    (s.append s').Within start stop a c := by
  induction s generalizing a with
  | nil => exact h'.mono h le_rfl
  | cons x inner later _ ih =>
    obtain ⟨hstart, hinner, hlater⟩ := h
    exact ⟨hstart, hinner, ih hlater⟩

/-- Spans that follow each other do not take longer than the time in which they do. -/
theorem Within.sum_le (h : s.Within start stop a b) :
    (s.outer.map fun x => stop x - start x).sum ≤ b - a := by
  induction s generalizing a with
  | nil =>
    rw [outer, List.map_nil, List.sum_nil]
    exact sub_nonneg.2 h
  | cons x inner later _ ih =>
    obtain ⟨hstart, -, hlater⟩ := h
    have hrest := ih hlater
    rw [outer, List.map_cons, List.sum_cons]
    omega

end Spans

namespace Stmt

variable {σ τ α γ ε κ π : Type}

/-- The runs without the guards. -/
inductive Plain : Stmt σ α γ ε → σ → Option ε → σ → Prop
  | skip (s : σ) : Plain skip s none s
  | act {a : α} {f : σ → Option ε → σ → Prop} {s s' : σ} {e : Option ε} :
      f s e s' → Plain (act a f) s e s'
  | seq {p q : Stmt σ α γ ε} {s s' s'' : σ} {e : Option ε} :
      Plain p s none s' → Plain q s' e s'' → Plain (seq p q) s e s''
  | seqLeft {p q : Stmt σ α γ ε} {s s' : σ} {e : ε} :
      Plain p s (some e) s' → Plain (seq p q) s (some e) s'
  | branch {c : σ → Bool} {p q : Stmt σ α γ ε} {s s' : σ} {e : Option ε} :
      Plain (if c s then p else q) s e s' → Plain (branch c p q) s e s'
  | loop {c : σ → Bool} {p : Stmt σ α γ ε} {s s' : σ} {e : Option ε} :
      Plain (branch c (seq p (loop c p)) skip) s e s' → Plain (loop c p) s e s'
  | scope {g : γ} {p : Stmt σ α γ ε} {s s' : σ} {e : Option ε} :
      Plain p s e s' → Plain (scope g p) s e s'
  | attempt {p : Stmt σ α γ ε} {h : ε → Stmt σ α γ ε} {s s' : σ} :
      Plain p s none s' → Plain (attempt p h) s none s'
  | handled {p : Stmt σ α γ ε} {h : ε → Stmt σ α γ ε} {s s' s'' : σ} {e : ε} {e' : Option ε} :
      Plain p s (some e) s' → Plain (h e) s' e' s'' → Plain (attempt p h) s e' s''

/-- The runs with the guards. -/
inductive Run (G : Guards σ τ α γ κ π) :
    Stmt σ α γ ε → σ → τ → Spans π → Outcome ε → σ → τ → Prop
  | skip (s : σ) (t : τ) : Run G skip s t .nil (.left none) s t
  | act {a : α} {f : σ → Option ε → σ → Prop} {s s' : σ} {t t' : τ} {e : Option ε} :
      f s e s' → G.pass a t t' → Run G (act a f) s t .nil (.left e) s' t'
  | seq {p q : Stmt σ α γ ε} {s s' s'' : σ} {t t' t'' : τ} {spans spans' : Spans π}
      {o : Outcome ε} : Run G p s t spans (.left none) s' t' → Run G q s' t' spans' o s'' t'' →
      Run G (seq p q) s t (spans.append spans') o s'' t''
  | seqLeft {p q : Stmt σ α γ ε} {s s' : σ} {t t' : τ} {spans : Spans π} {o : Outcome ε} :
      Run G p s t spans o s' t' → o ≠ .left none → Run G (seq p q) s t spans o s' t'
  | branch {c : σ → Bool} {p q : Stmt σ α γ ε} {s s' : σ} {t t' : τ} {spans : Spans π}
      {o : Outcome ε} : Run G (if c s then p else q) s t spans o s' t' →
      Run G (branch c p q) s t spans o s' t'
  | loop {c : σ → Bool} {p : Stmt σ α γ ε} {s s' : σ} {t t' : τ} {spans : Spans π}
      {o : Outcome ε} : Run G (branch c (seq p (loop c p)) skip) s t spans o s' t' →
      Run G (loop c p) s t spans o s' t'
  | scope {g : γ} {p : Stmt σ α γ ε} {s s' : σ} {t t₁ t₂ t' : τ} {k : κ} {x : π}
      {inner : Spans π} {e : Option ε} : G.enter g t k t₁ → Run G p s t₁ inner (.left e) s' t₂ →
      G.leave g k s' t₂ (some x) t' → Run G (scope g p) s t (.cons x inner .nil) (.left e) s' t'
  | failed {g : γ} {p : Stmt σ α γ ε} {s s' : σ} {t t₁ t₂ t' : τ} {k : κ} {inner : Spans π}
      {e : Option ε} : G.enter g t k t₁ → Run G p s t₁ inner (.left e) s' t₂ →
      G.leave g k s' t₂ none t' → Run G (scope g p) s t inner .terminated s' t'
  | terminated {g : γ} {p : Stmt σ α γ ε} {s s' : σ} {t t₁ t' : τ} {k : κ} {inner : Spans π} :
      G.enter g t k t₁ → Run G p s t₁ inner .terminated s' t' →
      Run G (scope g p) s t inner .terminated s' t'
  | attempt {p : Stmt σ α γ ε} {h : ε → Stmt σ α γ ε} {s s' : σ} {t t' : τ} {spans : Spans π}
      {o : Outcome ε} : Run G p s t spans o s' t' → (∀ e, o ≠ .left (some e)) →
      Run G (attempt p h) s t spans o s' t'
  | handled {p : Stmt σ α γ ε} {h : ε → Stmt σ α γ ε} {s s' s'' : σ} {t t' t'' : τ}
      {spans spans' : Spans π} {e : ε} {o : Outcome ε} :
      Run G p s t spans (.left (some e)) s' t' → Run G (h e) s' t' spans' o s'' t'' →
      Run G (attempt p h) s t (spans.append spans') o s'' t''

/-- Every guard of the statement is of a kind. -/
def All (P : γ → Prop) : Stmt σ α γ ε → Prop
  | skip | act _ _ => True
  | seq p q => p.All P ∧ q.All P
  | branch _ p q => p.All P ∧ q.All P
  | loop _ p => p.All P
  | scope g p => P g ∧ p.All P
  | attempt p h => p.All P ∧ ∀ e, (h e).All P

variable {G : Guards σ τ α γ κ π} {p : Stmt σ α γ ε} {s s' : σ} {t t' : τ} {spans : Spans π}
  {o : Outcome ε} {e : Option ε} {P : γ → Prop}

theorem All.branch {c : σ → Bool} {p q : Stmt σ α γ ε} (h : (branch c p q).All P) (s : σ) :
    (if c s then p else q).All P := by
  split
  · exact h.1
  · exact h.2

theorem All.unroll {c : σ → Bool} {p : Stmt σ α γ ε} (h : (loop c p).All P) :
    (Stmt.branch c (seq p (loop c p)) skip).All P := ⟨⟨h, h⟩, trivial⟩

/-- **Guards do not change what a statement does**, unless one of them fails. -/
theorem Run.plain (h : p.Run G s t spans o s' t') (ho : o = .left e) : p.Plain s e s' := by
  induction h generalizing e with
  | skip s t =>
    cases ho
    exact .skip s
  | act hf _ =>
    cases ho
    exact .act hf
  | seq _ _ ih ih' => exact .seq (ih rfl) (ih' ho)
  | seqLeft _ hleft ih =>
    subst ho
    cases e with
    | none => exact absurd rfl hleft
    | some e => exact .seqLeft (ih rfl)
  | branch _ ih => exact .branch (ih ho)
  | loop _ ih => exact .loop (ih ho)
  | scope _ _ _ ih => exact .scope (ih ho)
  | failed => cases ho
  | terminated => cases ho
  | attempt _ hnot ih =>
    subst ho
    cases e with
    | none => exact .attempt (ih rfl)
    | some e => exact absurd rfl (hnot e)
  | handled _ _ ih ih' => exact .handled (ih rfl) (ih' ho)

end Stmt

/-! ### Guards that do not fail -/

section Harmless

variable {σ τ α γ ε κ π : Type}

/-- In the states `I`, what happens in the meantime and the guards of a kind can go on, and the
guards do not fail. -/
structure Guards.Harmless (G : Guards σ τ α γ κ π) (P : γ → Prop) (I : τ → Prop) : Prop where
  pass : ∀ {a t t'}, I t → G.pass a t t' → I t'
  enter : ∀ {g t k t'}, I t → G.enter g t k t' → I t'
  leave : ∀ {g k s t x t'}, P g → I t → G.leave g k s t x t' → x ≠ none ∧ I t'
  passes : ∀ a {t}, I t → ∃ t', G.pass a t t'
  enters : ∀ g {t}, I t → ∃ k t', G.enter g t k t'
  leaves : ∀ {g} k s {t}, P g → I t → ∃ x t', G.leave g k s t x t'

variable {G : Guards σ τ α γ κ π} {P : γ → Prop} {I : τ → Prop} {p : Stmt σ α γ ε} {s s' : σ}
  {t t' : τ} {spans : Spans π} {o : Outcome ε} {e : Option ε}

/-- Guards that do not fail do not terminate the program. -/
theorem Guards.Harmless.left (hG : G.Harmless P I) (hp : p.All P) (ht : I t)
    (h : p.Run G s t spans o s' t') : o ≠ .terminated ∧ I t' := by
  induction h with
  | skip => exact ⟨by rintro ⟨⟩, ht⟩
  | act _ hpass => exact ⟨by rintro ⟨⟩, hG.pass ht hpass⟩
  | seq _ _ ih ih' => exact ih' hp.2 (ih hp.1 ht).2
  | seqLeft _ _ ih => exact ih hp.1 ht
  | branch _ ih => exact ih (hp.branch _) ht
  | loop _ ih => exact ih hp.unroll ht
  | scope henter _ hleave ih =>
    obtain ⟨-, ht₁⟩ := ih hp.2 (hG.enter ht henter)
    exact ⟨by rintro ⟨⟩, (hG.leave hp.1 ht₁ hleave).2⟩
  | failed henter _ hleave ih =>
    obtain ⟨-, ht₁⟩ := ih hp.2 (hG.enter ht henter)
    exact absurd rfl (hG.leave hp.1 ht₁ hleave).1
  | terminated henter _ ih => exact absurd rfl (ih hp.2 (hG.enter ht henter)).1
  | attempt _ _ ih => exact ih hp.1 ht
  | handled _ _ ih ih' => exact ih' (hp.2 _) (ih hp.1 ht).2

/-- Every run without the guards is one with them. -/
theorem Guards.Harmless.run (hG : G.Harmless P I) (hp : p.All P) (ht : I t)
    (h : p.Plain s e s') : ∃ spans t', p.Run G s t spans (.left e) s' t' ∧ I t' := by
  induction h generalizing t with
  | skip s => exact ⟨_, t, .skip s t, ht⟩
  | @act a f s s' e hf =>
    obtain ⟨t', hpass⟩ := hG.passes a ht
    exact ⟨_, t', .act hf hpass, hG.pass ht hpass⟩
  | seq _ _ ih ih' =>
    obtain ⟨spans, t₁, hfirst, ht₁⟩ := ih hp.1 ht
    obtain ⟨spans', t₂, hsecond, ht₂⟩ := ih' hp.2 ht₁
    exact ⟨_, t₂, .seq hfirst hsecond, ht₂⟩
  | seqLeft _ ih =>
    obtain ⟨spans, t₁, hfirst, ht₁⟩ := ih hp.1 ht
    exact ⟨spans, t₁, .seqLeft hfirst (by rintro ⟨⟩), ht₁⟩
  | branch _ ih =>
    obtain ⟨spans, t₁, hrun, ht₁⟩ := ih (hp.branch _) ht
    exact ⟨spans, t₁, .branch hrun, ht₁⟩
  | loop _ ih =>
    obtain ⟨spans, t₁, hrun, ht₁⟩ := ih hp.unroll ht
    exact ⟨spans, t₁, .loop hrun, ht₁⟩
  | @scope g p s s' e _ ih =>
    obtain ⟨k, t₁, henter⟩ := hG.enters g ht
    obtain ⟨inner, t₂, hrun, ht₂⟩ := ih hp.2 (hG.enter ht henter)
    obtain ⟨_ | x, t', hleave⟩ := hG.leaves k s' hp.1 ht₂
    · exact absurd rfl (hG.leave hp.1 ht₂ hleave).1
    · exact ⟨_, t', .scope henter hrun hleave, (hG.leave hp.1 ht₂ hleave).2⟩
  | attempt _ ih =>
    obtain ⟨spans, t₁, hrun, ht₁⟩ := ih hp.1 ht
    exact ⟨spans, t₁, .attempt hrun (by rintro e ⟨⟩), ht₁⟩
  | handled _ _ ih ih' =>
    obtain ⟨spans, t₁, hbody, ht₁⟩ := ih hp.1 ht
    obtain ⟨spans', t₂, hhandler, ht₂⟩ := ih' (hp.2 _) ht₁
    exact ⟨_, t₂, .handled hbody hhandler, ht₂⟩

/-- **With guards that do not fail** a statement does what it does without them. -/
theorem Guards.Harmless.run_iff (hG : G.Harmless P I) (hp : p.All P) (ht : I t) :
    (∃ spans t', p.Run G s t spans o s' t') ↔ ∃ e, o = .left e ∧ p.Plain s e s' := by
  constructor
  · rintro ⟨spans, t', hrun⟩
    cases o with
    | left e => exact ⟨e, rfl, hrun.plain rfl⟩
    | terminated => exact absurd rfl (hG.left hp ht hrun).1
  · rintro ⟨e, rfl, hplain⟩
    obtain ⟨spans, t', hrun, -⟩ := hG.run hp ht hplain
    exact ⟨spans, t', hrun⟩

end Harmless

/-! ### What the guards leave behind -/

section Spans

variable {σ τ α γ ε κ π D : Type} {G : Guards σ τ α γ κ π} {p : Stmt σ α γ ε} {s s' : σ}
  {t t' : τ} {spans : Spans π} {o : Outcome ε}

/-- A view of the state that only a guard changes, when it is torn down. -/
structure Guards.Logs (G : Guards σ τ α γ κ π) (view : τ → D) (step : D → π → D) : Prop where
  pass : ∀ {a t t'}, G.pass a t t' → view t' = view t
  enter : ∀ {g t k t'}, G.enter g t k t' → view t' = view t
  leave : ∀ {g k s t x t'}, G.leave g k s t (some x) t' → view t' = step (view t) x
  failed : ∀ {g k s t t'}, G.leave g k s t none t' → view t' = view t

/-- **What the guards leave behind** is what each did, inner guards before outer ones, also where
the statement is left early or the program is terminated. -/
theorem Stmt.Run.fold {view : τ → D} {step : D → π → D} (hG : G.Logs view step)
    (h : p.Run G s t spans o s' t') : view t' = spans.exits.foldl step (view t) := by
  induction h with
  | skip => rfl
  | act _ hpass => exact hG.pass hpass
  | seq _ _ ih ih' => rw [Spans.exits_append, List.foldl_append, ← ih, ih']
  | seqLeft _ _ ih => exact ih
  | branch _ ih => exact ih
  | loop _ ih => exact ih
  | scope henter _ hleave ih =>
    rw [hG.leave hleave, ih, hG.enter henter, Spans.exits, List.foldl_append]
    rfl
  | failed henter _ hleave ih => rw [hG.failed hleave, ih, hG.enter henter]
  | terminated henter _ ih => rw [ih, hG.enter henter]
  | attempt _ _ ih => exact ih
  | handled _ _ ih ih' => rw [Spans.exits_append, List.foldl_append, ← ih, ih']

/-- The state has a clock that does not go back, and the guards read it when they are set up and
when they are torn down. -/
structure Guards.Timed (G : Guards σ τ α γ κ π) (time : τ → ℤ) (begun : κ → ℤ)
    (start stop : π → ℤ) : Prop where
  pass : ∀ {a t t'}, G.pass a t t' → time t ≤ time t'
  enter : ∀ {g t k t'}, G.enter g t k t' → time t ≤ begun k ∧ begun k ≤ time t'
  leave : ∀ {g k s t x t'}, G.leave g k s t (some x) t' →
    start x = begun k ∧ time t ≤ stop x ∧ stop x ≤ time t'
  failed : ∀ {g k s t t'}, G.leave g k s t none t' → time t ≤ time t'

/-- **The spans are nested like the scopes.** -/
theorem Stmt.Run.within {time : τ → ℤ} {begun : κ → ℤ} {start stop : π → ℤ}
    (hG : G.Timed time begun start stop) (h : p.Run G s t spans o s' t') :
    spans.Within start stop (time t) (time t') := by
  induction h with
  | skip => exact le_rfl
  | act _ hpass => exact hG.pass hpass
  | seq _ _ ih ih' => exact ih.append ih'
  | seqLeft _ _ ih => exact ih
  | branch _ ih => exact ih
  | loop _ ih => exact ih
  | scope henter _ hleave ih =>
    obtain ⟨hbefore, hbegun⟩ := hG.enter henter
    obtain ⟨hstart, hstop, hafter⟩ := hG.leave hleave
    exact ⟨hstart ▸ hbefore, ih.mono (hstart ▸ hbegun) hstop, hafter⟩
  | failed henter _ hleave ih =>
    obtain ⟨hbefore, hbegun⟩ := hG.enter henter
    exact ih.mono (hbefore.trans hbegun) (hG.failed hleave)
  | terminated henter _ ih =>
    obtain ⟨hbefore, hbegun⟩ := hG.enter henter
    exact ih.mono (hbefore.trans hbegun) le_rfl
  | attempt _ _ ih => exact ih
  | handled _ _ ih ih' => exact ih.append ih'

end Spans

end LiteSpeedStore
