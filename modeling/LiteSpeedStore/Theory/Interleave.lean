import LiteSpeedStore.Theory.Prog

/-!
# Programs that are interleaved with others

When several programs run on one state, each makes its calls one at a time, and the others can
change the state in between.

* `Prog.Steps` : the calls a program makes without being interleaved.
* `Prog.steps_of_exec`, `Prog.Steps.exec`, `Prog.Steps.bind` : runs are made of such calls.
* `Prog.Only` : which calls a program can make, and what it can return, whatever they answer.
* `Prog.Only.exec`, `Prog.Only.exec_alike`, `Prog.Only.wp_alike` : what follows from its calls
  about its runs.
* `Prog.wp_view` : a program can be reasoned about in an environment that answers everything the
  interleaved calls can answer.
-/

namespace LiteSpeedStore

namespace Prog

variable {Call : Type} {Res : Call → Type} {σ τ α β : Type}

/-- One call of a program, with its answer. -/
inductive Step (E : Env Res σ) : Prog Res α → σ → (c : Call) → Res c → Prog Res α → σ → Prop
  | call {c : Call} {k : Res c → Prog Res α} {s s' : σ} {r : Res c} :
      E.step c s r s' → Step E (call c k) s c r (k r) s'

/-- Some calls of a program, with nothing in between. -/
inductive Steps (E : Env Res σ) : Prog Res α → σ → Prog Res α → σ → Prop
  | nil (p : Prog Res α) (s : σ) : Steps E p s p s
  | cons {p p' p'' : Prog Res α} {s s' s'' : σ} {c : Call} {r : Res c} :
      Step E p s c r p' s' → Steps E p' s' p'' s'' → Steps E p s p'' s''

variable {E : Env Res σ} {p p' p'' : Prog Res α} {s s' s'' : σ}

theorem Steps.trans (h : Steps E p s p' s') (h' : Steps E p' s' p'' s'') : Steps E p s p'' s'' := by
  induction h with
  | nil => exact h'
  | cons hst _ ih => exact .cons hst (ih h')

theorem Step.bind {c : Call} {r : Res c} (h : Step E p s c r p' s') (f : α → Prog Res β) :
    Step E (p >>= f) s c r (p' >>= f) s' := by
  cases h with
  | call hst => exact .call hst

/-- What comes after a program waits until it is done. -/
theorem Steps.bind (h : Steps E p s p' s') (f : α → Prog Res β) :
    Steps E (p >>= f) s (p' >>= f) s' := by
  induction h with
  | nil => exact .nil _ _
  | cons hst _ ih => exact .cons (hst.bind f) ih

/-- An environment that allows more answers has these calls too. -/
theorem Steps.mono {E' : Env Res σ} (h : Steps E p s p' s')
    (hE : ∀ c s r s', E.step c s r s' → E'.step c s r s') : Steps E' p s p' s' := by
  induction h with
  | nil => exact .nil _ _
  | cons hst _ ih =>
    cases hst with
    | call hst => exact .cons (.call (hE _ _ _ _ hst)) ih

/-- A whole run is made of calls. -/
theorem steps_of_exec {a : α} (h : Exec E p s a s') : Steps E p s (ret a) s' := by
  induction h with
  | ret a s => exact .nil _ _
  | call hst _ ih => exact .cons (.call hst) ih

/-- Calls that have been made, and a run of the rest. -/
theorem Steps.exec {a : α} (h : Steps E p s p' s') (hx : Exec E p' s' a s'') : Exec E p s a s'' := by
  induction h with
  | nil => exact hx
  | cons hst _ ih =>
    cases hst with
    | call hst => exact .call hst (ih hx)

/-- A program can be interrupted after any of its calls. -/
theorem Steps.crash (h : Steps E p s p' s') : Crash E p s s' := by
  induction h with
  | nil => exact .here _ _
  | cons hst _ ih =>
    cases hst with
    | call hst => exact .call hst ih

theorem steps_bind_of_exec {a : α} (h : Exec E p s a s') (f : α → Prog Res β) :
    Steps E (p >>= f) s (f a) s' := (steps_of_exec h).bind f

/-- The environment allows the answer. -/
theorem Step.env {c : Call} {r : Res c} (h : Step E p s c r p' s') : E.step c s r s' := by
  cases h with
  | call hst => exact hst

/-- The rule for one call of a program. -/
theorem wp_step {Q : α → σ → Prop} {C : σ → Prop} {c : Call} {r : Res c} (h : wp E p Q C s)
    (hst : Step E p s c r p' s') : wp E p' Q C s' := by
  cases hst with
  | call hst => exact h.2 _ _ hst

/-- One call of a program, seen in another environment that allows its answer. -/
theorem wp_view {F : Env Res τ} {Q : α → τ → Prop} {C : τ → Prop} {t t' : τ} {c : Call} {r : Res c}
    (h : wp F p Q C t) (hst : Step E p s c r p' s') (hview : F.step c t r t') : wp F p' Q C t' := by
  cases hst with
  | call => exact h.2 _ _ hview

/-! ### The calls and the results of a program -/

/-- Every call that the program can make is one of these, and every result one of those, whatever is
answered. -/
def Only (P : Call → Prop) (Q : α → Prop) : Prog Res α → Prop
  | ret a => Q a
  | call c k => P c ∧ ∀ r, (k r).Only P Q

variable {P : Call → Prop} {Q : α → Prop}

theorem only_bind {R : β → Prop} {f : α → Prog Res β} (hp : p.Only P Q)
    (hf : ∀ a, Q a → (f a).Only P R) : (p >>= f).Only P R := by
  induction p with
  | ret a => exact hf a hp
  | call c k ih => exact ⟨hp.1, fun r => ih r (hp.2 r)⟩

theorem only_true (p : Prog Res α) : p.Only (fun _ => True) fun _ => True := by
  induction p with
  | ret a => exact trivial
  | call c k ih => exact ⟨trivial, ih⟩

theorem Only.step {c : Call} {r : Res c} (h : p.Only P Q) (hst : Step E p s c r p' s') :
    P c ∧ p'.Only P Q := by
  cases hst with
  | call => exact ⟨h.1, h.2 _⟩

/-- The results are the same in every environment. -/
theorem Only.wp (h : p.Only P Q) (s : σ) : wp E p (fun a _ => Q a) (fun _ => True) s := by
  induction p generalizing s with
  | ret a => exact ⟨trivial, h⟩
  | call c k ih => exact ⟨trivial, fun r s' _ => ih r (h.2 r) s'⟩

theorem Only.mono {P' : Call → Prop} {Q' : α → Prop} (h : p.Only P Q) (hP : ∀ c, P c → P' c)
    (hQ : ∀ a, Q a → Q' a) : p.Only P' Q' := by
  induction p with
  | ret a => exact hQ a h
  | call c k ih => exact ⟨hP c h.1, fun r => ih r (h.2 r)⟩

/-- What the calls of a program keep is kept by its runs. -/
theorem Only.exec {I : σ → Prop} {a : α} (h : p.Only P Q)
    (hI : ∀ c s r s', P c → E.step c s r s' → I s → I s') (hx : Exec E p s a s') (hs : I s) :
    Q a ∧ I s' := by
  induction hx with
  | ret a s => exact ⟨h, hs⟩
  | call hst _ ih => exact ih (h.2 _) (hI _ _ _ _ h.1 hst hs)

/-- What the calls of a program keep is kept where it is interrupted. -/
theorem Only.crash {I : σ → Prop} (h : p.Only P Q)
    (hI : ∀ c s r s', P c → E.step c s r s' → I s → I s') (hx : Crash E p s s') (hs : I s) :
    I s' := by
  induction hx with
  | here p s => exact hs
  | call hst _ ih => exact ih (h.2 _) (hI _ _ _ _ h.1 hst hs)

/-- A program can be reasoned about in an environment that gives the same answers to its calls. -/
theorem Only.wp_alike {E' : Env Res σ} {R : α → σ → Prop} {C : σ → Prop} (h : p.Only P Q)
    (hE : ∀ c s r s', P c → E'.step c s r s' → E.step c s r s') (hp : Prog.wp E p R C s) :
    Prog.wp E' p R C s := by
  induction p generalizing s with
  | ret a => exact hp
  | call c k ih => exact ⟨hp.1, fun r s' hst => ih r (h.2 r) (hp.2 r s' (hE c s r s' h.1 hst))⟩

/-- A program runs alike from states that its calls cannot tell apart. -/
theorem Only.exec_alike {F : Env Res τ} {R : σ → τ → Prop} {t : τ} {a : α} (h : p.Only P Q)
    (hR : ∀ c s r s' t, P c → E.step c s r s' → R s t → ∃ t', F.step c t r t' ∧ R s' t')
    (hx : Exec E p s a s') (hst : R s t) : ∃ t', Exec F p t a t' ∧ R s' t' := by
  induction hx generalizing t with
  | ret a s => exact ⟨t, .ret a t, hst⟩
  | call hstep _ ih =>
    obtain ⟨t₁, hstep', hst₁⟩ := hR _ _ _ _ _ h.1 hstep hst
    obtain ⟨t', hx', hst'⟩ := ih (h.2 _) hst₁
    exact ⟨t', .call hstep' hx', hst'⟩

end Prog

end LiteSpeedStore
