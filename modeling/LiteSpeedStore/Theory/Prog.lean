import Mathlib.Logic.Basic
import Mathlib.Tactic.TypeStar
import Mathlib.Tactic.Common

/-!
# Programs with calls, and the states in which they can be interrupted

A `Prog Res α` is a program that makes calls to an environment and finally returns a value: the
type `Call` lists the calls and `Res c` is what the call `c` answers.  What a call does is not part
of the program.  An `Env` says which answers it may give and how it changes the state, so that one
program can be run by an environment that never fails, by one whose writes stop half way, and by
one that may be interrupted between any two calls.

* `Prog.Exec E p s a s'` : a whole run of `p` from `s`, returning `a` in state `s'`.
* `Prog.Crash E p s s'` : `p` started in `s` can be interrupted in state `s'`.
* `Prog.run h p s` : the run against a deterministic handler `h`.
* `Prog.wp E p Q C s` : every run of `p` from `s` ends in `Q`, and every state in which it can be
  interrupted satisfies `C`.  The rules `wp_ret`, `wp_call`, `wp_bind` and `wp_mono` compute it,
  and `wp_exec` and `wp_crash` turn it into facts about runs and interruptions; `wp_of` is the
  converse.
-/

namespace LiteSpeedStore

/-- A program whose calls `c` are answered by values of type `Res c`. -/
inductive Prog {Call : Type} (Res : Call → Type) (α : Type) where
  /-- The program has finished with a value. -/
  | ret (a : α)
  /-- The program makes a call and goes on with its answer. -/
  | call (c : Call) (k : Res c → Prog Res α)

/-- What the calls of a program may answer, and what they do to the state. -/
structure Env {Call : Type} (Res : Call → Type) (σ : Type) where
  /-- `step c s r s'` : in state `s` the call `c` may answer `r` and leave the state `s'`. -/
  step : (c : Call) → σ → Res c → σ → Prop

namespace Prog

variable {Call : Type} {Res : Call → Type} {σ α β γ : Type}

/-- Sequencing: `f` takes over where `p` returns. -/
def bind : Prog Res α → (α → Prog Res β) → Prog Res β
  | ret a, f => f a
  | call c k, f => call c fun r => (k r).bind f

instance : Monad (Prog Res) where
  pure := ret
  bind := bind

/-- The program that makes one call. -/
def perform (c : Call) : Prog Res (Res c) := call c ret

@[simp] theorem pure_eq (a : α) : (pure a : Prog Res α) = ret a := rfl

@[simp] theorem ret_bind (a : α) (f : α → Prog Res β) : (ret a : Prog Res α) >>= f = f a := rfl

@[simp] theorem call_bind (c : Call) (k : Res c → Prog Res α) (f : α → Prog Res β) :
    call c k >>= f = call c fun r => k r >>= f := rfl

@[simp] theorem perform_bind (c : Call) (f : Res c → Prog Res β) :
    perform c >>= f = call c f := rfl

theorem bind_ret (p : Prog Res α) : p >>= ret = p := by
  induction p with
  | ret a => rfl
  | call c k ih => rw [call_bind]; congr 1; funext r; exact ih r

theorem bind_assoc (p : Prog Res α) (f : α → Prog Res β) (g : β → Prog Res γ) :
    p >>= f >>= g = p >>= fun a => f a >>= g := by
  induction p with
  | ret a => rfl
  | call c k ih => simp only [call_bind, ih]

/-! ### Runs and interruptions -/

/-- `p` run from `s` returns `a` and leaves the state `s'`. -/
inductive Exec (E : Env Res σ) : Prog Res α → σ → α → σ → Prop
  | ret (a : α) (s : σ) : Exec E (ret a) s a s
  | call {c : Call} {k : Res c → Prog Res α} {s s' s'' : σ} {r : Res c} {a : α} :
      E.step c s r s' → Exec E (k r) s' a s'' → Exec E (call c k) s a s''

/-- `p` run from `s` can be interrupted in the state `s'`: before its first call, after its last,
or between two of them. -/
inductive Crash (E : Env Res σ) : Prog Res α → σ → σ → Prop
  | here (p : Prog Res α) (s : σ) : Crash E p s s
  | call {c : Call} {k : Res c → Prog Res α} {s s' s'' : σ} {r : Res c} :
      E.step c s r s' → Crash E (k r) s' s'' → Crash E (call c k) s s''

/-- The run of `p` against a handler, which answers every call in one way. -/
def run (h : (c : Call) → σ → Res c × σ) : Prog Res α → σ → α × σ
  | ret a, s => (a, s)
  | call c k, s => run h (k (h c s).1) (h c s).2

@[simp] theorem run_ret (h : (c : Call) → σ → Res c × σ) (a : α) (s : σ) :
    run h (ret a) s = (a, s) := rfl

@[simp] theorem run_call (h : (c : Call) → σ → Res c × σ) (c : Call) (k : Res c → Prog Res α)
    (s : σ) : run h (call c k) s = run h (k (h c s).1) (h c s).2 := rfl

theorem run_bind (h : (c : Call) → σ → Res c × σ) (p : Prog Res α) (f : α → Prog Res β) (s : σ) :
    run h (p >>= f) s = run h (f (run h p s).1) (run h p s).2 := by
  induction p generalizing s with
  | ret a => rfl
  | call c k ih => rw [call_bind, run_call, ih, run_call]

/-- The handler's answers are among those the environment allows. -/
def Env.Allows (E : Env Res σ) (h : (c : Call) → σ → Res c × σ) : Prop :=
  ∀ c s, E.step c s (h c s).1 (h c s).2

theorem exec_run {E : Env Res σ} {h : (c : Call) → σ → Res c × σ} (hE : Env.Allows E h)
    (p : Prog Res α) (s : σ) : Exec E p s (run h p s).1 (run h p s).2 := by
  induction p generalizing s with
  | ret a => exact .ret a s
  | call c k ih => exact .call (hE c s) (ih _ _)

theorem exec_of_run {E : Env Res σ} {h : (c : Call) → σ → Res c × σ} (hE : Env.Allows E h)
    {p : Prog Res α} {s s' : σ} {a : α} (hrun : run h p s = (a, s')) : Exec E p s a s' := by
  have hx := exec_run hE p s
  rwa [hrun] at hx

theorem exec_ret {E : Env Res σ} {a b : α} {s s' : σ} :
    Exec E (ret a : Prog Res α) s b s' ↔ b = a ∧ s' = s := by
  constructor
  · rintro ⟨⟩
    exact ⟨rfl, rfl⟩
  · rintro ⟨rfl, rfl⟩
    exact .ret _ _

theorem exec_bind {E : Env Res σ} {p : Prog Res α} {f : α → Prog Res β} {s s'' : σ} {b : β} :
    Exec E (p >>= f) s b s'' ↔ ∃ a s', Exec E p s a s' ∧ Exec E (f a) s' b s'' := by
  induction p generalizing s with
  | ret a =>
    constructor
    · intro h; exact ⟨a, s, .ret a s, h⟩
    · rintro ⟨a', s', h, h'⟩; cases h; exact h'
  | call c k ih =>
    constructor
    · intro h
      cases h with
      | call hst hk =>
        obtain ⟨a, s', h1, h2⟩ := (ih _).1 hk
        exact ⟨a, s', .call hst h1, h2⟩
    · rintro ⟨a, s', h, h'⟩
      cases h with
      | call hst hk => exact .call hst ((ih _).2 ⟨a, s', hk, h'⟩)

/-- A run, seen through a view of the state under which every call is one of the other environment. -/
theorem exec_view {τ : Type} {E : Env Res σ} {F : Env Res τ} {v : σ → τ}
    (hE : ∀ c s r s', E.step c s r s' → F.step c (v s) r (v s')) {p : Prog Res α} {s s' : σ} {a : α}
    (h : Exec E p s a s') : Exec F p (v s) a (v s') := by
  induction h with
  | ret a s => exact .ret a _
  | call hst _ ih => exact .call (hE _ _ _ _ hst) ih

theorem crash_view {τ : Type} {E : Env Res σ} {F : Env Res τ} {v : σ → τ}
    (hE : ∀ c s r s', E.step c s r s' → F.step c (v s) r (v s')) {p : Prog Res α} {s s' : σ}
    (h : Crash E p s s') : Crash F p (v s) (v s') := by
  induction h with
  | here p s => exact .here _ _
  | call hst _ ih => exact .call (hE _ _ _ _ hst) ih

/-- What comes after a program does not matter where it is interrupted. -/
theorem Crash.bind {E : Env Res σ} {p : Prog Res α} {s s' : σ} (h : Crash E p s s')
    (f : α → Prog Res β) : Crash E (p >>= f) s s' := by
  induction h with
  | here p s => exact .here _ s
  | call hst _ ih => exact .call hst ih

/-! ### Weakest preconditions with a condition on interruptions -/

/-- Every run of `p` from `s` ends in `Q`, and every state in which it can be interrupted
satisfies `C`. -/
def wp (E : Env Res σ) : Prog Res α → (α → σ → Prop) → (σ → Prop) → σ → Prop
  | ret a, Q, C, s => C s ∧ Q a s
  | call c k, Q, C, s => C s ∧ ∀ r s', E.step c s r s' → wp E (k r) Q C s'

variable {E : Env Res σ} {Q Q' : α → σ → Prop} {C C' : σ → Prop} {s : σ}

@[simp] theorem wp_ret (a : α) : wp E (ret a) Q C s ↔ C s ∧ Q a s := Iff.rfl

@[simp] theorem wp_call (c : Call) (k : Res c → Prog Res α) :
    wp E (call c k) Q C s ↔ C s ∧ ∀ r s', E.step c s r s' → wp E (k r) Q C s' := Iff.rfl

/-- The state a program starts in is one in which it can be interrupted. -/
theorem wp_here {p : Prog Res α} (h : wp E p Q C s) : C s := by
  cases p <;> exact h.1

/-- The rule of consequence. -/
theorem wp_mono {p : Prog Res α} (h : wp E p Q C s) (hQ : ∀ a s, Q a s → Q' a s)
    (hC : ∀ s, C s → C' s) : wp E p Q' C' s := by
  induction p generalizing s with
  | ret a => exact ⟨hC _ h.1, hQ _ _ h.2⟩
  | call c k ih => exact ⟨hC _ h.1, fun r s' hst => ih r (h.2 r s' hst)⟩

/-- The rule of sequencing. -/
theorem wp_bind (p : Prog Res α) (f : α → Prog Res β) {Q : β → σ → Prop} :
    wp E (p >>= f) Q C s ↔ wp E p (fun a s' => wp E (f a) Q C s') C s := by
  induction p generalizing s with
  | ret a => exact ⟨fun h => ⟨wp_here h, h⟩, fun h => h.2⟩
  | call c k ih =>
    rw [call_bind, wp_call, wp_call]
    refine and_congr_right fun _ => forall_congr' fun r => forall_congr' fun s' => ?_
    exact imp_congr_right fun _ => ih r

/-- `wp` says what every run ends in. -/
theorem wp_exec {p : Prog Res α} {a : α} {s' : σ} (h : wp E p Q C s) (hx : Exec E p s a s') :
    Q a s' := by
  induction hx with
  | ret a s => exact h.2
  | call hst _ ih => exact ih (h.2 _ _ hst)

/-- `wp` says where every interruption leaves the state. -/
theorem wp_crash {p : Prog Res α} {s' : σ} (h : wp E p Q C s) (hx : Crash E p s s') : C s' := by
  induction hx with
  | here p s => exact wp_here h
  | call hst _ ih => exact ih (h.2 _ _ hst)

/-- `wp` is the weakest such condition. -/
theorem wp_of {p : Prog Res α} (hQ : ∀ a s', Exec E p s a s' → Q a s')
    (hC : ∀ s', Crash E p s s' → C s') : wp E p Q C s := by
  induction p generalizing s with
  | ret a => exact ⟨hC _ (.here _ _), hQ _ _ (.ret a s)⟩
  | call c k ih =>
    refine ⟨hC _ (.here _ _), fun r s' hst => ih r ?_ ?_⟩
    · exact fun a s'' hx => hQ a s'' (.call hst hx)
    · exact fun s'' hx => hC s'' (.call hst hx)

/-- A handler's run is one of the runs `wp` speaks of. -/
theorem wp_run {p : Prog Res α} {h : (c : Call) → σ → Res c × σ} (hE : Env.Allows E h)
    (hp : wp E p Q C s) : Q (run h p s).1 (run h p s).2 :=
  wp_exec hp (exec_run hE p s)

end Prog

end LiteSpeedStore
