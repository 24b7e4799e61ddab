import LiteSpeedStore.Theory.Interleave
import LiteSpeedStore.Theory.Lts
import Mathlib.Data.Finset.Insert
import Mathlib.Data.Set.Finite.Basic
import Mathlib.Logic.Function.Basic

/-!
# Objects that threads share under a readers–writer lock

The members of an object are guarded by a lock that any number of threads can share, and that one
thread can hold alone.  A method answers without the lock, or shares it and looks at the members, or
takes it alone, makes calls to the environment and leaves new members.  The threads take turns at
every single look and call, and while a method is at work the members may hold anything.

* `Monitor.threads` : the threads, step by step.
* `Monitor.atomic` : the object as its users see it: a call is made, happens at one instant, and is
  answered.
* `Monitor.Coupled` : the invariant that ties the two, with mutual exclusion in it.
* `Monitor.threads_atomic` : every run of the threads is one of the atomic object.
* `Monitor.threads_finish` : pending calls can always be brought to their answers.
-/

namespace LiteSpeedStore

namespace Prog

variable {Mem α : Type}

/-- The result of looks at members that stay as they are. -/
def eval (m : Mem) : Prog (fun _ : Unit => Mem) α → α
  | ret a => a
  | call _ k => eval m (k m)

end Prog

namespace Monitor

open Prog

/-- What a call on an object does. -/
inductive Method {Call : Type} (Res : Call → Type) (Mem Input Answer : Type) where
  /-- It is answered without the lock. -/
  | refuse (answer : Answer)
  /-- It shares the lock, and looks at the members any number of times. -/
  | look (body : Prog (fun _ : Unit => Mem) Answer)
  /-- It holds the lock alone.  The input stands for what it learns inside. -/
  | work (body : Input → Mem → Prog Res (Answer × Mem))

/-- How a thread holds a lock. -/
inductive Access where
  | shared
  | alone
deriving DecidableEq

/-- The state of a lock. -/
inductive Lock (Tid : Type) where
  /-- These threads share it; with none of them it is free. -/
  | shared (holders : Finset Tid)
  | alone (holder : Tid)

/-- What a thread does to an object. -/
inductive Act (Tid Op Answer : Type) where
  | invoke (t : Tid) (op : Op)
  /-- The call happens. -/
  | perform (t : Tid) (op : Op) (answer : Answer)
  | reply (t : Tid) (answer : Answer)

/-- Where a thread is. -/
inductive Phase {Call : Type} (Res : Call → Type) (Mem Op Answer : Type) where
  | idle
  /-- It waits for the lock. -/
  | called (op : Op)
  | looking (op : Op) (rest : Prog (fun _ : Unit => Mem) Answer)
  /-- It has the lock alone, and has not looked at the members yet. -/
  | entered (op : Op)
  | working (op : Op) (rest : Prog Res (Answer × Mem))
  /-- It is done, and still has the lock. -/
  | leaving (access : Access) (answer : Answer)
  | answered (answer : Answer)

/-- What the users of an object know of a thread. -/
inductive Client (Op Answer : Type) where
  | idle
  | called (op : Op)
  | answered (answer : Answer)

variable {Call : Type} {Res : Call → Type} {Mem Input Op Answer Tid σ : Type}

/-- One call, when no other thread is there. -/
inductive Method.Does (E : Env Res σ) :
    Method Res Mem Input Answer → Mem × σ → Answer → Mem × σ → Prop
  | refuse (answer : Answer) (s : Mem × σ) : Does E (.refuse answer) s answer s
  | look (body : Prog (fun _ : Unit => Mem) Answer) (s : Mem × σ) :
      Does E (.look body) s (body.eval s.1) s
  | work {body : Input → Mem → Prog Res (Answer × Mem)} {input : Input} {m m' : Mem} {s s' : σ}
      {answer : Answer} : Exec E (body input m) s (answer, m') s' →
      Does E (.work body) (m, s) answer (m', s')

namespace Method

variable {E : Env Res σ} {s s' : Mem × σ} {answer answer' : Answer}

theorem does_refuse : (refuse answer : Method Res Mem Input Answer).Does E s answer' s' ↔
    answer' = answer ∧ s' = s := by
  constructor
  · rintro ⟨⟩
    exact ⟨rfl, rfl⟩
  · rintro ⟨rfl, rfl⟩
    exact .refuse _ _

theorem does_look {body : Prog (fun _ : Unit => Mem) Answer} :
    (look body : Method Res Mem Input Answer).Does E s answer s' ↔
      answer = body.eval s.1 ∧ s' = s := by
  constructor
  · rintro ⟨⟩
    exact ⟨rfl, rfl⟩
  · rintro ⟨rfl, rfl⟩
    exact .look _ _

theorem does_work {body : Input → Mem → Prog Res (Answer × Mem)} :
    (work body).Does E s answer s' ↔
      ∃ input, Exec E (body input s.1) s.2 (answer, s'.1) s'.2 := by
  constructor
  · rintro ⟨⟩
    exact ⟨_, ‹_›⟩
  · rintro ⟨input, hx⟩
    exact .work hx

end Method

/-- The lock, the members, the state of the environment, and the threads. -/
structure Config {Call : Type} (Res : Call → Type) (Mem Op Answer Tid σ : Type) where
  lock : Lock Tid
  members : Mem
  state : σ
  thread : Tid → Phase Res Mem Op Answer

/-- An object on which no call has been made. -/
def Config.start (m : Mem) (s : σ) : Config Res Mem Op Answer Tid σ :=
  ⟨.shared ∅, m, s, fun _ => .idle⟩

/-- The lock as a thread holds it. -/
def Phase.access : Phase Res Mem Op Answer → Option Access
  | idle | called _ | answered _ => none
  | looking _ _ => some .shared
  | entered _ | working _ _ => some .alone
  | leaving access _ => some access

/-- What the users know. -/
def Phase.client : Phase Res Mem Op Answer → Client Op Answer
  | idle => .idle
  | called op | looking op _ | entered op | working op _ => .called op
  | leaving _ answer | answered answer => .answered answer

variable [DecidableEq Tid]

/-- The lock as it is held by a thread. -/
def Lock.access : Lock Tid → Tid → Option Access
  | .shared holders, t => if t ∈ holders then some .shared else none
  | .alone holder, t => if t = holder then some .alone else none

namespace Config

/-- A thread goes on. -/
def goto (c : Config Res Mem Op Answer Tid σ) (t : Tid) (phase : Phase Res Mem Op Answer) :
    Config Res Mem Op Answer Tid σ := { c with thread := Function.update c.thread t phase }

end Config

section Systems

variable (E : Env Res σ) (method : Op → Method Res Mem Input Answer)

/-- One step of a thread.  A call happens when the method is done. -/
inductive Step : Config Res Mem Op Answer Tid σ → Option (Act Tid Op Answer) →
    Config Res Mem Op Answer Tid σ → Prop
  | invoke {c : Config Res Mem Op Answer Tid σ} {t : Tid} {op : Op} :
      c.thread t = .idle → Step c (some (.invoke t op)) (c.goto t (.called op))
  | refuse {c : Config Res Mem Op Answer Tid σ} {t : Tid} {op : Op} {answer : Answer} :
      c.thread t = .called op → method op = .refuse answer →
      Step c (some (.perform t op answer)) (c.goto t (.answered answer))
  | share {c : Config Res Mem Op Answer Tid σ} {t : Tid} {op : Op}
      {body : Prog (fun _ : Unit => Mem) Answer} {holders : Finset Tid} :
      c.thread t = .called op → method op = .look body → c.lock = .shared holders →
      Step c none { c.goto t (.looking op body) with lock := .shared (insert t holders) }
  | look {c : Config Res Mem Op Answer Tid σ} {t : Tid} {op : Op}
      {k : Mem → Prog (fun _ : Unit => Mem) Answer} :
      c.thread t = .looking op (.call () k) →
      Step c none (c.goto t (.looking op (k c.members)))
  | looked {c : Config Res Mem Op Answer Tid σ} {t : Tid} {op : Op} {answer : Answer} :
      c.thread t = .looking op (.ret answer) →
      Step c (some (.perform t op answer)) (c.goto t (.leaving .shared answer))
  | acquire {c : Config Res Mem Op Answer Tid σ} {t : Tid} {op : Op}
      {body : Input → Mem → Prog Res (Answer × Mem)} :
      c.thread t = .called op → method op = .work body → c.lock = .shared ∅ →
      Step c none { c.goto t (.entered op) with lock := .alone t }
  | begin {c : Config Res Mem Op Answer Tid σ} {t : Tid} {op : Op}
      {body : Input → Mem → Prog Res (Answer × Mem)} (input : Input) :
      c.thread t = .entered op → method op = .work body →
      Step c none (c.goto t (.working op (body input c.members)))
  /-- A method at work stores something in the members. -/
  | disturb {c : Config Res Mem Op Answer Tid σ} {t : Tid} {op : Op}
      {rest : Prog Res (Answer × Mem)} (m : Mem) :
      c.thread t = .working op rest → Step c none { c with members := m }
  | call {c : Config Res Mem Op Answer Tid σ} {t : Tid} {op : Op} {q : Call}
      {k : Res q → Prog Res (Answer × Mem)} {r : Res q} {s : σ} :
      c.thread t = .working op (.call q k) → E.step q c.state r s →
      Step c none { c.goto t (.working op (k r)) with state := s }
  | worked {c : Config Res Mem Op Answer Tid σ} {t : Tid} {op : Op} {answer : Answer} {m : Mem} :
      c.thread t = .working op (.ret (answer, m)) →
      Step c (some (.perform t op answer)) { c.goto t (.leaving .alone answer) with members := m }
  | unshare {c : Config Res Mem Op Answer Tid σ} {t : Tid} {answer : Answer}
      {holders : Finset Tid} :
      c.thread t = .leaving .shared answer → c.lock = .shared holders →
      Step c none { c.goto t (.answered answer) with lock := .shared (holders.erase t) }
  | release {c : Config Res Mem Op Answer Tid σ} {t : Tid} {answer : Answer} :
      c.thread t = .leaving .alone answer → c.lock = .alone t →
      Step c none { c.goto t (.answered answer) with lock := .shared ∅ }
  | reply {c : Config Res Mem Op Answer Tid σ} {t : Tid} {answer : Answer} :
      c.thread t = .answered answer → Step c (some (.reply t answer)) (c.goto t .idle)

/-- The threads. -/
def threads : Lts (Config Res Mem Op Answer Tid σ) (Option (Act Tid Op Answer)) :=
  ⟨Step E method⟩

/-- The runs in which a method begins to work only where its precondition holds. -/
def guarded (pre : Op → Mem → Prop) :
    Lts (Config Res Mem Op Answer Tid σ) (Option (Act Tid Op Answer)) :=
  (threads E method).restrict fun c _ => ∀ t op, c.thread t = .entered op → pre op c.members

end Systems

/-- One step of an object whose calls happen at one instant. -/
inductive AtomicStep {S : Type} (does : Op → S → Answer → S → Prop) :
    S × (Tid → Client Op Answer) → Act Tid Op Answer → S × (Tid → Client Op Answer) → Prop
  | invoke {s : S} {client : Tid → Client Op Answer} {t : Tid} (op : Op) : client t = .idle →
      AtomicStep does (s, client) (.invoke t op) (s, Function.update client t (.called op))
  | perform {s s' : S} {client : Tid → Client Op Answer} {t : Tid} {op : Op} {answer : Answer} :
      client t = .called op → does op s answer s' →
      AtomicStep does (s, client) (.perform t op answer)
        (s', Function.update client t (.answered answer))
  | reply {s : S} {client : Tid → Client Op Answer} {t : Tid} {answer : Answer} :
      client t = .answered answer →
      AtomicStep does (s, client) (.reply t answer) (s, Function.update client t .idle)

/-- The object whose calls happen at one instant. -/
def atomic {S : Type} (does : Op → S → Answer → S → Prop) :
    Lts (S × (Tid → Client Op Answer)) (Act Tid Op Answer) := ⟨AtomicStep does⟩

/-- The call that happens. -/
def Act.performed : Act Tid Op Answer → Option (Op × Answer)
  | .perform _ op answer => some (op, answer)
  | .invoke .. | .reply .. => none

/-- The calls, one after the other. -/
def sequential {S : Type} (does : Op → S → Answer → S → Prop) : Lts S (Op × Answer) where
  step s l s' := does l.1 s l.2 s'

/-- A call on an object, when no other thread is there and its precondition holds. -/
def Alone (E : Env Res σ) (method : Op → Method Res Mem Input Answer) (pre : Op → Mem → Prop)
    (op : Op) (s : Mem × σ) (answer : Answer) (s' : Mem × σ) : Prop :=
  ((∃ body, method op = .work body) → pre op s.1) ∧ (method op).Does E s answer s'

/-! ### The invariant -/

/-- A method is making its calls. -/
def Phase.AtWork : Phase Res Mem Op Answer → Prop
  | working _ _ => True
  | _ => False

/-- How far a thread has come, when the atomic object is in the state `s` and the environment in the
state `now`. -/
def Phase.Sound (E : Env Res σ) (method : Op → Method Res Mem Input Answer) (pre : Op → Mem → Prop)
    (s : Mem × σ) (now : σ) : Phase Res Mem Op Answer → Prop
  | looking op rest => ∃ body, method op = .look body ∧ rest.eval s.1 = body.eval s.1
  | entered op => ∃ body, method op = .work body
  | working op rest => ∃ body input, method op = .work body ∧ pre op s.1 ∧
      Steps E (body input s.1) s.2 rest now
  | _ => True

/-- The threads are in step with the atomic object.  While a method is at work, the environment is
where the calls made so far have brought it, and nothing is known of the members. -/
structure Coupled (E : Env Res σ) (method : Op → Method Res Mem Input Answer)
    (pre : Op → Mem → Prop) (c : Config Res Mem Op Answer Tid σ)
    (a : (Mem × σ) × (Tid → Client Op Answer)) : Prop where
  client : ∀ t, (c.thread t).client = a.2 t
  held : ∀ t, (c.thread t).access = c.lock.access t
  sound : ∀ t, (c.thread t).Sound E method pre a.1 c.state
  quiet : (∀ t, ¬(c.thread t).AtWork) → c.members = a.1.1 ∧ c.state = a.1.2

section Lock

variable {c : Config Res Mem Op Answer Tid σ} {t u : Tid} {phase : Phase Res Mem Op Answer}

@[simp] theorem goto_self (c : Config Res Mem Op Answer Tid σ) (t : Tid)
    (phase : Phase Res Mem Op Answer) : (c.goto t phase).thread t = phase :=
  Function.update_self ..

theorem goto_of_ne (h : u ≠ t) (c : Config Res Mem Op Answer Tid σ)
    (phase : Phase Res Mem Op Answer) : (c.goto t phase).thread u = c.thread u :=
  Function.update_of_ne h ..

theorem Phase.AtWork.access (h : phase.AtWork) : phase.access = some .alone := by
  cases phase with
  | working op rest => rfl
  | _ => exact h.elim

theorem Lock.access_alone {l : Lock Tid} : l.access t = some .alone ↔ l = .alone t := by
  cases l with
  | shared holders => by_cases h : t ∈ holders <;> simp [Lock.access, h]
  | alone holder => simp [Lock.access, eq_comm]

theorem Lock.access_shared {l : Lock Tid} :
    l.access t = some .shared ↔ ∃ holders, l = .shared holders ∧ t ∈ holders := by
  cases l with
  | shared holders => by_cases h : t ∈ holders <;> simp [Lock.access, h]
  | alone holder => simp [Lock.access]

theorem Lock.access_insert (holders : Finset Tid) (h : u ≠ t) :
    (Lock.shared (insert t holders)).access u = (Lock.shared holders).access u := by
  simp [Lock.access, h]

theorem Lock.access_erase (holders : Finset Tid) (h : u ≠ t) :
    (Lock.shared (holders.erase t)).access u = (Lock.shared holders).access u := by
  simp [Lock.access, h]

/-- The lock keeps to the threads when one of them goes on. -/
theorem held_goto {lock : Lock Tid} (h : ∀ u, (c.thread u).access = c.lock.access u)
    (ht : phase.access = lock.access t) (hother : ∀ u ≠ t, lock.access u = c.lock.access u) :
    ∀ u, ((c.goto t phase).thread u).access = lock.access u := by
  intro u
  by_cases hu : u = t
  · subst hu
    rw [goto_self, ht]
  · rw [goto_of_ne hu, h, hother u hu]

theorem client_goto {client : Tid → Client Op Answer} (h : ∀ u, (c.thread u).client = client u) :
    ∀ u, ((c.goto t phase).thread u).client = Function.update client t phase.client u := by
  intro u
  by_cases hu : u = t
  · subst hu
    rw [goto_self, Function.update_self]
  · rw [goto_of_ne hu, Function.update_of_ne hu, h]

end Lock

namespace Coupled

variable {E : Env Res σ} {method : Op → Method Res Mem Input Answer} {pre : Op → Mem → Prop}
  {c c' : Config Res Mem Op Answer Tid σ} {a : (Mem × σ) × (Tid → Client Op Answer)} {t u : Tid}
  {phase : Phase Res Mem Op Answer}

theorem start (m : Mem) (s : σ) :
    Coupled E method pre (.start m s : Config Res Mem Op Answer Tid σ)
      ((m, s), fun _ => .idle) where
  client _ := rfl
  held _ := by simp [Config.start, Phase.access, Lock.access]
  sound _ := trivial
  quiet _ := ⟨rfl, rfl⟩

/-- **Mutual exclusion.**  While a thread holds the lock alone, every other thread is outside. -/
theorem alone (h : Coupled E method pre c a) (ht : (c.thread t).access = some .alone)
    (hu : u ≠ t) : (c.thread u).access = none := by
  rw [h.held] at ht ⊢
  rw [Lock.access_alone.1 ht, Lock.access, if_neg hu]

/-- No method is at work when a thread is inside otherwise. -/
theorem not_atWork (h : Coupled E method pre c a) (ht : (c.thread t).access ≠ none)
    (hwork : ¬(c.thread t).AtWork) (u : Tid) : ¬(c.thread u).AtWork := by
  intro hu
  by_cases htu : t = u
  · subst htu
    exact hwork hu
  · exact ht (h.alone hu.access htu)

/-- A thread that is not at work goes on, and its client with it. -/
theorem move (h : Coupled E method pre c a) {lock : Lock Tid} (hnot : ¬(c.thread t).AtWork)
    (hlock : phase.access = lock.access t) (hother : ∀ u ≠ t, lock.access u = c.lock.access u)
    (hsound : phase.Sound E method pre a.1 c.state) :
    Coupled E method pre { c.goto t phase with lock := lock }
      (a.1, Function.update a.2 t phase.client) where
  client := client_goto h.client
  held := held_goto h.held hlock hother
  sound u := by
    change ((c.goto t phase).thread u).Sound E method pre a.1 c.state
    by_cases hu : u = t
    · subst hu
      rwa [goto_self]
    · rw [goto_of_ne hu]
      exact h.sound u
  quiet hquiet := by
    refine h.quiet fun u hu => ?_
    by_cases hut : u = t
    · subst hut
      exact hnot hu
    · exact hquiet u (by simpa [goto_of_ne hut] using hu)

/-- Nothing of it is known to the client. -/
theorem move_silent (h : Coupled E method pre c a) {lock : Lock Tid} (hnot : ¬(c.thread t).AtWork)
    (hlock : phase.access = lock.access t) (hother : ∀ u ≠ t, lock.access u = c.lock.access u)
    (hsound : phase.Sound E method pre a.1 c.state)
    (hclient : phase.client = (c.thread t).client) :
    Coupled E method pre { c.goto t phase with lock := lock } a := by
  have hmove := h.move hnot hlock hother hsound
  rwa [hclient, h.client, Function.update_eq_self] at hmove

theorem sound_of_outside {s : Mem × σ} {now : σ} (h : phase.access = none) :
    phase.Sound E method pre s now := by
  cases phase with
  | looking | entered | working => cases h
  | _ => trivial

theorem access_of_working {op : Op} {rest : Prog Res (Answer × Mem)}
    (h : Coupled E method pre c a) (ht : c.thread t = .working op rest) :
    some .alone = c.lock.access t := by
  rw [← h.held, ht]
  rfl

/-- A method at work makes a call. -/
theorem call {op : Op} {q : Call} {k : Res q → Prog Res (Answer × Mem)} {r : Res q} {s : σ}
    (h : Coupled E method pre c a) (ht : c.thread t = .working op (.call q k))
    (hst : E.step q c.state r s) :
    Coupled E method pre { c.goto t (.working op (k r)) with state := s } a where
  client u := by
    have hu : ((c.goto t (.working op (k r))).thread u).client =
        Function.update a.2 t (Phase.working op (k r)).client u := client_goto h.client u
    have hself : Function.update a.2 t (Client.called op) = a.2 := by
      rw [show Client.called op = a.2 t by rw [← h.client, ht]; rfl, Function.update_eq_self]
    rwa [Phase.client, hself] at hu
  held := by
    have hlock := h.access_of_working ht
    exact held_goto h.held hlock fun _ _ => rfl
  sound u := by
    by_cases hu : u = t
    · subst hu
      obtain ⟨body, input, hbody, hpre, hsteps⟩ : (Phase.working op (.call q k)).Sound E method pre
        a.1 c.state := ht ▸ h.sound u
      simp only [goto_self]
      exact ⟨body, input, hbody, hpre, hsteps.trans (.cons (.call hst) (.nil _ _))⟩
    · simp only [goto_of_ne hu]
      exact sound_of_outside (h.alone (by rw [ht]; rfl) hu)
  quiet hquiet := by
    refine absurd ?_ (hquiet t)
    simp only [goto_self]
    trivial

/-- A method is done: it has been run from the state of the atomic object. -/
theorem worked {op : Op} {answer : Answer} {m : Mem} (h : Coupled E method pre c a)
    (ht : c.thread t = .working op (.ret (answer, m))) :
    Coupled E method pre { c.goto t (.leaving .alone answer) with members := m }
      ((m, c.state), Function.update a.2 t (.answered answer)) where
  client := client_goto h.client
  held := by
    have hlock := h.access_of_working ht
    exact held_goto h.held hlock fun _ _ => rfl
  sound u := by
    by_cases hu : u = t
    · subst hu
      simp only [goto_self]
      trivial
    · simp only [goto_of_ne hu]
      exact sound_of_outside (h.alone (by rw [ht]; rfl) hu)
  quiet _ := ⟨rfl, rfl⟩

/-- A thread that is inside and not at work finds the members as the atomic object has them. -/
theorem members_eq (h : Coupled E method pre c a) (ht : (c.thread t).access ≠ none)
    (hwork : ¬(c.thread t).AtWork) : c.members = a.1.1 ∧ c.state = a.1.2 :=
  h.quiet (h.not_atWork ht hwork)

/-- **One step of a thread** is a step of the atomic object, or is not seen. -/
theorem step {l : Option (Act Tid Op Answer)} (h : Coupled E method pre c a)
    (hpre : ∀ t op, c.thread t = .entered op → pre op c.members) (hst : Step E method c l c') :
    ∃ a', (atomic (Alone E method pre)).silent.step a l a' ∧ Coupled E method pre c' a' := by
  have hclient : ∀ {t phase}, c.thread t = phase → a.2 t = phase.client := by
    rintro t phase rfl
    exact (h.client t).symm
  have hlock : ∀ {t phase}, c.thread t = phase → phase.access = c.lock.access t := by
    rintro t phase rfl
    exact h.held t
  have hsound : ∀ {t phase}, c.thread t = phase → phase.Sound E method pre a.1 c.state := by
    rintro t phase rfl
    exact h.sound t
  have hwork : ∀ {t phase}, c.thread t = phase → ¬phase.AtWork → ¬(c.thread t).AtWork := by
    rintro t phase rfl
    exact id
  have hsame : ∀ {t : Tid}, ∀ u ≠ t, c.lock.access u = c.lock.access u := fun _ _ => rfl
  cases hst with
  | @invoke t op ht =>
    have hnot := hwork ht id
    exact ⟨_, .inr ⟨_, rfl, .invoke op (hclient ht)⟩, h.move hnot (hlock ht :) hsame trivial⟩
  | @refuse t op answer ht hop =>
    have hnot := hwork ht id
    refine ⟨_, .inr ⟨_, rfl, .perform (hclient ht) ⟨?_, ?_⟩⟩,
      h.move hnot (hlock ht :) hsame trivial⟩
    · rintro ⟨body, hbody⟩
      rw [hop] at hbody
      cases hbody
    · rw [hop]
      exact .refuse answer a.1
  | @share t op body holders ht hop hholders =>
    have hnot := hwork ht id
    refine ⟨a, .inl ⟨rfl, rfl⟩, h.move_silent hnot ?_ ?_ ⟨body, hop, rfl⟩ (by rw [ht]; rfl)⟩
    · exact (Lock.access_shared.2 ⟨_, rfl, Finset.mem_insert_self ..⟩).symm
    · intro u hu
      rw [hholders]
      exact Lock.access_insert holders hu
  | @look t op k ht =>
    have hnot := hwork ht id
    obtain ⟨body, hop, heval⟩ := hsound ht
    obtain ⟨hmembers, -⟩ := h.members_eq (by rw [ht]; simp [Phase.access]) hnot
    refine ⟨a, .inl ⟨rfl, rfl⟩, h.move_silent hnot (hlock ht :) hsame ⟨body, hop, ?_⟩
      (by rw [ht]; rfl)⟩
    rw [hmembers, ← heval]
    rfl
  | @looked t op answer ht =>
    have hnot := hwork ht id
    obtain ⟨body, hop, heval⟩ := hsound ht
    refine ⟨_, .inr ⟨_, rfl, .perform (hclient ht) ⟨?_, ?_⟩⟩,
      h.move hnot (hlock ht :) hsame trivial⟩
    · rintro ⟨body', hbody⟩
      rw [hop] at hbody
      cases hbody
    · rw [hop, show answer = body.eval a.1.1 from heval]
      exact .look body a.1
  | @acquire t op body ht hop hfree =>
    have hnot := hwork ht id
    refine ⟨a, .inl ⟨rfl, rfl⟩, h.move_silent hnot ?_ ?_ ⟨body, hop⟩ (by rw [ht]; rfl)⟩
    · exact (Lock.access_alone.2 rfl).symm
    · intro u hu
      simp [hfree, Lock.access, hu]
  | @begin t op body input ht hop =>
    have hnot := hwork ht id
    obtain ⟨hmembers, hstate⟩ := h.members_eq (by rw [ht]; simp [Phase.access]) hnot
    have hpre := hpre t op ht
    refine ⟨a, .inl ⟨rfl, rfl⟩, h.move_silent hnot (hlock ht :) hsame ⟨body, input, hop, ?_, ?_⟩
      (by rw [ht]; rfl)⟩
    · rwa [← hmembers]
    · rw [hmembers, hstate]
      exact .nil _ _
  | @disturb t op rest m ht =>
    refine ⟨a, .inl ⟨rfl, rfl⟩, ⟨h.client, h.held, h.sound, fun hquiet => ?_⟩⟩
    exact absurd (by rw [ht]; trivial) (hquiet t)
  | @call t op q k r s ht hcall =>
    exact ⟨a, .inl ⟨rfl, rfl⟩, h.call ht hcall⟩
  | @worked t op answer m ht =>
    obtain ⟨body, input, hop, hpre, hsteps⟩ := hsound ht
    refine ⟨_, .inr ⟨_, rfl, .perform (hclient ht) ⟨fun _ => hpre, ?_⟩⟩, h.worked ht⟩
    rw [hop]
    exact .work (hsteps.exec (.ret _ _))
  | @unshare t answer holders ht hholders =>
    have hnot := hwork ht id
    refine ⟨a, .inl ⟨rfl, rfl⟩, h.move_silent hnot ?_ ?_ trivial (by rw [ht]; rfl)⟩
    · rw [Lock.access, if_neg (Finset.notMem_erase t holders)]
      rfl
    · intro u hu
      rw [hholders]
      exact Lock.access_erase holders hu
  | @release t answer ht halone =>
    have hnot := hwork ht id
    refine ⟨a, .inl ⟨rfl, rfl⟩, h.move_silent hnot rfl ?_ trivial (by rw [ht]; rfl)⟩
    intro u hu
    rw [halone, Lock.access, Lock.access, if_neg hu, if_neg (Finset.notMem_empty u)]
  | @reply t answer ht =>
    have hnot := hwork ht id
    exact ⟨_, .inr ⟨_, rfl, .reply (hclient ht)⟩, h.move hnot (hlock ht :) hsame trivial⟩

end Coupled

/-! ### Runs -/

section Runs

variable {E : Env Res σ} {method : Op → Method Res Mem Input Answer} {pre : Op → Mem → Prop}
  {c c' : Config Res Mem Op Answer Tid σ} {ls : List (Option (Act Tid Op Answer))}

theorem Coupled.run {a : (Mem × σ) × (Tid → Client Op Answer)} (h : Coupled E method pre c a)
    (hrun : (guarded E method pre).Run c ls c') :
    ∃ a', (atomic (Alone E method pre)).Run a ls.reduceOption a' ∧ Coupled E method pre c' a' := by
  have hsim : Lts.Simulation (guarded E method pre) (atomic (Alone E method pre)).silent
      (fun (c : Config Res Mem Op Answer Tid σ) => Coupled E method pre c) :=
    fun _ _ _ _ h hst => h.step hst.1 hst.2
  obtain ⟨a', hsilent, hcoupled⟩ := hsim.run hrun h
  exact ⟨a', hsilent.of_silent, hcoupled⟩

/-- **Every run of the threads is a run of the atomic object**, with the same calls and answers, in
which each call happens at the instant when its method is done. -/
theorem threads_atomic {m : Mem} {s : σ} (hrun : (guarded E method pre).Run (.start m s) ls c) :
    ∃ a, (atomic (Alone E method pre)).Run ((m, s), fun _ => .idle) ls.reduceOption a ∧
      Coupled E method pre c a := (Coupled.start m s).run hrun

variable {S S' : Type}

/-- The calls of a run of an atomic object happen one after the other. -/
theorem sequential_of_atomic {does : Op → S → Answer → S → Prop}
    {a a' : S × (Tid → Client Op Answer)} {acts : List (Act Tid Op Answer)}
    (hrun : (atomic does).Run a acts a') :
    (sequential does).Run a.1 (acts.filterMap Act.performed) a'.1 := by
  induction hrun with
  | nil => exact .nil _
  | cons hst _ ih =>
    cases hst with
    | invoke => exact ih
    | perform _ hdoes => exact .cons hdoes ih
    | reply => exact ih

/-- An object is atomic in the terms of another whose calls simulate its own. -/
theorem atomic_simulation {does : Op → S → Answer → S → Prop} {does' : Op → S' → Answer → S' → Prop}
    {R : S → S' → Prop} (hR : ∀ {op s answer s' u}, R s u → does op s answer s' →
      ∃ u', does' op u answer u' ∧ R s' u') :
    Lts.Simulation (atomic does : Lts (S × (Tid → Client Op Answer)) _) (atomic does')
      fun a b => R a.1 b.1 ∧ a.2 = b.2 := by
  rintro ⟨s, client⟩ act ⟨s', client'⟩ ⟨u, _⟩ ⟨hs, rfl⟩ hst
  cases hst with
  | invoke op ht => exact ⟨_, .invoke op ht, hs, rfl⟩
  | perform ht hdoes =>
    obtain ⟨u', hdoes', hs'⟩ := hR hs hdoes
    exact ⟨_, .perform ht hdoes', hs', rfl⟩
  | reply ht => exact ⟨_, .reply ht, hs, rfl⟩

end Runs

/-! ### Pending calls -/

section Pending

variable {E : Env Res σ} {method : Op → Method Res Mem Input Answer} {pre : Op → Mem → Prop}
  {c c' : Config Res Mem Op Answer Tid σ} {a : (Mem × σ) × (Tid → Client Op Answer)} {t : Tid}
  {op : Op} {answer : Answer}

/-- The thread can be brought to its answer, while all others wait. -/
def Finishes (E : Env Res σ) (method : Op → Method Res Mem Input Answer)
    (c : Config Res Mem Op Answer Tid σ) (t : Tid) : Prop :=
  ∃ ls c', (∀ u op, some (.invoke u op) ∉ ls) ∧ (threads E method).Run c ls c' ∧
    c'.thread = Function.update c.thread t .idle

/-- A step of the thread itself. -/
theorem Finishes.of_step {l : Option (Act Tid Op Answer)} {phase : Phase Res Mem Op Answer}
    (hst : Step E method c l c') (hl : ∀ u op, l ≠ some (.invoke u op))
    (hthread : c'.thread = Function.update c.thread t phase) (h : Finishes E method c' t) :
    Finishes E method c t := by
  obtain ⟨ls, c'', hls, hrun, hidle⟩ := h
  refine ⟨l :: ls, c'', fun u op hmem => ?_, .cons hst hrun, ?_⟩
  · rcases List.mem_cons.1 hmem with hl' | hls'
    · exact hl u op hl'.symm
    · exact hls u op hls'
  · rw [hidle, hthread, Function.update_idem]

theorem finishes_answered (ht : c.thread t = .answered answer) : Finishes E method c t :=
  ⟨[some (.reply t answer)], _, by simp, .single (.reply ht), rfl⟩

theorem finishes_shared {holders : Finset Tid} (ht : c.thread t = .leaving .shared answer)
    (hlock : c.lock = .shared holders) : Finishes E method c t :=
  .of_step (.unshare ht hlock) (by simp) rfl (finishes_answered (Function.update_self ..))

theorem finishes_alone (ht : c.thread t = .leaving .alone answer) (hlock : c.lock = .alone t) :
    Finishes E method c t :=
  .of_step (.release ht hlock) (by simp) rfl (finishes_answered (Function.update_self ..))

/-- The looks are finitely many. -/
theorem finishes_looking {rest : Prog (fun _ : Unit => Mem) Answer} {holders : Finset Tid}
    (ht : c.thread t = .looking op rest) (hlock : c.lock = .shared holders) :
    Finishes E method c t := by
  induction rest generalizing c with
  | ret answer =>
    exact .of_step (.looked ht) (by simp) rfl (finishes_shared (Function.update_self ..) hlock)
  | call _ k ih =>
    exact .of_step (.look ht) (by simp) rfl (ih c.members (Function.update_self ..) hlock)

/-- The calls of a method are finitely many, and the environment answers each of them. -/
theorem finishes_working {h : (q : Call) → σ → Res q × σ} {rest : Prog Res (Answer × Mem)}
    (hE : Env.Allows E h) (ht : c.thread t = .working op rest) (hlock : c.lock = .alone t) :
    Finishes E method c t := by
  induction rest generalizing c with
  | ret result =>
    obtain ⟨answer, m⟩ := result
    exact .of_step (.worked ht) (by simp) rfl (finishes_alone (Function.update_self ..) hlock)
  | call q k ih =>
    exact .of_step (.call ht (hE q c.state)) (by simp) rfl
      (ih _ (Function.update_self ..) hlock)

theorem finishes_entered {h : (q : Call) → σ → Res q × σ}
    {body : Input → Mem → Prog Res (Answer × Mem)} (hE : Env.Allows E h) (input : Input)
    (ht : c.thread t = .entered op) (hop : method op = .work body) (hlock : c.lock = .alone t) :
    Finishes E method c t :=
  .of_step (.begin input ht hop) (by simp) rfl
    (finishes_working hE (Function.update_self ..) hlock)

/-- A thread that finds the lock free gets its answer. -/
theorem finishes_called {h : (q : Call) → σ → Res q × σ} (hE : Env.Allows E h) (input : Input)
    (ht : c.thread t = .called op) (hlock : c.lock = .shared ∅) : Finishes E method c t := by
  cases hop : method op with
  | refuse answer =>
    exact .of_step (.refuse ht hop) (by simp) rfl (finishes_answered (Function.update_self ..))
  | look body =>
    exact .of_step (.share ht hop hlock) (by simp) rfl
      (finishes_looking (Function.update_self ..) rfl)
  | work body =>
    exact .of_step (.acquire ht hop hlock) (by simp) rfl
      (finishes_entered hE input (Function.update_self ..) hop rfl)

/-- **No deadlock.**  When a call is pending, there is one that can be brought to its answer. -/
theorem Coupled.exists_finishes {h : (q : Call) → σ → Res q × σ} (hc : Coupled E method pre c a)
    (hE : Env.Allows E h) (input : Input) (ht : c.thread t ≠ .idle) :
    ∃ u, c.thread u ≠ .idle ∧ Finishes E method c u := by
  cases hlock : c.lock with
  | alone u =>
    -- the thread that holds the lock alone
    have hu : (c.thread u).access = some .alone := by rw [hc.held, hlock, Lock.access, if_pos rfl]
    have hsound := hc.sound u
    refine ⟨u, fun hidle => ?_, ?_⟩
    · rw [hidle] at hu
      cases hu
    · cases hphase : c.thread u with
      | entered op =>
        rw [hphase] at hsound
        obtain ⟨body, hop⟩ := hsound
        exact finishes_entered hE input hphase hop hlock
      | working op rest => exact finishes_working hE hphase hlock
      | leaving access answer =>
        rw [hphase] at hu
        obtain rfl : access = .alone := Option.some.inj hu
        exact finishes_alone hphase hlock
      | _ =>
        rw [hphase] at hu
        cases hu
  | shared holders =>
    rcases holders.eq_empty_or_nonempty with rfl | ⟨u, hu⟩
    · -- the lock is free, and every pending call is about to take it or to be answered
      have hnone : (c.thread t).access = none := by
        rw [hc.held, hlock, Lock.access, if_neg (Finset.notMem_empty t)]
      refine ⟨t, ht, ?_⟩
      cases hphase : c.thread t with
      | idle => exact absurd hphase ht
      | called op => exact finishes_called hE input hphase hlock
      | answered answer => exact finishes_answered hphase
      | _ =>
        rw [hphase] at hnone
        cases hnone
    · -- one of the threads that share the lock
      have hu : (c.thread u).access = some .shared := by rw [hc.held, hlock, Lock.access, if_pos hu]
      refine ⟨u, fun hidle => ?_, ?_⟩
      · rw [hidle] at hu
        cases hu
      · cases hphase : c.thread u with
        | looking op rest => exact finishes_looking hphase hlock
        | leaving access answer =>
          rw [hphase] at hu
          obtain rfl : access = .shared := Option.some.inj hu
          exact finishes_shared hphase hlock
        | _ =>
          rw [hphase] at hu
          cases hu

/-- Only finitely many threads have a call that is pending. -/
theorem finite_pending {m : Mem} {s : σ} {ls : List (Option (Act Tid Op Answer))}
    (hrun : (threads E method).Run (.start m s) ls c) : {t | c.thread t ≠ .idle}.Finite := by
  refine hrun.invariant (I := fun c => {t | c.thread t ≠ .idle}.Finite) ?_ ?_
  · simp [Config.start]
  · intro c l c' hfin hst
    have hgoto : ∀ {t phase}, c'.thread = Function.update c.thread t phase →
        {u | c'.thread u ≠ .idle}.Finite := by
      intro t phase hthread
      refine (hfin.insert t).subset fun u hu => ?_
      rw [Set.mem_ofPred_eq, hthread] at hu
      by_cases hut : u = t
      · exact .inl hut
      · rw [Function.update_of_ne hut] at hu
        exact .inr hu
    cases hst with
    | disturb => exact hfin
    | _ => exact hgoto rfl

/-- Pending calls can be brought to their answers one after the other. -/
theorem Coupled.all_finish {h : (q : Call) → σ → Res q × σ}
    (hc : Coupled E method (fun _ _ => True) c a) (hE : Env.Allows E h) (input : Input)
    (hfin : {t | c.thread t ≠ .idle}.Finite) :
    ∃ ls c', (∀ u op, some (.invoke u op) ∉ ls) ∧ (threads E method).Run c ls c' ∧
      ∀ t, c'.thread t = .idle := by
  induction hn : hfin.toFinset.card using Nat.strong_induction_on generalizing c a with
  | _ n ih =>
    by_cases hidle : ∀ t, c.thread t = .idle
    · exact ⟨[], c, by simp, .nil c, hidle⟩
    · obtain ⟨t, ht⟩ := not_forall.1 hidle
      obtain ⟨u, hu, ls, c₁, hls, hrun, hthread⟩ := hc.exists_finishes hE input ht
      obtain ⟨a₁, -, hc₁⟩ := hc.run (hrun.restrict fun _ _ _ _ _ => trivial)
      have hsub : {t | c₁.thread t ≠ .idle} ⊂ {t | c.thread t ≠ .idle} := by
        refine ⟨fun v hv => ?_, fun hsub => hsub hu (by rw [hthread, Function.update_self])⟩
        rw [Set.mem_ofPred_eq, hthread] at hv
        by_cases hvu : v = u
        · exact hvu ▸ hu
        · rwa [Function.update_of_ne hvu] at hv
      have hfin₁ := hfin.subset hsub.subset
      have hcard : hfin₁.toFinset.card < n :=
        hn ▸ Finset.card_lt_card (Set.Finite.toFinset_ssubset_toFinset.2 hsub)
      obtain ⟨ls', c', hls', hrun', hidle'⟩ := ih _ hcard hc₁ hfin₁ rfl
      refine ⟨ls ++ ls', c', fun v op hmem => ?_, hrun.append hrun', hidle'⟩
      exact (List.mem_append.1 hmem).elim (hls v op) (hls' v op)

/-- **From every state that the threads can reach, all pending calls can be brought to their
answers.** -/
theorem threads_finish {h : (q : Call) → σ → Res q × σ} {m : Mem} {s : σ}
    {ls : List (Option (Act Tid Op Answer))} (hE : Env.Allows E h) (input : Input)
    (hrun : (threads E method).Run (.start m s) ls c) :
    ∃ ls' c', (∀ u op, some (.invoke u op) ∉ ls') ∧ (threads E method).Run c ls' c' ∧
      ∀ t, c'.thread t = .idle := by
  have hstart : Coupled E method (fun _ _ => True)
      (.start m s : Config Res Mem Op Answer Tid σ) ((m, s), fun _ => .idle) := .start m s
  obtain ⟨a, -, hc⟩ := hstart.run (hrun.restrict fun _ _ _ _ _ => trivial)
  exact hc.all_finish hE input (finite_pending hrun)

end Pending

end Monitor

end LiteSpeedStore
