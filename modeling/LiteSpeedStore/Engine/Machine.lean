import LiteSpeedStore.Engine.Data
import LiteSpeedStore.Theory.Lts

/-!
# The engine as a machine

A process opens the store, makes calls, and closes it or dies; another process opens the store
again.  `machine` has every such step, with every failure that the environment allows, and a death
between any two I/O steps.  `store` is what the machine is for: a map whose changes are kept once
their calls have returned.
-/

namespace LiteSpeedStore

open Prog StorageEngine

/-- The process, if it has the store open, and the files. -/
structure World where
  engine : Option StorageEngine
  fs : FileSystem

/-- What is observed of a step. -/
inductive Event where
  /-- The constructor returned. -/
  | opened
  /-- The constructor threw. -/
  | openFailed (e : Exception)
  /-- The process died in the constructor. -/
  | openCrashed
  /-- A call returned. -/
  | returned (op : Op) (answer : Option Bool)
  /-- A call threw. -/
  | threw (op : Op) (e : Exception)
  /-- The process died in a call. -/
  | crashed (op : Op)
  /-- The destructor returned. -/
  | closed
  /-- The process died in the destructor, or before it. -/
  | closeCrashed

section Machine

variable (F : Faults) (host : ByteOrder) (p : Path) (maxHistoryPerKey : ℕ)

/-- The steps of the processes that use the store at `p`, one at a time. -/
inductive Step : World → Event → World → Prop
  | opened {fs fs' : FileSystem} {n : ℕ} {orders : Orders} {engine : StorageEngine} :
      Exec F.env (StorageEngine.construct host p maxHistoryPerKey n orders) fs (.ok engine) fs' →
      Step ⟨none, fs⟩ .opened ⟨some engine, fs'⟩
  | openFailed {fs fs' : FileSystem} {n : ℕ} {orders : Orders} {e : Exception} :
      Exec F.env (StorageEngine.construct host p maxHistoryPerKey n orders) fs (.error e) fs' →
      Step ⟨none, fs⟩ (.openFailed e) ⟨none, fs'⟩
  | openCrashed {fs fs' : FileSystem} {n : ℕ} {orders : Orders} :
      Crash F.env (StorageEngine.construct host p maxHistoryPerKey n orders) fs fs' →
      Step ⟨none, fs⟩ .openCrashed ⟨none, fs'⟩
  | returned {fs fs' : FileSystem} {engine engine' : StorageEngine} {orders : Orders} {op : Op}
      {answer : Option Bool} :
      Exec F.env (engine.call host orders op) fs (.ok answer, engine') fs' →
      Step ⟨some engine, fs⟩ (.returned op answer) ⟨some engine', fs'⟩
  | threw {fs fs' : FileSystem} {engine engine' : StorageEngine} {orders : Orders} {op : Op}
      {e : Exception} :
      Exec F.env (engine.call host orders op) fs (.error e, engine') fs' →
      Step ⟨some engine, fs⟩ (.threw op e) ⟨some engine', fs'⟩
  | crashed {fs fs' : FileSystem} {engine : StorageEngine} {orders : Orders} {op : Op} :
      Crash F.env (engine.call host orders op) fs fs' →
      Step ⟨some engine, fs⟩ (.crashed op) ⟨none, fs'⟩
  | closed {fs fs' : FileSystem} {engine : StorageEngine} :
      Exec F.env engine.destroy fs () fs' → Step ⟨some engine, fs⟩ .closed ⟨none, fs'⟩
  | closeCrashed {fs fs' : FileSystem} {engine : StorageEngine} :
      Crash F.env engine.destroy fs fs' → Step ⟨some engine, fs⟩ .closeCrashed ⟨none, fs'⟩

/-- The machine of the store at `p`. -/
def machine : Lts World Event := ⟨Step F host p maxHistoryPerKey⟩

end Machine

/-- The call that is made. -/
def Event.op : Event → Option Op
  | .returned op _ | .threw op _ | .crashed op => some op
  | _ => none

/-- The event is the return of a call that made this change. -/
def Event.Makes (event : Event) (μ : Mutation) : Prop :=
  ∃ op answer, event = .returned op answer ∧ op.mutation = some μ

/-- The process ends without making a call. -/
def Event.Ends (event : Event) : Prop := event = .closed ∨ event = .closeCrashed

/-! ### What it is for -/

namespace Op

/-- The call is within the limits of keys and values. -/
def Within (op : Op) : Prop := ∀ μ ∈ op.mutation, μ.Fits

/-- The data after the call. -/
def apply (maxHistoryPerKey : ℕ) (data : Data) (op : Op) : Data :=
  op.mutation.elim data (Mutation.apply maxHistoryPerKey data)

end Op

/-- A map of histories.  A call that returns has made its change, one that is refused has not, and
one in which the process dies has made it or not; nothing else changes the data. -/
inductive Kept (maxHistoryPerKey : ℕ) : Data → Event → Data → Prop
  | opened (data : Data) : Kept maxHistoryPerKey data .opened data
  | openCrashed (data : Data) : Kept maxHistoryPerKey data .openCrashed data
  | returned {op : Op} (data : Data) (h : op.Within) :
      Kept maxHistoryPerKey data (.returned op (op.answer data)) (op.apply maxHistoryPerKey data)
  | refused {op : Op} (data : Data) (what : String) (h : ¬op.Within) :
      Kept maxHistoryPerKey data (.threw op (.lengthError what)) data
  | undone (data : Data) (op : Op) : Kept maxHistoryPerKey data (.crashed op) data
  | done {op : Op} (data : Data) (h : op.Within) :
      Kept maxHistoryPerKey data (.crashed op) (op.apply maxHistoryPerKey data)
  | closed (data : Data) : Kept maxHistoryPerKey data .closed data
  | closeCrashed (data : Data) : Kept maxHistoryPerKey data .closeCrashed data

/-- The store as its users see it. -/
def store (maxHistoryPerKey : ℕ) : Lts Data Event := ⟨Kept maxHistoryPerKey⟩

end LiteSpeedStore
