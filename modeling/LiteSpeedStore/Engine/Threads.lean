import LiteSpeedStore.Engine.Modes
import LiteSpeedStore.Engine.Restart
import LiteSpeedStore.Theory.Monitor

/-!
# An engine that threads share

The locks of `StorageEngine.cpp`: `get`, `getAverage`, `count` and `historyCount` share the mutex of
the engine, the other calls take it alone, and `set` checks the sizes before it takes it.  The mutex
of the log is taken only where that of the engine is held alone, and so it is always free.

* `StorageEngine.method` : the public calls as methods of a shared object.
* `does_iff` : alone, a method does what the call does.
* `linearizable` : whatever fails, concurrent calls are calls that happen one after the other.
* `Lifetime` : a process that opens the store, shares the engine among threads, and ends somehow.
* `lifetimes_refine` : over any number of processes, concurrent calls and deaths are those of a map.
-/

namespace LiteSpeedStore

open Prog StorageEngine
open Monitor (Method Act Client Config threads guarded atomic)

/-- A public call on an engine. -/
inductive Request where
  | call (call : PublicCall)
  | snapshot

/-- The program of a public call. -/
def StorageEngine.request (double : DoubleArithmetic) (host : ByteOrder) (orders : Orders)
    (now : Int64) (engine : StorageEngine) :
    Request → Io (Except Exception Answer × StorageEngine)
  | .call call => engine.perform double host orders now call
  | .snapshot => do
    let (result, engine) ← engine.snapshot orders
    ret (result.map fun _ => .done, engine)

/-! ### The methods that share the lock -/

namespace Looks

/-- One look at the members. -/
def look : Prog (fun _ : Unit => StorageEngine) StorageEngine := Prog.perform ()

/-- `get` finds the key, asks whether its history is empty, and takes the last record. -/
def get (key : Bytes) : Prog (fun _ : Unit => StorageEngine) (Option Bytes) := do
  let engine ← look
  if (engine.data.lookup key).isNone then ret none
  else do
    let engine ← look
    if (engine.data.lookup key).getD [] = [] then ret none
    else do
      let engine ← look
      ret (((engine.data.lookup key).bind List.getLast?).map Record.value)

/-- The loop of `getAverage` over `n` records from the `i`-th on. -/
def sumFrom (double : DoubleArithmetic) (key : Bytes) :
    ℕ → ℕ → UInt64 → Prog (fun _ : Unit => StorageEngine) UInt64
  | _, 0, sum => ret sum
  | i, n + 1, sum => do
    let engine ← look
    let record := ((engine.data.lookup key).getD [])[i]?
    sumFrom double key (i + 1) n (double.add sum ((record.map Record.duration).getD 0))

/-- `getAverage` finds the key, asks whether its history is empty, sums up the durations, and
divides by the size. -/
def getAverage (double : DoubleArithmetic) (key : Bytes) :
    Prog (fun _ : Unit => StorageEngine) (Option UInt64) := do
  let engine ← look
  if (engine.data.lookup key).isNone then ret none
  else do
    let engine ← look
    if (engine.data.lookup key).getD [] = [] then ret none
    else do
      let engine ← look
      let sum ← sumFrom double key 0 ((engine.data.lookup key).getD []).length 0
      let engine ← look
      ret (some (double.div sum (double.ofSize ((engine.data.lookup key).getD []).length)))

/-- `count` asks for the size of the map. -/
def count : Prog (fun _ : Unit => StorageEngine) ℕ := do
  let engine ← look
  ret engine.count

/-- `historyCount` finds the key, and asks for the size of its history. -/
def historyCount (key : Bytes) : Prog (fun _ : Unit => StorageEngine) ℕ := do
  let engine ← look
  if (engine.data.lookup key).isNone then ret 0
  else do
    let engine ← look
    ret ((engine.data.lookup key).getD []).length

end Looks

/-! ### The methods -/

/-- A method that looks, and returns what it has found. -/
def lookMethod {α : Type} (body : Prog (fun _ : Unit => StorageEngine) α) (answer : α → Answer) :
    Method Res StorageEngine (Orders × Int64) (Except Exception Answer) :=
  .look do
    let found ← body
    ret (.ok (answer found))

/-- The public calls, with their locks.  The clock is read, and the loops run, inside the lock. -/
def StorageEngine.method (double : DoubleArithmetic) (host : ByteOrder) (request : Request) :
    Method Res StorageEngine (Orders × Int64) (Except Exception Answer) :=
  match request with
  | .call (.set key value _) =>
    if key.length > kMaxFieldSize.toNat then
      .refuse (.error (.lengthError ("key exceeds " ++ toString kMaxFieldSize ++ " bytes")))
    else if value.length > kMaxValueSize then
      .refuse (.error (.lengthError ("value exceeds " ++ toString kMaxValueSize ++ " bytes")))
    else .work fun input engine => engine.request double host input.1 input.2 request
  | .call (.get key) => lookMethod (Looks.get key) .value
  | .call (.getAverage key) => lookMethod (Looks.getAverage double key) .average
  | .call .count => lookMethod Looks.count .size
  | .call (.historyCount key) => lookMethod (Looks.historyCount key) .size
  | .call (.remove _) | .call .recover | .snapshot =>
    .work fun input engine => engine.request double host input.1 input.2 request

/-- A public call that runs alone. -/
def Request.Done (F : Faults) (double : DoubleArithmetic) (host : ByteOrder) (request : Request)
    (s : StorageEngine × FileSystem) (answer : Except Exception Answer)
    (s' : StorageEngine × FileSystem) : Prop :=
  ∃ orders now, Exec F.env (s.1.request double host orders now request) s.2 (answer, s'.1) s'.2

section Looks

variable {double : DoubleArithmetic} {host : ByteOrder} {engine : StorageEngine} {key : Bytes}

theorem eval_look_bind {α : Type} (f : StorageEngine → Prog (fun _ : Unit => StorageEngine) α) :
    (Looks.look >>= f).eval engine = (f engine).eval engine := rfl

theorem eval_bind {Mem α β : Type} {m : Mem} (p : Prog (fun _ : Unit => Mem) α)
    (f : α → Prog (fun _ : Unit => Mem) β) : (p >>= f).eval m = (f (p.eval m)).eval m := by
  induction p with
  | ret a => rfl
  | call _ k ih => exact ih m

theorem eval_get : (Looks.get key).eval engine = engine.get key := by
  rw [Looks.get, eval_look_bind, StorageEngine.get]
  cases hkey : engine.data.lookup key with
  | none => rfl
  | some history =>
    rw [if_neg (by simp), eval_look_bind, hkey, Option.getD_some]
    split_ifs with hempty
    · subst hempty
      rfl
    · rw [eval_look_bind, hkey]
      rfl

/-- The loop sums up the records that are left. -/
theorem eval_sumFrom {history : List Record} (hkey : engine.data.lookup key = some history)
    (i : ℕ) (sum : UInt64) :
    (Looks.sumFrom double key i (history.length - i) sum).eval engine =
      (history.drop i).foldl (fun sum record => double.add sum record.duration) sum := by
  induction hn : history.length - i generalizing i sum with
  | zero => rw [List.drop_eq_nil_of_le (by omega), List.foldl_nil, Looks.sumFrom, eval]
  | succ n ih =>
    have hi : i < history.length := by omega
    rw [Looks.sumFrom, eval_look_bind]
    dsimp only
    rw [hkey, Option.getD_some, List.getElem?_eq_getElem hi, Option.map_some, Option.getD_some,
      List.drop_eq_getElem_cons hi, List.foldl_cons]
    exact ih (i + 1) _ (by omega)

theorem eval_getAverage :
    (Looks.getAverage double key).eval engine = engine.getAverage double key := by
  rw [Looks.getAverage, eval_look_bind, StorageEngine.getAverage]
  cases hkey : engine.data.lookup key with
  | none => rfl
  | some history =>
    rw [if_neg (by simp), eval_look_bind, hkey, Option.getD_some]
    dsimp only
    split_ifs with hempty
    · rfl
    · rw [eval_look_bind, hkey, eval_bind, Option.getD_some]
      have hsum : (Looks.sumFrom double key 0 history.length 0).eval engine =
          history.foldl (fun sum record => double.add sum record.duration) 0 :=
        eval_sumFrom hkey 0 0
      rw [hsum, eval_look_bind, hkey]
      rfl

theorem eval_historyCount : (Looks.historyCount key).eval engine = engine.historyCount key := by
  rw [Looks.historyCount, eval_look_bind, StorageEngine.historyCount]
  cases hkey : engine.data.lookup key with
  | none => rfl
  | some history =>
    rw [if_neg (by simp), eval_look_bind, hkey]
    rfl

variable {F : Faults} {request : Request} {s s' : StorageEngine × FileSystem}
  {answer : Except Exception Answer}

theorem does_lookMethod {α : Type} {body : Prog (fun _ : Unit => StorageEngine) α}
    {found : α → Answer} {call : PublicCall} (hcall : ∀ orders now,
      s.1.perform double host orders now call = ret (.ok (found (body.eval s.1)), s.1)) :
    (lookMethod body found).Does F.env s answer s' ↔
      (Request.call call).Done F double host s answer s' := by
  obtain ⟨engine, fs⟩ := s
  obtain ⟨engine', fs'⟩ := s'
  have hdone : (Request.call call).Done F double host (engine, fs) answer (engine', fs') ↔
      (answer, engine') = (.ok (found (body.eval engine)), engine) ∧ fs' = fs := by
    constructor
    · rintro ⟨orders, now, hx⟩
      rw [StorageEngine.request, hcall] at hx
      exact exec_ret.1 hx
    · intro h
      refine ⟨⟨Order.any, Order.any⟩, 0, ?_⟩
      rw [StorageEngine.request, hcall]
      exact exec_ret.2 h
  rw [hdone, lookMethod, Method.does_look, eval_bind, eval, Prod.mk.injEq, Prod.mk.injEq, and_assoc]

/-- What `set` refuses is refused whatever the members are. -/
theorem does_refused {e : Exception} (hset : ∀ orders now,
      s.1.request double host orders now request = ret (.error e, s.1)) :
    (.refuse (.error e) : Method Res StorageEngine (Orders × Int64) (Except Exception Answer)).Does
        F.env s answer s' ↔ request.Done F double host s answer s' := by
  obtain ⟨engine, fs⟩ := s
  obtain ⟨engine', fs'⟩ := s'
  have hdone : request.Done F double host (engine, fs) answer (engine', fs') ↔
      (answer, engine') = (.error e, engine) ∧ fs' = fs := by
    constructor
    · rintro ⟨orders, now, hx⟩
      rw [hset] at hx
      exact exec_ret.1 hx
    · intro h
      refine ⟨⟨Order.any, Order.any⟩, 0, ?_⟩
      rw [hset]
      exact exec_ret.2 h
  rw [hdone, Method.does_refuse, Prod.mk.injEq, Prod.mk.injEq, and_assoc]

theorem does_workMethod : (.work fun input engine => engine.request double host input.1 input.2
      request : Method Res StorageEngine (Orders × Int64) (Except Exception Answer)).Does
        F.env s answer s' ↔ request.Done F double host s answer s' := by
  rw [Method.does_work, Request.Done, Prod.exists]

/-- **Alone, a method does what the call does.** -/
theorem does_iff : (StorageEngine.method double host request).Does F.env s answer s' ↔
    request.Done F double host s answer s' := by
  cases request with
  | snapshot => exact does_workMethod
  | call call =>
    cases call with
    | set key value duration =>
      rw [StorageEngine.method]
      split_ifs with hkey hvalue
      · refine does_refused fun orders now => ?_
        rw [StorageEngine.request, StorageEngine.perform, StorageEngine.set, if_pos hkey]
        rfl
      · refine does_refused fun orders now => ?_
        rw [StorageEngine.request, StorageEngine.perform, StorageEngine.set, if_neg hkey,
          if_pos hvalue]
        rfl
      · exact does_workMethod
    | remove key => exact does_workMethod
    | recover => exact does_workMethod
    | get key => exact does_lookMethod fun _ _ => by rw [eval_get]; rfl
    | getAverage key => exact does_lookMethod fun _ _ => by rw [eval_getAverage]; rfl
    | count => exact does_lookMethod fun _ _ => rfl
    | historyCount key => exact does_lookMethod fun _ _ => by rw [eval_historyCount]; rfl

end Looks

/-! ### Threads -/

section Threads

variable {Tid : Type} [DecidableEq Tid] {F : Faults} {double : DoubleArithmetic} {host : ByteOrder}
  {engine : StorageEngine} {fs : FileSystem}
  {ls : List (Option (Act Tid Request (Except Exception Answer)))}
  {c : Config Res StorageEngine Request (Except Exception Answer) Tid FileSystem}

/-- The calls of the atomic engine are calls that run alone. -/
theorem done_of_alone {pre : Request → StorageEngine → Prop} {request : Request}
    {s s' : StorageEngine × FileSystem} {answer : Except Exception Answer}
    (h : Monitor.Alone F.env (StorageEngine.method double host) pre request s answer s') :
    request.Done F double host s answer s' := does_iff.1 h.2

/-- **Linearizability.**  Whatever calls of the system fail and however the threads are scheduled,
the calls on a shared engine have the answers that they have when each of them runs alone, at one
instant between its call and its answer, and they leave the engine and the files in the same
state. -/
theorem linearizable
    (hrun : (threads F.env (StorageEngine.method double host)).Run (.start engine fs) ls c) :
    ∃ s client, (atomic (Request.Done F double host)).Run ((engine, fs), fun _ => .idle)
        ls.reduceOption (s, client) ∧
      (Monitor.sequential (Request.Done F double host)).Run (engine, fs)
        (ls.reduceOption.filterMap Act.performed) s ∧
      (∀ t, (c.thread t).client = client t) ∧
      ((∀ t, ¬(c.thread t).AtWork) → c.members = s.1 ∧ c.state = s.2) := by
  have hguarded : (guarded F.env (StorageEngine.method double host) fun _ _ => True).Run
    (.start engine fs) ls c := hrun.restrict fun _ _ _ _ _ => trivial
  obtain ⟨⟨s, client⟩, hatomic, hcoupled⟩ := Monitor.threads_atomic hguarded
  have hsim : Lts.Simulation
      (atomic (Monitor.Alone F.env (StorageEngine.method double host) fun _ _ => True) : Lts
        (_ × (Tid → Client Request (Except Exception Answer))) _)
      (atomic (Request.Done F double host)) fun a b => a.1 = b.1 ∧ a.2 = b.2 :=
    Monitor.atomic_simulation fun hs h => ⟨_, hs ▸ done_of_alone h, rfl⟩
  obtain ⟨⟨s', client'⟩, hrun', rfl, rfl⟩ := hsim.run hatomic ⟨rfl, rfl⟩
  exact ⟨s, client, hrun', Monitor.sequential_of_atomic hrun', hcoupled.client, hcoupled.quiet⟩

/-- The calls of a run of two threads on an engine in memory. -/
theorem linearizable_count : ∃ c, (threads (Faults.none 0).env
    (StorageEngine.method ⟨fun a _ => a, fun a _ => a, fun _ => 0⟩ .little)).Run
      (.start (makeInMemory 0) fun _ => none)
      [some (.invoke true (.call .count)), some (.invoke false (.call (.remove [107]))), none, none,
        some (.perform true (.call .count) (.ok (.size 0)))] c ∧
    ∃ s client, (atomic (Request.Done (Faults.none 0) ⟨fun a _ => a, fun a _ => a, fun _ => 0⟩
        .little)).Run ((makeInMemory 0, fun _ => none), fun _ => .idle)
        [.invoke true (.call .count), .invoke false (.call (.remove [107])),
          .perform true (.call .count) (.ok (.size 0))] (s, client) ∧
      ((∀ t, ¬(c.thread t).AtWork) → c.members = s.1 ∧ c.state = s.2) := by
  have hrun : (threads (Faults.none 0).env
      (StorageEngine.method ⟨fun a _ => a, fun a _ => a, fun _ => 0⟩ .little)).Run
      (.start (makeInMemory 0) fun _ => none)
      [some (.invoke true (.call .count)), some (.invoke false (.call (.remove [107]))), none, none,
        some (.perform true (.call .count) (.ok (.size 0)))] _ :=
    .cons (.invoke rfl) <| .cons (.invoke rfl) <| .cons (.share (t := true) rfl rfl rfl) <|
      .cons (.look (t := true) rfl) <| .single (.looked rfl)
  obtain ⟨s, client, hatomic, -, -, hquiet⟩ := linearizable hrun
  exact ⟨_, hrun, s, client, hatomic, hquiet⟩

/-- **No races and no deadlocks.**  Whatever the threads have done so far: while one of them holds
the lock alone, all others are outside; while one of them shares it, no method is at work; and all
pending calls can be brought to their answers. -/
theorem exclusive_and_live
    (hrun : (threads F.env (StorageEngine.method double host)).Run (.start engine fs) ls c) :
    (∀ t u, (c.thread t).access = some .alone → u ≠ t → (c.thread u).access = none) ∧
      (∀ t u, (c.thread t).access = some .shared → ¬(c.thread u).AtWork) ∧
      ∃ ls' c', (∀ t request, some (.invoke t request) ∉ ls') ∧
        (threads F.env (StorageEngine.method double host)).Run c ls' c' ∧
        ∀ t, c'.thread t = .idle := by
  have hguarded : (guarded F.env (StorageEngine.method double host) fun _ _ => True).Run
    (.start engine fs) ls c := hrun.restrict fun _ _ _ _ _ => trivial
  obtain ⟨a, -, hcoupled⟩ := Monitor.threads_atomic hguarded
  refine ⟨fun t u ht hu => hcoupled.alone ht hu, fun t u ht => ?_,
    Monitor.threads_finish Faults.allows_posix (⟨Order.any, Order.any⟩, 0) hrun⟩
  refine hcoupled.not_atWork (by rw [ht]; simp) (fun hwork => ?_) u
  rw [hwork.access] at ht
  cases ht

/-- A thread waits while another one is at work. -/
theorem exclusive_and_live_remove : ∃ c, (threads (Faults.none 0).env
    (StorageEngine.method ⟨fun a _ => a, fun a _ => a, fun _ => 0⟩ .little)).Run
      (.start (makeInMemory 0) fun _ => none)
      [some (.invoke true (.call .count)), some (.invoke false (.call (.remove [107]))), none] c ∧
    (c.thread false).access = some .alone ∧ ∃ ls' c',
      (∀ t request, some (.invoke t request) ∉ ls') ∧ (threads (Faults.none 0).env
        (StorageEngine.method ⟨fun a _ => a, fun a _ => a, fun _ => 0⟩ .little)).Run c ls' c' ∧
      ∀ t, c'.thread t = .idle := by
  have hrun : (threads (Faults.none 0).env
      (StorageEngine.method ⟨fun a _ => a, fun a _ => a, fun _ => 0⟩ .little)).Run
      (.start (makeInMemory 0) fun _ => none)
      [some (.invoke true (.call .count)), some (.invoke false (.call (.remove [107]))), none] _ :=
    .cons (.invoke rfl) <| .cons (.invoke rfl) <| .single (.acquire (t := false) rfl rfl rfl)
  obtain ⟨-, -, hlive⟩ := exclusive_and_live hrun
  exact ⟨_, hrun, rfl, hlive⟩

end Threads

/-! ### A map that threads share -/

namespace Request

/-- The call that looks at the log or changes the data, at a reading of the clock. -/
def op (now : Int64) : Request → Option Op
  | .call (.set key value duration) => some (.set key value duration now)
  | .call (.remove key) => some (.remove key now)
  | .call .recover => some .recover
  | .snapshot => some .snapshot
  | .call (.get _) | .call (.getAverage _) | .call .count | .call (.historyCount _) => none

/-- What a call that only looks finds. -/
def found (double : DoubleArithmetic) (engine : StorageEngine) : Request → Option Answer
  | .call (.get key) => some (.value (engine.get key))
  | .call (.getAverage key) => some (.average (engine.getAverage double key))
  | .call .count => some (.size engine.count)
  | .call (.historyCount key) => some (.size (engine.historyCount key))
  | .call (.set ..) | .call (.remove _) | .call .recover | .snapshot => none

/-- The calls on a map of histories: a change within the limits is made, another one is refused, and
everything else leaves the map as it is. -/
inductive Mapped (double : DoubleArithmetic) (maxHistoryPerKey : ℕ) :
    Request → Data → Except Exception Answer → Data → Prop
  | made {request : Request} {now : Int64} {op : Op} (data : Data) :
      request.op now = some op → op.Within →
      Mapped double maxHistoryPerKey request data
        (.ok ((op.answer data).elim .done .removed)) (op.apply maxHistoryPerKey data)
  | refused {request : Request} {now : Int64} {op : Op} (data : Data) (what : String) :
      request.op now = some op → ¬op.Within →
      Mapped double maxHistoryPerKey request data (.error (.lengthError what)) data
  | found {request : Request} {answer : Answer} (data : Data) :
      request.found double { data, maxHistoryPerKey } = some answer →
      Mapped double maxHistoryPerKey request data (.ok answer) data

/-- A snapshot is taken within the limits of its format. -/
def Pre (request : Request) (engine : StorageEngine) : Prop :=
  request = .snapshot → engine.WithinLimits

end Request

section Map

variable {double : DoubleArithmetic} {host : ByteOrder} {p : Path} {maxHistoryPerKey : ℕ}
  {engine : StorageEngine} {fs : FileSystem} {data : Data} {request : Request} {orders : Orders}
  {now : Int64} {op : Op}

/-- A public call is the call of the engine, with its answer. -/
theorem request_eq (hop : request.op now = some op) :
    engine.request double host orders now request = (do
      let result ← engine.call host orders op
      ret (result.1.map fun answer => answer.elim .done .removed, result.2)) := by
  have hmap : ∀ {α : Type} (f : α → Option Bool) (g : α → Answer)
      (prog : Io (Except Exception α × StorageEngine)), (∀ a, (f a).elim .done .removed = g a) →
      (prog >>= fun result => ret (result.1.map g, result.2)) = ((prog >>= fun result =>
        ret (result.1.map f, result.2)) >>= fun result =>
          ret (result.1.map fun answer => answer.elim .done .removed, result.2)) := by
    intro α f g prog hfg
    rw [bind_assoc]
    congr 1
    funext result
    obtain ⟨_ | a, engine'⟩ := result
    · rfl
    · rw [ret_bind]
      simp only [Except.map, hfg]
  cases request with
  | snapshot =>
    obtain rfl := Option.some.inj hop
    exact hmap (fun _ => none) (fun _ => .done) _ fun _ => rfl
  | call call =>
    cases call with
    | set key value duration =>
      obtain rfl := Option.some.inj hop
      exact hmap (fun _ => none) (fun _ => .done) _ fun _ => rfl
    | remove key =>
      obtain rfl := Option.some.inj hop
      exact hmap some .removed _ fun _ => rfl
    | recover =>
      obtain rfl := Option.some.inj hop
      exact hmap (fun _ => none) (fun _ => .done) _ fun _ => rfl
    | _ => cases hop

/-- A call that only looks. -/
theorem request_found {answer : Answer} (hfound : request.found double engine = some answer) :
    engine.request double host orders now request = ret (.ok answer, engine) := by
  cases request with
  | snapshot => cases hfound
  | call call =>
    cases call with
    | set | remove | recover => cases hfound
    | _ =>
      obtain rfl := Option.some.inj hfound
      rfl

/-- What a call finds is in the data. -/
theorem found_congr {engine' : StorageEngine} (h : engine.data = engine'.data) :
    request.found double engine = request.found double engine' := by
  obtain ⟨data, _⟩ := engine
  obtain ⟨data', _⟩ := engine'
  obtain rfl : data = data' := h
  rfl

theorem op_or_found (request : Request) (double : DoubleArithmetic) (engine : StorageEngine)
    (now : Int64) : (∃ op, request.op now = some op) ∨
      ∃ answer, request.found double engine = some answer := by
  cases request with
  | snapshot => exact .inl ⟨_, rfl⟩
  | call call =>
    cases call with
    | set | remove | recover => exact .inl ⟨_, rfl⟩
    | _ => exact .inr ⟨_, rfl⟩

/-- The rule of a public call on an engine that is in step with the map: it does what the map does,
and a death in between leaves the map before the call or after it. -/
theorem wp_request (h : Related True host p maxHistoryPerKey ⟨some engine, fs⟩ data)
    (hpre : request.Pre engine) :
    wp (Faults.none kHeaderSize).env (engine.request double host orders now request)
      (fun result fs' => ∃ data', request.Mapped double maxHistoryPerKey data result.1 data' ∧
        Related True host p maxHistoryPerKey ⟨some result.2, fs'⟩ data')
      (fun fs' => Related True host p maxHistoryPerKey ⟨none, fs'⟩ data ∨
        ∃ answer data', request.Mapped double maxHistoryPerKey data answer data' ∧
          Related True host p maxHistoryPerKey ⟨none, fs'⟩ data') fs := by
  rcases op_or_found request double engine now with ⟨op, hop⟩ | ⟨answer, hfound⟩
  · have hsnapshot : op = .snapshot → True ∧ engine.WithinLimits := by
      rintro rfl
      refine ⟨trivial, hpre ?_⟩
      cases request with
      | snapshot => rfl
      | call call => cases call <;> cases hop
    rw [request_eq hop, wp_bind]
    refine wp_mono (wp_call h hsnapshot) ?_ ?_
    · rintro ⟨result, engine'⟩ fs' (⟨hwithin, rfl, hrelated⟩ | ⟨hwithin, ⟨what, rfl⟩, hrelated⟩)
      · exact ⟨.inr ⟨_, _, .made data hop hwithin, hrelated.left⟩, _, .made data hop hwithin,
          hrelated⟩
      · exact ⟨.inl hrelated.left, _, .refused data what hop hwithin, hrelated⟩
    · rintro fs' (hrelated | ⟨hwithin, hrelated⟩)
      · exact .inl hrelated
      · exact .inr ⟨_, _, .made data hop hwithin, hrelated⟩
  · rw [request_found hfound]
    refine ⟨.inl h.left, data, .found data ?_, h⟩
    rw [← hfound]
    exact found_congr (h.engine_data engine rfl).symm

end Map

/-! ### Processes whose threads share an engine -/

section Lifetimes

variable (double : DoubleArithmetic) (host : ByteOrder) (p : Path) (maxHistoryPerKey : ℕ)
  {Tid : Type} [DecidableEq Tid]

/-- The threads of a process without failing calls. -/
abbrev Sharing : Lts (Config Res StorageEngine Request (Except Exception Answer) Tid FileSystem)
    (Option (Act Tid Request (Except Exception Answer))) :=
  guarded (Faults.none kHeaderSize).env (StorageEngine.method double host) Request.Pre

/-- A process opens the store, its threads make calls, and it is closed or dies: in the constructor,
in the destructor, or while any number of threads are anywhere in their calls. -/
inductive Lifetime : FileSystem → List (Act Tid Request (Except Exception Answer)) → FileSystem →
    Prop
  | openFailed {fs fs' : FileSystem} {n : ℕ} {orders : Orders} {e : Exception} :
      Exec (Faults.none kHeaderSize).env
        (StorageEngine.construct host p maxHistoryPerKey n orders) fs (.error e) fs' →
      Lifetime fs [] fs'
  | openCrashed {fs fs' : FileSystem} {n : ℕ} {orders : Orders} :
      Crash (Faults.none kHeaderSize).env
        (StorageEngine.construct host p maxHistoryPerKey n orders) fs fs' →
      Lifetime fs [] fs'
  | killed {fs fs' : FileSystem} {n : ℕ} {orders : Orders} {engine : StorageEngine}
      {ls : List (Option (Act Tid Request (Except Exception Answer)))}
      {c : Config Res StorageEngine Request (Except Exception Answer) Tid FileSystem} :
      Exec (Faults.none kHeaderSize).env
        (StorageEngine.construct host p maxHistoryPerKey n orders) fs (.ok engine) fs' →
      (Sharing double host).Run (.start engine fs') ls c → Lifetime fs ls.reduceOption c.state
  | closed {fs fs' fs'' : FileSystem} {n : ℕ} {orders : Orders} {engine : StorageEngine}
      {ls : List (Option (Act Tid Request (Except Exception Answer)))}
      {c : Config Res StorageEngine Request (Except Exception Answer) Tid FileSystem} :
      Exec (Faults.none kHeaderSize).env
        (StorageEngine.construct host p maxHistoryPerKey n orders) fs (.ok engine) fs' →
      (Sharing double host).Run (.start engine fs') ls c → (∀ t, c.thread t = .idle) →
      Exec (Faults.none kHeaderSize).env c.members.destroy c.state () fs'' →
      Lifetime fs ls.reduceOption fs''
  | closeCrashed {fs fs' fs'' : FileSystem} {n : ℕ} {orders : Orders} {engine : StorageEngine}
      {ls : List (Option (Act Tid Request (Except Exception Answer)))}
      {c : Config Res StorageEngine Request (Except Exception Answer) Tid FileSystem} :
      Exec (Faults.none kHeaderSize).env
        (StorageEngine.construct host p maxHistoryPerKey n orders) fs (.ok engine) fs' →
      (Sharing double host).Run (.start engine fs') ls c → (∀ t, c.thread t = .idle) →
      Crash (Faults.none kHeaderSize).env c.members.destroy c.state fs'' →
      Lifetime fs ls.reduceOption fs''

/-- The processes that use the store at `p`, one after the other. -/
def lifetimes : Lts FileSystem (List (Act Tid Request (Except Exception Answer))) :=
  ⟨Lifetime double host p maxHistoryPerKey⟩

/-- What a process does to the map.  Its calls happen at one instant each; at its end, one call that
is pending may still happen. -/
inductive Era : Data → List (Act Tid Request (Except Exception Answer)) → Data → Prop
  | intro {data data' : Data} {acts : List (Act Tid Request (Except Exception Answer))}
      {client : Tid → Client Request (Except Exception Answer)}
      (last : Option (Act Tid Request (Except Exception Answer))) :
      (∀ act ∈ last, ∃ t request answer, act = .perform t request answer) →
      (atomic (Request.Mapped double maxHistoryPerKey)).Run (data, fun _ => .idle)
        (acts ++ last.toList) (data', client) →
      Era data acts data'

/-- The map, over the processes that use it. -/
def eras : Lts Data (List (Act Tid Request (Except Exception Answer))) :=
  ⟨Era double maxHistoryPerKey⟩

variable {double host p maxHistoryPerKey} {engine : StorageEngine} {fs : FileSystem} {data : Data}
  {ls : List (Option (Act Tid Request (Except Exception Answer)))}
  {c : Config Res StorageEngine Request (Except Exception Answer) Tid FileSystem}

theorem Era.of_run {data' : Data} {acts : List (Act Tid Request (Except Exception Answer))}
    {client : Tid → Client Request (Except Exception Answer)}
    (hrun : (atomic (Request.Mapped double maxHistoryPerKey)).Run (data, fun _ => .idle) acts
      (data', client)) : Era double maxHistoryPerKey data acts data' := by
  rw [← List.append_nil acts] at hrun
  exact .intro none (by simp) hrun

theorem method_work {request : Request}
    {body : Orders × Int64 → StorageEngine → Io (Except Exception Answer × StorageEngine)}
    (h : StorageEngine.method double host request = .work body) (input : Orders × Int64)
    (engine : StorageEngine) :
    body input engine = engine.request double host input.1 input.2 request := by
  cases request with
  | snapshot =>
    obtain rfl := Method.work.inj h
    rfl
  | call call =>
    cases call with
    | set key value duration =>
      rw [StorageEngine.method] at h
      split_ifs at h
      obtain rfl := Method.work.inj h
      rfl
    | remove | recover =>
      obtain rfl := Method.work.inj h
      rfl
    | _ => cases h

/-- A call that runs alone on an engine that is in step with the map is one of the map. -/
theorem mapped_of_alone {request : Request} {s s' : StorageEngine × FileSystem}
    {answer : Except Exception Answer}
    (h : Related True host p maxHistoryPerKey ⟨some s.1, s.2⟩ data)
    (halone : Monitor.Alone (Faults.none kHeaderSize).env (StorageEngine.method double host)
      Request.Pre request s answer s') :
    ∃ data', request.Mapped double maxHistoryPerKey data answer data' ∧
      Related True host p maxHistoryPerKey ⟨some s'.1, s'.2⟩ data' := by
  have hpre : request.Pre s.1 := by
    rintro rfl
    exact halone.1 ⟨_, rfl⟩ rfl
  obtain ⟨orders, now, hx⟩ := done_of_alone halone
  exact wp_exec (wp_request h hpre) hx

/-- The threads of a process, seen as a map: at any moment, what is in the files is the map after
the calls that have happened, or after one more that is pending. -/
theorem sharing_mapped (h : Related True host p maxHistoryPerKey ⟨some engine, fs⟩ data)
    (hrun : (Sharing double host).Run (.start engine fs) ls c) :
    ∃ data', Era double maxHistoryPerKey data ls.reduceOption data' ∧
      Related True host p maxHistoryPerKey ⟨none, c.state⟩ data' := by
  obtain ⟨⟨s, client⟩, hatomic, hcoupled⟩ := Monitor.threads_atomic hrun
  have hsim : Lts.Simulation
      (atomic (Monitor.Alone (Faults.none kHeaderSize).env (StorageEngine.method double host)
        Request.Pre) : Lts (_ × (Tid → Client Request (Except Exception Answer))) _)
      (atomic (Request.Mapped double maxHistoryPerKey))
      fun a b => Related True host p maxHistoryPerKey ⟨some a.1.1, a.1.2⟩ b.1 ∧ a.2 = b.2 :=
    Monitor.atomic_simulation
      (R := fun (s : StorageEngine × FileSystem) data =>
        Related True host p maxHistoryPerKey ⟨some s.1, s.2⟩ data)
      fun hs halone => mapped_of_alone hs halone
  obtain ⟨⟨data', client'⟩, hrun', hrelated, rfl⟩ :=
    hsim.run (a := (data, fun _ => .idle)) hatomic ⟨h, rfl⟩
  by_cases hwork : ∃ t, (c.thread t).AtWork
  · obtain ⟨t, ht⟩ := hwork
    have hsound := hcoupled.sound t
    have hclient := hcoupled.client t
    cases hphase : c.thread t with
    | working request rest =>
      rw [hphase] at hsound hclient
      obtain ⟨body, input, hbody, hpre, hsteps⟩ := hsound
      rw [method_work hbody] at hsteps
      rcases wp_crash (wp_request hrelated hpre) hsteps.crash with
        hleft | ⟨answer, data'', hmapped, hleft⟩
      · exact ⟨data', .of_run hrun', hleft⟩
      · refine ⟨data'', .intro (some (.perform t request answer)) ?_
          (hrun'.append (.single (.perform hclient.symm hmapped))), hleft⟩
        rintro act hact
        obtain rfl := Option.some.inj hact
        exact ⟨t, request, answer, rfl⟩
    | _ =>
      rw [hphase] at ht
      exact ht.elim
  · obtain ⟨-, hstate⟩ := hcoupled.quiet (not_exists.1 hwork)
    refine ⟨data', .of_run hrun', ?_⟩
    rw [hstate]
    exact hrelated.left

/-- **The processes refine the map.** -/
theorem lifetimes_simulate : Lts.Simulation
    (lifetimes double host p maxHistoryPerKey :
      Lts FileSystem (List (Act Tid Request (Except Exception Answer))))
    (eras double maxHistoryPerKey) fun fs data =>
      Related True host p maxHistoryPerKey ⟨none, fs⟩ data := by
  intro fs acts fs' data h hlife
  have hnothing : Era double maxHistoryPerKey data
      ([] : List (Act Tid Request (Except Exception Answer))) data :=
    .of_run (.nil _)
  have hopened : ∀ {n orders engine fs'}, Exec (Faults.none kHeaderSize).env
      (StorageEngine.construct host p maxHistoryPerKey n orders) fs (.ok engine) fs' →
      Related True host p maxHistoryPerKey ⟨some engine, fs'⟩ data := by
    intro n orders engine fs' hx
    obtain ⟨-, engine', hok, hrelated⟩ := wp_exec (wp_openRelated h) hx
    obtain rfl := Except.ok.inj hok
    exact hrelated
  cases hlife with
  | openFailed hx =>
    obtain ⟨-, engine, hok, -⟩ := wp_exec (wp_openRelated h) hx
    cases hok
  | openCrashed hx => exact ⟨data, hnothing, (wp_crash (wp_openRelated h) hx :)⟩
  | killed hx hrun => exact sharing_mapped (hopened hx) hrun
  | closed hx hrun _ hdestroy =>
    rw [exec_destroy hdestroy]
    exact sharing_mapped (hopened hx) hrun
  | closeCrashed hx hrun _ hdestroy =>
    rw [crash_destroy hdestroy]
    exact sharing_mapped (hopened hx) hrun

end Lifetimes

end LiteSpeedStore
