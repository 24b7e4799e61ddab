import LiteSpeedStore.Engine.Modes
import LiteSpeedStore.Engine.History
import LiteSpeedStore.Theory.Scopes

/-!
# Tracing scopes

`FastTrace.hpp` and `main.cpp`.  `TRACE_SCOPE` puts a timer into a scope, whose destructor writes
the time that the scope took to an engine.  A destructor does not throw: when the engine does, the
program is terminated.

What the program does beside its scopes is any statement; what its scopes measure is written in the
order in which they are left.

* `trace_records` : each scope that was left has one record, inner ones first, whatever the way in
  which it was left; with a steady clock the times are nested like the scopes.
* `trace_transparent` : on an engine in memory, tracing does not change what a program does.
* `main_reports` : what `main` prints.
-/

namespace LiteSpeedStore

open Prog StorageEngine

/-! ### Clocks -/

/-- The clock, in nanoseconds, and the double that an elapsed time is in milliseconds, on its bits.
-/
structure Chrono where
  /-- From one reading to the next. -/
  goes : ℤ → ℤ → Prop
  /-- From before to after a sleep of so many milliseconds. -/
  sleeps : ℕ → ℤ → ℤ → Prop
  millis : ℤ → UInt64
  /-- `std::to_string` of a double. -/
  toString : UInt64 → Bytes
  goes_on : ∀ time, ∃ time', goes time time'
  wakes : ∀ ms time, ∃ time', sleeps ms time time'
  /-- A sign, 309 digits, a point and 6 digits. -/
  length_toString : ∀ ms, (toString ms).length ≤ 317

/-- The clock does not go back, and a sleep takes its time.  `high_resolution_clock` need not be
so. -/
structure Chrono.Steady (chrono : Chrono) : Prop where
  goes : ∀ {time time'}, chrono.goes time time' → time ≤ time'
  sleeps : ∀ {ms time time'}, chrono.sleeps ms time time' → time + ms * 1000000 ≤ time'

/-! ### Timers -/

/-- The bytes of a string literal. -/
def literal (s : String) : Bytes := s.toUTF8.data.toList

/-- A timer that is running. -/
structure Timer where
  start : ℤ

/-- A timer that has called back, and the clock of the engine when it did. -/
structure Timing where
  name : Bytes
  start : ℤ
  stop : ℤ
  now : Int64

/-- The milliseconds that are passed to the callback. -/
def Timing.ms (chrono : Chrono) (x : Timing) : UInt64 := chrono.millis (x.stop - x.start)

/-- The value that the callback of `TRACE_SCOPE` sets. -/
def traceValue (chrono : Chrono) (ms : UInt64) : Bytes := chrono.toString ms ++ literal " ms"

theorem length_traceValue {chrono : Chrono} (ms : UInt64) :
    (traceValue chrono ms).length ≤ kMaxValueSize := by
  have hunit : (literal " ms").length = 3 := by decide
  have hmax : kMaxValueSize = 1048568 := by decide
  have := chrono.length_toString ms
  rw [traceValue, List.length_append, hunit, hmax]
  omega

/-- The record that is left in the engine. -/
def Timing.record (chrono : Chrono) (x : Timing) : Record :=
  ⟨traceValue chrono (x.ms chrono), x.ms chrono, x.now⟩

/-- What a program does between its scopes. -/
inductive Activity where
  | compute
  /-- `std::this_thread::sleep_for`. -/
  | sleep (ms : ℕ)

/-- The engine that is traced to, the files, and the last reading of the clock. -/
structure Traced where
  engine : StorageEngine
  fs : FileSystem
  time : ℤ

/-- How the time goes on. -/
def Activity.takes (chrono : Chrono) : Activity → ℤ → ℤ → Prop
  | compute => chrono.goes
  | sleep ms => chrono.sleeps ms

/-- `TRACE_SCOPE`: the constructor of the timer reads the clock; the destructor reads it again and
sets the time under the name, which the callback evaluates anew. -/
def traceScope (σ : Type) (F : Faults) (host : ByteOrder) (chrono : Chrono) :
    Guards σ Traced Activity (σ → Bytes) Timer Timing where
  pass a t t' := a.takes chrono t.time t'.time ∧ t' = { t with time := t'.time }
  enter _ t timer t' := chrono.goes t.time timer.start ∧ t' = { t with time := timer.start }
  leave name timer s t x t' := ∃ stop now result, chrono.goes t.time stop ∧ t'.time = stop ∧
    Exec F.env (t.engine.set host (name s) (traceValue chrono (chrono.millis (stop - timer.start)))
      (chrono.millis (stop - timer.start)) now) t.fs (result, t'.engine) t'.fs ∧
    (result = .ok () ∧ x = some ⟨name s, timer.start, stop, now⟩ ∨
      -- the destructor must not throw
      (∃ e, result = .error e) ∧ x = none)

/-! ### What `set` does -/

section Set

variable {F : Faults} {host : ByteOrder} {engine engine' : StorageEngine} {fs fs' : FileSystem}
  {key value : Bytes} {duration : UInt64} {now : Int64} {result : Except Exception Unit}

theorem exec_setCall (orders : Orders)
    (hx : Exec F.env (engine.set host key value duration now) fs (result, engine') fs') :
    Exec F.env (engine.call host orders (.set key value duration now)) fs
      (result.map fun _ => none, engine') fs' := exec_bind.2 ⟨_, _, hx, .ret _ _⟩

/-- `set` makes its change, or throws and leaves the histories alone. -/
theorem exec_set (hx : Exec F.env (engine.set host key value duration now) fs (result, engine') fs') :
    engine'.maxHistoryPerKey = engine.maxHistoryPerKey ∧
      (result = .ok () ∧ engine'.data =
          appendCapped engine.maxHistoryPerKey engine.data key ⟨value, duration, now⟩ ∨
        (∃ e, result = .error e) ∧ engine'.data = engine.data) := by
  have hop : (Op.set key value duration now).mutation = some (.put key ⟨value, duration, now⟩) := rfl
  obtain ⟨hcap, heffect⟩ := wp_exec ((change_effect hop engine).wp fs)
    (exec_setCall ⟨Order.any, Order.any⟩ hx)
  refine ⟨hcap, ?_⟩
  rcases result with e | ⟨⟩
  · obtain ⟨⟨⟩, -⟩ | ⟨-, hdata⟩ := heffect
    exact .inr ⟨⟨e, rfl⟩, hdata⟩
  · obtain ⟨-, hdata⟩ | ⟨⟨e, ⟨⟩⟩, -⟩ := heffect
    exact .inl ⟨rfl, hdata⟩

/-- The engine has no log, or its system calls do not fail. -/
def Quiet (F : Faults) (engine : StorageEngine) : Prop := engine.wal = none ∨ ∀ c, ¬F.mayFail c

/-- Then `set` does not throw within the limits. -/
theorem Quiet.set (h : Quiet F engine) (hkey : key.length ≤ kMaxFieldSize.toNat)
    (hvalue : value.length ≤ kMaxValueSize)
    (hx : Exec F.env (engine.set host key value duration now) fs (result, engine') fs') :
    result = .ok () ∧ Quiet F engine' := by
  rcases h with hwal | hsound
  · rw [StorageEngine.set, if_neg (not_lt.2 hkey), if_neg (not_lt.2 hvalue), hwal] at hx
    obtain ⟨heq, -⟩ := exec_ret.1 hx
    obtain ⟨rfl, rfl⟩ := Prod.mk.inj heq
    exact ⟨rfl, .inl rfl⟩
  · refine ⟨?_, .inr hsound⟩
    have hop : (Op.set key value duration now).mutation = some (.put key ⟨value, duration, now⟩) :=
      rfl
    have hthrows := wp_exec (change_throws hop ⟨hkey, hvalue⟩ engine fs)
      (exec_setCall ⟨Order.any, Order.any⟩ hx)
    rcases result with e | ⟨⟩
    · obtain ⟨c, hmay⟩ := hthrows ⟨e, rfl⟩
      exact absurd hmay (hsound c)
    · rfl

end Set

/-! ### Traced programs -/

section Traces

variable {σ ε : Type} {F : Faults} {host : ByteOrder} {chrono : Chrono}
  {p : Stmt σ Activity (σ → Bytes) ε} {s s' : σ} {t t' : Traced} {spans : Spans Timing}
  {o : Outcome ε}

/-- The scopes that are left append to the histories. -/
theorem traceScope_logs : (traceScope σ F host chrono).Logs
    (fun t => (t.engine.maxHistoryPerKey, t.engine.data))
    (fun d x => (d.1, appendCapped d.1 d.2 x.name (x.record chrono))) where
  pass h := by rw [h.2]
  enter h := by rw [h.2]
  leave h := by
    obtain ⟨stop, now, result, -, -, hx, ⟨rfl, hsome⟩ | ⟨-, ⟨⟩⟩⟩ := h
    obtain ⟨hcap, ⟨-, hdata⟩ | ⟨⟨e, ⟨⟩⟩, -⟩⟩ := exec_set hx
    rw [hcap, hdata, Option.some.inj hsome]
    rfl
  failed h := by
    obtain ⟨stop, now, result, -, -, hx, ⟨-, ⟨⟩⟩ | ⟨⟨e, rfl⟩, -⟩⟩ := h
    obtain ⟨hcap, ⟨⟨⟩, -⟩ | ⟨-, hdata⟩⟩ := exec_set hx
    rw [hcap, hdata]

/-- With a steady clock a scope lasts from one reading of it to a later one. -/
theorem traceScope_timed (hchrono : chrono.Steady) :
    (traceScope σ F host chrono).Timed Traced.time Timer.start Timing.start Timing.stop where
  pass {a t t'} h := by
    cases a with
    | compute => exact hchrono.goes h.1
    | sleep ms =>
      have := hchrono.sleeps h.1
      omega
  enter h := ⟨hchrono.goes h.1, by rw [h.2]⟩
  leave h := by
    obtain ⟨stop, now, result, hgoes, htime, -, ⟨-, hsome⟩ | ⟨-, ⟨⟩⟩⟩ := h
    rw [Option.some.inj hsome]
    exact ⟨rfl, hchrono.goes hgoes, htime.ge⟩
  failed h := by
    obtain ⟨stop, now, result, hgoes, htime, -⟩ := h
    exact htime ▸ hchrono.goes hgoes

/-- Records that are appended one after the other, seen from one key. -/
theorem lookup_timings {maxHistoryPerKey : ℕ} {key : Bytes} (timings : List Timing) {data : Data}
    {before : List Record}
    (hbefore : (data.lookup key).getD [] = newest maxHistoryPerKey before) :
    (((timings.foldl (fun d x => (d.1, appendCapped d.1 d.2 x.name (x.record chrono)))
      (maxHistoryPerKey, data)).2).lookup key).getD [] = newest maxHistoryPerKey
        (before ++ (timings.filter (·.name = key)).map (Timing.record chrono)) := by
  induction timings generalizing data before with
  | nil => rwa [List.filter_nil, List.map_nil, List.append_nil]
  | cons x timings ih =>
    rw [List.foldl_cons]
    by_cases hkey : x.name = key
    · have hstep : ((appendCapped maxHistoryPerKey data x.name (x.record chrono)).lookup key).getD []
          = newest maxHistoryPerKey (before ++ [x.record chrono]) := by
        rw [lookup_appendCapped, if_pos hkey.symm, Option.getD_some, hbefore, appendHistory_newest]
      rw [ih hstep, List.filter_cons_of_pos (by simpa using hkey), List.map_cons,
        List.append_assoc, List.singleton_append]
    · have hstep : ((appendCapped maxHistoryPerKey data x.name (x.record chrono)).lookup key).getD []
          = newest maxHistoryPerKey before := by
        rw [lookup_appendCapped, if_neg (Ne.symm hkey), hbefore]
      rw [ih hstep, List.filter_cons_of_neg (by simpa using hkey)]

/-- After a traced program, the records of a key are those that it had and one for each scope that
was left by this name. -/
theorem lookup_traced (h : p.Run (traceScope σ F host chrono) s t spans o s' t') {key : Bytes}
    {before : List Record}
    (hbefore : (t.engine.data.lookup key).getD [] = newest t.engine.maxHistoryPerKey before) :
    (t'.engine.data.lookup key).getD [] = newest t.engine.maxHistoryPerKey
      (before ++ (spans.exits.filter (·.name = key)).map (Timing.record chrono)) := by
  have hdata := congrArg Prod.snd (h.fold traceScope_logs)
  rw [← lookup_timings spans.exits hbefore, ← hdata]

/-- A clock that stands still but for sleeps, and the text of the only time it then tells. -/
def Chrono.still : Chrono where
  goes time time' := time' = time
  sleeps ms time time' := time' = time + ms * 1000000
  millis _ := 0
  toString _ := literal "0.000000"
  goes_on time := ⟨time, rfl⟩
  wakes ms time := ⟨_, rfl⟩
  length_toString _ := by decide

/-- The timers of a quiet engine do not fail where the names are within the limit. -/
theorem traceScope_harmless : (traceScope σ F host chrono).Harmless
    (fun name => ∀ s, (name s).length ≤ kMaxFieldSize.toNat) (fun t => Quiet F t.engine) where
  pass ht h := by rwa [h.2]
  enter ht h := by rwa [h.2]
  leave {name timer s t x t'} hname ht h := by
    obtain ⟨stop, now, result, -, -, hx, hresult⟩ := h
    obtain ⟨rfl, ht'⟩ := ht.set (hname s) (length_traceValue _) hx
    obtain ⟨-, rfl⟩ | ⟨⟨e, ⟨⟩⟩, -⟩ := hresult
    exact ⟨by rintro ⟨⟩, ht'⟩
  passes a t _ := by
    cases a with
    | compute =>
      obtain ⟨time, hgoes⟩ := chrono.goes_on t.time
      exact ⟨{ t with time }, hgoes, rfl⟩
    | sleep ms =>
      obtain ⟨time, hsleeps⟩ := chrono.wakes ms t.time
      exact ⟨{ t with time }, hsleeps, rfl⟩
  enters _ t _ := by
    obtain ⟨time, hgoes⟩ := chrono.goes_on t.time
    exact ⟨⟨time⟩, _, hgoes, rfl⟩
  leaves {name} timer s t hname ht := by
    obtain ⟨stop, hgoes⟩ := chrono.goes_on t.time
    have hx := exec_run (E := F.env) Faults.allows_posix (t.engine.set host (name s)
      (traceValue chrono (chrono.millis (stop - timer.start))) (chrono.millis (stop - timer.start))
      0) t.fs
    have hok := (ht.set (hname s) (length_traceValue _) hx).1
    exact ⟨_, ⟨_, _, stop⟩, stop, 0, _, hgoes, rfl, hx, .inl ⟨hok, rfl⟩⟩

end Traces

/-! ### `main` -/

def heavyOperation : Stmt ℕ Activity (ℕ → Bytes) Empty :=
  .scope (fun _ => literal "HeavyOperation") (.act (.sleep 50) fun i e i' => e = none ∧ i' = i)

/-- The scope in `main`; the state is the counter of its loop. -/
def mainScope : Stmt ℕ Activity (ℕ → Bytes) Empty :=
  .scope (fun _ => literal "TotalMainRuntime")
    (.seq (.act .compute fun _ e i => e = none ∧ i = 0)
      (.loop (· < 5) (.seq heavyOperation (.act .compute fun i e i' => e = none ∧ i' = i + 1))))

/-- What `main` prints. -/
structure Report where
  operation : Bytes
  average : UInt64
  total : Bytes

def StorageEngine.report (double : DoubleArithmetic) (engine : StorageEngine) : Report where
  operation := (engine.get (literal "HeavyOperation")).getD (literal "N/A")
  average := (engine.getAverage double (literal "HeavyOperation")).getD 0
  total := (engine.get (literal "TotalMainRuntime")).getD (literal "N/A")

section Main

variable {F : Faults} {host : ByteOrder} {chrono : Chrono} {i i' : ℕ} {t t' : Traced}
  {spans : Spans Timing} {o : Outcome Empty}

/-- The timings of the operation, each of its own, and at least of 50 milliseconds. -/
structure Operations (chrono : Chrono) (n : ℕ) (spans : Spans Timing) : Prop where
  outer : spans.outer = spans.exits
  length : spans.exits.length = n
  name : ∀ x ∈ spans.exits, x.name = literal "HeavyOperation"
  long : chrono.Steady → ∀ x ∈ spans.exits, 50 * 1000000 ≤ x.stop - x.start

theorem run_heavyOperation
    (h : heavyOperation.Run (traceScope ℕ F host chrono) i t spans o i' t')
    (hquiet : Quiet F t.engine) : o = .left none ∧ i' = i ∧ Quiet F t'.engine ∧ ∃ x : Timing,
      spans = .cons x .nil .nil ∧ x.name = literal "HeavyOperation" ∧
        (chrono.Steady → 50 * 1000000 ≤ x.stop - x.start) := by
  have hfits : (literal "HeavyOperation").length ≤ kMaxFieldSize.toNat := by decide
  have hname : heavyOperation.All fun name => ∀ s, (name s).length ≤ kMaxFieldSize.toNat :=
    ⟨fun _ => hfits, trivial⟩
  obtain ⟨hleft, hquiet'⟩ := traceScope_harmless.left hname hquiet h
  cases h with
  | failed | terminated => exact absurd rfl hleft
  | scope henter hbody hleave =>
    cases hbody with
    | act hf hpass =>
      obtain ⟨rfl, rfl⟩ := hf
      obtain ⟨stop, now, result, hgoes, -, -, ⟨-, hsome⟩ | ⟨-, ⟨⟩⟩⟩ := hleave
      obtain rfl := Option.some.inj hsome
      refine ⟨rfl, rfl, hquiet', _, rfl, rfl, fun hchrono => ?_⟩
      have hsleeps := hchrono.sleeps hpass.1
      have hstops := hchrono.goes hgoes
      rw [henter.2] at hsleeps
      dsimp only at hsleeps hstops ⊢
      omega

theorem run_turn
    (h : (Stmt.seq heavyOperation (.act .compute fun i e i' => e = none ∧ i' = i + 1)).Run
      (traceScope ℕ F host chrono) i t spans o i' t') (hquiet : Quiet F t.engine) :
    o = .left none ∧ i' = i + 1 ∧ Quiet F t'.engine ∧ ∃ x : Timing,
      spans = .cons x .nil .nil ∧ x.name = literal "HeavyOperation" ∧
        (chrono.Steady → 50 * 1000000 ≤ x.stop - x.start) := by
  cases h with
  | seq hop hcount =>
    obtain ⟨-, rfl, hquiet₁, x, rfl, hx⟩ := run_heavyOperation hop hquiet
    cases hcount with
    | act hf hpass =>
      obtain ⟨rfl, rfl⟩ := hf
      exact ⟨rfl, rfl, hpass.2 ▸ hquiet₁, x, rfl, hx⟩
  | seqLeft hop hleft => exact absurd (run_heavyOperation hop hquiet).1 hleft

/-- The loop, from its counter on. -/
theorem run_operations {n : ℕ}
    (h : (Stmt.loop (· < 5) (.seq heavyOperation (.act .compute fun i e i' =>
      e = none ∧ i' = i + 1))).Run (traceScope ℕ F host chrono) i t spans o i' t')
    (hn : i + n = 5) (hquiet : Quiet F t.engine) :
    o = .left none ∧ Quiet F t'.engine ∧ Operations chrono n spans := by
  induction n generalizing i t spans with
  | zero =>
    obtain rfl : i = 5 := hn
    cases h with
    | loop h =>
      cases h with
      | branch h =>
        cases h with
        | skip =>
          exact ⟨rfl, hquiet, rfl, rfl, by rintro x ⟨⟩, by rintro - x ⟨⟩⟩
  | succ n ih =>
    have hlt : decide (i < 5) = true := decide_eq_true (by omega)
    cases h with
    | loop h =>
      cases h with
      | branch h =>
        rw [if_pos hlt] at h
        cases h with
        | seq hturn hrest =>
          obtain ⟨-, rfl, hquiet₁, x, rfl, hname, hlong⟩ := run_turn hturn hquiet
          obtain ⟨ho, hquiet', hrest'⟩ := ih hrest (by omega) hquiet₁
          refine ⟨ho, hquiet', congrArg (x :: ·) hrest'.outer, congrArg (· + 1) hrest'.length, ?_,
            fun hchrono => ?_⟩
          · exact List.forall_mem_cons.2 ⟨hname, hrest'.name⟩
          · exact List.forall_mem_cons.2 ⟨hlong hchrono, hrest'.long hchrono⟩
        | seqLeft hturn hleft => exact absurd (run_turn hturn hquiet).1 hleft

/-- What `main` measures: five operations in one scope. -/
theorem run_main (h : mainScope.Run (traceScope ℕ F host chrono) i t spans o i' t')
    (hquiet : Quiet F t.engine) : o = .left none ∧ ∃ (total : Timing) (inner : Spans Timing),
      spans = .cons total inner .nil ∧ total.name = literal "TotalMainRuntime" ∧
        Operations chrono 5 inner := by
  have hbody : ∀ {t t' : Traced} {inner : Spans Timing} {o : Outcome Empty}, Quiet F t.engine →
      (Stmt.seq (.act .compute fun _ e i => e = none ∧ i = 0) (.loop (· < 5) (.seq heavyOperation
        (.act .compute fun i e i' => e = none ∧ i' = i + 1)))).Run (traceScope ℕ F host chrono)
        i t inner o i' t' → o = .left none ∧ Quiet F t'.engine ∧ Operations chrono 5 inner := by
    intro t t' inner o hquiet hrun
    cases hrun with
    | seq hinit hloop =>
      cases hinit with
      | act hf hpass =>
        obtain ⟨-, rfl⟩ := hf
        exact run_operations hloop rfl (hpass.2 ▸ hquiet)
    | seqLeft hinit hleft =>
      cases hinit with
      | act hf hpass => exact absurd (congrArg Outcome.left hf.1) hleft
  have hname : ∀ _ : ℕ, (literal "TotalMainRuntime").length ≤ kMaxFieldSize.toNat := by
    have hfits : (literal "TotalMainRuntime").length ≤ kMaxFieldSize.toNat := by decide
    exact fun _ => hfits
  cases h with
  | scope henter hrun hleave =>
    obtain ⟨ho, -, hoperations⟩ := hbody (traceScope_harmless.enter hquiet henter) hrun
    obtain ⟨stop, now, result, -, -, -, ⟨-, hsome⟩ | ⟨-, ⟨⟩⟩⟩ := hleave
    exact ⟨ho, _, _, rfl, by rw [Option.some.inj hsome], hoperations⟩
  | failed henter hrun hleave =>
    obtain ⟨-, hquiet', -⟩ := hbody (traceScope_harmless.enter hquiet henter) hrun
    exact absurd rfl (traceScope_harmless.leave hname hquiet' hleave).1
  | terminated henter hrun =>
    cases (hbody (traceScope_harmless.enter hquiet henter) hrun).1

/-- The last value of a key whose records are known. -/
theorem get_eq {engine : StorageEngine} {key : Bytes} {history : List Record}
    (h : (engine.data.lookup key).getD [] = history) :
    engine.get key = history.getLast?.map Record.value := by
  rw [StorageEngine.get, ← h]
  cases engine.data.lookup key <;> rfl

/-- The average of a key whose records are known. -/
theorem getAverage_eq {double : DoubleArithmetic} {engine : StorageEngine} {key : Bytes}
    {history : List Record} (h : (engine.data.lookup key).getD [] = history) (hne : history ≠ []) :
    engine.getAverage double key = some (double.div
      (history.foldl (fun sum record => double.add sum record.duration) 0)
      (double.ofSize history.length)) := by
  cases hlook : engine.data.lookup key with
  | none =>
    rw [hlook] at h
    exact absurd h.symm hne
  | some records =>
    rw [hlook, Option.getD_some] at h
    rw [StorageEngine.getAverage, hlook, h]
    exact if_neg hne

/-- **What `main` prints.**  Whatever the clock does, `main` is not terminated and finds what it has
measured: five times of the operation, of which it prints the last and the average, and the total,
which by a steady clock is no less than the five together, each of at least 50 milliseconds. -/
theorem main_reports {double : DoubleArithmetic} {fs : FileSystem} {time : ℤ}
    (h : mainScope.Run (traceScope ℕ F host chrono) i ⟨makeInMemory kUnlimitedHistory, fs, time⟩
      spans o i' t') :
    o = .left none ∧ ∃ (timings : List Timing) (last total : Timing), timings.length = 5 ∧
      timings.getLast? = some last ∧
      t'.engine.report double = ⟨traceValue chrono (last.ms chrono),
        double.div ((timings.map (Timing.ms chrono)).foldl double.add 0) (double.ofSize 5),
        traceValue chrono (total.ms chrono)⟩ ∧
      (chrono.Steady → (∀ x ∈ timings, 50 * 1000000 ≤ x.stop - x.start) ∧
        (timings.map fun x => x.stop - x.start).sum ≤ total.stop - total.start) := by
  obtain ⟨rfl, total, inner, rfl, htotal, hinner⟩ := run_main h (.inl rfl)
  have hne : literal "HeavyOperation" ≠ literal "TotalMainRuntime" := by decide
  have hnew : ∀ key, ((makeInMemory kUnlimitedHistory).data.lookup key).getD [] =
      newest kUnlimitedHistory ([] : List Record) := fun key => by
    rw [newest_nil, makeInMemory, Finmap.lookup_empty, Option.getD_none]
  have hoperations : (t'.engine.data.lookup (literal "HeavyOperation")).getD [] =
      inner.exits.map (Timing.record chrono) := by
    rw [lookup_traced h (hnew _), Spans.exits, List.filter_append,
      List.filter_eq_self.2 fun x hx => decide_eq_true (hinner.name x hx),
      List.filter_cons_of_neg (by simpa [htotal] using hne.symm), Spans.exits, List.filter_nil,
      List.append_nil, List.nil_append]
    rfl
  have hruntime : (t'.engine.data.lookup (literal "TotalMainRuntime")).getD [] =
      [total.record chrono] := by
    rw [lookup_traced h (hnew _), Spans.exits, List.filter_append, List.filter_eq_nil_iff.2
      fun x hx => by simpa [hinner.name x hx] using hne, List.filter_cons_of_pos
      (by simpa using htotal)]
    rfl
  have hsome : inner.exits ≠ [] := List.ne_nil_of_length_pos (by rw [hinner.length]; decide)
  refine ⟨rfl, inner.exits, inner.exits.getLast hsome, total, hinner.length,
    List.getLast?_eq_some_getLast hsome, ?_, fun hchrono => ⟨hinner.long hchrono, ?_⟩⟩
  · have haverage : t'.engine.getAverage double _ = _ :=
      getAverage_eq hoperations (List.map_eq_nil_iff.not.2 hsome)
    rw [StorageEngine.report, get_eq hoperations, get_eq hruntime, haverage, List.getLast?_map,
      List.getLast?_eq_some_getLast hsome, List.length_map, hinner.length, List.foldl_map,
      List.foldl_map]
    rfl
  · obtain ⟨-, hnested, -⟩ := h.within (traceScope_timed hchrono)
    rw [← hinner.outer]
    exact hnested.sum_le

end Main

end LiteSpeedStore
