import LiteSpeedStore.Engine.Disk
import LiteSpeedStore.Theory.Interleave
import LiteSpeedStore.Theory.Lts

/-!
# An engine in memory and an engine with a log

The two modes of an engine answer alike, but for two calls: `recover` goes to the log without asking
whether there is one, and `remove` leaves it to the log to refuse a key that is too long.

* `Twin.step`, `Twin.run` : the calls that the modes have in common keep two engines alike.
* `agrees_iff` : the calls of a run are answered alike just when they are of this kind.
-/

namespace LiteSpeedStore

open Prog StorageEngine

/-! ### Public calls -/

/-- The arithmetic of doubles, on their bits. -/
structure DoubleArithmetic where
  add : UInt64 → UInt64 → UInt64
  div : UInt64 → UInt64 → UInt64
  /-- The conversion of a size. -/
  ofSize : ℕ → UInt64

/-- The average of the durations of a key's history. -/
def StorageEngine.getAverage (double : DoubleArithmetic) (engine : StorageEngine) (key : Bytes) :
    Option UInt64 :=
  match engine.data.lookup key with
  | none => none
  | some history =>
    if history = [] then none
    else
      let sum := history.foldl (fun sum record => double.add sum record.duration) 0
      some (double.div sum (double.ofSize history.length))

/-- A call on either kind of engine. -/
inductive PublicCall where
  | set (key value : Bytes) (duration : UInt64)
  | remove (key : Bytes)
  | get (key : Bytes)
  | getAverage (key : Bytes)
  | count
  | historyCount (key : Bytes)
  | recover

/-- What a call returns. -/
inductive Answer where
  | done
  | removed (present : Bool)
  | value (value : Option Bytes)
  | average (duration : Option UInt64)
  | size (n : ℕ)

/-- The program of a public call, at a reading of the clock. -/
def StorageEngine.perform (double : DoubleArithmetic) (host : ByteOrder) (orders : Orders)
    (now : Int64) (engine : StorageEngine) :
    PublicCall → Io (Except Exception Answer × StorageEngine)
  | .set key value duration => do
    let (result, engine) ← engine.set host key value duration now
    ret (result.map fun _ => .done, engine)
  | .remove key => do
    let (result, engine) ← engine.remove key now
    ret (result.map .removed, engine)
  | .get key => ret (.ok (.value (engine.get key)), engine)
  | .getAverage key => ret (.ok (.average (engine.getAverage double key)), engine)
  | .count => ret (.ok (.size engine.count), engine)
  | .historyCount key => ret (.ok (.size (engine.historyCount key)), engine)
  | .recover => do
    let (result, engine) ← engine.recover host orders
    ret (result.map fun _ => .done, engine)

/-- The call does not depend on the mode of the engine. -/
def PublicCall.Common : PublicCall → Prop
  | .remove key => key.length ≤ kMaxFieldSize.toNat
  | .recover => False
  | _ => True

/-- The calls on an engine, with their results. -/
def calls (F : Faults) (double : DoubleArithmetic) (host : ByteOrder) :
    Lts (StorageEngine × FileSystem) (PublicCall × Except Exception Answer) where
  step s l s' := ∃ orders now,
    Exec F.env (s.1.perform double host orders now l.1) s.2 (l.2, s'.1) s'.2

/-- Two engines that have made the same calls make one more: it has one result, nothing goes to a
log that is absent, and removing what is not there tells so. -/
def AgreesAt (F : Faults) (double : DoubleArithmetic) (host : ByteOrder)
    (s₁ s₂ : StorageEngine × FileSystem) (call : PublicCall) : Prop :=
  ∀ r₁ r₂ s₁' s₂', (calls F double host).step s₁ (call, r₁) s₁' →
    (calls F double host).step s₂ (call, r₂) s₂' →
    r₁ = r₂ ∧ r₁ ≠ .error .nullDereference ∧ r₂ ≠ .error .nullDereference ∧
      ∀ key, call = .remove key →
        (s₁.1.data.lookup key = none → r₁ = .ok (.removed false)) ∧
        (s₂.1.data.lookup key = none → r₂ = .ok (.removed false))

/-- Two engines agree at every call of a run. -/
def Agrees (F : Faults) (double : DoubleArithmetic) (host : ByteOrder)
    (s₁ s₂ : StorageEngine × FileSystem) (cs : List PublicCall) : Prop :=
  ∀ before call, before ++ [call] <+: cs → ∀ ls₁ ls₂ s₁' s₂',
    ls₁.map Prod.fst = before → ls₂.map Prod.fst = before →
    (calls F double host).Run s₁ ls₁ s₁' → (calls F double host).Run s₂ ls₂ s₂' →
    AgreesAt F double host s₁' s₂' call

/-! ### Histories that differ in their timestamps -/

/-- What the answers of an engine depend on. -/
def Record.content (r : Record) : Bytes × UInt64 := (r.value, r.duration)

/-- The same histories but for the readings of the clock. -/
def Alike (data data' : Data) : Prop :=
  ∀ key, (data.lookup key).map (List.map Record.content) =
    (data'.lookup key).map (List.map Record.content)

namespace Alike

variable {data data' : Data} {key : Bytes} {maxHistoryPerKey : ℕ}

theorem isSome (h : Alike data data') (key : Bytes) :
    (data.lookup key).isSome = (data'.lookup key).isSome := by
  have hkey := congrArg Option.isSome (h key)
  rwa [Option.isSome_map, Option.isSome_map] at hkey

theorem content (h : Alike data data') (key : Bytes) :
    ((data.lookup key).getD []).map Record.content =
      ((data'.lookup key).getD []).map Record.content := by
  have hkey := congrArg (fun history => history.getD []) (h key)
  cases hd : data.lookup key <;> cases hd' : data'.lookup key <;> rw [hd, hd'] at hkey <;>
    simpa using hkey

theorem erase (h : Alike data data') (key : Bytes) : Alike (data.erase key) (data'.erase key) := by
  intro key'
  rw [lookup_erase, lookup_erase]
  split_ifs
  · rfl
  · exact h key'

theorem append (h : Alike data data') {r r' : Record} (hr : r.content = r'.content) :
    Alike (appendCapped maxHistoryPerKey data key r)
      (appendCapped maxHistoryPerKey data' key r') := by
  intro key'
  have hcontent := h.content key'
  have hlen := congrArg List.length hcontent
  rw [List.length_map, List.length_map] at hlen
  rw [lookup_appendCapped, lookup_appendCapped]
  split_ifs
  · rw [Option.map_some, Option.map_some, appendHistory, appendHistory, hlen]
    split_ifs
    · rw [List.map_append, List.map_append, List.map_drop, List.map_drop, hcontent,
        List.map_singleton, List.map_singleton, hr]
    · rw [List.map_append, List.map_append, hcontent, List.map_singleton, List.map_singleton, hr]
  · exact h key'

/-! What the answers depend on. -/

variable {engine engine' : StorageEngine}

theorem get (h : Alike engine.data engine'.data) (key : Bytes) :
    engine.get key = engine'.get key := by
  have hget : ∀ engine : StorageEngine, engine.get key =
      (((engine.data.lookup key).map (List.map Record.content)).bind List.getLast?).map Prod.fst := by
    intro engine
    rw [StorageEngine.get]
    cases engine.data.lookup key with
    | none => rfl
    | some history =>
      rw [Option.map_some, Option.bind_some, Option.bind_some, List.getLast?_map, Option.map_map]
      rfl
  rw [hget, hget, h key]

theorem getAverage (h : Alike engine.data engine'.data) (double : DoubleArithmetic) (key : Bytes) :
    engine.getAverage double key = engine'.getAverage double key := by
  have haverage : ∀ engine : StorageEngine, engine.getAverage double key =
      ((engine.data.lookup key).map (List.map Record.content)).bind fun history =>
        if history = [] then none
        else some (double.div (history.foldl (fun sum content => double.add sum content.2) 0)
          (double.ofSize history.length)) := by
    intro engine
    rw [StorageEngine.getAverage]
    cases engine.data.lookup key with
    | none => rfl
    | some history =>
      rw [Option.map_some, Option.bind_some, List.length_map, List.foldl_map]
      simp only [List.map_eq_nil_iff]
      rfl
  rw [haverage, haverage, h key]

theorem count (h : Alike engine.data engine'.data) : engine.count = engine'.count := by
  have hkeys : engine.data.keys = engine'.data.keys := by
    ext key
    rw [Finmap.mem_keys, Finmap.mem_keys, ← Finmap.lookup_isSome, ← Finmap.lookup_isSome, h.isSome]
  rw [StorageEngine.count, StorageEngine.count, hkeys]

theorem historyCount (h : Alike engine.data engine'.data) (key : Bytes) :
    engine.historyCount key = engine'.historyCount key := by
  have hlen := congrArg List.length (h.content key)
  rwa [List.length_map, List.length_map] at hlen

end Alike

/-! ### Calls that the modes have in common -/

section Calls

variable {F : Faults} {double : DoubleArithmetic} {host : ByteOrder} {p : Path}
  {maxHistoryPerKey : ℕ} {fs fs' : FileSystem} {rs : List LogRecord} {engine engine' : StorageEngine}
  {wal : WAL} {key value : Bytes} {duration : UInt64} {now : Int64}

theorem exec_setSteady {result : Except Exception Unit} (hF : F.Steady p)
    (h : Attached p maxHistoryPerKey fs rs engine wal)
    (hfits : (Mutation.put key ⟨value, duration, now⟩).Fits)
    (hx : Exec F.env (engine.set host key value duration now) fs (result, engine') fs') :
    result = .ok () ∧
      engine'.data = appendCapped maxHistoryPerKey engine.data key ⟨value, duration, now⟩ ∧
      ∃ rs' wal', Attached p maxHistoryPerKey fs' rs' engine' wal' := by
  have hop : (Op.set key value duration now).mutation = some (.put key ⟨value, duration, now⟩) := rfl
  have hcall : Exec F.env (engine.call host ⟨Order.any, Order.any⟩ (.set key value duration now)) fs
      (result.map fun _ => none, engine') fs' := exec_bind.2 ⟨_, _, hx, .ret _ _⟩
  obtain ⟨-, ⟨hover, -⟩ | ⟨-, hok, hdata, wal', -, hattached⟩⟩ :=
    wp_exec (wp_changeSteady hF hop h) hcall
  · exact absurd hfits hover
  · rcases result with e | ⟨⟩
    · cases hok
    · exact ⟨rfl, hdata, _, wal', hattached⟩

theorem exec_removeSteady {result : Except Exception Bool} (hF : F.Steady p)
    (h : Attached p maxHistoryPerKey fs rs engine wal) (hkey : key.length ≤ kMaxFieldSize.toNat)
    (hx : Exec F.env (engine.remove key now) fs (result, engine') fs') :
    result = .ok (engine.data.lookup key).isSome ∧ engine'.data = engine.data.erase key ∧
      ∃ rs' wal', Attached p maxHistoryPerKey fs' rs' engine' wal' := by
  have hop : (Op.remove key now).mutation = some (.delete key now) := rfl
  have hcall : Exec F.env (engine.call .little ⟨Order.any, Order.any⟩ (.remove key now)) fs
      (result.map some, engine') fs' := exec_bind.2 ⟨_, _, hx, .ret _ _⟩
  obtain ⟨-, ⟨hover, -⟩ | ⟨-, hok, hdata, wal', -, hattached⟩⟩ :=
    wp_exec (wp_changeSteady hF hop h) hcall
  · exact absurd hkey hover
  · rcases result with e | b
    · cases hok
    · have hb : some b = some (engine.data.lookup key).isSome := Except.ok.inj hok
      exact ⟨congrArg Except.ok (Option.some.inj hb), hdata, _, wal', hattached⟩

/-- What is too long for `set` is refused before the modes part. -/
theorem set_refused (host : ByteOrder)
    (h : key.length > kMaxFieldSize.toNat ∨ value.length > kMaxValueSize) :
    ∃ what, ∀ (engine : StorageEngine) (duration : UInt64) (now : Int64),
      engine.set host key value duration now = ret (.error (.lengthError what), engine) := by
  by_cases hkey : key.length > kMaxFieldSize.toNat
  · refine ⟨"key exceeds " ++ toString kMaxFieldSize ++ " bytes", fun engine duration now => ?_⟩
    rw [StorageEngine.set, if_pos hkey]
  · refine ⟨"value exceeds " ++ toString kMaxValueSize ++ " bytes", fun engine duration now => ?_⟩
    rw [StorageEngine.set, if_neg hkey, if_pos (h.resolve_left hkey)]

/-- An engine in memory and one at the end of its log, with histories alike. -/
structure Twin (p : Path) (maxHistoryPerKey : ℕ) (s₁ s₂ : StorageEngine × FileSystem) : Prop where
  memory : s₁.1.wal = none
  cap : s₁.1.maxHistoryPerKey = maxHistoryPerKey
  log : ∃ rs wal, Attached p maxHistoryPerKey s₂.2 rs s₂.1 wal
  alike : Alike s₁.1.data s₂.1.data

variable {s₁ s₂ s₁' s₂' : StorageEngine × FileSystem} {call : PublicCall}
  {r₁ r₂ : Except Exception Answer}

/-- **A call that the modes have in common** has one result, and keeps the engines alike. -/
theorem Twin.step (hF : F.Steady p) (h : Twin p maxHistoryPerKey s₁ s₂) (hcommon : call.Common)
    (h₁ : (calls F double host).step s₁ (call, r₁) s₁')
    (h₂ : (calls F double host).step s₂ (call, r₂) s₂') :
    (r₁ = r₂ ∧ r₁ ≠ .error .nullDereference ∧ ∀ key, call = .remove key →
      (s₁.1.data.lookup key = none → r₁ = .ok (.removed false)) ∧
      (s₂.1.data.lookup key = none → r₂ = .ok (.removed false))) ∧
      Twin p maxHistoryPerKey s₁' s₂' := by
  obtain ⟨engine₁, fs₁⟩ := s₁
  obtain ⟨engine₂, fs₂⟩ := s₂
  obtain ⟨engine₁', fs₁'⟩ := s₁'
  obtain ⟨engine₂', fs₂'⟩ := s₂'
  obtain ⟨orders₁, now₁, hx₁⟩ := h₁
  obtain ⟨orders₂, now₂, hx₂⟩ := h₂
  obtain ⟨hmemory, hcap, ⟨rs, wal, hattached⟩, halike⟩ := id h
  -- a call that only looks at the histories
  have hlook : ∀ {a₁ a₂ : Answer}, a₁ = a₂ → (∀ key, call ≠ .remove key) →
      Exec F.env (ret (.ok a₁, engine₁) : Io (Except Exception Answer × StorageEngine)) fs₁
        (r₁, engine₁') fs₁' →
      Exec F.env (ret (.ok a₂, engine₂) : Io (Except Exception Answer × StorageEngine)) fs₂
        (r₂, engine₂') fs₂' →
      (r₁ = r₂ ∧ r₁ ≠ .error .nullDereference ∧ ∀ key, call = .remove key →
        (engine₁.data.lookup key = none → r₁ = .ok (.removed false)) ∧
        (engine₂.data.lookup key = none → r₂ = .ok (.removed false))) ∧
        Twin p maxHistoryPerKey (engine₁', fs₁') (engine₂', fs₂') := by
    rintro a₁ a₂ rfl hremove h₁ h₂
    cases h₁
    cases h₂
    exact ⟨⟨rfl, by simp, fun key hcall => absurd hcall (hremove key)⟩, h⟩
  cases call with
  | get key => exact hlook (by rw [halike.get]) (by simp) hx₁ hx₂
  | getAverage key => exact hlook (by rw [halike.getAverage]) (by simp) hx₁ hx₂
  | count => exact hlook (by rw [halike.count]) (by simp) hx₁ hx₂
  | historyCount key => exact hlook (by rw [halike.historyCount]) (by simp) hx₁ hx₂
  | recover => exact hcommon.elim
  | set key value duration =>
    obtain ⟨⟨result₁, e₁⟩, fs₁', hset₁, hret₁⟩ := exec_bind.1 hx₁
    obtain ⟨⟨result₂, e₂⟩, fs₂', hset₂, hret₂⟩ := exec_bind.1 hx₂
    cases hret₁
    cases hret₂
    by_cases hover : key.length > kMaxFieldSize.toNat ∨ value.length > kMaxValueSize
    · obtain ⟨what, hrefused⟩ := set_refused host hover
      rw [hrefused] at hset₁ hset₂
      cases hset₁
      cases hset₂
      exact ⟨⟨rfl, by simp, by simp⟩, h⟩
    · obtain ⟨hkey, hvalue⟩ := not_or.1 hover
      obtain ⟨rfl, hdata₂, hlog⟩ :=
        exec_setSteady hF hattached ⟨not_lt.1 hkey, not_lt.1 hvalue⟩ hset₂
      rw [StorageEngine.set, if_neg hkey, if_neg hvalue, hmemory] at hset₁
      cases hset₁
      refine ⟨⟨rfl, by simp, by simp⟩, rfl, hcap, hlog, ?_⟩
      rw [hdata₂, ← hcap]
      exact halike.append rfl
  | remove key =>
    obtain ⟨⟨result₁, e₁⟩, fs₁', hremove₁, hret₁⟩ := exec_bind.1 hx₁
    obtain ⟨⟨result₂, e₂⟩, fs₂', hremove₂, hret₂⟩ := exec_bind.1 hx₂
    cases hret₁
    cases hret₂
    obtain ⟨rfl, hdata₂, hlog⟩ := exec_removeSteady hF hattached hcommon hremove₂
    rw [StorageEngine.remove, hmemory] at hremove₁
    cases hremove₁
    refine ⟨⟨?_, by simp, ?_⟩, rfl, hcap, hlog, ?_⟩
    · rw [halike.isSome]
    · rintro key' heq
      obtain rfl := PublicCall.remove.inj heq
      refine ⟨fun habsent => ?_, fun habsent => ?_⟩
      · rw [habsent]
        rfl
      · rw [habsent]
        rfl
    · rw [hdata₂]
      exact halike.erase key

theorem Twin.run {ls₁ ls₂ : List (PublicCall × Except Exception Answer)} (hF : F.Steady p)
    (h : Twin p maxHistoryPerKey s₁ s₂) (hsame : ls₁.map Prod.fst = ls₂.map Prod.fst)
    (hcommon : ∀ call ∈ ls₁.map Prod.fst, call.Common)
    (hrun₁ : (calls F double host).Run s₁ ls₁ s₁') (hrun₂ : (calls F double host).Run s₂ ls₂ s₂') :
    Twin p maxHistoryPerKey s₁' s₂' := by
  induction hrun₁ generalizing ls₂ s₂ with
  | nil =>
    obtain rfl := List.map_eq_nil_iff.1 hsame.symm
    cases hrun₂
    exact h
  | @cons _ _ _ l₁ ls₁ hst₁ _ ih =>
    cases hrun₂ with
    | nil => cases hsame
    | @cons _ _ _ l₂ ls₂ hst₂ hrun₂ =>
      obtain ⟨call₁, r₁⟩ := l₁
      obtain ⟨call₂, r₂⟩ := l₂
      rw [List.map_cons, List.map_cons] at hsame
      obtain rfl : call₁ = call₂ := (List.cons.inj hsame).1
      have hsame' : ls₁.map Prod.fst = ls₂.map Prod.fst := (List.cons.inj hsame).2
      obtain ⟨hcall, hcommon⟩ := List.forall_mem_cons.1 hcommon
      exact ih (h.step hF hcall hst₁ hst₂).2 hsame' hcommon hrun₂

/-- Every call ends somehow. -/
theorem exists_call (F : Faults) (double : DoubleArithmetic) (host : ByteOrder)
    (s : StorageEngine × FileSystem) (call : PublicCall) :
    ∃ r s', (calls F double host).step s (call, r) s' :=
  ⟨_, (_, _), ⟨Order.any, Order.any⟩, 0, exec_run Faults.allows_posix
    (s.1.perform double host ⟨Order.any, Order.any⟩ 0 call) s.2⟩

theorem exists_calls (F : Faults) (double : DoubleArithmetic) (host : ByteOrder)
    (s : StorageEngine × FileSystem) (cs : List PublicCall) :
    ∃ ls s', ls.map Prod.fst = cs ∧ (calls F double host).Run s ls s' := by
  induction cs generalizing s with
  | nil => exact ⟨[], s, rfl, .nil s⟩
  | cons call cs ih =>
    obtain ⟨r, s₁, hst⟩ := exists_call F double host s call
    obtain ⟨ls, s', hcs, hrun⟩ := ih s₁
    exact ⟨(call, r) :: ls, s', by rw [List.map_cons, hcs], .cons hst hrun⟩

/-- Two engines that are alike agree on the calls that the modes have in common. -/
theorem Twin.agrees {cs : List PublicCall} (hF : F.Steady p) (h : Twin p maxHistoryPerKey s₁ s₂)
    (hcommon : ∀ call ∈ cs, call.Common) : Agrees F double host s₁ s₂ cs := by
  rintro before call hpre ls₁ ls₂ s₁' s₂' rfl hls₂ hrun₁ hrun₂ r₁ r₂ t₁ t₂ hst₁ hst₂
  have hbefore : ∀ c ∈ ls₁.map Prod.fst ++ [call], c.Common := fun c hc =>
    hcommon c (hpre.subset hc)
  obtain ⟨hbefore, hcall⟩ := List.forall_mem_append.1 hbefore
  have htwin := h.run hF hls₂.symm hbefore hrun₁ hrun₂
  obtain ⟨heq, hnull, hremove⟩ := (htwin.step hF (hcall call List.mem_cons_self) hst₁ hst₂).1
  exact ⟨heq, hnull, heq ▸ hnull, hremove⟩

/-- Without a log, `recover` dereferences a null pointer. -/
theorem only_recoverInMemory {orders : Orders} (hwal : engine.wal = none) :
    (engine.recover host orders).Only (fun _ => True) fun result =>
      result.1 = .error .nullDereference := by
  refine only_bind (only_true _) fun image _ => ?_
  cases image with
  | none =>
    rw [recoverFrom, hwal]
    exact rfl
  | some image =>
    rw [recoverFrom, hwal]
    exact rfl

/-- On any other call they part. -/
theorem Twin.common (h : Twin p maxHistoryPerKey s₁ s₂)
    (hagrees : AgreesAt F double host s₁ s₂ call) : call.Common := by
  obtain ⟨r₁, ⟨engine₁, fs₁⟩, hst₁⟩ := exists_call F double host s₁ call
  obtain ⟨r₂, ⟨engine₂, fs₂⟩, hst₂⟩ := exists_call F double host s₂ call
  obtain ⟨heq, hnull, -, -⟩ := hagrees _ _ _ _ hst₁ hst₂
  obtain ⟨rs, wal, hattached⟩ := h.log
  obtain ⟨orders₁, now₁, hx₁⟩ := hst₁
  obtain ⟨orders₂, now₂, hx₂⟩ := hst₂
  cases call with
  | remove key =>
    by_contra hkey
    have hop : (Op.remove key now₂).mutation = some (.delete key now₂) := rfl
    obtain ⟨what, hrefused⟩ := call_refused host orders₂ hop hattached.log hkey
    obtain ⟨⟨result₁, e₁⟩, fs₁', hremove₁, hret₁⟩ := exec_bind.1 hx₁
    obtain ⟨⟨result₂, e₂⟩, fs₂', hremove₂, hret₂⟩ := exec_bind.1 hx₂
    cases hret₁
    cases hret₂
    -- the log refuses the key, and the engine in memory has no log
    have hcall : Exec F.env (s₂.1.call host orders₂ (.remove key now₂)) s₂.2
        (result₂.map some, engine₂) fs₂ := exec_bind.2 ⟨_, _, hremove₂, .ret _ _⟩
    rw [StorageEngine.remove, h.memory] at hremove₁
    cases hremove₁
    rw [hrefused] at hcall
    cases result₂ with
    | error e => cases heq
    | ok present => cases hcall
  | recover =>
    obtain ⟨⟨result, e⟩, fs', hrecover, hret⟩ := exec_bind.1 hx₁
    have hresult : result = .error .nullDereference :=
      (wp_exec ((only_recoverInMemory h.memory).wp _) hrecover :)
    cases hret
    rw [hresult] at hnull
    exact absurd rfl hnull
  | _ => exact trivial

/-- Two engines that are alike agree only on the calls that the modes have in common. -/
theorem Twin.common_of_agrees {cs : List PublicCall} (hF : F.Steady p)
    (h : Twin p maxHistoryPerKey s₁ s₂) (hagrees : Agrees F double host s₁ s₂ cs) :
    ∀ call ∈ cs, call.Common := by
  -- from the first call on
  have hpre : ∀ before, before <+: cs → ∀ call ∈ before, call.Common := by
    intro before
    induction before using List.reverseRecOn with
    | nil => exact fun _ _ hcall => absurd hcall List.not_mem_nil
    | append_singleton before call ih =>
      intro hbefore
      have hcommon := ih ((List.prefix_append before [call]).trans hbefore)
      obtain ⟨ls₁, s₁', hls₁, hrun₁⟩ := exists_calls F double host s₁ before
      obtain ⟨ls₂, s₂', hls₂, hrun₂⟩ := exists_calls F double host s₂ before
      have htwin := h.run hF (hls₁.trans hls₂.symm) (hls₁.symm ▸ hcommon) hrun₁ hrun₂
      have hcall := htwin.common (hagrees before call hbefore ls₁ ls₂ s₁' s₂' hls₁ hls₂ hrun₁ hrun₂)
      exact List.forall_mem_append.2 ⟨hcommon, List.forall_mem_singleton.2 hcall⟩
  exact hpre cs List.prefix_rfl

/-- Engines that were just made are alike. -/
theorem twin_fresh {m n : ℕ} {orders : Orders} (fs₀ : FileSystem) (hnew : fs.bytes p = [])
    (hnone : fs (makeSnapshotPath p) = none)
    (hopen : Exec (Faults.none m).env (StorageEngine.construct host p maxHistoryPerKey n orders) fs
      (.ok engine) fs') :
    Twin p maxHistoryPerKey (makeInMemory maxHistoryPerKey, fs₀) (engine, fs') := by
  have hlogged : Logged p fs [] := logged_empty hnew
  obtain ⟨-, engine', wal, image, hok, hloads, hattached, -, hdata⟩ :=
    wp_exec (wp_openSteady Faults.none_steady hlogged) hopen
  obtain rfl := Except.ok.inj hok
  have himage : image = none := by
    rw [loads_none hloads, FileSystem.image, hnone, Option.bind_none]
  subst himage
  refine ⟨rfl, rfl, ⟨[], wal, hattached⟩, fun key => ?_⟩
  rw [hdata]
  rfl

/-- **The two modes of an engine.**  When nothing fails, an engine in memory and one with a log on
new files agree in a run of calls just when no call is a `recover` or a `remove` of a key over the
limit. -/
theorem agrees_iff {m n : ℕ} {orders : Orders} {cs : List PublicCall} (fs₀ : FileSystem)
    (hnew : fs.bytes p = []) (hnone : fs (makeSnapshotPath p) = none)
    (hopen : Exec (Faults.none m).env (StorageEngine.construct host p maxHistoryPerKey n orders) fs
      (.ok engine) fs') :
    Agrees (Faults.none m) double host (makeInMemory maxHistoryPerKey, fs₀) (engine, fs') cs ↔
      ∀ call ∈ cs, call.Common :=
  have htwin := twin_fresh fs₀ hnew hnone hopen
  ⟨htwin.common_of_agrees Faults.none_steady, htwin.agrees Faults.none_steady⟩

theorem agrees_iff_getAverage : ∃ engine fs',
    Exec (Faults.none 0).env
      (StorageEngine.construct .little "a" 2 1 ⟨Order.any, Order.any⟩) (fun _ => none)
      (.ok engine) fs' ∧
    Agrees (Faults.none 0) ⟨fun a b => a + b, fun a b => a / b, UInt64.ofNat⟩ .little
      (makeInMemory 2, fun _ => none) (engine, fs') [.set [107] [118] 6, .getAverage [107]] := by
  have hlogged : Logged "a" (fun _ => none) [] := logged_empty rfl
  obtain ⟨engine, wal, fs', hrun, -⟩ := run_open .little 2 1 ⟨Order.any, Order.any⟩ hlogged
  have hopen := exec_of_run (E := (Faults.none 0).env) Faults.allows_posix hrun
  refine ⟨engine, fs', hopen, (agrees_iff _ rfl rfl hopen).2 fun call hcall => ?_⟩
  rcases List.mem_pair.1 hcall with rfl | rfl
  · exact trivial
  · exact trivial

/-- The modes part at a `recover`, and at a `remove` of a key over the limit. -/
theorem agrees_fails : ∃ engine fs',
    Exec (Faults.none 0).env
      (StorageEngine.construct .little "a" 0 1 ⟨Order.any, Order.any⟩) (fun _ => none)
      (.ok engine) fs' ∧
    ∀ double, ¬Agrees (Faults.none 0) double .little (makeInMemory 0, fun _ => none) (engine, fs')
        [.recover] ∧
      ¬Agrees (Faults.none 0) double .little (makeInMemory 0, fun _ => none) (engine, fs')
        [.remove (List.replicate 1048577 0)] := by
  have hlogged : Logged "a" (fun _ => none) [] := logged_empty rfl
  obtain ⟨engine, wal, fs', hrun, -⟩ := run_open .little 0 1 ⟨Order.any, Order.any⟩ hlogged
  have hopen := exec_of_run (E := (Faults.none 0).env) Faults.allows_posix hrun
  have htwin := twin_fresh (fun _ => none) rfl rfl hopen
  refine ⟨engine, fs', hopen, fun double => ⟨fun h => ?_, fun h => ?_⟩⟩
  · exact htwin.common_of_agrees Faults.none_steady h .recover List.mem_cons_self
  · have hkey : (List.replicate 1048577 (0 : UInt8)).length ≤ kMaxFieldSize.toNat :=
      htwin.common_of_agrees Faults.none_steady h _ List.mem_cons_self
    rw [List.length_replicate] at hkey
    exact absurd hkey (by decide)

end Calls

end LiteSpeedStore
