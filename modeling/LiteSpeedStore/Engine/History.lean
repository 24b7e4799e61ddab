import LiteSpeedStore.Engine.Calls
import LiteSpeedStore.Engine.Machine
import Mathlib.Data.Set.Card

/-!
# Histories

The history of a key is a matter of the calls that were made: it holds the newest of the records
that were accepted for the key since it was last removed.  This is so for an engine in memory and
for one with a log, whatever fails on its files.

* `change_effect` : what one call of `set` or `remove` does to the histories.
* `accepted_concat` : what one more call adds to the accepted records.
* `history_run` : after a run of such calls the histories are what was accepted.
-/

namespace LiteSpeedStore

open Prog StorageEngine

/-! ### The specification -/

/-- The newest elements, as many as the cap admits. -/
def newest {α : Type} (maxHistoryPerKey : ℕ) (l : List α) : List α :=
  if maxHistoryPerKey = kUnlimitedHistory then l else l.drop (l.length - maxHistoryPerKey)

namespace Event

/-- The record that the step has added to the key. -/
def added (key : Bytes) : Event → Option Record
  | .returned (.set key' value duration now) _ =>
    if key' = key then some ⟨value, duration, now⟩ else none
  | _ => none

/-- The step has removed the key. -/
def removed (key : Bytes) : Event → Bool
  | .returned (.remove key' _) (some true) => key' = key
  | _ => false

/-- The step is a call of `set` or `remove` that returned or threw. -/
def IsChange : Event → Prop
  | .returned op _ | .threw op _ => op.mutation.isSome
  | _ => False

end Event

/-- The records that were accepted for the key since it was last removed, oldest first. -/
def accepted (key : Bytes) (events : List Event) : List Record :=
  (events.reverse.takeWhile fun event => !event.removed key).reverse.filterMap (Event.added key)

section Specification

variable {α : Type} {maxHistoryPerKey : ℕ} {key : Bytes} {events : List Event} {event : Event}

theorem newest_nil : newest maxHistoryPerKey ([] : List α) = [] := by
  rw [newest, List.drop_nil, ite_self]

theorem newest_eq_nil {l : List α} : newest maxHistoryPerKey l = [] ↔ l = [] := by
  rw [newest]
  split_ifs with hcap
  · rfl
  · have hpos : 0 < maxHistoryPerKey := Nat.pos_of_ne_zero hcap
    rw [List.drop_eq_nil_iff]
    constructor
    · intro h
      exact List.length_eq_zero_iff.1 (by omega)
    · rintro rfl
      exact Nat.zero_le _

theorem getLast?_newest (l : List α) : (newest maxHistoryPerKey l).getLast? = l.getLast? := by
  by_cases hnil : l = []
  · rw [hnil, newest_nil]
  · have hlen : 0 < l.length := List.length_pos_of_ne_nil hnil
    rw [newest]
    split_ifs with hcap
    · rfl
    · have hpos : 0 < maxHistoryPerKey := Nat.pos_of_ne_zero hcap
      rw [List.getLast?_drop, if_neg (by omega)]

theorem length_newest_le (hcap : maxHistoryPerKey ≠ kUnlimitedHistory) (l : List α) :
    (newest maxHistoryPerKey l).length ≤ maxHistoryPerKey := by
  rw [newest, if_neg hcap, List.length_drop]
  omega

/-- **Evicting the oldest record past the cap keeps the newest ones.** -/
theorem appendHistory_newest (l : List Record) (record : Record) :
    appendHistory maxHistoryPerKey (newest maxHistoryPerKey l) record =
      newest maxHistoryPerKey (l ++ [record]) := by
  by_cases hcap : maxHistoryPerKey = kUnlimitedHistory
  · rw [appendHistory, if_neg fun h => h.1 hcap, newest, if_pos hcap, newest, if_pos hcap]
  · have hpos : 0 < maxHistoryPerKey := Nat.pos_of_ne_zero hcap
    have hlen : (newest maxHistoryPerKey l).length = l.length - (l.length - maxHistoryPerKey) := by
      rw [newest, if_neg hcap, List.length_drop]
    have hnew : newest maxHistoryPerKey (l ++ [record]) =
        l.drop (l.length + 1 - maxHistoryPerKey) ++ [record] := by
      rw [newest, if_neg hcap, List.length_append, List.length_singleton,
        List.drop_append_of_le_length (by omega)]
    rw [appendHistory, hnew]
    by_cases hfull : maxHistoryPerKey ≤ l.length
    · rw [if_pos ⟨hcap, by omega⟩, newest, if_neg hcap, List.drop_drop,
        Nat.sub_add_comm hfull]
    · rw [if_neg fun h => hfull (by have := h.2; omega), newest, if_neg hcap,
        Nat.sub_eq_zero_of_le (by omega), Nat.sub_eq_zero_of_le (by omega)]

theorem accepted_nil : accepted key [] = [] := rfl

/-- **One more step** forgets the records when it removes the key, and adds the one it accepted. -/
theorem accepted_concat : accepted key (events ++ [event]) =
    if event.removed key then [] else accepted key events ++ (event.added key).toList := by
  rw [accepted, List.reverse_append, List.reverse_singleton, List.singleton_append]
  by_cases h : event.removed key
  · rw [if_pos h, List.takeWhile_cons_of_neg (by rw [h]; decide)]
    rfl
  · rw [if_neg h, List.takeWhile_cons_of_pos (by simpa using h), List.reverse_cons,
      List.filterMap_append, List.filterMap_cons, List.filterMap_nil]
    cases event.added key <;> rfl

end Specification

/-! ### The calls -/

/-- An engine that was just made, in memory or on files that hold no data. -/
inductive Fresh (host : ByteOrder) (p : Path) (maxHistoryPerKey : ℕ) : World → Prop
  | inMemory (fs : FileSystem) :
      Fresh host p maxHistoryPerKey ⟨some (makeInMemory maxHistoryPerKey), fs⟩
  | onFiles {F : Faults} {n : ℕ} {orders : Orders} {engine : StorageEngine} {fs fs' : FileSystem} :
      Exec F.env (StorageEngine.construct host p maxHistoryPerKey n orders) fs (.ok engine) fs' →
      engine.data = ∅ → Fresh host p maxHistoryPerKey ⟨some engine, fs'⟩

section Calls

variable {F : Faults} {host : ByteOrder} {p : Path} {maxHistoryPerKey : ℕ} {engine : StorageEngine}
  {orders : Orders} {op : Op} {μ : Mutation} {fs fs' : FileSystem}

/-- **What a call does to the histories**: it makes its change, or it throws and leaves them
alone. -/
theorem change_effect (hop : op.mutation = some μ) (engine : StorageEngine) :
    (engine.call host orders op).Only (fun _ => True) fun result =>
      result.2.maxHistoryPerKey = engine.maxHistoryPerKey ∧
        (result.1 = .ok (op.answer engine.data) ∧
            result.2.data = μ.apply engine.maxHistoryPerKey engine.data ∨
          (∃ e, result.1 = .error e) ∧ result.2.data = engine.data) := by
  cases hwal : engine.wal with
  | some wal =>
    by_cases hμ : μ.Fits
    · rw [call_accepted hop hwal hμ]
      refine only_bind (only_true _) ?_
      rintro ⟨e | _, wal'⟩ -
      · exact ⟨rfl, .inr ⟨⟨e, rfl⟩, rfl⟩⟩
      · exact ⟨rfl, .inl ⟨rfl, rfl⟩⟩
    · obtain ⟨e, he⟩ := call_refused host orders hop hwal hμ
      rw [he]
      exact ⟨rfl, .inr ⟨⟨_, rfl⟩, rfl⟩⟩
  | none =>
    cases op with
    | snapshot => cases hop
    | recover => cases hop
    | set key value duration now =>
      obtain rfl : Mutation.put key ⟨value, duration, now⟩ = μ := Option.some.inj hop
      rw [StorageEngine.call, StorageEngine.set]
      split_ifs
      · exact ⟨rfl, .inr ⟨⟨_, rfl⟩, rfl⟩⟩
      · exact ⟨rfl, .inr ⟨⟨_, rfl⟩, rfl⟩⟩
      · rw [hwal]
        exact ⟨rfl, .inl ⟨rfl, rfl⟩⟩
    | remove key now =>
      obtain rfl : Mutation.delete key now = μ := Option.some.inj hop
      rw [StorageEngine.call, StorageEngine.remove, hwal]
      exact ⟨rfl, .inl ⟨rfl, rfl⟩⟩

/-- `append` fails within the limits only when a system call does. -/
theorem append_throws {r : LogRecord} (hfits : r.Fits) (wal : WAL) (fs : FileSystem) :
    wp F.env (wal.append r.type r.key r.value r.timestamp)
      (fun result _ => (∃ e, result.1 = .error e) → ∃ c, F.mayFail c) (fun _ => True) fs := by
  rw [WAL.append, if_neg (not_or.2 ⟨not_lt.2 hfits.1, not_lt.2 hfits.2⟩)]
  cases wal.fd with
  | none => exact ⟨trivial, by rintro ⟨e, ⟨⟩⟩⟩
  | some fd =>
    dsimp only
    rw [wp_bind]
    refine wp_mono (wp_writeExact_false fd _ fs) (fun written fs' hwritten => ?_) fun _ h => h
    cases written with
    | false => exact ⟨trivial, fun _ => hwritten rfl⟩
    | true =>
      rw [if_pos rfl]
      split_ifs with hdue
      · refine wp_sys rfl trivial ⟨trivial, by rintro ⟨e, ⟨⟩⟩⟩ fun hmay r hr => ?_
        simp only [failed] at hr
        subst hr
        exact ⟨trivial, fun _ => ⟨_, hmay⟩⟩
      · exact ⟨trivial, by rintro ⟨e, ⟨⟩⟩⟩

/-- A call within the limits throws only when a system call fails. -/
theorem change_throws (hop : op.mutation = some μ) (hμ : μ.Fits) (engine : StorageEngine)
    (fs : FileSystem) : wp F.env (engine.call host orders op)
      (fun result _ => (∃ e, result.1 = .error e) → ∃ c, F.mayFail c) (fun _ => True) fs := by
  cases hwal : engine.wal with
  | some wal =>
    rw [call_accepted hop hwal hμ, wp_bind]
    refine wp_mono (append_throws (entry_fits hμ _) wal fs) ?_ fun _ h => h
    rintro ⟨e | _, wal'⟩ fs' hthrows
    · exact ⟨trivial, fun _ => hthrows ⟨e, rfl⟩⟩
    · exact ⟨trivial, by rintro ⟨e, ⟨⟩⟩⟩
  | none =>
    cases op with
    | snapshot => cases hop
    | recover => cases hop
    | set key value duration now =>
      obtain rfl : Mutation.put key ⟨value, duration, now⟩ = μ := Option.some.inj hop
      rw [StorageEngine.call, StorageEngine.set, if_neg (not_lt.2 hμ.1), if_neg (not_lt.2 hμ.2),
        hwal]
      exact ⟨trivial, by rintro ⟨e, ⟨⟩⟩⟩
    | remove key now =>
      obtain rfl : Mutation.delete key now = μ := Option.some.inj hop
      rw [StorageEngine.call, StorageEngine.remove, hwal]
      exact ⟨trivial, by rintro ⟨e, ⟨⟩⟩⟩

/-- The history of a key, if it has one. -/
def HistoriesAre (maxHistoryPerKey : ℕ) (events : List Event) (data : Data) : Prop :=
  ∀ key, data.lookup key =
    if accepted key events = [] then none else some (newest maxHistoryPerKey (accepted key events))

theorem HistoriesAre.getD {events : List Event} {data : Data}
    (h : HistoriesAre maxHistoryPerKey events data) (key : Bytes) :
    (data.lookup key).getD [] = newest maxHistoryPerKey (accepted key events) := by
  rw [h key]
  split_ifs with hnil
  · rw [hnil, newest_nil, Option.getD_none]
  · rw [Option.getD_some]

theorem HistoriesAre.isSome {events : List Event} {data : Data}
    (h : HistoriesAre maxHistoryPerKey events data) (key : Bytes) :
    (data.lookup key).isSome ↔ accepted key events ≠ [] := by
  rw [h key]
  split_ifs with hnil
  · simp [hnil]
  · simp [hnil]

theorem HistoriesAre.set {events : List Event} {data : Data} {key value : Bytes} {duration : UInt64}
    {now : Int64} (h : HistoriesAre maxHistoryPerKey events data) (answer : Option Bool) :
    HistoriesAre maxHistoryPerKey (events ++ [.returned (.set key value duration now) answer])
      (appendCapped maxHistoryPerKey data key ⟨value, duration, now⟩) := by
  intro key'
  have hkeep : ¬Event.removed key' (.returned (.set key value duration now) answer) := by
    cases answer <;> exact Bool.false_ne_true
  rw [accepted_concat, if_neg hkeep, lookup_appendCapped]
  by_cases hk : key' = key
  · subst hk
    have hadded : Event.added key' (.returned (.set key' value duration now) answer) =
        some ⟨value, duration, now⟩ := if_pos rfl
    rw [if_pos rfl, hadded, h.getD, appendHistory_newest, Option.toList_some, if_neg (by simp)]
  · have hadded : Event.added key' (.returned (.set key value duration now) answer) = none :=
      if_neg (Ne.symm hk)
    rw [if_neg hk, hadded, Option.toList_none, List.append_nil]
    exact h key'

theorem HistoriesAre.remove {events : List Event} {data : Data} {key : Bytes} {now : Int64}
    (h : HistoriesAre maxHistoryPerKey events data) :
    HistoriesAre maxHistoryPerKey
      (events ++ [.returned (.remove key now) (some (data.lookup key).isSome)])
      (data.erase key) := by
  intro key'
  have hadded : ∀ b, Event.added key' (.returned (.remove key now) (some b)) = none := fun _ => rfl
  rw [accepted_concat, hadded, Option.toList_none, List.append_nil, lookup_erase]
  by_cases hk : key' = key
  · subst hk
    rw [if_pos rfl]
    by_cases hpresent : (data.lookup key').isSome
    · have hremoved : Event.removed key' (.returned (.remove key' now) (some true)) :=
        decide_eq_true rfl
      rw [hpresent, if_pos hremoved, if_pos rfl]
    · -- a key without a history has no records that were accepted
      have hnil : accepted key' events = [] := not_not.1 fun hne => hpresent ((h.isSome key').2 hne)
      rw [hnil, ite_self, if_pos rfl]
  · have hkeep : ∀ b, Event.removed key' (.returned (.remove key now) (some b)) = false := by
      rintro (_ | _)
      · rfl
      · exact decide_eq_false (Ne.symm hk)
    rw [if_neg hk, hkeep, if_neg Bool.false_ne_true]
    exact h key'

/-- One more call adds to the accepted records what it adds to the histories. -/
theorem HistoriesAre.step {before : List Event} {event : Event} {w w' : World}
    (hdata : HistoriesAre maxHistoryPerKey before engine.data) (hw : w.engine = some engine)
    (hcap : engine.maxHistoryPerKey = maxHistoryPerKey) (hevent : event.IsChange)
    (hstep : (machine F host p maxHistoryPerKey).step w event w') :
    ∃ engine', w'.engine = some engine' ∧ engine'.maxHistoryPerKey = maxHistoryPerKey ∧
      HistoriesAre maxHistoryPerKey (before ++ [event]) engine'.data := by
  obtain ⟨state, fs⟩ := w
  obtain rfl : state = some engine := hw
  cases hstep with
  | @returned _ _ _ engine' _ op answer hx =>
    obtain ⟨μ, hop⟩ := Option.isSome_iff_exists.1 hevent
    obtain ⟨hcap', ⟨hok, hdata'⟩ | ⟨⟨e, he⟩, -⟩⟩ := wp_exec ((change_effect hop engine).wp fs) hx
    · obtain rfl := Except.ok.inj hok
      refine ⟨engine', rfl, hcap'.trans hcap, ?_⟩
      rw [hdata', hcap]
      cases op with
      | set key value duration now =>
        obtain rfl : Mutation.put key ⟨value, duration, now⟩ = μ := Option.some.inj hop
        exact hdata.set _
      | remove key now =>
        obtain rfl : Mutation.delete key now = μ := Option.some.inj hop
        exact hdata.remove
      | snapshot => cases hop
      | recover => cases hop
    · cases he
  | @threw _ _ _ engine' _ op e hx =>
    obtain ⟨μ, hop⟩ := Option.isSome_iff_exists.1 hevent
    obtain ⟨hcap', ⟨hok, -⟩ | ⟨-, hdata'⟩⟩ := wp_exec ((change_effect hop engine).wp fs) hx
    · cases hok
    · refine ⟨engine', rfl, hcap'.trans hcap, fun key => ?_⟩
      have hadded : Event.added key (.threw op e) = none := rfl
      have hkept : ¬Event.removed key (.threw op e) := Bool.false_ne_true
      rw [hdata', accepted_concat, hadded, if_neg hkept, Option.toList_none, List.append_nil]
      exact hdata key
  | _ => exact hevent.elim

/-- **After a run of calls** the histories are what was accepted. -/
theorem history_run {before events : List Event} {w w' : World}
    (hdata : HistoriesAre maxHistoryPerKey before engine.data) (hw : w.engine = some engine)
    (hcap : engine.maxHistoryPerKey = maxHistoryPerKey) (hevents : ∀ event ∈ events, event.IsChange)
    (hrun : (machine F host p maxHistoryPerKey).Run w events w') :
    ∃ engine', w'.engine = some engine' ∧
      HistoriesAre maxHistoryPerKey (before ++ events) engine'.data := by
  induction hrun generalizing before engine with
  | nil => exact ⟨engine, hw, by rwa [List.append_nil]⟩
  | cons hst _ ih =>
    obtain ⟨hevent, hevents⟩ := List.forall_mem_cons.1 hevents
    obtain ⟨engine₁, hw₁, hcap₁, hdata₁⟩ := hdata.step hw hcap hevent hst
    obtain ⟨engine', hw', hdata'⟩ := ih hdata₁ hw₁ hcap₁ hevents
    refine ⟨engine', hw', ?_⟩
    rwa [List.append_assoc, List.singleton_append] at hdata'

theorem Fresh.histories {w : World} (h : Fresh host p maxHistoryPerKey w) :
    ∃ engine, w.engine = some engine ∧ engine.maxHistoryPerKey = maxHistoryPerKey ∧
      HistoriesAre maxHistoryPerKey [] engine.data := by
  have hempty : HistoriesAre maxHistoryPerKey [] (∅ : Data) := fun key => by
    rw [accepted_nil, if_pos rfl, Finmap.lookup_empty]
  cases h with
  | inMemory fs => exact ⟨_, rfl, rfl, hempty⟩
  | @onFiles F n orders engine _ _ hx hdata =>
    have hat := wp_exec ((only_engineConstruct host p maxHistoryPerKey n orders).wp _) hx
    refine ⟨engine, rfl, (hat engine rfl).cap, ?_⟩
    rw [hdata]
    exact hempty

/-- **Histories.**  After a run of `set` and `remove` on an engine that was just made, in memory or
with a log, and whatever calls threw, a key has the newest records that were accepted for it since
it was last removed, as many as the cap admits; this is what `get`, `historyCount` and `count` tell,
and a `remove` within the limit tells whether there is one. -/
theorem history_spec {events : List Event} {start w : World}
    (hstart : Fresh host p maxHistoryPerKey start) (hevents : ∀ event ∈ events, event.IsChange)
    (hrun : (machine F host p maxHistoryPerKey).Run start events w) :
    ∃ engine, w.engine = some engine ∧
      (∀ key, (engine.data.lookup key).getD [] =
        newest maxHistoryPerKey (accepted key events)) ∧
      (∀ key, engine.get key = (accepted key events).getLast?.map Record.value) ∧
      (∀ key, engine.historyCount key = (newest maxHistoryPerKey (accepted key events)).length ∧
        (maxHistoryPerKey ≠ kUnlimitedHistory → engine.historyCount key ≤ maxHistoryPerKey)) ∧
      (∀ key history, engine.data.lookup key = some history → history ≠ []) ∧
      engine.count = {key | accepted key events ≠ []}.ncard ∧
      ∀ key now, key.length ≤ kMaxFieldSize.toNat →
        (∀ answer w', (machine F host p maxHistoryPerKey).step w (.returned (.remove key now) answer)
          w' → (answer = some true ↔ accepted key events ≠ [])) ∧
        ∀ e w', (machine F host p maxHistoryPerKey).step w (.threw (.remove key now) e) w' →
          ∃ c, F.mayFail c := by
  have hop : ∀ key now, (Op.remove key now).mutation = some (.delete key now) := fun _ _ => rfl
  obtain ⟨engine₀, hw₀, hcap₀, hdata₀⟩ := hstart.histories
  obtain ⟨engine, hw, hdata⟩ := history_run hdata₀ hw₀ hcap₀ hevents hrun
  rw [List.nil_append] at hdata
  refine ⟨engine, hw, hdata.getD, fun key => ?_, fun key => ⟨?_, fun hcap => ?_⟩,
    fun key history hlook => ?_, ?_, fun key now hkey => ⟨?_, ?_⟩⟩
  · rw [StorageEngine.get, hdata key]
    split_ifs with hnil
    · rw [hnil]
      rfl
    · rw [Option.bind_some, getLast?_newest]
  · rw [historyCount, hdata.getD]
  · rw [historyCount, hdata.getD]
    exact length_newest_le hcap _
  · rw [hdata key] at hlook
    split_ifs at hlook with hnil
    rw [← Option.some.inj hlook, Ne, newest_eq_nil]
    exact hnil
  · have hkeys : {key | accepted key events ≠ []} = (engine.data.keys : Set Bytes) := by
      ext key
      rw [Set.mem_ofPred_eq, ← hdata.isSome, Finset.mem_coe, Finmap.mem_keys, Finmap.lookup_isSome]
    rw [hkeys, Set.ncard_coe_finset, count]
  · intro answer w' hstep
    obtain ⟨state, fs⟩ := w
    obtain rfl : state = some engine := hw
    cases hstep with
    | returned hx =>
      obtain ⟨-, ⟨hok, -⟩ | ⟨⟨e, he⟩, -⟩⟩ :=
        wp_exec ((change_effect (hop key now) engine).wp fs) hx
      · rw [← hdata.isSome, Except.ok.inj hok, Op.answer, Option.some_inj]
      · cases he
  · intro e w' hstep
    obtain ⟨state, fs⟩ := w
    obtain rfl : state = some engine := hw
    cases hstep with
    | threw hx =>
      exact wp_exec (change_throws (hop key now) hkey engine fs) hx ⟨e, rfl⟩

/-- A cap of one keeps the last of two records. -/
theorem history_spec_evicted : ∃ w : World,
    (machine (Faults.none 0) .little "" 1).Run ⟨some (makeInMemory 1), fun _ => none⟩
      [.returned (.set [107] [118] 0 5) none, .returned (.set [107] [119] 0 6) none] w ∧
      ∃ engine, w.engine = some engine ∧ engine.get [107] = some [119] ∧
        engine.historyCount [107] = 1 := by
  have hset : ∀ (engine : StorageEngine) (value : Bytes) (now : Int64), engine.wal = none →
      value.length = 1 → (machine (Faults.none 0) .little "" 1).step ⟨some engine, fun _ => none⟩
        (.returned (.set [107] value 0 now) none) ⟨some { engine with
          data := appendCapped engine.maxHistoryPerKey engine.data [107] ⟨value, 0, now⟩ },
          fun _ => none⟩ := by
    intro engine value now hwal hlen
    have hkey : ¬[(107 : UInt8)].length > kMaxFieldSize.toNat := by decide
    have hvalue : ¬value.length > kMaxValueSize := by rw [hlen]; decide
    have hx : Exec (Faults.none 0).env
        (engine.call .little ⟨Order.any, Order.any⟩ (.set [107] value 0 now)) (fun _ => none)
        (.ok none, { engine with
          data := appendCapped engine.maxHistoryPerKey engine.data [107] ⟨value, 0, now⟩ })
        fun _ => none := by
      rw [StorageEngine.call, StorageEngine.set, if_neg hkey, if_neg hvalue, hwal]
      exact .ret _ _
    exact .returned hx
  have hrun := Lts.Run.cons (hset (makeInMemory 1) [118] 5 rfl rfl)
    (.single (hset _ [119] 6 rfl rfl))
  obtain ⟨engine, hw, -, hget, hcount, -⟩ := history_spec (.inMemory fun _ => none) (by
    rintro event hevent
    rcases List.mem_pair.1 hevent with rfl | rfl
    · exact rfl
    · exact rfl) hrun
  refine ⟨_, hrun, engine, hw, ?_, ?_⟩
  · rw [hget]
    rfl
  · rw [(hcount _).1]
    rfl

end Calls

end LiteSpeedStore
