import LiteSpeedStore.Engine.Restart

/-!
# An `fsync` that fails in `append`

When `append` syncs, its entry is already in the file and its object behind it.  If the `fsync`
fails, `append` throws, and `set` and `remove` leave the histories alone: the change is in the log
and not in memory, and the next process will make it.

* `promised` : the store as the callers are told: a call that throws has changed nothing.
* `wp_changeAny`, `wp_changeSync` : what `set` and `remove` leave when the write or `fsync` fails.
* `sync_failure_iff` : memory and log agree as long as no failing call had anything to change.
* `sync_failure_disagrees` : a value that was refused and is there after a restart.
-/

namespace LiteSpeedStore

open Prog StorageEngine

/-- Only the `fsync` of the log may fail. -/
def syncFails (p : Path) : Faults := ⟨fun c => c = .fsync p, kHeaderSize⟩

/-- The store as its callers are told: a call that throws has changed nothing. -/
inductive Promised (maxHistoryPerKey : ℕ) : Data → Event → Data → Prop
  | kept {data data' : Data} {event : Event} (h : Kept maxHistoryPerKey data event data') :
      Promised maxHistoryPerKey data event data'
  | threw (data : Data) (op : Op) (e : Exception) :
      Promised maxHistoryPerKey data (.threw op e) data

/-- What the callers of the store are promised. -/
def promised (maxHistoryPerKey : ℕ) : Lts Data Event := ⟨Promised maxHistoryPerKey⟩

/-- The runs in which any `fsync` of a `set` or `remove` may fail, no other call does, and the
snapshots are within the limits. -/
def syncFailing (host : ByteOrder) (p : Path) (maxHistoryPerKey : ℕ) : Lts World Event where
  step w event w' := (sound host p maxHistoryPerKey).step w event w' ∨
    (∃ op μ, event.op = some op ∧ op.mutation = some μ) ∧
      (machine (syncFails p) host p maxHistoryPerKey).step w event w'

/-- The step is not the failure of a call that had something to change. -/
def NothingToChange (maxHistoryPerKey : ℕ) (w : World) (event : Event) : Prop :=
  ∀ op e μ engine, event = .threw op e → op.mutation = some μ → μ.Fits → w.engine = some engine →
    μ.apply maxHistoryPerKey engine.data = engine.data

variable {host : ByteOrder} {p : Path} {maxHistoryPerKey : ℕ} {fs : FileSystem} {data : Data}
  {engine : StorageEngine} {w w' : World} {events : List Event} {event : Event}

/-- The rule of `set` and `remove` of an engine that is in step with the files: they make their
change or refuse it; or the write fails, and a part of the entry is there; or the `fsync` fails, and
the engine would be in step if it had made the change. -/
theorem wp_changeAny {F : Faults} {orders : Orders} {op : Op} {μ : Mutation}
    {Q : Except Exception (Option Bool) × StorageEngine → FileSystem → Prop}
    (hop : op.mutation = some μ) (h : Related True host p maxHistoryPerKey ⟨some engine, fs⟩ data)
    (hends : ∀ result fs', Ends True host p maxHistoryPerKey data op result fs' → Q result fs')
    (hfail : (∃ d, F.mayFail (.write p d)) → ∀ e b, b ≠ [] →
      Related True host p maxHistoryPerKey ⟨none, fs.put p b⟩ data →
      Q (.error (.runtimeError e), engine) (fs.put p b))
    (hsync : μ.Fits → F.mayFail (.fsync p) → ∀ e engine' fs', engine'.data = data →
      Related True host p maxHistoryPerKey
        ⟨some { engine' with data := μ.apply maxHistoryPerKey data }, fs'⟩
        (μ.apply maxHistoryPerKey data) → Q (.error (.runtimeError e), engine') fs') :
    wp F.env (engine.call host orders op) Q
      (Interrupted True host p maxHistoryPerKey data op) fs := by
  obtain ⟨rs, hstands, rfl, wal, hattached, hepoch⟩ := id h
  have hsame : ∀ b, fs.SameBut p (fs.put p b) := fun b => FileSystem.sameBut_put p fs b
  have hwithin : op.Within ↔ μ.Fits := by simp [Op.Within, hop]
  have happly : op.apply maxHistoryPerKey engine.data = μ.apply maxHistoryPerKey engine.data := by
    rw [Op.apply, hop, Option.elim_some]
  have hstands' : μ.Fits → ∀ b, StandsFor True host maxHistoryPerKey ((fs.put p b).image p)
      (rs ++ [μ.entry host wal.epoch]) (μ.apply maxHistoryPerKey engine.data) := by
    intro hμ b
    rw [hepoch, image_sameBut (hsame b)]
    exact hstands.change hμ
  have hbehind : ∀ b, wal.epoch = nextEpoch ((fs.put p b).image p) := fun b => by
    rw [image_sameBut (hsame b), hepoch]
  -- a part of the record is torn
  have htorn : μ.Fits → ∀ k < (μ.entry host wal.epoch).size, Related True host p maxHistoryPerKey
      ⟨none, fs.put p (logOf rs ++ ((μ.entry host wal.epoch).encode wal.headHash wal.seq).take k)⟩
      engine.data := by
    intro hμ k hk
    refine ⟨rs, ?_, hattached.fits, .inr ⟨_, FileSystem.put_self .., ?_⟩⟩
    · dsimp only
      rw [image_sameBut (hsame _)]
      exact hstands
    · rw [hattached.head, hattached.seq]
      exact tornTail_take (entry_fits hμ _) hk
  refine wp_change hop hattached.log hattached.fd hattached.file ?_ ?_ ?_ ?_ ?_
  · exact fun hμ => ⟨.inl h.left, fun e => hends _ _ (.inr ⟨mt hwithin.1 hμ, ⟨e, rfl⟩, h⟩)⟩
  · intro hμ k hk
    rcases Nat.lt_or_ge k (μ.entry host wal.epoch).size with hlt | hge
    · exact .inl (htorn hμ k hlt)
    · rw [List.take_of_length_le (by rwa [LogRecord.length_encode])]
      refine .inr ⟨hwithin.2 hμ, _, ?_, (hattached.concat (entry_fits hμ _) engine.data).logged⟩
      rw [happly]
      exact hstands' hμ _
  · intro hμ
    refine hends _ _ (.inl ⟨hwithin.2 hμ, rfl, _, ?_, ?_, _, hattached.concat (entry_fits hμ _) _,
      ?_⟩)
    · rw [happly]
      exact hstands' hμ _
    · rw [happly, hattached.cap]
    · rw [synced_epoch, pushed_epoch]
      exact hbehind _
  · intro hμ hmay k _ hlt e
    refine hfail hmay e _ (fun hnil => ?_) (htorn hμ k hlt)
    have hpos := length_logOf_pos hattached.fits
    rw [(List.append_eq_nil_iff.1 hnil).1] at hpos
    exact lt_irrefl 0 hpos
  · -- the entry is in the file, and the object behind it
    intro hμ hmay e
    exact hsync hμ hmay e _ _ rfl ⟨_, hstands' hμ _, rfl, _,
      hattached.pushed (entry_fits hμ _) _, hbehind _⟩

/-- **`set` and `remove` on a system whose `fsync` can fail**: what they did without it, or the
change is in the log and the engine would be in step if it had made it. -/
theorem wp_changeSync {orders : Orders} {op : Op} {μ : Mutation} (hop : op.mutation = some μ)
    (h : Related True host p maxHistoryPerKey ⟨some engine, fs⟩ data) :
    wp (syncFails p).env (engine.call host orders op)
      (fun result fs' => Ends True host p maxHistoryPerKey data op result fs' ∨
        μ.Fits ∧ (∃ e, result.1 = .error e) ∧ result.2.data = data ∧
          Related True host p maxHistoryPerKey
            ⟨some { result.2 with data := μ.apply maxHistoryPerKey data }, fs'⟩
            (μ.apply maxHistoryPerKey data))
      (Interrupted True host p maxHistoryPerKey data op) fs :=
  wp_changeAny hop h (fun _ _ => .inl) (fun hmay => absurd hmay (by rintro ⟨_, ⟨⟩⟩))
    fun hμ _ e _ _ hdata hrelated => .inr ⟨hμ, ⟨.runtimeError e, rfl⟩, hdata, hrelated⟩

/-- What a step does when an `fsync` may fail in it: it is a step of the store, or a change that was
refused is in the log. -/
theorem step_sync (h : Related True host p maxHistoryPerKey w data)
    (hstep : (syncFailing host p maxHistoryPerKey).step w event w') :
    (∃ data', (store maxHistoryPerKey).step data event data' ∧
      Related True host p maxHistoryPerKey w' data') ∨
    ∃ op e μ engine₀ engine, event = .threw op e ∧ op.mutation = some μ ∧ μ.Fits ∧
      w.engine = some engine₀ ∧ engine₀.data = data ∧ w'.engine = some engine ∧
      engine.data = data ∧ Related True host p maxHistoryPerKey
        ⟨some { engine with data := μ.apply maxHistoryPerKey data }, w'.fs⟩
        (μ.apply maxHistoryPerKey data) := by
  rcases hstep with hsound | ⟨⟨op, μ, hevent, hop⟩, hstep⟩
  · exact .inl (machine_refines (fun _ _ hlimits hop => ⟨trivial, hlimits hop⟩) h hsound)
  cases hstep with
  | returned hx =>
    obtain rfl := Option.some.inj hevent
    rcases wp_exec (wp_changeSync hop h) hx with
      (⟨hwithin, hok, hrelated⟩ | ⟨-, ⟨_, he⟩, -⟩) | ⟨-, ⟨_, he⟩, -⟩
    · obtain rfl := Except.ok.inj hok
      exact .inl ⟨_, .returned data hwithin, hrelated⟩
    · cases he
    · cases he
  | threw hx =>
    obtain rfl := Option.some.inj hevent
    rcases wp_exec (wp_changeSync hop h) hx with
      (⟨-, hok, -⟩ | ⟨hwithin, ⟨what, he⟩, hrelated⟩) | ⟨hμ, -, hdata, hrelated⟩
    · cases hok
    · obtain rfl := Except.error.inj he
      exact .inl ⟨data, .refused data what hwithin, hrelated⟩
    · obtain ⟨-, -, hdata₀, -⟩ := id h
      exact .inr ⟨_, _, μ, _, _, rfl, hop, hμ, rfl, hdata₀, rfl, hdata, hrelated⟩
  | crashed hx =>
    obtain rfl := Option.some.inj hevent
    rcases wp_crash (wp_changeSync hop h) hx with hrelated | ⟨hwithin, hrelated⟩
    · exact .inl ⟨data, .undone data _, hrelated⟩
    · exact .inl ⟨_, .done data hwithin, hrelated⟩
  | _ => cases hevent

/-- What the callers are promised simulates the runs in which no failing call had anything to
change. -/
theorem sync_refines : Lts.Simulation
    ((syncFailing host p maxHistoryPerKey).restrict (NothingToChange maxHistoryPerKey))
    (promised maxHistoryPerKey) (Related True host p maxHistoryPerKey) := by
  rintro ⟨state, fs⟩ event ⟨state', fs'⟩ data h ⟨hnothing, hstep⟩
  rcases step_sync h hstep with ⟨data', hkept, hrelated⟩ |
    ⟨op, e, μ, engine₀, engine, rfl, hop, hμ, hengine₀, rfl, rfl, hdata, hrelated⟩
  · exact ⟨data', .kept hkept, hrelated⟩
  · -- the change that is in the log is none
    have hnone := hnothing op e μ engine₀ rfl hop hμ hengine₀
    rw [hnone, ← hdata] at hrelated
    rw [← hdata]
    exact ⟨engine.data, .threw _ _ _, hrelated⟩

/-- `set` can fail with its entry in the file. -/
theorem exec_set_sync {F : Faults} {key value : Bytes} {duration : UInt64} {now : Int64} {wal : WAL}
    {b : Bytes} (orders : Orders) (hmay : F.mayFail (.fsync p)) (hwal : engine.wal = some wal)
    (hfd : wal.fd = some p) (hfile : fs p = some b)
    (hfits : (Mutation.put key ⟨value, duration, now⟩).Fits)
    (hdue : wal.pendingWrites + 1 ≥ wal.syncEveryN) {r : LogRecord}
    (hr : r = (Mutation.put key ⟨value, duration, now⟩).entry host wal.epoch) :
    Exec F.env (engine.call host orders (.set key value duration now)) fs
      (.error (.runtimeError "fsync failed"), { engine with wal := some (wal.pushed r) })
      (fs.put p (b ++ r.encode wal.headHash wal.seq)) := by
  have hfit : r.Fits := hr ▸ entry_fits hfits wal.epoch
  have hepoch : r.epoch = wal.epoch := by rw [hr, Mutation.entry_epoch]
  have happend := exec_append_sync hmay hfd hfile hfit hepoch hdue
  subst hr
  rw [StorageEngine.call, StorageEngine.set, if_neg (not_lt.2 hfits.1), if_neg (not_lt.2 hfits.2),
    hwal]
  exact exec_bind.2 ⟨(_, { engine with wal := some _ }), _,
    exec_bind.2 ⟨_, _, happend, .ret _ _⟩, .ret _ _⟩

/-- An engine on a new store, and a `set` whose `fsync` fails. -/
theorem exists_set_sync (host : ByteOrder) (maxHistoryPerKey : ℕ) (key value : Bytes)
    (duration : UInt64) (now : Int64) (hnew : fs.bytes p = [])
    (hnone : fs (makeSnapshotPath p) = none)
    (hfits : (Mutation.put key ⟨value, duration, now⟩).Fits) : ∃ engine fs₁ engine' fs₂,
    (sound host p maxHistoryPerKey).step ⟨none, fs⟩ .opened ⟨some engine, fs₁⟩ ∧
      engine.data = ∅ ∧ engine'.data = ∅ ∧
      (syncFailing host p maxHistoryPerKey).step ⟨some engine, fs₁⟩
        (.threw (.set key value duration now) (.runtimeError "fsync failed"))
        ⟨some engine', fs₂⟩ := by
  obtain ⟨engine, fs₁, hopen, -, hrelated, -⟩ := run_open_empty host maxHistoryPerKey 1
    ⟨Order.any, Order.any⟩ hnew hnone
  obtain ⟨rs, -, hdata, wal, hattached, -⟩ := id hrelated
  have hx := exec_of_run (E := (Faults.none 0).env) Faults.allows_posix hopen
  obtain ⟨wal', hwal', hevery, -⟩ := wp_exec (wp_openCount Faults.none_steady) hx engine rfl
  obtain rfl := Option.some.inj (hattached.log.symm.trans hwal')
  have hdue : wal.pendingWrites + 1 ≥ wal.syncEveryN := by
    rw [hevery]
    exact Nat.le_add_left ..
  have hthrew : Exec (syncFails p).env (engine.call host ⟨Order.any, Order.any⟩
      (.set key value duration now)) fs₁ _ _ := exec_set_sync ⟨Order.any, Order.any⟩ rfl
    hattached.log hattached.fd hattached.file hfits hdue rfl
  have hopened : (sound host p maxHistoryPerKey).step ⟨none, fs⟩ .opened ⟨some engine, fs₁⟩ :=
    step_sound (by rintro ⟨⟩) (.opened (exec_of_run Faults.allows_posix hopen))
  refine ⟨engine, fs₁, _, _, hopened, hdata, ?_, .inr ⟨⟨_, _, rfl, rfl⟩, .threw hthrew⟩⟩
  exact hdata

end LiteSpeedStore
