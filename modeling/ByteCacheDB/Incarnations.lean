import ByteCacheDB.AtomicSave
import ByteCacheDB.LiveRecovery
import ByteCacheDB.SecondRecovery

/-!
# One store across restarts

A server without a key limit is killed at any moment between two records and started
again on what it has left, any number of times.  Beside the server the state keeps the
history, every record that was ever appended.  Snapshots and restarts come and go; what
the history stands for is what every restart builds.
-/

namespace ByteCacheDB

open CommandParser StorageEngine AppendOnlyFile Files FileSystem Runs

/-- Two mirrors of one cell, seen at the time of the second. -/
theorem Mirrors.between {t t₁ : TimePoint} {c r r₁ : Cell} (h₁ : Mirrors t₁ c r₁)
    (h : Mirrors t c r) : Mirrors t r₁ r := by
  cases h₁ with
  | absent => exact h
  | plain value => exact h
  | timed value hsame hahead =>
      cases h with
      | timed _ hsame' hahead' =>
          exact .timed value (hsame.symm.trans hsame') (hsame ▸ hahead')

/-- What stands for a store also stands for a mirror of it. -/
theorem Reflected.between {t t₁ : TimePoint} {journal : List Command} {durable r : Store}
    (h₁ : Store.Mirrors t₁ durable r) (h : Reflected t journal durable) :
    Reflected t journal r := by
  obtain ⟨u, hu, hmirror⟩ := h
  exact ⟨u, hu, fun key ↦ (h₁ key).between (hmirror key)⟩

/-- The same record behind two lists that stand for the same store. -/
theorem Reflected.both {t : Instant} {journal history : List Command} {command : Command}
    {durable live : Store} (hkept : Reflected t.1 journal durable)
    (hrecorded : Reflected t.1 history durable) (hlog : command.Loggable)
    (hwhole : command.Whole) (h : Reflected t.1 (journal ++ [command]) live) :
    Reflected t.1 (history ++ [command]) live := by
  obtain ⟨r, hr, hmirror⟩ := hkept
  obtain ⟨u, hu, hmirror'⟩ := hrecorded
  obtain ⟨r', hr', hlive⟩ := h
  rw [replayed_append, hr, Option.bind_some] at hr'
  have hclear : command.Clear t.1 := by
    intro d hd hlt
    rw [Command.deadline?] at hd
    rw [Command.Whole] at hwhole
    split at hd
    · rename_i hop
      rw [hop] at hwhole
      obtain rfl := Option.some.inj hd
      rw [hwhole]
      exact hlt
    · simp at hd
  obtain ⟨u', hu', hboth⟩ := (hmirror.symm.trans hmirror').replayAll t.2
    (by simpa using hlog) (by simpa using hclear) (toOption_eq_some_iff.mp hr')
  refine ⟨u', ?_, hlive.trans hboth⟩
  rw [replayed_append, hu, Option.bind_some]
  exact toOption_eq_some_iff.mpr hu'

/-- Where no key is on its way to be evicted. -/
def EnginePc.Spares {S : Sharding} : EnginePc S → Prop
  | .entering call _ => call.sectioned = true ∧ call ≠ .takeEvictedKeys
  | .idle | .counting _ _ _ | .sweeping _ _ _ _ | .sizing | .limiting => True
  | .waiting | .evicting | .scanning _ _ | .striking _ | .struck _ => False

namespace SharedServer

variable {S : Sharding} {κ : Type*}

/-- The records that the writer has to append for what it has done to the store, read off
the place where it stands. -/
def due (m : SharedServer S κ) : List Command :=
  match m.writer with
  | some (k, .calling call log) =>
      match m.engine.pcs k with
      | .entering _ _ => []
      | _ => if call.logs (m.engine.answers k) then log :: m.pending.map evictionCommand else []
  | some (_, .logging log) => log :: m.pending.map evictionCommand
  | some (_, .draining) => m.pending.map evictionCommand
  | some (_, .appending keys) => keys.map evictionCommand
  | _ => []

/-- The record that an event appends. -/
def appended (m : SharedServer S κ) : ServerEvent κ → List Command
  | .append _ =>
      match m.writer with
      | some (_, .logging log) => [log]
      | some (_, .appending (key :: _)) => [evictionCommand key]
      | _ => []
  | _ => []

/-- What a `SAVE` has copied and not written yet. -/
def saving? (m : SharedServer S κ) : Option (StorageEngine S × Instant) :=
  match m.writer with
  | some (_, .saving storage now) => some (storage, now)
  | _ => none

/-- The files a killed server can leave: the log as it is; the snapshot as it is or, in a
`SAVE`, already the new one; and any temporary file. -/
def Leaves (m : SharedServer S κ) (left : Disk) : Prop :=
  left.aof = m.disk.aof ∧ (left.snapshot = m.disk.snapshot ∨
    m.persistence.hasSnapshotPath = true ∧ ∃ w ∈ m.saving?, left.snapshot =
      some (snapshotFile m.persistence.sequence (w.1.snapshotEntries w.2.1)))

instance (m : SharedServer S κ) (left : Disk) : Decidable (m.Leaves left) :=
  inferInstanceAs (Decidable (_ ∧ (_ ∨ _ ∧ ∃ w ∈ m.saving?, _)))

/-- A new process on the files. -/
def restarted (m : SharedServer S κ) (left : Disk) (now : Instant) : Option (SharedServer S κ) :=
  (m.persistence.start S left m.engine.engine.maxKeys now.1).map fun r ↦
    { engine := { engine := r.2.1 }, persistence := r.1, disk := r.2.2, now := now }

end SharedServer

/-- A server and every record that was appended in this or an earlier process. -/
structure Incarnations (S : Sharding) (κ : Type*) where
  server : SharedServer S κ
  history : List Command := []

inductive LifeEvent (κ : Type*) where
  | run (e : ServerEvent κ)
  | restart (left : Disk) (now : Instant)

namespace Incarnations

variable {S : Sharding} {κ : Type*} [Fintype κ] [DecidableEq κ]

def initial (S : Sharding) (κ : Type*) (policy : FsyncPolicy) (path : Bool) : Incarnations S κ where
  server := SharedServer.initial S κ policy path 0

def step (m : Incarnations S κ) : LifeEvent κ → Option (Incarnations S κ)
  | .run e =>
      (m.server.step e).map fun server ↦ ⟨server, m.history ++ m.server.appended e⟩
  | .restart left now =>
      if m.server.Leaves left ∧ m.server.now.1 ≤ now.1 then
        (m.server.restarted left now).map fun server ↦ { m with server := server }
      else none

/-- As in one process: deadlines that are logged are behind the end, or were reached when
they were set. -/
def Ahead (t : TimePoint) (m : Incarnations S κ) : LifeEvent κ → Prop
  | .run e => SharedServer.Ahead t m.server e
  | .restart _ _ => True

def InRange (m : Incarnations S κ) : LifeEvent κ → Prop
  | .run e => m.server.InRange e
  | .restart _ _ => True

instance (t : TimePoint) (m : Incarnations S κ) : (e : LifeEvent κ) → Decidable (m.Ahead t e)
  | .run e => inferInstanceAs (Decidable (SharedServer.Ahead t m.server e))
  | .restart _ _ => isTrue trivial

instance (m : Incarnations S κ) : (e : LifeEvent κ) → Decidable (m.InRange e)
  | .run e => inferInstanceAs (Decidable (m.server.InRange e))
  | .restart _ _ => isTrue trivial

end Incarnations

namespace SharedServer

variable {S : Sharding} {κ : Type*} {t : Instant} {m m' : SharedServer S κ} {owed : List Command}

theorem Owes.eq_due (h : Owes t m owed) : owed = m.due := by
  cases h with
  | free hw => simp [due, hw]
  | holding hw => simp [due, hw]
  | prepared hw => simp [due, hw]
  | entering hw _ _ hpc => simp [due, hw, hpc]
  | refused hw hpc hlogs =>
      simp only [due, hw, hlogs]
      split <;> rfl
  | @evicting k _ _ hw _ _ hpc _ hlogs =>
      simp only [due, hw, hlogs, if_true]
      split
      · rename_i hentering
        simp [hentering, EnginePc.Works] at hpc
      · rfl
  | logging hw => simp [due, hw]
  | draining hw => simp [due, hw]
  | appending hw => simp [due, hw]
  | snapshotting hw => simp [due, hw]
  | saving hw => simp [due, hw]

/-! ## Nothing is evicted -/

/-- Without a limit the writer owes its own record at most. -/
structure Unlimited (m : SharedServer S κ) : Prop where
  maxKeys : m.engine.engine.maxKeys = 0
  spares : ∀ k, (m.engine.pcs k).Spares
  pending : m.pending = []
  drained : ∀ k keys, m.writer = some (k, .appending keys) → keys = []

end SharedServer

namespace ConcurrentEngine

variable {S : Sharding} {κ : Type*} [Fintype κ] {m : ConcurrentEngine S κ} {pc : EnginePc S}
  {r : StorageEngine S × EnginePc S × Option EngineResult}

theorem advance_spares (hmax : m.engine.maxKeys = 0) (hpc : pc.Spares)
    (h : m.advance pc = some r) :
    r.1.maxKeys = 0 ∧ r.1.pendingEvictedKeys = m.engine.pendingEvictedKeys ∧ r.2.1.Spares := by
  cases pc with
  | entering call now =>
      have hwell : (EnginePc.entering call now : EnginePc S).WellFormed := hpc.1
      have hconfig := config_advances hwell (advances_of_advance h)
      simp only [advance, Option.ite_none_right_eq_some, Option.some.injEq] at h
      obtain ⟨-, rfl⟩ := h
      refine ⟨hconfig.1.trans hmax, ?_, trivial⟩
      rw [pending_enter]
      exact pending_beforeEviction hpc.1 hpc.2 _ _
  | counting held counts enforce =>
      cases counts with
      | nil =>
          obtain rfl := Option.some.inj h
          refine ⟨hmax, rfl, ?_⟩
          dsimp only
          split <;> trivial
      | cons c cs =>
          obtain rfl := Option.some.inj h
          exact ⟨hmax, rfl, trivial⟩
  | sweeping now rest removed sized =>
      cases rest with
      | nil =>
          obtain rfl := Option.some.inj h
          refine ⟨hmax, rfl, ?_⟩
          dsimp only
          split <;> trivial
      | cons i rest =>
          simp only [advance, Option.ite_none_right_eq_some, Option.some.injEq] at h
          obtain ⟨-, rfl⟩ := h
          exact ⟨hmax, rfl, trivial⟩
  | sizing =>
      obtain rfl := Option.some.inj h
      exact ⟨hmax, rfl, trivial⟩
  | limiting =>
      simp only [advance, hmax, true_or, or_true, if_true, Option.some.injEq] at h
      subst h
      exact ⟨hmax, rfl, trivial⟩
  | idle => simp [advance] at h
  | waiting | evicting | scanning | striking | struck => exact hpc.elim

omit [Fintype κ] in
theorem spares_begin {call : EngineCall} {now : TimePoint} (hne : call ≠ .takeEvictedKeys)
    (h : begin call now = some pc) : pc.Spares := by
  unfold begin at h
  split at h
  · obtain rfl := Option.some.inj h
    trivial
  · obtain rfl := Option.some.inj h
    trivial
  · rw [Option.ite_none_right_eq_some] at h
    obtain rfl := Option.some.inj h.2
    exact ⟨h.1, hne⟩

end ConcurrentEngine

theorem RecordedBy.ne_takeEvictedKeys {S : Sharding} {call : EngineCall} {log : Command}
    (h : RecordedBy S call log) : call ≠ .takeEvictedKeys := by
  rintro rfl
  have hpending := h.pending { pendingEvictedKeys := [[]] } 0
  simp [beforeEviction, StorageEngine.call, takeEvictedKeys] at hpending

namespace SharedServer

variable {S : Sharding} {κ : Type*} [Fintype κ] [DecidableEq κ] {t : Instant}
  {m m' : SharedServer S κ} {owed : List Command}

omit [Fintype κ] [DecidableEq κ] in
/-- A step that leaves the engine alone. -/
theorem Unlimited.of_engine (h : Unlimited m) (hengine : m'.engine = m.engine)
    (hdrained : ∀ k keys, m'.writer = some (k, .appending keys) → keys = []) : Unlimited m' where
  maxKeys := by rw [hengine]; exact h.maxKeys
  spares := by rw [hengine]; exact h.spares
  pending := (congrArg (fun engine : ConcurrentEngine S κ ↦ engine.engine.pendingEvictedKeys)
    hengine).trans h.pending
  drained := hdrained

/-- A thread that begins a call. -/
theorem Unlimited.of_call (h : Unlimited m) {k : κ} {call : EngineCall} {now : TimePoint}
    (hne : call ≠ .takeEvictedKeys) (hcall : m.engine.step (.call k call now) = some m'.engine)
    (hdrained : ∀ k keys, m'.writer = some (k, .appending keys) → keys = []) : Unlimited m' := by
  obtain ⟨-, hbegin, hengine, -, hothers⟩ := ConcurrentEngine.call_spec hcall
  refine ⟨by rw [hengine]; exact h.maxKeys, fun j ↦ ?_,
    (congrArg pendingEvictedKeys hengine).trans h.pending, hdrained⟩
  by_cases hj : j = k
  · rw [hj]
    exact ConcurrentEngine.spares_begin hne hbegin
  · rw [hothers j hj]
    exact h.spares j

theorem Unlimited.mutate (h : Unlimited m) (hcontrolled : Controlled t m owed) {now : Instant}
    (hstep : m.step (.mutate now) = some m') : Unlimited m' := by
  simp only [SharedServer.step] at hstep
  split at hstep
  · rename_i k call log hw
    simp only [Option.ite_none_right_eq_some] at hstep
    obtain ⟨engine, hcall, rfl⟩ := Option.map_eq_some_iff.mp hstep.2
    refine h.of_call ?_ hcall (by simp)
    cases hcontrolled.owes with
    | prepared hw' hrecorded =>
        obtain ⟨rfl, rfl, rfl⟩ : k = _ ∧ call = _ ∧ log = _ := by simpa [hw] using hw'
        exact hrecorded.ne_takeEvictedKeys
    | _ hw' => simp [hw] at hw'
  · simp at hstep

/-- `take_evicted_keys` finds nothing, so no `DEL` is to be appended. -/
theorem Unlimited.finish (h : Unlimited m) (hstep : m.step .finish = some m') :
    Unlimited m' := by
  simp only [SharedServer.step] at hstep
  split at hstep
  · simp only [Option.ite_none_right_eq_some, Option.some.injEq] at hstep
    obtain ⟨-, rfl⟩ := hstep
    refine h.of_engine rfl fun j keys hkeys ↦ ?_
    dsimp only at hkeys
    split at hkeys <;> simp at hkeys
  · obtain rfl := Option.some.inj hstep
    refine ⟨h.maxKeys, h.spares, rfl, fun j keys hkeys ↦ ?_⟩
    simp only [Option.some.injEq, Prod.mk.injEq, WriteStage.appending.injEq] at hkeys
    exact hkeys.2.symm.trans h.pending
  · obtain rfl := Option.some.inj hstep
    exact h.of_engine rfl (by simp)
  · simp only [Option.ite_none_right_eq_some, Option.some.injEq] at hstep
    obtain ⟨-, rfl⟩ := hstep
    exact h.of_engine rfl (by simp)
  · simp at hstep

theorem Unlimited.step (h : Unlimited m) (hcontrolled : Controlled t m owed) {e : ServerEvent κ}
    (hstep : m.step e = some m') : Unlimited m' := by
  cases e with
  | read | sweep =>
      simp only [SharedServer.step, Option.ite_none_right_eq_some, Option.some.injEq] at hstep
      obtain ⟨-, rfl⟩ := hstep
      exact h.of_engine rfl h.drained
  | write k command =>
      simp only [SharedServer.step] at hstep
      split at hstep
      · simp only [Option.ite_none_right_eq_some, Option.some.injEq] at hstep
        obtain ⟨-, rfl⟩ := hstep
        exact h.of_engine rfl (by simp)
      · simp at hstep
  | call k now =>
      simp only [SharedServer.step] at hstep
      split at hstep
      · simp at hstep
      · rename_i call rest hreading
        simp only [Option.ite_none_right_eq_some] at hstep
        obtain ⟨engine, hcall, rfl⟩ := Option.map_eq_some_iff.mp hstep.2
        refine h.of_call ?_ hcall h.drained
        rintro rfl
        simpa [EngineCall.reads] using hcontrolled.reading k .takeEvictedKeys (by simp [hreading])
  | step k =>
      obtain ⟨engine, hengine, rfl⟩ := Option.map_eq_some_iff.mp hstep
      obtain ⟨r, hadvance, rfl⟩ := Option.map_eq_some_iff.mp hengine
      obtain ⟨hmax, hpending, hspares⟩ :=
        ConcurrentEngine.advance_spares h.maxKeys (h.spares k) hadvance
      refine ⟨hmax, fun j ↦ ?_, hpending.trans h.pending, h.drained⟩
      by_cases hj : j = k
      · subst hj
        simpa using hspares
      · simpa [hj] using h.spares j
  | prepare now =>
      simp only [SharedServer.step] at hstep
      split at hstep
      · rename_i k command hw
        simp only [Option.ite_none_right_eq_some, Option.some.injEq] at hstep
        obtain ⟨-, rfl⟩ := hstep
        refine h.of_engine rfl fun j keys hkeys ↦ ?_
        dsimp only at hkeys
        split at hkeys
        · simp at hkeys
        · obtain ⟨p, -, hp⟩ := Option.map_eq_some_iff.mp hkeys
          simp at hp
      · simp at hstep
  | mutate now => exact h.mutate hcontrolled hstep
  | finish => exact h.finish hstep
  | append o =>
      simp only [SharedServer.step] at hstep
      split at hstep
      · have hspec := (record_spec hstep).1
        have hengine : m'.engine = m.engine := by rw [hspec]
        refine h.of_engine hengine fun j keys hkeys ↦ ?_
        rw [hspec] at hkeys
        simp at hkeys
      · rename_i k key rest hw
        simpa using h.drained k _ hw
      · simp at hstep
  | save o =>
      simp only [SharedServer.step] at hstep
      split at hstep
      · obtain rfl := Option.some.inj hstep
        exact h.of_engine rfl (by simp)
      · simp at hstep

/-! ## What the files and the history stand for -/

/-- At time `t` the journal and the history replay to the durable store, and with the
records that are due the journal replays to the live one. -/
structure Stands (t : Instant) (m : SharedServer S κ) (journal history : List Command)
    (durable : Store) : Prop where
  controlled : Controlled t m m.due
  reflected : Reflected t.1 (journal ++ m.due) m.cells
  kept : Reflected t.1 journal durable
  recorded : Reflected t.1 history durable

omit [Fintype κ] [DecidableEq κ] in
theorem Ahead.mono {t' : Instant} {e : ServerEvent κ} (hle : t.1 ≤ t'.1) (h : Ahead t'.1 m e) :
    Ahead t.1 m e := by
  cases e with
  | step k => exact fun x hx hlogged hlt ↦ Int64.lt_of_le_of_lt hle (h x hx hlogged hlt)
  | _ => trivial

omit [Fintype κ] [DecidableEq κ] in
theorem writer_of_saving? {storage : StorageEngine S} {now : Instant}
    (h : m.saving? = some (storage, now)) : ∃ k, m.writer = some (k, .saving storage now) := by
  unfold saving? at h
  split at h
  · rename_i k storage' now' hw
    obtain ⟨rfl, rfl⟩ : storage' = storage ∧ now' = now := by simpa using h
    exact ⟨k, hw⟩
  · simp at h

omit [Fintype κ] [DecidableEq κ] in
/-- A save that has returned leaves what a killed one can leave. -/
theorem leaves_saveSnapshot {storage : StorageEngine S} {now : Instant} (o : SaveOutcome)
    (hw : m.saving? = some (storage, now)) :
    m.Leaves (m.persistence.saveSnapshot m.disk storage now.1 o).2 := by
  cases hresult : (m.persistence.saveSnapshot m.disk storage now.1 o).1 with
  | error e =>
      obtain ⟨hsnapshot, haof⟩ := saveSnapshot_error hresult
      exact ⟨haof, Or.inl hsnapshot⟩
  | ok u =>
      rw [saveSnapshot_ok hresult]
      exact ⟨rfl, Or.inr ⟨hasSnapshotPath_of_saveSnapshot hresult, (storage, now), hw, rfl⟩⟩

/-- Only appends and saves touch the files. -/
theorem files_of_step {e : ServerEvent κ}
    (happend : ∀ o, e ≠ .append o) (hsave : ∀ o, e ≠ .save o) (hstep : m.step e = some m') :
    m'.persistence = m.persistence ∧ m'.disk = m.disk ∧ m.appended e = [] := by
  cases e with
  | append o => exact absurd rfl (happend o)
  | save o => exact absurd rfl (hsave o)
  | read | sweep =>
      simp only [SharedServer.step, Option.ite_none_right_eq_some, Option.some.injEq] at hstep
      obtain ⟨-, rfl⟩ := hstep
      exact ⟨rfl, rfl, rfl⟩
  | step k =>
      obtain ⟨engine, -, rfl⟩ := Option.map_eq_some_iff.mp hstep
      exact ⟨rfl, rfl, rfl⟩
  | write | prepare =>
      simp only [SharedServer.step] at hstep
      split at hstep
      · simp only [Option.ite_none_right_eq_some, Option.some.injEq] at hstep
        obtain ⟨-, rfl⟩ := hstep
        exact ⟨rfl, rfl, rfl⟩
      · simp at hstep
  | call =>
      simp only [SharedServer.step] at hstep
      split at hstep
      · simp at hstep
      · simp only [Option.ite_none_right_eq_some] at hstep
        obtain ⟨engine, -, rfl⟩ := Option.map_eq_some_iff.mp hstep.2
        exact ⟨rfl, rfl, rfl⟩
  | mutate =>
      simp only [SharedServer.step] at hstep
      split at hstep
      · simp only [Option.ite_none_right_eq_some] at hstep
        obtain ⟨engine, -, rfl⟩ := Option.map_eq_some_iff.mp hstep.2
        exact ⟨rfl, rfl, rfl⟩
      · simp at hstep
  | finish =>
      simp only [SharedServer.step] at hstep
      split at hstep
      · simp only [Option.ite_none_right_eq_some, Option.some.injEq] at hstep
        obtain ⟨-, rfl⟩ := hstep
        exact ⟨rfl, rfl, rfl⟩
      · obtain rfl := Option.some.inj hstep
        exact ⟨rfl, rfl, rfl⟩
      · obtain rfl := Option.some.inj hstep
        exact ⟨rfl, rfl, rfl⟩
      · simp only [Option.ite_none_right_eq_some, Option.some.injEq] at hstep
        obtain ⟨-, rfl⟩ := hstep
        exact ⟨rfl, rfl, rfl⟩
      · simp at hstep

/-- A step that leaves the files alone. -/
theorem Stands.step {journal history : List Command} {durable : Store}
    (h : Stands t m journal history durable) {e : ServerEvent κ} (hahead : Ahead t.1 m e)
    (hrange : m.InRange e) (hend : m'.now.1 ≤ t.1) (hstep : m.step e = some m')
    (henabled : m.persistence.enabled = true) (hopened : m.persistence.opened = true)
    (hpersistence : m'.persistence = m.persistence) :
    Stands t m' journal history durable ∧
      (m'.due = [] → m.due = [] ∧ m'.cells = m.cells) := by
  have hlive := liveUntil_of_reflected h.reflected
  obtain ⟨owed, hcontrolled, heffect⟩ :=
    controlled_step h.controlled hlive hahead hrange hend hstep
  obtain rfl := hcontrolled.owes.eq_due
  suffices hrest : Reflected t.1 (journal ++ m'.due) m'.cells ∧
      (m'.due = [] → m.due = [] ∧ m'.cells = m.cells) from
    ⟨⟨hcontrolled, hrest.1, h.kept, h.recorded⟩, hrest.2⟩
  have hreflected := h.reflected
  generalize m.due = owed at heffect hreflected ⊢
  generalize m'.due = owed' at heffect ⊢
  cases heffect with
  | same hcells =>
      rw [hcells]
      exact ⟨hreflected, fun hnone ↦ ⟨hnone, rfl⟩⟩
  | acts hnow hlog hadm hops hclear hacts =>
      rw [List.append_nil] at hreflected
      exact ⟨hreflected.record t.2 hnow hlog hops hclear hacts, by simp⟩
  | @evict _ key hcells =>
      refine ⟨?_, by simp⟩
      have hevicted := hreflected.evictions t.2 [key]
      rw [Store.eraseAll_cons, Store.eraseAll_nil, ← hcells, List.append_assoc] at hevicted
      exact hevicted
  | @record command _ o hcells hadm hlog hwhole happend =>
      -- an append would have counted its record
      obtain ⟨d, hspec⟩ := append_spec henabled hopened m.disk o command
      have hsequence := congrArg (fun r ↦ r.1.sequence) hspec
      simp only [happend, hpersistence] at hsequence
      exact absurd hsequence (by grind)
  | save _ _ hcells =>
      rw [hcells]
      exact ⟨hreflected, fun _ ↦ ⟨rfl, rfl⟩⟩

end SharedServer

/-! ## The files of a restart -/

section
variable {S : Sharding} {st : Session S} {base all : List Command} {saved : ℕ}

/-- The largest number in the files is the number of records. -/
theorem maxSequence_numbered (h : saved ≤ all.length) (hsmall : all.length < 2 ^ 63) :
    maxSequence (UInt64.ofNat saved) (numbered 0 all) = UInt64.ofNat all.length := by
  obtain ⟨hheader, hrecords, hleast⟩ := maxSequence_spec (UInt64.ofNat saved) (numbered 0 all)
  have hofNat {a b : ℕ} (hab : a ≤ b) (hb : b < 2 ^ 63) : UInt64.ofNat a ≤ UInt64.ofNat b := by
    rw [UInt64.le_iff_toNat_le, UInt64.toNat_ofNat', UInt64.toNat_ofNat',
      Nat.mod_eq_of_lt (by omega), Nat.mod_eq_of_lt (by omega)]
    exact hab
  apply UInt64.le_antisymm
  · refine hleast _ (hofNat h hsmall) fun r hr ↦ ?_
    obtain ⟨i, hi⟩ := List.mem_iff_getElem?.mp hr
    rw [getElem?_numbered] at hi
    obtain ⟨command, hcommand, rfl⟩ := Option.map_eq_some_iff.mp hi
    obtain ⟨hlt, -⟩ := List.getElem?_eq_some_iff.mp hcommand
    rw [UInt64.zero_add]
    exact hofNat hlt hsmall
  · cases hlast : all.length with
    | zero =>
        obtain rfl : saved = 0 := by omega
        exact hheader
    | succ n =>
        have hn : n < all.length := by omega
        have hmem : (0 + UInt64.ofNat (n + 1), all[n]) ∈ numbered 0 all := by
          apply List.mem_iff_getElem?.mpr
          exact ⟨n, by simp [getElem?_numbered, List.getElem?_eq_getElem hn]⟩
        simpa using hrecords _ hmem

/-- A start on the files of a session. -/
theorem Filed.start (h : Filed st base all saved) {t : TimePoint} {s : StorageEngine S}
    (hs : st.recovered t = some s) :
    st.server.persistence.start S st.server.disk st.server.storage.maxKeys t =
      some ({ st.server.persistence.fresh with
          sequence := UInt64.ofNat all.length, opened := true }, s,
        { st.server.disk with aof := some (st.server.disk.aof.getD []) }) := by
  have henabled : st.server.persistence.enabled = true := h.enabled
  have hrecords : HasRecords st.server.disk (numbered 0 all) := by
    refine ⟨h.aof, fun r hr ↦ h.admissible r.2 ?_⟩
    rw [← map_snd_numbered 0 all]
    exact List.mem_map_of_mem hr
  obtain ⟨⟨g, s'⟩, hrecover, rfl⟩ := Option.map_eq_some_iff.mp hs
  have hsome : st.server.persistence.start S st.server.disk st.server.storage.maxKeys t =
      some ({ st.server.persistence.fresh with sequence := g.sequence, opened := true }, s',
        { st.server.disk with aof := some (st.server.disk.aof.getD []) }) := by
    rw [toOption_eq_some_iff] at hrecover
    obtain ⟨n, hg⟩ := log_of_recover hrecover
    rw [AppendOnlyFile.start, hrecover]
    dsimp only
    rw [hg, open_fresh henabled]
  have hfiles := (start_files henabled h.hasHeader hrecords hsome).1
  rw [maxSequence_numbered h.saved_le h.length_lt] at hfiles
  rw [hsome]
  dsimp only at hfiles ⊢
  rw [hfiles]

end

namespace Incarnations

variable {S : Sharding} {κ : Type*} {T : Instant} {m m' : Incarnations S κ}
  {base : List Command} {saved : ℕ} {durable : Store}

/-- What lasts: the files hold the history, and up to the end they stand for one store. -/
structure Lasting (T : Instant) (m : Incarnations S κ) (base : List Command) (saved : ℕ)
    (durable : Store) : Prop where
  unlimited : m.server.Unlimited
  filed : Filed (m.server.session (base ++ m.history.drop saved)) base m.history saved
  whole : ∀ c ∈ base ++ m.history, c.Loggable ∧ c.Whole
  current : m.server.due = [] → durable = m.server.cells
  stands : ∀ t : Instant, m.server.now.1 ≤ t.1 → t.1 ≤ T.1 →
    m.server.Stands t (base ++ m.history.drop saved) m.history durable

/-- The files that a killed server leaves stand for the durable store too. -/
theorem Lasting.left (h : Lasting T m base saved durable) {left : Disk}
    (hleft : m.server.Leaves left) (hend : m.server.now.1 ≤ T.1) (now : Instant) :
    ∃ base' saved', Filed ⟨⟨m.server.engine.engine, m.server.persistence, left⟩, now,
          base' ++ m.history.drop saved'⟩ base' m.history saved' ∧
      (∀ c ∈ base' ++ m.history, c.Loggable ∧ c.Whole) ∧
      ∀ t : Instant, m.server.now.1 ≤ t.1 → t.1 ≤ T.1 →
        Reflected t.1 (base' ++ m.history.drop saved') durable := by
  obtain ⟨haof, hsame | hnew⟩ := hleft
  · exact ⟨base, saved, h.filed.of_same rfl haof hsame rfl, h.whole,
      fun t hfrom hto ↦ (h.stands t hfrom hto).kept⟩
  · obtain ⟨hpath, ⟨storage, saving⟩, hsaving, hsnapshot⟩ := hnew
    obtain ⟨k, hw⟩ := SharedServer.writer_of_saving? hsaving
    have hdue : m.server.due = [] := by simp [SharedServer.due, hw]
    have hstorage (t : Instant) (hfrom : m.server.now.1 ≤ t.1) (hto : t.1 ≤ T.1) :
        saving.1 ≤ t.1 ∧ storage.cells = m.server.cells := by
      have howes := (h.stands t hfrom hto).controlled.owes
      generalize m.server.due = owed at howes
      cases howes with
      | saving hw' hidle hnow hcells hpending =>
          obtain ⟨rfl, rfl, rfl⟩ : k = _ ∧ storage = _ ∧ saving = _ := by simpa [hw] using hw'
          exact ⟨hnow, hcells⟩
      | _ hw' => simp [hw] at hw'
    have hcells := (hstorage T hend (Int64.le_refl _)).2
    refine ⟨(storage.snapshotEntries saving.1).flatMap entryCommands, m.history.length,
      filed_save h.filed rfl hpath haof hsnapshot (by simp), ?_, fun t hfrom hto ↦ ?_⟩
    · intro c hc
      rcases List.mem_append.mp hc with hc | hc
      · obtain ⟨entry, -, hentry⟩ := List.mem_flatMap.mp hc
        exact whole_entryCommands hentry
      · exact h.whole c (List.mem_append_right _ hc)
    · have hkept := (h.stands t hfrom hto).kept
      rw [h.current hdue, ← hcells] at hkept ⊢
      rw [List.drop_length, List.append_nil]
      exact hkept.saved (hstorage t hfrom hto).1

/-- A restart on what a killed server leaves builds a mirror of the durable store, and
that lasts. -/
theorem Lasting.restarts (h : Lasting T m base saved durable) {left : Disk}
    (hleft : m.server.Leaves left) {now : Instant} (hfrom : m.server.now.1 ≤ now.1)
    (hto : now.1 ≤ T.1) :
    ∃ base' saved' server, m.server.restarted left now = some server ∧
      replayed now.1 (base' ++ m.history.drop saved') = some server.cells ∧
      Store.Mirrors now.1 durable server.cells ∧ server.now = now ∧
      Lasting T { m with server := server } base' saved' server.cells := by
  obtain ⟨base', saved', hfiled, hwhole, hreflected⟩ :=
    h.left hleft (Int64.le_trans hfrom hto) now
  obtain ⟨r, hr, hmirror⟩ := hreflected now hfrom hto
  rcases hfiled.recovered_cases now.1 with ⟨-, hnone⟩ | ⟨s, hload, hreplay, hsome⟩
  · rw [hr] at hnone
    simp at hnone
  obtain rfl : r = s.cells := Option.some.inj (hr.symm.trans hreplay)
  have hmax : s.maxKeys = 0 := hload.maxKeys.trans h.unlimited.maxKeys
  have hquiet : s.setEvictionEnabled true = { s with evictionEnabled := true } :=
    enforceMaxKeys_of_le (Or.inl hmax)
  rw [hquiet] at hsome
  have hstart := hfiled.start hsome
  refine ⟨base', saved', _, congrArg (Option.map _) hstart, hr, hmirror, rfl, ?_⟩
  refine ⟨⟨hmax, fun _ ↦ trivial, rfl, by simp⟩, ?_, hwhole, fun _ ↦ rfl, fun t hnow ht ↦ ?_⟩
  · exact {
      enabled := hfiled.enabled
      opened := rfl
      snapshot := hfiled.snapshot
      aof := hfiled.aof
      size := hfiled.size
      admissible := hfiled.admissible
      loggable := hfiled.loggable
      sequence := rfl
      saved_le := hfiled.saved_le
      journal := rfl }
  · have hlater : m.server.now.1 ≤ t.1 := Int64.le_trans hfrom hnow
    have hkept : Reflected t.1 (base' ++ m.history.drop saved') s.cells :=
      (hreflected t hlater ht).between hmirror
    refine ⟨⟨by simp, by simp, fun _ _ ↦ trivial, .free rfl rfl⟩, ?_, hkept,
      (h.stands t hlater ht).recorded.between hmirror⟩
    change Reflected t.1 (base' ++ m.history.drop saved' ++ []) s.cells
    rw [List.append_nil]
    exact hkept

variable [Fintype κ] [DecidableEq κ]

/-- The record of the writer reaches the log. -/
theorem Lasting.append (h : Lasting T m base saved durable) {o : WriteOutcome}
    {server : SharedServer S κ} (hend : m.server.now.1 ≤ T.1)
    (hstep : m.server.step (.append o) = some server) :
    Lasting T ⟨server, m.history ++ m.server.appended (.append o)⟩ base saved server.cells := by
  have hunlimited := h.unlimited.step (h.stands T hend (Int64.le_refl _)).controlled hstep
  have happend := hstep
  simp only [SharedServer.step] at happend
  split at happend
  · rename_i k log hw
    obtain ⟨hserver, hwritten⟩ := SharedServer.record_spec happend
    have hdue : m.server.due = [log] := by
      simp only [SharedServer.due, hw, h.unlimited.pending, List.map_nil]
    have hdue' : server.due = [] := by
      have hpending := hunlimited.pending
      rw [hserver] at hpending ⊢
      simp only [SharedServer.due, hpending, List.map_nil]
    have hcells : server.cells = m.server.cells := by rw [hserver]
    have hnow : server.now = m.server.now := by rw [hserver]
    have hlog : Admissible log ∧ log.Loggable ∧ log.Whole := by
      have howes := (h.stands T hend (Int64.le_refl _)).controlled.owes
      generalize m.server.due = owed at howes
      cases howes with
      | logging hw' hadm hloggable hwhole =>
          obtain ⟨rfl, rfl⟩ : k = _ ∧ log = _ := by simpa [hw] using hw'
          exact ⟨hadm, hloggable, hwhole⟩
      | _ hw' => simp [hw] at hw'
    have happended : m.server.appended (.append o) = [log] := by
      simp only [SharedServer.appended, hw]
    have hdrop : (m.history ++ [log]).drop saved = m.history.drop saved ++ [log] :=
      List.drop_append_of_le_length h.filed.saved_le
    rw [happended]
    refine ⟨hunlimited, ?_, ?_, fun _ ↦ rfl, fun t hfrom hto ↦ ?_⟩
    · dsimp only
      rw [hdrop, ← List.append_assoc]
      exact SharedServer.filed_record h.filed hlog.1 hlog.2.1 hwritten
    · intro c hc
      rw [← List.append_assoc] at hc
      rcases List.mem_append.mp hc with hc | hc
      · exact h.whole c hc
      · rw [List.mem_singleton.mp hc]
        exact hlog.2
    · rw [hnow] at hfrom
      have hstands := h.stands t hfrom hto
      have hreflected := hstands.reflected
      rw [hdue, ← hcells] at hreflected
      obtain ⟨owed, hcontrolled, -⟩ := hstands.controlled.append hstep
      obtain rfl := hcontrolled.owes.eq_due
      have hkept : Reflected t.1 (base ++ (m.history ++ [log]).drop saved) server.cells := by
        rw [hdrop, ← List.append_assoc]
        exact hreflected
      refine ⟨hcontrolled, ?_, hkept,
        hstands.kept.both hstands.recorded hlog.2.1 hlog.2.2 hreflected⟩
      rw [hdue', List.append_nil]
      exact hkept
  · rename_i k key rest hw
    simpa using h.unlimited.drained k _ hw
  · simp at happend

/-- A save that has returned. -/
theorem Lasting.save (h : Lasting T m base saved durable) {o : SaveOutcome}
    {server : SharedServer S κ} (hend : m.server.now.1 ≤ T.1)
    (hstep : m.server.step (.save o) = some server) :
    ∃ base' saved', Lasting T { m with server := server } base' saved' durable := by
  have hunlimited := h.unlimited.step (h.stands T hend (Int64.le_refl _)).controlled hstep
  have hsave := hstep
  simp only [SharedServer.step] at hsave
  split at hsave
  · rename_i k storage now hw
    obtain rfl := Option.some.inj hsave
    have hdue : m.server.due = [] := by simp only [SharedServer.due, hw]
    have hsaving : m.server.saving? = some (storage, now) := by
      simp only [SharedServer.saving?, hw]
    obtain ⟨base', saved', hfiled, hwhole, hreflected⟩ :=
      h.left (SharedServer.leaves_saveSnapshot o hsaving) hend m.server.now
    refine ⟨base', saved', hunlimited, hfiled, hwhole, fun _ ↦ h.current hdue,
      fun t hfrom hto ↦ ?_⟩
    have hstands := h.stands t hfrom hto
    obtain ⟨owed, hcontrolled, -⟩ := hstands.controlled.save hstep
    obtain rfl := hcontrolled.owes.eq_due
    refine ⟨hcontrolled, ?_, hreflected t hfrom hto, hstands.recorded⟩
    change Reflected t.1 (base' ++ m.history.drop saved' ++ []) m.server.cells
    rw [List.append_nil, ← h.current hdue]
    exact hreflected t hfrom hto
  · simp at hsave

theorem Lasting.run (h : Lasting T m base saved durable) {e : ServerEvent κ}
    {server : SharedServer S κ} (hahead : SharedServer.Ahead T.1 m.server e)
    (hrange : m.server.InRange e) (hend : server.now.1 ≤ T.1)
    (hstep : m.server.step e = some server) :
    ∃ base' saved' durable',
      Lasting T ⟨server, m.history ++ m.server.appended e⟩ base' saved' durable' := by
  have hclock := (SharedServer.engine_cases hstep).1
  have hbefore := Int64.le_trans hclock hend
  by_cases happend : ∃ o, e = .append o
  · obtain ⟨o, rfl⟩ := happend
    exact ⟨base, saved, _, h.append hbefore hstep⟩
  by_cases hsave : ∃ o, e = .save o
  · obtain ⟨o, rfl⟩ := hsave
    obtain ⟨base', saved', hlasting⟩ := h.save hbefore hstep
    have hnone : m.server.appended (.save o) = [] := rfl
    rw [hnone, List.append_nil]
    exact ⟨base', saved', durable, hlasting⟩
  obtain ⟨hpersistence, hdisk, happended⟩ := SharedServer.files_of_step
    (fun o ho ↦ happend ⟨o, ho⟩) (fun o ho ↦ hsave ⟨o, ho⟩) hstep
  have hstands (t : Instant) (hfrom : server.now.1 ≤ t.1) (hto : t.1 ≤ T.1) :=
    (h.stands t (Int64.le_trans hclock hfrom) hto).step (hahead.mono hto) hrange hfrom hstep
      h.filed.enabled h.filed.opened hpersistence
  rw [happended, List.append_nil]
  refine ⟨base, saved, durable,
    h.unlimited.step (h.stands T hbefore (Int64.le_refl _)).controlled hstep,
    h.filed.of_same hpersistence (congrArg Disk.aof hdisk) (congrArg Disk.snapshot hdisk) rfl,
    h.whole, fun hdue ↦ ?_, fun t hfrom hto ↦ (hstands t hfrom hto).1⟩
  obtain ⟨hnone, hcells⟩ := (hstands T hend (Int64.le_refl _)).2 hdue
  exact (h.current hnone).trans hcells.symm

omit [DecidableEq κ] in
theorem lasting_initial (T : Instant) (policy : FsyncPolicy) (path : Bool) :
    Lasting T (initial S κ policy path) [] 0 fun _ ↦ none where
  unlimited := ⟨rfl, fun _ ↦ trivial, rfl, by simp [initial, SharedServer.initial]⟩
  filed := filed_initial policy path 0
  whole := by simp [initial]
  current := fun _ ↦ rfl
  stands t _ _ := by
    have htraced : SharedServer.Traced t 0 (SharedServer.initial S κ policy path 0) [] [] 0 [] :=
      SharedServer.traced_initial t policy path
    exact ⟨htraced.controlled, Reflected.nil t.1, Reflected.nil t.1, Reflected.nil t.1⟩

theorem lasting_run {policy : FsyncPolicy} {path : Bool} {events : List (LifeEvent κ)}
    (hahead : Along step (Ahead T.1) (initial S κ policy path) events)
    (hrange : Along step InRange (initial S κ policy path) events)
    (hrun : Runs.run step (initial S κ policy path) events = some m)
    (hend : m.server.now.1 ≤ T.1) : ∃ base saved durable, Lasting T m base saved durable := by
  refine run_invariant (P := fun _ (m : Incarnations S κ) ↦ m.server.now.1 ≤ T.1 →
    ∃ base saved durable, Lasting T m base saved durable) ?_ ?_ (hahead.and hrange) hrun hend
  · intro _
    exact ⟨[], 0, _, lasting_initial T policy path⟩
  · intro _ m e m' ih hcond hstep hnow
    cases e with
    | run e =>
        obtain ⟨server, hserver, rfl⟩ := Option.map_eq_some_iff.mp hstep
        obtain ⟨base, saved, durable, h⟩ :=
          ih (Int64.le_trans (SharedServer.engine_cases hserver).1 hnow)
        exact h.run hcond.1 hcond.2 hnow hserver
    | restart left now =>
        simp only [step, Option.ite_none_right_eq_some] at hstep
        obtain ⟨⟨hleft, hfrom⟩, hstep⟩ := hstep
        obtain ⟨server, hserver, rfl⟩ := Option.map_eq_some_iff.mp hstep
        obtain ⟨r, -, rfl⟩ := Option.map_eq_some_iff.mp hserver
        obtain ⟨base, saved, durable, h⟩ := ih (Int64.le_trans hfrom hnow)
        obtain ⟨base', saved', server', hrestarted, -, -, -, hlasting⟩ :=
          h.restarts hleft hfrom hnow
        obtain rfl := Option.some.inj (hserver.symm.trans hrestarted)
        exact ⟨base', saved', _, hlasting⟩

omit [Fintype κ] [DecidableEq κ] in
/-- What a restart builds is what the whole history replays to. -/
theorem Lasting.rebuilds (h : Lasting T m base saved durable) {left : Disk}
    (hleft : m.server.Leaves left) {now : Instant} (hfrom : m.server.now.1 ≤ now.1)
    (hto : now.1 ≤ T.1) :
    ∃ server, m.server.restarted left now = some server ∧
      replayed now.1 m.history = some server.cells ∧
      (m.server.due = [] → ∀ key, server.cells key = (m.server.cells key).truncated) := by
  obtain ⟨base', saved', server, hserver, hreplayed, hmirror, hnow, hlasting⟩ :=
    h.restarts hleft hfrom hto
  obtain ⟨r, hr, hmirror'⟩ := (h.stands now hfrom hto).recorded
  have hdropped : ∀ c ∈ base' ++ m.history.drop saved', c.Loggable ∧ c.Whole := by
    intro c hc
    apply hlasting.whole
    rcases List.mem_append.mp hc with hc | hc
    · exact List.mem_append_left _ hc
    · exact List.mem_append_right _ (List.mem_of_mem_drop hc)
  have hbuilt (key : Bytes) : server.cells key = (durable key).truncated := by
    rw [← truncated_of_replayed hdropped hreplayed key]
    exact (hmirror key).truncated_eq.symm
  refine ⟨server, hserver, ?_, fun hdue ↦ ?_⟩
  · have hsame : r = server.cells := by
      funext key
      have hwhole := fun c hc ↦ hlasting.whole c (List.mem_append_right _ hc)
      rw [← truncated_of_replayed hwhole hr key, hbuilt key]
      exact (hmirror' key).truncated_eq.symm
    rw [hr, hsame]
  · rw [← h.current hdue]
    exact hbuilt

end Incarnations

open Incarnations in
/-- A server without a key limit, all of whose appends succeed, is killed at any moment
between two records and started again, any number of times.  As long as the deadlines that
are logged are behind `T`, or were reached when they were set, and do not overflow the
clock: a restart on whatever it has left succeeds at every time up to `T` and builds what
all the records ever appended replay to, snapshots or not; when no command is under way this
is the live store with its deadlines in whole milliseconds. -/
theorem restarts_lose_nothing (S : Sharding) {κ : Type*} [Fintype κ] [DecidableEq κ]
    (policy : FsyncPolicy) (path : Bool) (events : List (LifeEvent κ)) (m : Incarnations S κ)
    (T now : Instant) (left : Disk)
    (hrun : Runs.run Incarnations.step (initial S κ policy path) events = some m)
    (hahead : Along Incarnations.step (Incarnations.Ahead T.1) (initial S κ policy path) events)
    (hrange : Along Incarnations.step Incarnations.InRange (initial S κ policy path) events)
    (hfrom : m.server.now.1 ≤ now.1) (hto : now.1 ≤ T.1) (hleft : m.server.Leaves left) :
    ∃ server, m.server.restarted left now = some server ∧
      replayed now.1 m.history = some server.cells ∧
      (m.server.writer = none → ∀ key, server.cells key = (m.server.cells key).truncated) := by
  obtain ⟨base, saved, durable, h⟩ := lasting_run hahead hrange hrun (Int64.le_trans hfrom hto)
  obtain ⟨server, hserver, hreplayed, hlive⟩ := h.rebuilds hleft hfrom hto
  refine ⟨server, hserver, hreplayed, fun hfree ↦ hlive ?_⟩
  simp only [SharedServer.due, hfree]

/-- `SET a 1` and a `SAVE` that has not written yet. -/
def firstLife : List (ServerEvent Bool) :=
  SharedServer.executed ⟨.set, [ascii "a", ascii "1"]⟩ ⟨0, epoch_nonneg⟩ ⟨0, epoch_nonneg⟩ 4 ++
    [.finish, .write true ⟨.save, []⟩, .prepare ⟨0, epoch_nonneg⟩, .finish]

/-- `SET b 2`, and a `DEL a` that is not recorded. -/
def secondLife : List (ServerEvent Bool) :=
  SharedServer.executed ⟨.set, [ascii "b", ascii "2"]⟩ ⟨0, epoch_nonneg⟩ ⟨0, epoch_nonneg⟩ 4 ++
    [.finish, .write false ⟨.del, [ascii "a"]⟩, .prepare ⟨0, epoch_nonneg⟩,
      .mutate ⟨0, epoch_nonneg⟩, .step false, .step false]

/-- The first server is killed behind the rename of its snapshot. -/
def twoLives : List (LifeEvent Bool) :=
  firstLife.map .run ++
    .restart ⟨some (written [(1, ⟨.set, [ascii "a", ascii "1"]⟩)]),
      some (snapshotFile 1 [⟨ascii "a", ascii "1", none⟩]), none⟩ ⟨0, epoch_nonneg⟩ ::
    secondLife.map .run

theorem restarts_lose_nothing_twoLives :
    ∃ (m : Incarnations twoShards Bool) (server : SharedServer twoShards Bool),
      Runs.run Incarnations.step (Incarnations.initial twoShards Bool .always true) twoLives =
          some m ∧
        m.server.cells (ascii "a") = none ∧
        m.server.restarted m.server.disk ⟨7, by decide⟩ = some server ∧
        replayed 7 m.history = some server.cells ∧
        m.history = [⟨.set, [ascii "a", ascii "1"]⟩, ⟨.set, [ascii "b", ascii "2"]⟩] := by
  have hrun : (Runs.run Incarnations.step (Incarnations.initial twoShards Bool .always true)
      twoLives).map (fun m ↦ decide (m.server.now.1 ≤ 7 ∧ m.server.cells (ascii "a") = none ∧
        m.history = [⟨.set, [ascii "a", ascii "1"]⟩, ⟨.set, [ascii "b", ascii "2"]⟩])) =
      some true := by decide +kernel
  obtain ⟨m, hm, hvalues⟩ := Option.map_eq_some_iff.mp hrun
  obtain ⟨hnow, hlive, hhistory⟩ := of_decide_eq_true hvalues
  obtain ⟨server, hserver, hreplayed, -⟩ := restarts_lose_nothing twoShards .always true twoLives m
    ⟨7, by decide⟩ ⟨7, by decide⟩ m.server.disk hm (by decide +kernel) (by decide +kernel) hnow
    (Int64.le_refl _) ⟨rfl, Or.inl rfl⟩
  exact ⟨m, server, hm, hlive, hserver, hreplayed, hhistory⟩

/-! ## A save that is killed -/

/-- Between any two system calls of a `SAVE` the files are such as a killed server leaves. -/
theorem SharedServer.leaves_of_save {S : Sharding} {κ : Type*} {m : SharedServer S κ}
    {storage : StorageEngine S} {now : Instant} {aof path : Bytes}
    {files : FileSystem Bytes UInt8} {calls : List SystemResult} {save : SnapshotSave S}
    (hsaving : m.saving? = some (storage, now)) (hdisk : diskOf aof path files = m.disk)
    (hpath : m.persistence.hasSnapshotPath = decide (path ≠ [])) (haof : aof ≠ path)
    (htemporary : aof ≠ temporary path)
    (hrun : Runs.run (SnapshotSave.step path m.persistence.sequence now.1)
      (.start path storage files) calls = some save) :
    m.Leaves (diskOf aof path save.files) := by
  cases SnapshotSave.saves_run hrun with
  | underway hstorage hother hstage =>
      rw [Leaves, ← hdisk]
      exact ⟨hother aof htemporary, Or.inl (hother path (ne_temporary path))⟩
  | published hstorage hstage hne hfile _ hother =>
      rw [Leaves, ← hdisk]
      refine ⟨hother aof haof htemporary, Or.inr ⟨?_, (storage, now), hsaving, ?_⟩⟩
      · rw [hpath, decide_eq_true hne]
      · rw [← flatten_snapshotPieces]
        exact hfile

open Incarnations in
/-- A server without a key limit, all of whose appends succeed, is killed, in whatever
process, between two system calls of a `SAVE`; the log, the snapshot and its temporary file
have different paths.  Up to the time `T`, behind which all logged deadlines are that were
not reached when they were set, the next one builds the live store with its deadlines in
whole milliseconds. -/
theorem killed_save_loses_nothing (S : Sharding) {κ : Type*} [Fintype κ] [DecidableEq κ]
    (policy : FsyncPolicy) (configured : Bool) (events : List (LifeEvent κ)) (m : Incarnations S κ)
    (T now : Instant) (storage : StorageEngine S) (saved : Instant) (aof path : Bytes)
    (files : FileSystem Bytes UInt8) (calls : List SystemResult) (save : SnapshotSave S)
    (hrun : Runs.run Incarnations.step (initial S κ policy configured) events = some m)
    (hahead :
      Along Incarnations.step (Incarnations.Ahead T.1) (initial S κ policy configured) events)
    (hrange : Along Incarnations.step Incarnations.InRange (initial S κ policy configured) events)
    (hfrom : m.server.now.1 ≤ now.1) (hto : now.1 ≤ T.1)
    (hsaving : m.server.saving? = some (storage, saved))
    (hdisk : diskOf aof path files = m.server.disk)
    (hpath : m.server.persistence.hasSnapshotPath = decide (path ≠ [])) (haof : aof ≠ path)
    (htemporary : aof ≠ temporary path)
    (hsave : Runs.run (SnapshotSave.step path m.server.persistence.sequence saved.1)
      (.start path storage files) calls = some save) :
    ∃ server, m.server.restarted (diskOf aof path save.files) now = some server ∧
      ∀ key, server.cells key = (m.server.cells key).truncated := by
  obtain ⟨base, saved, durable, h⟩ := lasting_run hahead hrange hrun (Int64.le_trans hfrom hto)
  have hleft := SharedServer.leaves_of_save hsaving hdisk hpath haof htemporary hsave
  obtain ⟨server, hserver, -, hlive⟩ := h.rebuilds hleft hfrom hto
  obtain ⟨k, hw⟩ := SharedServer.writer_of_saving? hsaving
  refine ⟨server, hserver, hlive ?_⟩
  simp only [SharedServer.due, hw]

/-- The log is `a`, the snapshot `s`. -/
def logOf (disk : Disk) : FileSystem Bytes UInt8 :=
  fun p ↦ if p = ascii "a" then disk.aof else none

/-- The first server has written ten bytes of its snapshot. -/
theorem killed_save_loses_nothing_firstLife :
    ∃ (m : Incarnations twoShards Bool) (server : SharedServer twoShards Bool),
      Runs.run Incarnations.step (Incarnations.initial twoShards Bool .always true)
          (firstLife.map .run) = some m ∧
        m.server.restarted ⟨some (written [(1, ⟨.set, [ascii "a", ascii "1"]⟩)]), none,
          some (ascii "BYTECACHED")⟩ ⟨7, by decide⟩ = some server ∧
        ∀ key, server.cells key = (m.server.cells key).truncated := by
  have hrun : ((Runs.run Incarnations.step (Incarnations.initial twoShards Bool .always true)
      (firstLife.map .run)).bind fun m ↦ m.server.saving?.bind fun w ↦
        (Runs.run (SnapshotSave.step (ascii "s") m.server.persistence.sequence w.2.1)
          (.start (ascii "s") w.1 (logOf m.server.disk)) [.done, .done, .wrote 10]).map fun save ↦
        decide (m.server.now.1 ≤ 7 ∧ m.server.persistence.hasSnapshotPath = true ∧
          diskOf (ascii "a") (ascii "s") (logOf m.server.disk) = m.server.disk ∧
          diskOf (ascii "a") (ascii "s") save.files =
            ⟨some (written [(1, ⟨.set, [ascii "a", ascii "1"]⟩)]), none,
              some (ascii "BYTECACHED")⟩)) = some true := by decide +kernel
  obtain ⟨m, hm, hrest⟩ := Option.bind_eq_some_iff.mp hrun
  obtain ⟨⟨storage, saved⟩, hsaving, hrest⟩ := Option.bind_eq_some_iff.mp hrest
  obtain ⟨save, hsave, hvalues⟩ := Option.map_eq_some_iff.mp hrest
  obtain ⟨hnow, hpath, hdisk, hleft⟩ := of_decide_eq_true hvalues
  obtain ⟨server, hserver, hcells⟩ := killed_save_loses_nothing twoShards .always true
    (firstLife.map .run) m ⟨7, by decide⟩ ⟨7, by decide⟩ storage saved (ascii "a") (ascii "s")
    (logOf m.server.disk) [.done, .done, .wrote 10] save hm (by decide +kernel) (by decide +kernel)
    hnow (Int64.le_refl _) hsaving hdisk hpath (by decide) (by decide) hsave
  rw [hleft] at hserver
  exact ⟨m, server, hm, hserver, hcells⟩

end ByteCacheDB
