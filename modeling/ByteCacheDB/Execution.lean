import ByteCacheDB.CellOp
import ByteCacheDB.ClientHandler

/-!
# What a command does to the live store

A call of `execute` either logs nothing, and then at most expired entries
disappear; or it logs one command, whose operation it has just carried out on
every key, up to the milliseconds that an `EXPIRE` loses on its way into the
log, followed by evictions.
-/

namespace ByteCacheDB

open CommandParser StorageEngine AppendOnlyFile

/-- A live operation and the operation that its log record stands for. -/
def CellOp.LoggedAs (live logged : CellOp) : Prop :=
  logged = live ∨ ∃ deadline, live = .expireAt deadline ∧ logged = .expireAt (truncMillis deadline)

theorem CellOp.LoggedAs.refl (op : CellOp) : op.LoggedAs op := Or.inl rfl

/-- The deadline of a logged command is a whole number of milliseconds. -/
def Command.Whole (command : Command) : Prop :=
  match command.keyOp with
  | .expireAt d => truncMillis d = d
  | _ => True

instance (command : Command) : Decidable command.Whole :=
  match h : command.keyOp with
  | .expireAt d => decidable_of_iff (truncMillis d = d) (by simp [Command.Whole, h])
  | .keep | .write _ | .remove | .persist | .increment _ | .append _ =>
      isTrue (by simp [Command.Whole, h])

/-- A deadline is taken away or set only where there is a key. -/
def Command.Found (now : TimePoint) (m : Store) (log : Command) : Prop :=
  match log.type with
  | .persist => (m (log.arg 0)).live now ≠ none
  | .expireat => m (log.arg 0) ≠ none ∧
      ((m (log.arg 0)).live now ≠ none ∨ ∀ d, log.keyOp = .expireAt d → d ≤ now)
  | _ => True

section
variable {S : Sharding}

/-- Nothing but expired entries disappears. -/
structure Lapses (now : TimePoint) (s s' : StorageEngine S) : Prop where
  keeps : Keeps s s'
  cells : ∀ key, s'.cells key = s.cells key ∨
    s'.cells key = none ∧ (s.cells key).live now = none

/-- The operations `ops` are carried out, then the keys `ks` are evicted. -/
structure Mutates (now : TimePoint) (ops : Bytes → CellOp) (s s' : StorageEngine S)
    (ks : List Bytes) : Prop where
  maxKeys : s'.maxKeys = s.maxKeys
  evictionEnabled : s'.evictionEnabled = s.evictionEnabled
  pending : s'.pendingEvictedKeys = s.pendingEvictedKeys ++ ks
  drift : s.drift = 0 → s'.drift = 0
  unlimited : s.maxKeys = 0 → ks = []
  cells : ∃ mid, Store.Acts now ops s.cells mid ∧ s'.cells = mid.eraseAll ks
  /-- no new key, or the limit is enforced -/
  room : s'.shards.size ≤ s.shards.size ∨ (s.evictionEnabled = true → s.drift = 0 →
    s'.maxKeys = 0 ∨ s'.totalKeys ≤ s'.maxKeys)

theorem Lapses.refl (now : TimePoint) (s : StorageEngine S) : Lapses now s s :=
  ⟨Keeps.refl s, fun _ ↦ Or.inl rfl⟩

theorem Lapses.mono {now later : TimePoint} (hle : now ≤ later) {s s' : StorageEngine S}
    (h : Lapses now s s') : Lapses later s s' := by
  refine ⟨h.keeps, fun key ↦ (h.cells key).imp_right fun hgone ↦ ⟨hgone.1, ?_⟩⟩
  rw [← Cell.live_live_of_le hle, hgone.2, Cell.live_none]

theorem Lapses.trans {now : TimePoint} {s t u : StorageEngine S} (h : Lapses now s t)
    (h' : Lapses now t u) : Lapses now s u := by
  refine ⟨h.keeps.trans h'.keeps, fun key ↦ ?_⟩
  rcases h.cells key with hst | hst <;> rcases h'.cells key with htu | htu
  · exact Or.inl (htu.trans hst)
  · exact Or.inr ⟨htu.1, hst ▸ htu.2⟩
  · exact Or.inr ⟨htu.trans hst.1, hst.2⟩
  · exact Or.inr ⟨htu.1, hst.2⟩

/-- One cell is replaced by what is left of it at time `now`. -/
theorem lapses_of_update {now : TimePoint} {s s' : StorageEngine S} (key : Bytes)
    (hkeeps : Keeps s s')
    (hcells : s'.cells = Function.update s.cells key ((s.cells key).live now)) :
    Lapses now s s' := by
  refine ⟨hkeeps, fun k ↦ ?_⟩
  rw [hcells]
  by_cases hk : k = key
  · subst hk
    rw [Function.update_self]
    rcases Cell.live_eq_self_or_none now (s.cells k) with hsame | hnone
    · exact Or.inl hsame
    · exact Or.inr ⟨hnone, hnone⟩
  · rw [Function.update_of_ne hk]
    exact Or.inl rfl

theorem lapses_get (s : StorageEngine S) (now : TimePoint) (key : Bytes) :
    Lapses now s (s.get now key).2 :=
  lapses_of_update key (keeps_get s now key) (cells_get s now key).1

theorem lapses_mget (now : TimePoint) (keys : List (Bytes × TimePoint))
    (hkeys : ∀ p ∈ keys, p.2 ≤ now) (s : StorageEngine S) : Lapses now s (s.mget keys).2 := by
  induction keys generalizing s with
  | nil => exact Lapses.refl now s
  | cons p rest ih =>
      have hhead := (lapses_get s p.2 p.1).mono (hkeys p (by simp))
      exact hhead.trans (ih (fun q hq ↦ hkeys q (by simp [hq])) _)

theorem cells_ttl (s : StorageEngine S) (now : TimePoint) (key : Bytes) :
    (s.ttl now key).2.cells = Function.update s.cells key ((s.cells key).live now) := by
  rw [snd_ttl, ← snd_get]
  exact (cells_get s now key).1

theorem lapses_cleanupExpired (s : StorageEngine S) (now : TimePoint) :
    Lapses now s (s.cleanupExpired now).2 := by
  refine ⟨keeps_cleanupExpired s now, fun key ↦ ?_⟩
  rw [cells_cleanupExpired]
  rcases Cell.live_eq_self_or_none now (s.cells key) with hsame | hnone
  · exact Or.inl hsame
  · exact Or.inr ⟨hnone, hnone⟩

/-! ## Mutations -/

section
variable {now : TimePoint} {s s' : StorageEngine S}

/-- An operation on one key, as a family. -/
def onlyOn (key : Bytes) (op : CellOp) : Bytes → CellOp :=
  fun k ↦ if k = key then op else .keep

theorem acts_onlyOn {m : Store} {key : Bytes} {op : CellOp} {c : Cell}
    (h : op.apply now (m key) = some c) :
    Store.Acts now (onlyOn key op) m (Function.update m key c) := by
  intro k
  by_cases hk : k = key
  · subst hk
    simpa [onlyOn] using h
  · simp [onlyOn, hk, CellOp.apply]

/-- A mutation without evictions. -/
theorem mutates_of_keeps {ops : Bytes → CellOp} (hkeeps : Keeps s s')
    (hacts : Store.Acts now ops s.cells s'.cells)
    (hroom : s'.shards.size ≤ s.shards.size ∨ (s.evictionEnabled = true → s.drift = 0 →
      s'.maxKeys = 0 ∨ s'.totalKeys ≤ s'.maxKeys)) : Mutates now ops s s' [] where
  maxKeys := hkeeps.maxKeys
  evictionEnabled := hkeeps.evictionEnabled
  pending := by rw [hkeeps.pending, List.append_nil]
  drift := fun h ↦ hkeeps.drift.trans h
  unlimited := fun _ ↦ rfl
  cells := ⟨s'.cells, hacts, (Store.eraseAll_nil _).symm⟩
  room := hroom

/-- A cell that was there is replaced. -/
theorem size_le_of_update {key : Bytes} {c : Cell}
    (hcells : s'.cells = Function.update s.cells key c) (hkey : s.cells key = none → c = none) :
    s'.shards.size ≤ s.shards.size := by
  apply size_le_of_cells_none
  intro k hk
  rw [hcells]
  by_cases heq : k = key
  · rw [heq, Function.update_self]
    exact hkey (heq ▸ hk)
  · rwa [Function.update_of_ne heq]

theorem mutates_enforceMaxKeys {ops : Bytes → CellOp} (hkeeps : Keeps s s')
    (hacts : Store.Acts now ops s.cells s'.cells) :
    ∃ ks, Mutates now ops s s'.enforceMaxKeys ks := by
  by_cases hzero : s.maxKeys = 0
  · rw [enforceMaxKeys_of_le (Or.inl (hkeeps.maxKeys.trans hzero))]
    exact ⟨[], mutates_of_keeps hkeeps hacts
      (Or.inr fun _ _ ↦ Or.inl (hkeeps.maxKeys.trans hzero))⟩
  · obtain ⟨ks, hks⟩ := evicts_enforceMaxKeys s'
    refine ⟨ks, hks.maxKeys.trans hkeeps.maxKeys,
      hks.evictionEnabled.trans hkeeps.evictionEnabled, ?_,
      fun h ↦ hks.drift.trans (hkeeps.drift.trans h), fun h ↦ absurd h hzero,
      ⟨s'.cells, hacts, hks.cells⟩, Or.inr fun henabled hdrift ↦ ?_⟩
    · rw [hks.pending, hkeeps.pending]
    · exact totalKeys_enforceMaxKeys_le (hkeeps.evictionEnabled.trans henabled)
        (hkeeps.drift.trans hdrift)

theorem mutates_set (s : StorageEngine S) (now : TimePoint) (key value : Bytes) :
    ∃ ks, Mutates now (onlyOn key (.write value)) s (s.set now key value) ks := by
  apply mutates_enforceMaxKeys (keeps_store s now key value)
  rw [cells_store]
  exact acts_onlyOn rfl

theorem mutates_mset (s : StorageEngine S) (now : TimePoint) (args : List Bytes) :
    ∃ ks, Mutates now (Command.op ⟨.mset, args⟩) s (s.mset now args).2 ks := by
  apply mutates_enforceMaxKeys (keeps_storeAll s now (argPairs args))
  rw [cells_storeAll, storePairs_cells]
  intro key
  simp only [Command.op, Command.storePairs_eq]
  cases Command.lastValue (argPairs args) key <;> rfl

theorem mutates_append (s : StorageEngine S) (now : TimePoint) (key suffix : Bytes) :
    ∃ ks, Mutates now (onlyOn key (.append suffix)) s (s.append now key suffix).2 ks := by
  have hkeeps := keeps_appendLocked s now key suffix
  have hacts : Store.Acts now (onlyOn key (.append suffix)) s.cells
      (s.appendLocked now key suffix).2.cells := by
    rw [(cells_appendLocked s now key suffix).1]
    exact acts_onlyOn rfl
  simp only [StorageEngine.append]
  split
  · exact mutates_enforceMaxKeys hkeeps hacts
  · rename_i hfound
    refine ⟨[], mutates_of_keeps hkeeps hacts (Or.inl ?_)⟩
    refine size_le_of_update (cells_appendLocked s now key suffix).1 fun hnone ↦ ?_
    rw [(cells_appendLocked s now key suffix).2] at hfound
    simp [hnone] at hfound

/-- An increment is refused and logs nothing, or it is carried out. -/
theorem increment_cases (s : StorageEngine S) (now : TimePoint) (key : Bytes) (delta : Int64) :
    (∃ e s', s.increment now key delta = (.error e, s') ∧ Lapses now s s') ∨
      ∃ next s' ks, s.increment now key delta = (.ok next, s') ∧
        Mutates now (onlyOn key (.increment delta)) s s' ks := by
  cases hnext : (s.cells key).nextInteger now delta with
  | error e =>
      refine Or.inl ⟨e, s.dropExpired now key, ?_,
        lapses_of_update key (keeps_dropExpired s now key) (cells_dropExpired s now key)⟩
      simp [increment, incrementLocked_error hnext]
  | ok next =>
      obtain ⟨hresult, hcells⟩ := incrementLocked_ok hnext
      have hkeeps := keeps_incrementLocked s now key delta
      have hacts : Store.Acts now (onlyOn key (.increment delta)) s.cells
          (s.incrementLocked now key delta).2.cells := by
        rw [hcells]
        apply acts_onlyOn
        simp [CellOp.apply, hnext, Except.toOption]
      have hinc : s.increment now key delta = (.ok next,
          if ((s.cells key).live now).isNone then
            (s.incrementLocked now key delta).2.enforceMaxKeys
          else (s.incrementLocked now key delta).2) := by
        rw [increment, ← Prod.eta (s.incrementLocked now key delta), hresult]
      rw [hinc]
      split
      · obtain ⟨ks, hks⟩ := mutates_enforceMaxKeys hkeeps hacts
        exact Or.inr ⟨next, _, ks, rfl, hks⟩
      · rename_i hfound
        refine Or.inr ⟨next, _, [], rfl, mutates_of_keeps hkeeps hacts (Or.inl ?_)⟩
        refine size_le_of_update hcells fun hnone ↦ ?_
        simp [hnone] at hfound

/-- `expire_at` that answers false has met nothing or something expired. -/
theorem lapses_expireAt {key : Bytes} {deadline : TimePoint}
    (h : (s.expireAt now key deadline).1 = false) :
    Lapses now s (s.expireAt now key deadline).2 := by
  refine lapses_of_update key (keeps_expireAt s now key deadline)
    ((cells_expireAt s now key deadline).trans ?_)
  congr 1
  have hfalse : ¬ (s.expireAt now key deadline).1 = true := by simp [h]
  rw [expireAt_eq_true_iff, not_and_or, not_or, not_not, not_not] at hfalse
  rw [Cell.expireAt]
  rcases hfalse with hnone | ⟨hdead, -⟩
  · rw [hnone, Cell.live_none, Option.bind_none]
  · rw [hdead, Option.bind_none]

theorem mutates_expireAt (s : StorageEngine S) (now : TimePoint) (key : Bytes)
    (deadline : TimePoint) :
    Mutates now (onlyOn key (.expireAt deadline)) s (s.expireAt now key deadline).2 [] := by
  refine mutates_of_keeps (keeps_expireAt s now key deadline) ?_ (Or.inl ?_)
  · rw [cells_expireAt]
    exact acts_onlyOn rfl
  · refine size_le_of_update (cells_expireAt s now key deadline) fun hnone ↦ ?_
    rw [hnone, Cell.expireAt, Cell.live_none, Option.bind_none]

theorem mutates_persist (s : StorageEngine S) (now : TimePoint) (key : Bytes) :
    Mutates now (onlyOn key .persist) s (s.persist now key).2 [] := by
  refine mutates_of_keeps (keeps_persist s now key) ?_ (Or.inl ?_)
  · rw [cells_persist]
    exact acts_onlyOn rfl
  · refine size_le_of_update (cells_persist s now key) fun hnone ↦ ?_
    rw [hnone, Cell.persist, Cell.live_none, Option.map_none]

theorem mutates_del (s : StorageEngine S) (now : TimePoint) (key : Bytes) :
    Mutates now (onlyOn key .remove) s (s.del key).2 [] := by
  refine mutates_of_keeps (keeps_del s key) ?_ (Or.inl ?_)
  · rw [cells_del]
    exact acts_onlyOn rfl
  · exact size_le_of_cells (cells_del s key)

theorem lapses_del {key : Bytes} (h : (s.del key).1 = 0) : Lapses now s (s.del key).2 := by
  unfold del at h ⊢
  split
  · rename_i entry hfind
    simp [hfind] at h
  · exact Lapses.refl now s

theorem lapses_persist {key : Bytes} (h : (s.persist now key).1 = false) :
    Lapses now s (s.persist now key).2 := by
  refine lapses_of_update key (keeps_persist s now key) ((cells_persist s now key).trans ?_)
  congr 1
  have hfalse : ¬ (s.persist now key).1 = true := by simp [h]
  rw [persist_eq_true_iff] at hfalse
  rw [Cell.persist]
  rcases hlive : (s.cells key).live now with _ | ⟨value, _ | deadline⟩
  · rfl
  · rfl
  · exact absurd ⟨value, deadline, hlive⟩ hfalse

end

/-! ## The handler -/

theorem parseInt64_eq_some {value : Bytes} {z : Int64} (h : parseInt64 value = some z) :
    stoll value = .ok z := by
  unfold parseInt64 at h
  split at h
  · rename_i parsed hparse
    obtain rfl := Option.some.inj h
    exact stoll_of_fromCharsI64 hparse
  · simp at h

theorem admissible_expireAtLogCommand (key : Bytes) (deadline : TimePoint) :
    Admissible (expireAtLogCommand key deadline) := by
  constructor
  · simp [expireAtLogCommand]
  · simp [expireAtLogCommand, validateArgumentCount, exact]

theorem loggable_expireAtLogCommand (key : Bytes) (deadline : TimePoint) :
    (expireAtLogCommand key deadline).Loggable := by
  simp [expireAtLogCommand, Command.Loggable, Command.arg, stoll_toStringI64, Except.toBool]

theorem loggedAs_expireAtLogCommand (k : Bytes) (deadline : TimePoint) (key : Bytes) :
    (onlyOn k (.expireAt deadline) key).LoggedAs ((expireAtLogCommand k deadline).op key) := by
  by_cases hk : key = k
  · right
    refine ⟨deadline, ?_, ?_⟩
    · simp [onlyOn, hk]
    · simp [Command.op, Command.keyOp, expireAtLogCommand, Command.arg, hk, stoll_toStringI64,
        truncMillis]
  · left
    simp [onlyOn, Command.op, expireAtLogCommand, Command.arg, hk]

theorem keyOp_expireAtLogCommand (key : Bytes) (deadline : TimePoint) :
    (expireAtLogCommand key deadline).keyOp = .expireAt (truncMillis deadline) := by
  simp only [Command.keyOp, expireAtLogCommand, Command.arg, List.getD_cons_succ,
    List.getD_cons_zero, stoll_toStringI64, truncMillis]

theorem found_persist {s : StorageEngine S} {now : TimePoint} {args : List Bytes}
    (h : (s.persist now (Command.arg ⟨.persist, args⟩ 0)).1 = true) :
    Command.Found now s.cells ⟨.persist, args⟩ := by
  obtain ⟨value, deadline, hlive⟩ := (persist_eq_true_iff s now _).mp h
  simp [Command.Found, hlive]

theorem found_expireAt {s : StorageEngine S} {now : Instant} {key : Bytes} {deadline : TimePoint}
    {log : Command} (h : (s.expireAt now.1 key deadline).1 = true)
    (hop : log.keyOp = .expireAt deadline ∨ log.keyOp = .expireAt (truncMillis deadline))
    (htype : log.type = .expireat) (hkey : log.arg 0 = key) : log.Found now.1 s.cells := by
  obtain ⟨hstored, hlive⟩ := (expireAt_eq_true_iff s now.1 key deadline).mp h
  rw [Command.Found, htype]
  refine ⟨hkey ▸ hstored, hkey ▸ hlive.imp_right fun hle d hd ↦ ?_⟩
  rcases hop with hop | hop
  · obtain rfl := CellOp.expireAt.inj (hop.symm.trans hd)
    exact hle
  · obtain rfl := CellOp.expireAt.inj (hop.symm.trans hd)
    exact truncMillis_le_of_le now.2 hle

theorem admissible_evictionCommand (key : Bytes) :
    Admissible (evictionCommand key) ∧ (evictionCommand key).Loggable := by
  refine ⟨⟨?_, ?_⟩, trivial⟩
  · simp [evictionCommand]
  · simp [evictionCommand, validateArgumentCount, exact]

theorem op_evictionCommand (k key : Bytes) :
    (evictionCommand k).op key = if key = k then .remove else .keep := rfl

theorem acts_evictionCommand (now : TimePoint) (live : Store) (k : Bytes) :
    Store.Acts now (evictionCommand k).op live (Function.update live k none) := by
  intro key
  by_cases hk : key = k
  · subst hk
    simp [op_evictionCommand]
  · simp [op_evictionCommand, hk]

/-- What `execute` does with the engine and what it wants to see logged. -/
inductive Executes (env : Environment) (last : TimePoint) (s s' : StorageEngine S)
    (result : ExecutionResult) : Prop
  | quiet (hlog : result.shouldLog = false) (hlapses : Lapses last s s')
  | logged (i : ℕ) (ops : Bytes → CellOp) (ks : List Bytes) (hlog : result.shouldLog = true)
      (hreading : (env.clock i).1 ≤ last)
      (hfirst : i = 0 ∨ result.logCommand.type = .expireat)
      (hadmissible : Admissible result.logCommand)
      (hloggable : result.logCommand.Loggable)
      (hops : ∀ key, (ops key).LoggedAs (result.logCommand.op key))
      (hmutates : Mutates (env.clock i).1 ops s s' ks)
      (hfound : result.logCommand.Found (env.clock i).1 s.cells)

/-- The last reading that a command can make. -/
def Environment.last (env : Environment) (command : Command) : Instant :=
  env.clock (command.args.length + 1)

theorem executes_read {v : Server S} {env : Environment} {command : Command}
    {s' : StorageEngine S} {result : ExecutionResult} (hlog : result.shouldLog = false)
    (h : Lapses (env.clock 0).1 v.storage s') :
    Executes env (env.last command).1 v.storage s' result :=
  .quiet hlog (h.mono (env.monotone _ _ (Nat.zero_le _)))

/-- A command that was carried out at the first reading and is logged as it is. -/
theorem executes_logged {v : Server S} {env : Environment} {command : Command}
    {s' : StorageEngine S} {response : Response} (hadm : Admissible command)
    (hlog : command.Loggable) {ks : List Bytes}
    (h : Mutates (env.clock 0).1 command.op v.storage s' ks)
    (hfound : command.Found (env.clock 0).1 v.storage.cells) :
    Executes env (env.last command).1 v.storage s' ⟨response, true, command⟩ :=
  .logged 0 command.op ks rfl (env.monotone _ _ (Nat.zero_le _)) (Or.inl rfl) hadm hlog
    (fun _ ↦ CellOp.LoggedAs.refl _) h hfound

/-- A command that is logged exactly when it has changed something. -/
theorem executes_updated {env : Environment} {last : TimePoint} {s s' : StorageEngine S}
    {response : Response} {updated : Bool} {logCommand : Command} (i : ℕ) {ops : Bytes → CellOp}
    (hreading : (env.clock i).1 ≤ last) (hfirst : i = 0 ∨ logCommand.type = .expireat)
    (hadm : Admissible logCommand) (hlog : logCommand.Loggable)
    (hops : ∀ key, (ops key).LoggedAs (logCommand.op key))
    (hlapses : updated = false → Lapses (env.clock i).1 s s')
    (hmutates : Mutates (env.clock i).1 ops s s' [])
    (hfound : updated = true → logCommand.Found (env.clock i).1 s.cells) :
    Executes env last s s' ⟨response, updated, logCommand⟩ := by
  cases updated with
  | false => exact .quiet rfl ((hlapses rfl).mono hreading)
  | true => exact .logged i ops [] rfl hreading hfirst hadm hlog hops hmutates (hfound rfl)

theorem executeIncrement_spec (v : Server S) (env : Environment) {command : Command}
    (hadm : Admissible command) (hlog : command.Loggable) (delta : Int64)
    (hop : command.op = onlyOn (command.arg 0) (.increment delta))
    (hfound : command.Found (env.clock 0).1 v.storage.cells) :
    (v.executeIncrement (env.clock 0).1 command delta).2.persistence = v.persistence ∧
      (v.executeIncrement (env.clock 0).1 command delta).2.disk = v.disk ∧
      Executes env (env.last command).1 v.storage
        (v.executeIncrement (env.clock 0).1 command delta).2.storage
        (v.executeIncrement (env.clock 0).1 command delta).1 := by
  rcases increment_cases v.storage (env.clock 0).1 (command.arg 0) delta with
    ⟨e, s', hinc, hlapses⟩ | ⟨next, s', ks, hinc, hmutates⟩
  · rw [Server.executeIncrement, hinc]
    exact ⟨rfl, rfl, executes_read rfl hlapses⟩
  · rw [Server.executeIncrement, hinc]
    exact ⟨rfl, rfl, executes_logged hadm hlog (hop ▸ hmutates) hfound⟩

/-- Every command keeps the log object, and only `SAVE` writes a file. -/
theorem execute_spec (v : Server S) (env : Environment) {command : Command}
    (hadm : Admissible command) :
    (v.execute env command).2.persistence = v.persistence ∧
      (command.type ≠ .save → (v.execute env command).2.disk = v.disk) ∧
      Executes env (env.last command).1 v.storage (v.execute env command).2.storage
        (v.execute env command).1 := by
  obtain ⟨type, args⟩ := command
  have hfirst : (env.clock 0).1 ≤ (env.last ⟨type, args⟩).1 := env.monotone _ _ (Nat.zero_le _)
  cases type with
  | ping => exact ⟨rfl, fun _ ↦ rfl, .quiet rfl (Lapses.refl _ _)⟩
  | keys => exact ⟨rfl, fun _ ↦ rfl, .quiet rfl (Lapses.refl _ _)⟩
  | unknown => exact ⟨rfl, fun _ ↦ rfl, .quiet rfl (Lapses.refl _ _)⟩
  | get => exact ⟨rfl, fun _ ↦ rfl, executes_read rfl (lapses_get _ _ _)⟩
  | «exists» => exact ⟨rfl, fun _ ↦ rfl, executes_read rfl (lapses_get _ _ _)⟩
  | strlen => exact ⟨rfl, fun _ ↦ rfl, executes_read rfl (lapses_get _ _ _)⟩
  | ttl =>
      exact ⟨rfl, fun _ ↦ rfl, executes_read rfl
        (lapses_of_update _ (keeps_ttl _ _ _) (cells_ttl _ _ _))⟩
  | info => exact ⟨rfl, fun _ ↦ rfl, executes_read rfl (lapses_cleanupExpired _ _)⟩
  | mget =>
      refine ⟨rfl, fun _ ↦ rfl, .quiet rfl (lapses_mget _ _ ?_ _)⟩
      intro p hp
      obtain ⟨i, hi, rfl⟩ := List.mem_mapIdx.mp hp
      exact env.monotone _ _ (by dsimp only at hi ⊢; omega)
  | save =>
      simp only [Server.execute]
      split
      · exact ⟨rfl, fun h ↦ absurd rfl h, .quiet rfl (Lapses.refl _ _)⟩
      · exact ⟨rfl, fun h ↦ absurd rfl h, .quiet rfl (Lapses.refl _ _)⟩
  | set =>
      obtain ⟨ks, hks⟩ := mutates_set v.storage (env.clock 0).1 (Command.arg ⟨.set, args⟩ 0)
        (Command.arg ⟨.set, args⟩ 1)
      exact ⟨rfl, fun _ ↦ rfl, executes_logged hadm trivial hks trivial⟩
  | mset =>
      obtain ⟨ks, hks⟩ := mutates_mset v.storage (env.clock 0).1 args
      exact ⟨rfl, fun _ ↦ rfl, executes_logged hadm trivial hks trivial⟩
  | append =>
      obtain ⟨ks, hks⟩ := mutates_append v.storage (env.clock 0).1
        (Command.arg ⟨.append, args⟩ 0) (Command.arg ⟨.append, args⟩ 1)
      exact ⟨rfl, fun _ ↦ rfl, executes_logged hadm trivial hks trivial⟩
  | flush =>
      have hmutates : Mutates (env.clock 0).1 (Command.op ⟨.flush, args⟩) v.storage
          v.storage.flush.2 [] :=
        ⟨rfl, rfl, (List.append_nil _).symm, fun _ ↦ drift_flush _, fun _ ↦ rfl,
          ⟨_, fun _ ↦ rfl, (Store.eraseAll_nil _).symm⟩,
          Or.inl (size_le_of_cells_none fun _ _ ↦ rfl)⟩
      exact ⟨rfl, fun _ ↦ rfl, executes_logged hadm trivial hmutates trivial⟩
  | del =>
      refine ⟨rfl, fun _ ↦ rfl, executes_updated 0 hfirst (Or.inl rfl) hadm trivial
        (fun _ ↦ CellOp.LoggedAs.refl _) ?_ (mutates_del v.storage (env.clock 0).1 _)
        fun _ ↦ trivial⟩
      intro hkept
      exact lapses_del (by simpa using hkept)
  | persist =>
      exact ⟨rfl, fun _ ↦ rfl, executes_updated 0 hfirst (Or.inl rfl) hadm trivial
        (fun _ ↦ CellOp.LoggedAs.refl _) lapses_persist
        (mutates_persist v.storage (env.clock 0).1 _) found_persist⟩
  | expireat =>
      simp only [Server.execute]
      cases hparse : parseInt64 (Command.arg ⟨.expireat, args⟩ 1) with
      | none => exact ⟨rfl, fun _ ↦ rfl, .quiet rfl (Lapses.refl _ _)⟩
      | some millis =>
          have hstoll := parseInt64_eq_some hparse
          refine ⟨rfl, fun _ ↦ rfl, executes_updated 0 hfirst (Or.inl rfl) hadm ?_ ?_
            lapses_expireAt (mutates_expireAt v.storage (env.clock 0).1 _ _) fun hset ↦ ?_⟩
          · simp [Command.Loggable, hstoll, Except.toBool]
          · intro key
            left
            simp only [Command.op, Command.keyOp, hstoll, onlyOn]
          · refine found_expireAt hset (Or.inl ?_) rfl rfl
            simp only [Command.keyOp, hstoll]
  | expire =>
      simp only [Server.execute]
      cases hparse : parseInt64 (Command.arg ⟨.expire, args⟩ 1) with
      | none => exact ⟨rfl, fun _ ↦ rfl, .quiet rfl (Lapses.refl _ _)⟩
      | some seconds =>
          dsimp only
          split
          · exact ⟨rfl, fun _ ↦ rfl, .quiet rfl (Lapses.refl _ _)⟩
          exact ⟨rfl, fun _ ↦ rfl, executes_updated 1 (env.monotone _ _ (Nat.le_add_left _ _))
            (Or.inr rfl) (admissible_expireAtLogCommand _ _) (loggable_expireAtLogCommand _ _)
            (loggedAs_expireAtLogCommand _ _) lapses_expireAt
            (mutates_expireAt v.storage (env.clock 1).1 _ _) fun hset ↦
              found_expireAt hset (Or.inr (keyOp_expireAtLogCommand _ _)) rfl rfl⟩
  | incr =>
      obtain ⟨hlog, hdisk, hexec⟩ := executeIncrement_spec v env hadm trivial 1 rfl trivial
      exact ⟨hlog, fun _ ↦ hdisk, hexec⟩
  | decr =>
      obtain ⟨hlog, hdisk, hexec⟩ := executeIncrement_spec v env hadm trivial (-1) rfl trivial
      exact ⟨hlog, fun _ ↦ hdisk, hexec⟩

end

end ByteCacheDB
