import ByteCacheDB.Deadlines
import ByteCacheDB.Session
import ByteCacheDB.TtlMap

/-!
# The server as a map with deadlines

What a command answers and what it leaves behind, said about one map.  Shards, the order of
access and the log do not occur.  An entry whose deadline has passed does not show, but it
stays until a command or a sweep meets it, and as long as it does, `DEL` counts it, and so
does an `EXPIRE` with a deadline in the past.  Without a key limit the handlers, whoever
calls them, and the sweeps in between answer as this map does, unless a record cannot be
written.
-/

namespace ByteCacheDB

open CommandParser StorageEngine

/-! ## Commands on the map -/

/-- The call of the engine that a command leads to. -/
def Command.event? (env : Environment) (command : Command) : Option EngineEvent :=
  let clock (i : ℕ) : TimePoint := (env.clock i).1
  let key := command.arg 0
  match command.type with
  | .ping | .save | .unknown => none
  | .set => some ⟨.set key (command.arg 1), clock⟩
  | .get => some ⟨.get key, clock⟩
  | .del => some ⟨.del key, clock⟩
  | .exists => some ⟨.exists key, clock⟩
  | .expire =>
      match parseInt64 (command.arg 1) with
      | none => none
      | some seconds =>
          if seconds < 0 then none
          else some ⟨.expireAt key (addSeconds (clock 0) seconds), fun i ↦ clock (i + 1)⟩
  | .expireat =>
      (parseInt64 (command.arg 1)).map fun millis ↦
        ⟨.expireAt key (fromEpochMillis millis), clock⟩
  | .ttl => some ⟨.ttl key, clock⟩
  | .persist => some ⟨.persist key, clock⟩
  | .keys => some ⟨.keys, clock⟩
  | .flush => some ⟨.flush, clock⟩
  | .info => some ⟨.size, clock⟩
  | .mset => some ⟨.mset command.args, clock⟩
  | .mget => some ⟨.mget command.args, clock⟩
  | .incr => some ⟨.increment key 1, clock⟩
  | .decr => some ⟨.increment key (-1), clock⟩
  | .append => some ⟨.append key (command.arg 1), clock⟩
  | .strlen => some ⟨.strlen key, clock⟩

/-- The call of the engine that an action leads to. -/
def Action.event? : Action → Option EngineEvent
  | .command c env => c.event? env
  | .sweep now => some ⟨.cleanupExpired, fun _ ↦ now.1⟩

namespace Reference

open TtlMap

/-- The answer of `EXPIRE` and `EXPIREAT` to a key with this cell. -/
def expires (now deadline : TimePoint) (c : Cell) : Response :=
  .integer (if c ≠ none ∧ (c.live now ≠ none ∨ deadline ≤ now) then 1 else 0)

/-- The answer of `INCR` and `DECR`. -/
def counted : Except Bytes Int64 → Response
  | .ok n => .integer n
  | .error e => .error e

/-- What a command may answer if `m` is stored, on a server that was started with this
log. -/
def Replies (S : Sharding) (log : AppendOnlyFile) (env : Environment) (m : Store)
    (command : Command) (r : Response) : Prop :=
  let now := (env.clock 0).1
  let key := command.arg 0
  let length (c : Cell) : ℕ := (c.map fun e ↦ e.1.length).getD 0
  match command.type with
  | .ping => r = .simpleString (ascii "PONG")
  | .set | .mset | .flush => r = .simpleString (ascii "OK")
  | .get => r = ((visible now m key).map Prod.fst).elim .nullBulkString .bulkString
  | .del => r = .integer (if (m key).isSome then 1 else 0)
  | .exists => r = .integer (if (visible now m key).isSome then 1 else 0)
  | .expire =>
      match parseInt64 (command.arg 1) with
      | none => r = .error (ascii "invalid TTL value")
      | some seconds =>
          if seconds < 0 then r = .error (ascii "invalid TTL value")
          else r = expires (env.clock 1).1 (addSeconds now seconds) (m key)
  | .expireat =>
      match parseInt64 (command.arg 1) with
      | none => r = .error (ascii "invalid expiration timestamp")
      | some millis => r = expires now (fromEpochMillis millis) (m key)
  | .ttl => r = .integer ((visible now m key).ttl now)
  | .persist => r = .integer (if ((visible now m key).bind Prod.snd).isSome then 1 else 0)
  | .keys =>
      ∃ keys : List Bytes, r = .array (keys.map some) ∧ keys.Pairwise (· < ·) ∧
        ∀ k, k ∈ keys ↔ (visible now m k).isSome
  | .info =>
      ∃ expiredKeysRemoved, r = .bulkString (env.metrics.info
        (UInt64.ofNat {k | (visible now m k).isSome}.ncard) env.memoryEstimateBytes
        env.workerThreads log.enabled expiredKeysRemoved 0 (UInt64.ofNat S.count)
        log.fsyncPolicyName)
  | .mget =>
      r = .array (command.args.mapIdx fun i k ↦ (visible (env.clock i).1 m k).map Prod.fst)
  | .incr => r = counted (incremented 1 (visible now m key))
  | .decr => r = counted (incremented (-1) (visible now m key))
  | .append =>
      r = .integer (Int64.ofNat (length (visible now m key) + (command.arg 1).length))
  | .strlen => r = .integer (Int64.ofNat (length (visible now m key)))
  | .save => r = .simpleString (ascii "OK") ∨ ∃ e, r = .error (ascii "snapshot failure: " ++ e)
  | .unknown => r = .error (ascii "unknown command")

/-- What is stored after an action. -/
def act (m : Store) (a : Action) : Store := a.event?.elim m (keep m)

end Reference

/-- A command of some connection, or a sweep of the TTL manager. -/
def Server.act {S : Sharding} (v : Server S) : Action → Server S
  | .command command env => (v.executeOrdered env command).2
  | .sweep now => v.withStorage (v.storage.cleanupExpired now.1).2

/-- The last clock reading of an action. -/
def Action.last : Action → Instant
  | .command c env => env.last c
  | .sweep now => now

/-- The actions come one after another, and the clock never runs backwards. -/
def InOrder (actions : List Action) : Prop :=
  actions.Pairwise fun a b ↦ a.last.1 ≤ b.reading.1

instance (actions : List Action) : Decidable (InOrder actions) :=
  inferInstanceAs (Decidable (List.Pairwise _ _))

/-- The text of the failure, if a record of the command cannot be written. -/
def Server.failure {S : Sharding} (v : Server S) (env : Environment) (command : Command) :
    Option Bytes :=
  (appendEach env.writes 0 (v.records env command) none v.persistence v.disk).1

/-! ## The calls of a command -/

section
variable {env : Environment} {command : Command} {e : EngineEvent}

theorem Environment.le_last (env : Environment) (command : Command) {i : ℕ}
    (h : i ≤ command.args.length + 1) : (env.clock i).1 ≤ (env.last command).1 :=
  env.monotone i _ h

/-- The readings of the call are readings of the command, in their order. -/
theorem Command.times_event? (h : command.event? env = some e) :
    ∃ is : List ℕ, is.Pairwise (· ≤ ·) ∧ (∀ i ∈ is, i ≤ command.args.length + 1) ∧
      e.times = is.map fun i ↦ (env.clock i).1 := by
  have hone {call : EngineCall} (hcall : ∀ keys, call ≠ .mget keys) (j : ℕ) (hj : j ≤ 1) :
      ∃ is : List ℕ, is.Pairwise (· ≤ ·) ∧ (∀ i ∈ is, i ≤ command.args.length + 1) ∧
        EngineEvent.times ⟨call, fun i ↦ (env.clock (i + j)).1⟩ =
          is.map fun i ↦ (env.clock i).1 := by
    refine ⟨[j], List.pairwise_singleton _ j, by simp; omega, ?_⟩
    unfold EngineEvent.times
    split
    · rename_i keys hkeys
      exact absurd hkeys (hcall keys)
    · simp
  obtain ⟨type, args⟩ := command
  cases type with
  | ping | save | unknown => simp [event?] at h
  | mget =>
      obtain rfl := Option.some.inj h
      refine ⟨0 :: args.tail.mapIdx fun i _ ↦ i + 1, ?_, ?_, ?_⟩
      · rw [List.pairwise_cons, List.pairwise_iff_getElem]
        refine ⟨fun _ _ ↦ Nat.zero_le _, fun i j hi hj hij ↦ ?_⟩
        simp only [List.getElem_mapIdx]
        omega
      · intro i hi
        rcases List.mem_cons.mp hi with rfl | hi
        · exact Nat.zero_le _
        · obtain ⟨j, hj, rfl⟩ := List.mem_mapIdx.mp hi
          rw [List.length_tail] at hj
          dsimp only
          omega
      · rw [List.map_cons, TtlMap.map_mapIdx]
        rfl
  | expire =>
      simp only [event?] at h
      split at h
      · simp at h
      · simp only [Option.ite_none_left_eq_some, Option.some.injEq] at h
        obtain ⟨-, rfl⟩ := h
        exact hone (by simp) 1 (le_refl 1)
  | expireat =>
      obtain ⟨millis, -, rfl⟩ := Option.map_eq_some_iff.mp h
      exact hone (by simp) 0 (by omega)
  | _ =>
      obtain rfl := Option.some.inj h
      exact hone (by simp) 0 (by omega)

theorem Command.call_event? (h : command.event? env = some e) (n : UInt64) :
    e.call ≠ .setMaxKeys n := by
  obtain ⟨type, args⟩ := command
  cases type with
  | ping | save | unknown => simp [event?] at h
  | expire =>
      simp only [event?] at h
      split at h
      · simp at h
      · simp only [Option.ite_none_left_eq_some, Option.some.injEq] at h
        obtain ⟨-, rfl⟩ := h
        simp
  | expireat =>
      obtain ⟨millis, -, rfl⟩ := Option.map_eq_some_iff.mp h
      simp
  | _ =>
      obtain rfl := Option.some.inj h
      simp

end

section
variable {a : Action} {e : EngineEvent} {past : List Action}

/-- The readings of the call lie within the action. -/
theorem Action.times_event? (h : a.event? = some e) :
    e.times.Pairwise (· ≤ ·) ∧ ∀ u ∈ e.times, a.reading.1 ≤ u ∧ u ≤ a.last.1 := by
  cases a with
  | command command env =>
      obtain ⟨is, hsorted, hbound, htimes⟩ := Command.times_event? h
      rw [htimes]
      refine ⟨List.pairwise_map.mpr (hsorted.imp fun hij ↦ env.monotone _ _ hij), ?_⟩
      intro u hu
      obtain ⟨i, hi, rfl⟩ := List.mem_map.mp hu
      exact ⟨env.monotone 0 i (Nat.zero_le i), env.le_last command (hbound i hi)⟩
  | sweep now =>
      obtain rfl := Option.some.inj h
      refine ⟨List.pairwise_singleton _ _, fun u hu ↦ ?_⟩
      rw [List.mem_singleton.mp hu]
      exact ⟨Int64.le_refl _, Int64.le_refl _⟩

theorem Action.call_event? (h : a.event? = some e) (n : UInt64) : e.call ≠ .setMaxKeys n := by
  cases a with
  | command command env => exact Command.call_event? h n
  | sweep now =>
      obtain rfl := Option.some.inj h
      simp

/-- Actions in order make calls in order. -/
theorem InOrder.chronological (h : InOrder past) :
    Chronological (past.filterMap Action.event?) := by
  rw [Chronological, List.pairwise_flatMap, List.pairwise_filterMap]
  refine ⟨fun e he ↦ ?_, h.imp fun hab e he e' he' u hu u' hu' ↦ ?_⟩
  · obtain ⟨a, -, ha⟩ := List.mem_filterMap.mp he
    exact (Action.times_event? ha).1
  · exact Int64.le_trans ((Action.times_event? he).2 u hu).2
      (Int64.le_trans hab ((Action.times_event? he').2 u' hu').1)

end

/-! ## One command -/

section
variable {S : Sharding} {v : Server S} {env : Environment} {command : Command} {m : Store}
  {log : AppendOnlyFile}

/-- `execute` works on the store by that call. -/
theorem storage_execute (v : Server S) (env : Environment) (command : Command) :
    (v.execute env command).2.storage =
      (command.event? env).elim v.storage fun e ↦ (v.storage.call e).2 := by
  obtain ⟨type, args⟩ := command
  cases type with
  | expire =>
      simp only [Server.execute, Command.event?]
      cases parseInt64 (Command.arg ⟨.expire, args⟩ 1) with
      | none => rfl
      | some seconds =>
          dsimp only
          split <;> rfl
  | expireat =>
      simp only [Server.execute, Command.event?]
      cases parseInt64 (Command.arg ⟨.expireat, args⟩ 1) <;> rfl
  | incr | decr =>
      simp only [Server.execute, Server.executeIncrement, Command.event?, Option.elim_some,
        StorageEngine.call]
      split <;> simp_all [Server.withStorage]
  | save =>
      simp only [Server.execute]
      split <;> rfl
  | _ => rfl

/-- `persist_if_needed` takes the evicted keys from the store and no more. -/
theorem storage_executeOrdered (v : Server S) (env : Environment) (command : Command) :
    let before := (v.execute env command).2.storage
    let after := (v.executeOrdered env command).2.storage
    after.maxKeys = before.maxKeys ∧ after.evictedKeys = before.evictedKeys ∧
      after.drift = before.drift ∧ after.cells = before.cells := by
  rw [Server.executeOrdered, Server.persistIfNeeded]
  split
  · exact ⟨rfl, rfl, rfl, rfl⟩
  · split <;> exact ⟨rfl, rfl, rfl, rfl⟩

theorem files_execute (v : Server S) (env : Environment) (command : Command) :
    (v.execute env command).2.persistence = v.persistence ∧
      ((v.execute env command).1.shouldLog = true → (v.execute env command).2.disk = v.disk) := by
  obtain ⟨type, args⟩ := command
  cases type with
  | expire =>
      simp only [Server.execute]
      split
      · exact ⟨rfl, fun _ ↦ rfl⟩
      · split <;> exact ⟨rfl, fun _ ↦ rfl⟩
  | expireat =>
      simp only [Server.execute]
      split <;> exact ⟨rfl, fun _ ↦ rfl⟩
  | save =>
      simp only [Server.execute]
      split <;> exact ⟨rfl, fun hlog ↦ by simp at hlog⟩
  | incr | decr =>
      simp only [Server.execute, Server.executeIncrement]
      split <;> exact ⟨rfl, fun _ ↦ rfl⟩
  | _ => exact ⟨rfl, fun _ ↦ rfl⟩

/-- What is sent is what `execute` answers, unless a record of the command could not be
written. -/
theorem response_executeOrdered (v : Server S) (env : Environment) (command : Command) :
    (v.executeOrdered env command).1.response =
      (v.failure env command).elim (v.execute env command).1.response
        fun e ↦ .error (ascii "persistence failure: " ++ e) := by
  obtain ⟨hpersistence, hdisk⟩ := files_execute v env command
  rw [Server.executeOrdered, Server.persistIfNeeded, Server.failure, Server.records, hpersistence]
  cases hlog : (v.execute env command).1.shouldLog with
  | false => simp [appendEach]
  | true =>
      cases henabled : v.persistence.enabled with
      | false => simp [appendEach]
      | true =>
          rw [hdisk hlog]
          simp only [Bool.not_true, Bool.false_eq_true, if_false, and_self, if_true,
            takeEvictedKeys]
          cases (appendEach env.writes 0 ((v.execute env command).1.logCommand ::
            (v.execute env command).2.storage.pendingEvictedKeys.map evictionCommand) none
            v.persistence v.disk).1 <;> rfl

/-- Appending does not change how the log was set up. -/
theorem configured_append (f : AppendOnlyFile) (disk : Disk) (o : AppendOnlyFile.WriteOutcome)
    (command : Command) :
    (f.append disk o command).2.1.enabled = f.enabled ∧
      (f.append disk o command).2.1.fsyncPolicy = f.fsyncPolicy := by
  unfold AppendOnlyFile.append AppendOnlyFile.appendLine AppendOnlyFile.writeRecordLocked
  split
  · exact ⟨rfl, rfl⟩
  split
  · exact ⟨rfl, rfl⟩
  dsimp only
  split
  · exact ⟨rfl, rfl⟩
  split
  · unfold AppendOnlyFile.syncLocked
    dsimp only
    split
    · exact ⟨rfl, rfl⟩
    split <;> exact ⟨rfl, rfl⟩
  · exact ⟨rfl, rfl⟩

theorem configured_appendEach (writes : ℕ → AppendOnlyFile.WriteOutcome) (i : ℕ)
    (commands : List Command) (error : Option Bytes) (f : AppendOnlyFile) (disk : Disk) :
    (appendEach writes i commands error f disk).2.1.enabled = f.enabled ∧
      (appendEach writes i commands error f disk).2.1.fsyncPolicy = f.fsyncPolicy := by
  induction commands generalizing i error f disk with
  | nil => exact ⟨rfl, rfl⟩
  | cons command commands ih =>
      obtain ⟨henabled, hpolicy⟩ := configured_append f disk (writes i) command
      rw [appendEach, (ih ..).1, (ih ..).2]
      exact ⟨henabled, hpolicy⟩

theorem configured_executeOrdered (v : Server S) (env : Environment) (command : Command) :
    (v.executeOrdered env command).2.persistence.enabled = v.persistence.enabled ∧
      (v.executeOrdered env command).2.persistence.fsyncPolicy = v.persistence.fsyncPolicy := by
  obtain ⟨hpersistence, -⟩ := files_execute v env command
  rw [Server.executeOrdered, Server.persistIfNeeded, ← hpersistence]
  split
  · exact ⟨rfl, rfl⟩
  · split
    · exact ⟨rfl, rfl⟩
    · exact configured_appendEach _ _ _ _ _ _

namespace Reference

open TtlMap

/-- What holds between a server and what is stored. -/
structure Refines (log : AppendOnlyFile) (v : Server S) (m : Store) : Prop where
  maxKeys : v.storage.maxKeys = 0
  evictedKeys : v.storage.evictedKeys = 0
  drift : v.storage.drift = 0
  enabled : v.persistence.enabled = log.enabled
  fsyncPolicy : v.persistence.fsyncPolicy = log.fsyncPolicy
  cells : v.storage.cells = m

theorem Refines.info (h : Refines log v m) (env : Environment) :
    ∃ expiredKeysRemoved, v.info env = env.metrics.info
      (UInt64.ofNat {k | (visible (env.clock 0).1 m k).isSome}.ncard) env.memoryEstimateBytes
      env.workerThreads log.enabled expiredKeysRemoved 0 (UInt64.ofNat S.count)
      log.fsyncPolicyName := by
  have hsize : (v.storage.size (env.clock 0).1).1 =
      UInt64.ofNat {k | (visible (env.clock 0).1 m k).isSome}.ncard := by
    apply UInt64.toNat.inj
    rw [size_eq h.drift, UInt64.toNat_ofNat', h.cells]
  have hpolicy : v.persistence.fsyncPolicyName = log.fsyncPolicyName := by
    rw [AppendOnlyFile.fsyncPolicyName, AppendOnlyFile.fsyncPolicyName, h.fsyncPolicy]
  exact ⟨_, by rw [Server.info, hsize, h.enabled, h.evictedKeys, hpolicy]⟩

/-- The engine gives the answers that the map of its cells gives. -/
theorem Refines.replies (h : Refines log v m) (env : Environment) (command : Command) :
    Replies S log env m command (v.execute env command).1.response := by
  obtain rfl := h.cells
  have hreturns (call : EngineCall) (hcall : ∀ keys, call ≠ .mget keys) :
      Returns v.storage.cells ⟨call, fun i ↦ (env.clock i).1⟩
        (v.storage.call ⟨call, fun i ↦ (env.clock i).1⟩).1 := by
    apply returns_call h.drift
    unfold EngineEvent.times
    split
    · rename_i keys hkeys
      exact absurd hkeys (hcall keys)
    · simp
  have hexpires (now deadline : TimePoint) (key : Bytes) :
      (.integer (if (v.storage.expireAt now key deadline).1 then 1 else 0) : Response) =
        expires now deadline (v.storage.cells key) := by
    simp only [expires, expireAt_eq_true_iff v.storage now key deadline]
  have hcounted (command : Command) (delta : Int64) :
      (v.executeIncrement (env.clock 0).1 command delta).1.response =
        counted (incremented delta (visible (env.clock 0).1 v.storage.cells (command.arg 0))) := by
    have hresult := fst_increment v.storage (env.clock 0).1 (command.arg 0) delta
    rw [← incremented_live] at hresult
    rw [visible, ← hresult, Server.executeIncrement]
    rcases v.storage.increment (env.clock 0).1 (command.arg 0) delta with ⟨e | n, storage⟩ <;> rfl
  obtain ⟨type, args⟩ := command
  cases type with
  | ping | set | mset | flush | unknown => rfl
  | info =>
      obtain ⟨expired, hinfo⟩ := h.info env
      exact ⟨expired, congrArg Response.bulkString hinfo⟩
  | get =>
      have hget := (cells_get v.storage (env.clock 0).1 (Command.arg ⟨.get, args⟩ 0)).2
      simp only [Replies, Server.execute, hget, visible]
      cases (v.storage.cells (Command.arg ⟨.get, args⟩ 0)).live (env.clock 0).1 <;> rfl
  | del =>
      simp only [Replies, Server.execute, fst_del]
      cases v.storage.cells (Command.arg ⟨.del, args⟩ 0) <;> rfl
  | «exists» =>
      have hflag :=
        EngineResult.flag.inj (hreturns (.exists (Command.arg ⟨.exists, args⟩ 0)) (by simp))
      simp only [Replies, Server.execute, hflag]
  | expire =>
      simp only [Replies, Server.execute]
      cases parseInt64 (Command.arg ⟨.expire, args⟩ 1) with
      | none => rfl
      | some seconds =>
          dsimp only
          split
          · rfl
          · exact hexpires _ _ _
  | expireat =>
      simp only [Replies, Server.execute]
      cases parseInt64 (Command.arg ⟨.expireat, args⟩ 1) with
      | none => rfl
      | some millis => exact hexpires _ _ _
  | ttl =>
      simp only [Replies, Server.execute, fst_ttl]
      simp [Cell.ttl, visible]
  | persist =>
      have hflag :=
        EngineResult.flag.inj (hreturns (.persist (Command.arg ⟨.persist, args⟩ 0)) (by simp))
      simp only [Replies, Server.execute, hflag]
  | keys =>
      obtain ⟨keys, hkeys, hsorted, hmem⟩ := hreturns .keys (by simp)
      refine ⟨keys, ?_, hsorted, hmem⟩
      simp only [Server.execute, EngineResult.keys.inj hkeys]
  | mget =>
      have hpairs : ((args.mapIdx fun i key ↦ (key, (env.clock i).1)).map Prod.snd).Pairwise
          (· ≤ ·) := by
        rw [map_mapIdx, List.pairwise_iff_getElem]
        intro i j hi hj hij
        simpa using env.monotone i j (Nat.le_of_lt hij)
      have hvalues := mget_fst _ v.storage hpairs
      rw [map_mapIdx] at hvalues
      simp only [Replies, Server.execute, hvalues]
  | incr | decr => exact hcounted _ _
  | append =>
      have hlength := EngineResult.count.inj (hreturns (.append (Command.arg ⟨.append, args⟩ 0)
        (Command.arg ⟨.append, args⟩ 1)) (by simp))
      simp only [Replies, Server.execute, hlength]
  | strlen =>
      have hlength :=
        EngineResult.length.inj (hreturns (.strlen (Command.arg ⟨.strlen, args⟩ 0)) (by simp))
      simp only [Replies, Server.execute, hlength, Option.getD_some]
  | save =>
      simp only [Replies, Server.execute]
      split
      · rename_i e _ _
        exact Or.inr ⟨e, rfl⟩
      · exact Or.inl rfl

/-- A call of the engine. -/
theorem Refines.call (h : Refines log v m) {a : Action} {v' : Server S}
    (hstorage : v'.storage = a.event?.elim v.storage fun e ↦ (v.storage.call e).2)
    (henabled : v'.persistence.enabled = v.persistence.enabled)
    (hpolicy : v'.persistence.fsyncPolicy = v.persistence.fsyncPolicy) :
    Refines log v' (Reference.act m a) := by
  have hsame := henabled.trans h.enabled
  have hkept := hpolicy.trans h.fsyncPolicy
  rw [Reference.act]
  cases hevent : a.event? with
  | none =>
      rw [hevent, Option.elim_none] at hstorage
      exact ⟨hstorage ▸ h.maxKeys, hstorage ▸ h.evictedKeys, hstorage ▸ h.drift, hsame, hkept,
        hstorage ▸ h.cells⟩
  | some e =>
      rw [hevent, Option.elim_some] at hstorage
      have hcall (n : UInt64) (hn : e.call = .setMaxKeys n) : n = 0 :=
        absurd hn (Action.call_event? hevent n)
      obtain ⟨hmax, hevicted⟩ := unlimited_call h.maxKeys hcall
      have hcells := cells_call h.maxKeys hcall
      rw [h.cells] at hcells
      rw [← hstorage] at hmax hevicted hcells
      refine ⟨hmax, hevicted.trans h.evictedKeys, ?_, hsame, hkept, hcells⟩
      rw [hstorage]
      exact drift_call h.drift e

theorem Refines.act (h : Refines log v m) (a : Action) :
    Refines log (v.act a) (Reference.act m a) := by
  cases a with
  | command command env =>
      obtain ⟨henabled, hpolicy⟩ := configured_executeOrdered v env command
      have hnext : Refines log
          (⟨(v.execute env command).2.storage, v.persistence, v.disk⟩ : Server S)
          (Reference.act m (.command command env)) :=
        h.call (storage_execute v env command) rfl rfl
      obtain ⟨hmax, hevicted, hdrift, hcells⟩ := storage_executeOrdered v env command
      exact ⟨hmax.trans hnext.maxKeys, hevicted.trans hnext.evictedKeys,
        hdrift.trans hnext.drift, henabled.trans h.enabled, hpolicy.trans h.fsyncPolicy,
        hcells.trans hnext.cells⟩
  | sweep now => exact h.call rfl rfl rfl

/-- Any number of actions of any connections. -/
theorem refines_foldl (S : Sharding) (log : AppendOnlyFile) (disk : Disk) (past : List Action) :
    Refines log (past.foldl Server.act (⟨{}, log, disk⟩ : Server S))
      (past.foldl Reference.act fun _ ↦ none) := by
  induction past using List.reverseRecOn with
  | nil => exact ⟨rfl, rfl, by simp [drift], rfl, rfl, rfl⟩
  | append_singleton past a ih =>
      rw [List.foldl_append, List.foldl_append]
      exact ih.act a

/-- One command with its records, and its answer. -/
theorem Refines.answers (h : Refines log v m) (env : Environment) (command : Command) :
    (v.failure env command).elim
      (Replies S log env m command (v.executeOrdered env command).1.response)
      fun e ↦ (v.executeOrdered env command).1.response =
        .error (ascii "persistence failure: " ++ e) := by
  rw [response_executeOrdered]
  cases v.failure env command with
  | none => exact h.replies env command
  | some e => rfl

theorem foldl_act (past : List Action) (m : Store) :
    past.foldl Reference.act m = (past.filterMap Action.event?).foldl keep m := by
  induction past generalizing m with
  | nil => rfl
  | cons a past ih =>
      rw [List.foldl_cons, ih, Reference.act, List.filterMap_cons]
      cases a.event? <;> rfl

/-- The clients see the map in which nothing has expired. -/
theorem visible_foldl_act {past : List Action} (horder : InOrder past) {t : TimePoint}
    (ht : ∀ a ∈ past, a.last.1 ≤ t) :
    visible t (past.foldl Reference.act fun _ ↦ none) =
      visible t (run (past.filterMap Action.event?)) := by
  rw [foldl_act]
  refine visible_foldl_keep horder.chronological fun u hu ↦ ?_
  obtain ⟨e, he, hu⟩ := List.mem_flatMap.mp hu
  obtain ⟨a, ha, hevent⟩ := List.mem_filterMap.mp he
  exact Int64.le_trans ((Action.times_event? hevent).2 u hu).2 (ht a ha)

end Reference

end

/-- Whatever the connections have done before: a command answers as it does on the map, or
with the failure of its own records, and it leaves what it leaves of the map in both cases.
While the clock does not run backwards, the clients see a map in which nothing has
expired. -/
theorem server_refines_reference (S : Sharding) (log : AppendOnlyFile) (disk : Disk)
    (past : List Action) (command : Command) (env : Environment) :
    let v := past.foldl Server.act (⟨{}, log, disk⟩ : Server S)
    let m := past.foldl Reference.act fun _ ↦ none
    let result := v.executeOrdered env command
    let actions := past ++ [.command command env]
    (v.failure env command).elim (Reference.Replies S log env m command result.1.response)
        (fun e ↦ result.1.response = .error (ascii "persistence failure: " ++ e)) ∧
      result.2.storage.cells = Reference.act m (.command command env) ∧
      (InOrder actions → ∀ t, (env.last command).1 ≤ t →
        TtlMap.visible t result.2.storage.cells =
          TtlMap.visible t (TtlMap.run (actions.filterMap Action.event?))) := by
  intro v m result actions
  have hrefines := Reference.refines_foldl S log disk past
  have hcells := (hrefines.act (.command command env)).cells
  refine ⟨hrefines.answers env command, hcells, fun horder t ht ↦ ?_⟩
  have hactions : Reference.act m (.command command env) =
      actions.foldl Reference.act fun _ ↦ none := by
    rw [List.foldl_append]
    rfl
  refine (congrArg (TtlMap.visible t) (hcells.trans hactions)).trans
    (Reference.visible_foldl_act horder fun a ha ↦ ?_)
  rw [InOrder, List.pairwise_append] at horder
  rcases List.mem_append.mp ha with ha | ha
  · have hbefore := horder.2.2 a ha (.command command env) (by simp)
    exact Int64.le_trans hbefore (Int64.le_trans (env.le_last command (Nat.zero_le _)) ht)
  · rw [List.mem_singleton.mp ha]
    exact ht

/-- `SET k 5` and `EXPIREAT k 1`, one millisecond after the epoch. -/
def lapsingKey : List Action :=
  [.command ⟨.set, [ascii "k", ascii "5"]⟩ (.at ⟨0, epoch_nonneg⟩),
    .command ⟨.expireat, [ascii "k", ascii "1"]⟩ (.at ⟨0, epoch_nonneg⟩)]

/-- The deadline has passed when `INCR` comes, so it begins anew; its record cannot be
written, and what it has stored is visible all the same.  `DEL` in its place counts the
expired entry, and no key that was never stored. -/
theorem server_refines_reference_lapsingKey :
    let env : Environment := .at ⟨1000000, by decide⟩
    let v (log : AppendOnlyFile) := lapsingKey.foldl Server.act (⟨{}, log, {}⟩ : Server oneShard)
    let failed := (v { enabled := true }).executeOrdered env ⟨.incr, [ascii "k"]⟩
    failed.1.response = .error (ascii "persistence failure: AOF file is not open") ∧
      TtlMap.visible 1000000 failed.2.storage.cells (ascii "k") = some (ascii "1", none) ∧
      ((v { enabled := false }).executeOrdered env ⟨.del, [ascii "k"]⟩).1.response = .integer 1 ∧
      ((v { enabled := false }).executeOrdered env ⟨.del, [ascii "j"]⟩).1.response =
        .integer 0 := by
  intro env v failed
  obtain ⟨-, -, hvisible⟩ := server_refines_reference oneShard { enabled := true } {} lapsingKey
    ⟨.incr, [ascii "k"]⟩ env
  have horder : InOrder (lapsingKey ++ [.command ⟨.incr, [ascii "k"]⟩ env]) := by decide
  have hdel (key : Bytes) : ((v { enabled := false }).executeOrdered env ⟨.del, [key]⟩).1.response =
      .integer (if (lapsingKey.foldl Reference.act (fun _ ↦ none) key).isSome then 1 else 0) := by
    obtain ⟨hreplies, -⟩ := server_refines_reference oneShard { enabled := false } {} lapsingKey
      ⟨.del, [key]⟩ env
    have hfailure : (v { enabled := false }).failure env ⟨.del, [key]⟩ = none := by
      have hdisabled : (v { enabled := false }).persistence.enabled = false := by decide +kernel
      simp [Server.failure, Server.records, hdisabled, appendEach]
    rw [hfailure] at hreplies
    exact hreplies
  refine ⟨by decide +kernel, ?_, ?_, ?_⟩
  · refine (congrFun (hvisible horder 1000000 (Int64.le_refl _)) _).trans ?_
    decide +kernel
  · rw [hdel]
    decide +kernel
  · rw [hdel]
    decide +kernel

end ByteCacheDB
