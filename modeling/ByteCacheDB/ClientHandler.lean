import ByteCacheDB.Persistence

/-!
# The command handler

`execute` runs one parsed command on the engine, `persistIfNeeded` writes its
log record and one `DEL` for each key it evicted, and `executeOrdered` is the
two together.  The clock readings of a call, what the system does with its
writes, and what `INFO` reads outside the engine come in as arguments.
-/

namespace ByteCacheDB

open CommandParser Numerals AppendOnlyFile

inductive Response where
  | simpleString (value : Bytes)
  | error (message : Bytes)
  | integer (value : Int64)
  | bulkString (value : Bytes)
  | nullBulkString
  | array (values : List (Option Bytes))
  deriving DecidableEq, Repr

namespace Response

def crlf : Bytes := [carriageReturn, newline]

def encodeBulk : Option Bytes → Bytes
  | some value => ascii "$" ++ printNat value.length ++ crlf ++ value ++ crlf
  | none => ascii "$-1" ++ crlf

def encode : Response → Bytes
  | .simpleString value => ascii "+" ++ value ++ crlf
  | .error message => ascii "-ERR " ++ message ++ crlf
  | .integer value => ascii ":" ++ toStringI64 value ++ crlf
  | .bulkString value => encodeBulk (some value)
  | .nullBulkString => encodeBulk none
  | .array values => ascii "*" ++ printNat values.length ++ crlf ++ values.flatMap encodeBulk

def isError : Response → Bool
  | .error _ => true
  | _ => false

end Response

structure ExecutionResult where
  response : Response
  shouldLog : Bool := false
  logCommand : Command := ⟨.unknown, []⟩
  deriving DecidableEq, Repr

/-- What `INFO` reads of the metrics; the quotient is here as it is printed. -/
structure Metrics where
  uptimeSeconds : UInt64 := 0
  connectedClients : UInt64 := 0
  totalCommands : UInt64 := 0
  qps : Bytes := []

def Metrics.info (m : Metrics) (totalKeys memoryEstimateBytes workerThreads : UInt64)
    (aofEnabled : Bool) (expiredKeysRemoved evictedKeys storageShards : UInt64)
    (fsyncPolicy : Bytes) : Bytes :=
  let line (name : String) (value : Bytes) : Bytes := ascii name ++ value ++ [newline]
  line "server_uptime_seconds: " (toStringU64 m.uptimeSeconds) ++
    line "connected_clients: " (toStringU64 m.connectedClients) ++
    line "total_commands: " (toStringU64 m.totalCommands) ++
    line "qps_since_startup: " m.qps ++
    line "total_keys: " (toStringU64 totalKeys) ++
    line "expired_keys_removed: " (toStringU64 expiredKeysRemoved) ++
    line "evicted_keys: " (toStringU64 evictedKeys) ++
    line "memory_estimate_bytes: " (toStringU64 memoryEstimateBytes) ++
    line "worker_threads: " (toStringU64 workerThreads) ++
    line "storage_shards: " (toStringU64 storageShards) ++
    line "aof_enabled: " (ascii (if aofEnabled then "true" else "false")) ++
    line "fsync_policy: " fsyncPolicy

/-- What a call meets outside the engine.  Its clock readings, in the order in
which it makes them, never run backwards. -/
structure Environment where
  clock : ℕ → Instant
  monotone : ∀ i j, i ≤ j → (clock i).1 ≤ (clock j).1
  writes : ℕ → WriteOutcome := fun _ ↦ { accepted := maxFileSize }
  save : SaveOutcome := {}
  metrics : Metrics := {}
  /-- it counts the capacities of strings -/
  memoryEstimateBytes : UInt64 := 0
  workerThreads : UInt64 := 0
  /-- whether `INFO` calls `size` before it reads the counter of expired keys: they are
  arguments of one call, whose order C++ leaves open -/
  sizeFirst : Bool := true

/-- A clock that stands still during a call. -/
def Environment.at (now : Instant) : Environment where
  clock _ := now
  monotone _ _ _ := Int64.le_refl _

def parseInt64 (value : Bytes) : Option Int64 :=
  match fromCharsI64 value with
  | .ok (parsed, []) => some parsed
  | _ => none

def expireAtLogCommand (key : Bytes) (expiresAt : TimePoint) : Command :=
  ⟨.expireat, [key, toStringI64 (toEpochMillis expiresAt)]⟩

/-- The record of an eviction. -/
def evictionCommand (key : Bytes) : Command := ⟨.del, [key]⟩

/-- What the handlers share. -/
structure Server (S : Sharding) where
  storage : StorageEngine S
  persistence : AppendOnlyFile
  disk : Disk

/-- The variable `error` of a caller behind one more append. -/
def lastError (error : Option Bytes) : Except Bytes Unit → Option Bytes
  | .ok () => error
  | .error e => some e

/-- Consecutive `append` calls for the records `i`, `i + 1`, …; the text of the
last failure is kept. -/
def appendEach (writes : ℕ → WriteOutcome) :
    ℕ → List Command → Option Bytes → AppendOnlyFile → Disk →
      Option Bytes × AppendOnlyFile × Disk
  | _, [], error, f, disk => (error, f, disk)
  | i, command :: rest, error, f, disk =>
      let appended := f.append disk (writes i) command
      appendEach writes (i + 1) rest (lastError error appended.1) appended.2.1 appended.2.2

namespace Server

variable {S : Sharding}

def withStorage (v : Server S) (storage : StorageEngine S) : Server S :=
  { v with storage := storage }

/-- The answer of `INCR` and `DECR`. -/
def executeIncrement (v : Server S) (now : TimePoint) (command : Command) (delta : Int64) :
    ExecutionResult × Server S :=
  match v.storage.increment now (command.arg 0) delta with
  | (.error e, storage) => ({ response := .error e }, v.withStorage storage)
  | (.ok next, storage) => (⟨.integer next, true, command⟩, v.withStorage storage)

/-- The text of `INFO`; `aof_enabled_` of a handler is `enabled_` of the log. -/
def info (v : Server S) (env : Environment) : Bytes :=
  let counted := v.storage.size (env.clock 0).1
  let storage := if env.sizeFirst then counted.2 else v.storage
  env.metrics.info counted.1 env.memoryEstimateBytes env.workerThreads v.persistence.enabled
    storage.expiredKeysRemoved v.storage.evictedKeys (UInt64.ofNat S.count)
    v.persistence.fsyncPolicyName

def execute (v : Server S) (env : Environment) (command : Command) :
    ExecutionResult × Server S :=
  let now := (env.clock 0).1
  let key := command.arg 0
  match command.type with
  | .ping => ({ response := .simpleString (ascii "PONG") }, v)
  | .set =>
      (⟨.simpleString (ascii "OK"), true, command⟩,
        v.withStorage (v.storage.set now key (command.arg 1)))
  | .get =>
      let result := v.storage.get now key
      ({ response := match result.1 with
          | some value => .bulkString value
          | none => .nullBulkString }, v.withStorage result.2)
  | .del =>
      let result := v.storage.del key
      (⟨.integer (Int64.ofNat result.1), decide (0 < result.1), command⟩, v.withStorage result.2)
  | .exists =>
      let result := v.storage.exists now key
      ({ response := .integer (if result.1 then 1 else 0) }, v.withStorage result.2)
  | .expire =>
      match parseInt64 (command.arg 1) with
      | none => ({ response := .error (ascii "invalid TTL value") }, v)
      | some seconds =>
          if seconds < 0 then ({ response := .error (ascii "invalid TTL value") }, v)
          else
            -- the handler and the engine each read the clock
            let expiresAt := addSeconds now seconds
            let result := v.storage.expireAt (env.clock 1).1 key expiresAt
            (⟨.integer (if result.1 then 1 else 0), result.1, expireAtLogCommand key expiresAt⟩,
              v.withStorage result.2)
  | .expireat =>
      match parseInt64 (command.arg 1) with
      | none => ({ response := .error (ascii "invalid expiration timestamp") }, v)
      | some millis =>
          let result := v.storage.expireAt now key (fromEpochMillis millis)
          (⟨.integer (if result.1 then 1 else 0), result.1, command⟩, v.withStorage result.2)
  | .ttl =>
      let result := v.storage.ttl now key
      ({ response := .integer result.1 }, v.withStorage result.2)
  | .persist =>
      let result := v.storage.persist now key
      (⟨.integer (if result.1 then 1 else 0), result.1, command⟩, v.withStorage result.2)
  | .keys => ({ response := .array ((v.storage.keys now).map some) }, v)
  | .flush => (⟨.simpleString (ascii "OK"), true, command⟩, v.withStorage v.storage.flush.2)
  | .info => ({ response := .bulkString (v.info env) }, v.withStorage (v.storage.size now).2)
  | .mset =>
      (⟨.simpleString (ascii "OK"), true, command⟩,
        v.withStorage (v.storage.mset now command.args).2)
  | .mget =>
      let result := v.storage.mget (command.args.mapIdx fun i key ↦ (key, (env.clock i).1))
      ({ response := .array result.1 }, v.withStorage result.2)
  | .incr => v.executeIncrement now command 1
  | .decr => v.executeIncrement now command (-1)
  | .append =>
      let result := v.storage.append now key (command.arg 1)
      (⟨.integer (Int64.ofNat result.1), true, command⟩, v.withStorage result.2)
  | .strlen =>
      let result := v.storage.strlen now key
      ({ response := .integer (Int64.ofNat (result.1.getD 0)) }, v.withStorage result.2)
  | .save =>
      match v.persistence.saveSnapshot v.disk v.storage now env.save with
      | (.error e, disk) =>
          ({ response := .error (ascii "snapshot failure: " ++ e) }, { v with disk := disk })
      | (.ok (), disk) => ({ response := .simpleString (ascii "OK") }, { v with disk := disk })
  | .unknown => ({ response := .error (ascii "unknown command") }, v)

def persistIfNeeded (v : Server S) (env : Environment) (result : ExecutionResult) :
    ExecutionResult × Server S :=
  if !result.shouldLog then (result, v)
  else if !v.persistence.enabled then (result, v.withStorage v.storage.takeEvictedKeys.2)
  else
    let evicted := v.storage.takeEvictedKeys
    let appended := appendEach env.writes 0
      (result.logCommand :: evicted.1.map evictionCommand) none v.persistence v.disk
    ({ result with
        response := match appended.1 with
          | none => result.response
          | some e => .error (ascii "persistence failure: " ++ e) },
      ⟨evicted.2, appended.2.1, appended.2.2⟩)

def executeOrdered (v : Server S) (env : Environment) (command : Command) :
    ExecutionResult × Server S :=
  let executed := v.execute env command
  executed.2.persistIfNeeded env executed.1

/-- The commands for which a call of `executeOrdered` appends records. -/
def records (v : Server S) (env : Environment) (command : Command) : List Command :=
  let executed := v.execute env command
  if executed.1.shouldLog ∧ v.persistence.enabled then
    executed.1.logCommand :: executed.2.storage.pendingEvictedKeys.map evictionCommand
  else []

end Server

end ByteCacheDB
