import ByteCacheDB.EngineCalls
import ByteCacheDB.Execution

/-!
# Deadlines seen from outside

An entry is expired from its deadline on, to the nanosecond.  `ttl` counts what is
left in whole milliseconds, `del` does not look at the deadline at all, and the
deadlines of `EXPIRE` and `EXPIREAT` are computed in 64-bit ticks.  Each of these
agrees with the entries that `get` shows under a condition that is stated here.
-/

namespace ByteCacheDB

open StorageEngine

/-! ## What is left of a deadline -/

/-- The answer of `ttl` for a cell. -/
def Cell.ttl (now : TimePoint) (c : Cell) : Int64 :=
  match c.live now with
  | none => -2
  | some (_, none) => -1
  | some (_, some deadline) =>
      let remainingMs := toEpochMillis (deadline - now)
      if remainingMs ≤ 0 then -2 else (remainingMs + 999) / 1000

section
variable {S : Sharding} (s : StorageEngine S) (now : TimePoint) (key : Bytes)

theorem fst_ttl : (s.ttl now key).1 = (s.cells key).ttl now := by
  unfold StorageEngine.ttl Cell.ttl
  cases hfind : s.shards.find? key with
  | none => simp [cells_eq_none_iff.mpr hfind]
  | some entry =>
      rw [live_cells_of_isExpired hfind, cells_of_find? hfind]
      cases hexp : isExpired entry now with
      | true => simp [hexp]
      | false => cases hdeadline : entry.expiresAt <;> simp [hexp, hdeadline]

theorem fst_get_eq_none_iff : (s.get now key).1 = none ↔ (s.cells key).live now = none := by
  rw [(cells_get s now key).2, Option.map_eq_none_iff]

end

theorem toInt_sub_of_lt {now deadline : TimePoint} (h : now < deadline) :
    (deadline - now).toInt = deadline.toInt - now.toInt ∧
        deadline.toInt - now.toInt < 2 ^ 63 ∨
      (deadline - now).toInt < 0 ∧ 2 ^ 63 ≤ deadline.toInt - now.toInt := by
  have hlt := Int64.lt_iff_toInt_lt.mp h
  have hlo := now.le_toInt
  have hhi := deadline.toInt_lt
  rw [Int64.toInt_sub]
  by_cases hfits : deadline.toInt - now.toInt < 2 ^ 63
  · refine Or.inl ⟨?_, hfits⟩
    apply Int.bmod_eq_of_le <;> omega
  · refine Or.inr ⟨?_, by omega⟩
    rw [Int.bmod_def]
    omega

/-- Whole seconds, rounded up, of a positive number of milliseconds. -/
theorem toInt_roundUp {r : Int64} (hpos : 0 < r.toInt) (hle : r.toInt ≤ 9223372036854) :
    ((r + 999) / 1000).toInt = (r.toInt + 999) / 1000 := by
  have hsum : (r + 999).toInt = r.toInt + 999 := by
    rw [Int64.toInt_add]
    apply Int.bmod_eq_of_le <;> simp <;> omega
  rw [Int64.toInt_div, hsum, show (1000 : Int64).toInt = 1000 by decide,
    Int.tdiv_eq_ediv_of_nonneg (by omega)]
  apply Int.bmod_eq_of_le <;> omega

/-- The answer of `ttl` for a live cell with a deadline. -/
theorem ttl_of_deadline {c : Cell} {now deadline : TimePoint} {value : Bytes}
    (h : c.live now = some (value, some deadline)) :
    let left := deadline.toInt - now.toInt
    (1000000 ≤ left ∧ left < 2 ^ 63 ∧ (c.ttl now).toInt = (left / 1000000 + 999) / 1000) ∨
      ((left < 1000000 ∨ 2 ^ 63 ≤ left) ∧ c.ttl now = -2) := by
  intro left
  have hlt := Cell.lt_of_live h
  have hmillis := toInt_toEpochMillis (deadline - now)
  have hdiv := tdiv_million (deadline - now).toInt
  have hle : toEpochMillis (deadline - now) ≤ 0 ↔ (toEpochMillis (deadline - now)).toInt ≤ 0 := by
    rw [Int64.le_iff_toInt_le]
    rfl
  have hbound := (deadline - now).toInt_lt
  have hpos := Int64.lt_iff_toInt_lt.mp hlt
  rw [Cell.ttl, h]
  dsimp only
  rcases toInt_sub_of_lt hlt with ⟨hsub, hfits⟩ | ⟨hneg, hfar⟩
  · by_cases hnear : left < 1000000
    · exact Or.inr ⟨Or.inl hnear, if_pos (hle.mpr (by omega))⟩
    · refine Or.inl ⟨by omega, hfits, ?_⟩
      rw [if_neg (by rw [hle]; omega), toInt_roundUp (by omega) (by omega)]
      omega
  · exact Or.inr ⟨Or.inr hfar, if_pos (hle.mpr (by omega))⟩

/-- `ttl` agrees with `get` at the time `now`. -/
structure TtlAgrees {S : Sharding} (s : StorageEngine S) (now : TimePoint) (key : Bytes) :
    Prop where
  missing : (s.ttl now key).1 = -2 ↔ (s.get now key).1 = none
  endless : (s.ttl now key).1 = -1 ↔ ∃ value, (s.cells key).live now = some (value, none)
  remaining : ∀ value deadline, (s.cells key).live now = some (value, some deadline) →
    let n := (s.ttl now key).1.toInt
    let m := max 1 ((deadline.toInt - now.toInt) / 1000000)
    0 < n ∧ (n - 1) * 1000 < m ∧ m ≤ n * 1000

/-- `ttl` agrees with `get` if and only if there is no deadline less than a millisecond
away (or so far away that the difference overflows). -/
theorem ttl_agrees_iff {S : Sharding} (s : StorageEngine S) (now : TimePoint) (key : Bytes) :
    TtlAgrees s now key ↔
      ∀ value deadline, (s.cells key).live now = some (value, some deadline) →
        1000000 ≤ deadline.toInt - now.toInt ∧ deadline.toInt - now.toInt < 2 ^ 63 := by
  have httl := fst_ttl s now key
  have hget := fst_get_eq_none_iff s now key
  constructor
  · intro hagrees value deadline hlive
    rcases ttl_of_deadline hlive with ⟨hlo, hhi, -⟩ | ⟨-, hgone⟩
    · exact ⟨hlo, hhi⟩
    · -- the answer says that the key is gone, and it is not
      have hnone := hget.mp (hagrees.missing.mp (httl.trans hgone))
      simp [hlive] at hnone
  · intro hfar
    rcases hlive : (s.cells key).live now with _ | ⟨value, _ | deadline⟩
    · have hanswer : (s.ttl now key).1 = -2 := by rw [httl, Cell.ttl, hlive]
      exact ⟨by simp [hanswer, hget, hlive], by simp [hanswer, hlive], by simp [hlive]⟩
    · have hanswer : (s.ttl now key).1 = -1 := by rw [httl, Cell.ttl, hlive]
      exact ⟨by simp [hanswer, hget, hlive], by simp [hanswer, hlive], by simp [hlive]⟩
    · obtain ⟨hlo, hhi⟩ := hfar value deadline hlive
      rcases ttl_of_deadline hlive with ⟨-, -, hanswer⟩ | ⟨hout, -⟩
      · rw [← httl] at hanswer
        have hne {z : Int64} (hz : z.toInt < 0) : (s.ttl now key).1 ≠ z := by
          rintro rfl
          omega
        refine ⟨?_, ?_, ?_⟩
        · simp [hget, hlive, hne (show (-2 : Int64).toInt < 0 by decide)]
        · simp [hlive, hne (show (-1 : Int64).toInt < 0 by decide)]
        · intro _ _ hlive'
          obtain ⟨-, rfl⟩ : value = _ ∧ deadline = _ := by simpa using hlive.symm.trans hlive'
          dsimp only
          omega
      · omega

/-- The answers are `-2` and the value in the last half of the last millisecond. -/
theorem ttl_ne_get_last_millisecond :
    let events : List EngineEvent :=
      [⟨.set (ascii "k") (ascii "v"), fun _ ↦ 0⟩, ⟨.expireAt (ascii "k") 1500000, fun _ ↦ 0⟩]
    let s := calls ({} : StorageEngine oneShard) events
    (s.ttl 1000000 (ascii "k")).1 = -2 ∧ (s.get 1000000 (ascii "k")).1 = some (ascii "v") := by
  decide +kernel

/-! ## Expired entries that are still stored -/

section
variable {S : Sharding} (s : StorageEngine S) (now : TimePoint) (key : Bytes)

theorem fst_del : (s.del key).1 = if s.cells key = none then 0 else 1 := by
  unfold StorageEngine.del
  cases hfind : s.shards.find? key with
  | none => simp [cells_eq_none_iff.mpr hfind]
  | some entry => simp [cells_of_find? hfind]

theorem fst_del_eq_one_iff : (s.del key).1 = 1 ↔ s.cells key ≠ none := by
  rw [fst_del]
  split <;> simp_all

theorem fst_exists_eq_true_iff :
    (s.exists now key).1 = true ↔ (s.cells key).live now ≠ none := by
  change (s.get now key).1.isSome = true ↔ _
  rw [(cells_get s now key).2, Option.isSome_map, Option.isSome_iff_ne_none]

/-- No expired entry of the key is stored. -/
theorem live_cells_eq_self_iff :
    (s.cells key).live now = s.cells key ↔
      ∀ entry, s.shards.find? key = some entry → isExpired entry now = false := by
  cases hfind : s.shards.find? key with
  | none => simp [cells_eq_none_iff.mpr hfind]
  | some entry =>
      rw [live_cells_of_isExpired hfind, cells_of_find? hfind]
      cases hexp : isExpired entry now <;> simp [hexp]

end

/-- The commands that answer by whether a key is stored. -/
def asksForKey : CommandType → Bool
  | .del | .expire | .expireat => true
  | _ => false

/-- `DEL`, `EXPIRE` and `EXPIREAT` of a key answer what `EXISTS` answers, and a sweep in
front of them is not seen. -/
structure ExistsAgrees {S : Sharding} (v : Server S) (env : Environment) (key : Bytes) : Prop where
  del : (v.storage.del key).1 = 1 ↔ (v.storage.exists (env.clock 0).1 key).1 = true
  expireAt : ∀ deadline, (v.storage.expireAt (env.clock 0).1 key deadline).1 = true ↔
    (v.storage.exists (env.clock 0).1 key).1 = true
  swept : ∀ command : Command, asksForKey command.type → command.arg 0 = key →
    let after := (v.execute env command).1
    let afterSweep :=
      ((v.withStorage (v.storage.cleanupExpired (env.clock 0).1).2).execute env command).1
    afterSweep.response = after.response ∧ afterSweep.shouldLog = after.shouldLog

/-- The answer and the logging of such a command depend on nothing but the stored cell. -/
theorem execute_congr {S : Sharding} {v : Server S} {storage : StorageEngine S} {env : Environment}
    {command : Command} (hasks : asksForKey command.type)
    (hcells : storage.cells (command.arg 0) = v.storage.cells (command.arg 0)) :
    ((v.withStorage storage).execute env command).1.response = (v.execute env command).1.response ∧
      ((v.withStorage storage).execute env command).1.shouldLog =
        (v.execute env command).1.shouldLog := by
  have hexpire (now deadline) :
      (storage.expireAt now (command.arg 0) deadline).1 =
        (v.storage.expireAt now (command.arg 0) deadline).1 := by
    rw [Bool.eq_iff_iff, expireAt_eq_true_iff, expireAt_eq_true_iff, hcells]
  have hdel : (storage.del (command.arg 0)).1 = (v.storage.del (command.arg 0)).1 := by
    rw [fst_del, fst_del, hcells]
  obtain ⟨type, args⟩ := command
  cases type with
  | del => simp only [Server.execute, Server.withStorage, hdel, and_self]
  | expire =>
      simp only [Server.execute, Server.withStorage]
      split
      · trivial
      · split
        · trivial
        · simp only [hexpire, and_self]
  | expireat =>
      simp only [Server.execute, Server.withStorage]
      split
      · trivial
      · simp only [hexpire, and_self]
  | _ => simp [asksForKey] at hasks

theorem exists_agrees_iff {S : Sharding} (v : Server S) (env : Environment) (key : Bytes) :
    ExistsAgrees v env key ↔
      ∀ entry, v.storage.shards.find? key = some entry →
        isExpired entry (env.clock 0).1 = false := by
  rw [← live_cells_eq_self_iff]
  constructor
  · intro hagrees
    -- an expired entry is what `DEL` counts and `EXISTS` does not
    rcases Cell.live_eq_self_or_none (env.clock 0).1 (v.storage.cells key) with hself | hnone
    · exact hself
    · by_contra hstored
      have hone := (fst_del_eq_one_iff v.storage key).mpr fun h ↦ hstored (hnone.trans h.symm)
      exact (fst_exists_eq_true_iff v.storage _ key).mp (hagrees.del.mp hone) hnone
  · intro hlive
    have hexists := fst_exists_eq_true_iff v.storage (env.clock 0).1 key
    refine ⟨?_, fun deadline ↦ ?_, ?_⟩
    · rw [fst_del_eq_one_iff, hexists, hlive]
    · rw [expireAt_eq_true_iff, hexists, hlive]
      tauto
    · rintro command hasks rfl
      exact execute_congr hasks (by rw [cells_cleanupExpired, hlive])

theorem exists_ne_del_of_expired :
    let events : List EngineEvent :=
      [⟨.set (ascii "k") (ascii "v"), fun _ ↦ 0⟩, ⟨.expireAt (ascii "k") 10, fun _ ↦ 0⟩]
    let s := calls ({} : StorageEngine oneShard) events
    s.maxKeys = 0 ∧ (s.exists 20 (ascii "k")).1 = false ∧ (s.del (ascii "k")).1 = 1 ∧
      (s.expireAt 20 (ascii "k") 15).1 = true ∧
      ((s.cleanupExpired 20).2.del (ascii "k")).1 = 0 := by
  decide +kernel

/-! ## Deadlines of commands -/

/-- An `EXPIRE` of a key computes the exact deadline, the key is visible until then, and
fewer seconds give no later deadline. -/
structure ExpireExact {S : Sharding} (v : Server S) (env : Environment) (key arg : Bytes)
    (seconds : Int64) : Prop where
  exact : (addSeconds (env.clock 0).1 seconds).toInt =
    (env.clock 0).1.toInt + seconds.toInt * 1000000000
  visible : 1 ≤ seconds → ∀ t : TimePoint, (env.clock 1).1 ≤ t →
    t.toInt < (env.clock 0).1.toInt + seconds.toInt * 1000000000 →
      ((v.execute env ⟨.expire, [key, arg]⟩).2.storage.cells key).live t ≠ none
  monotone : ∀ fewer : Int64, 0 ≤ fewer → fewer ≤ seconds →
    addSeconds (env.clock 0).1 fewer ≤ addSeconds (env.clock 0).1 seconds

/-- An `EXPIREAT` of a key computes the exact deadline, the key is visible until then, and
no smaller argument with an exact deadline gives a later one. -/
structure ExpireatExact {S : Sharding} (v : Server S) (env : Environment) (key arg : Bytes)
    (millis : Int64) : Prop where
  exact : (fromEpochMillis millis).toInt = millis.toInt * 1000000
  visible : ∀ t : TimePoint, (env.clock 0).1 ≤ t → t.toInt < millis.toInt * 1000000 →
    ((v.execute env ⟨.expireat, [key, arg]⟩).2.storage.cells key).live t ≠ none
  monotone : ∀ fewer : Int64, (fromEpochMillis fewer).toInt = fewer.toInt * 1000000 →
    fewer ≤ millis → fromEpochMillis fewer ≤ fromEpochMillis millis

theorem bmod_eq_self_iff (z : ℤ) : z.bmod (2 ^ 64) = z ↔ -2 ^ 63 ≤ z ∧ z < 2 ^ 63 := by
  constructor
  · intro h
    have hlo := Int.le_bmod (x := z) (m := 2 ^ 64) (by decide)
    have hhi := Int.bmod_lt (x := z) (m := 2 ^ 64) (by decide)
    omega
  · intro h
    apply Int.bmod_eq_of_le <;> omega

theorem toInt_addSeconds_iff (now : Instant) {seconds : Int64} (h : 0 ≤ seconds) :
    (addSeconds now.1 seconds).toInt = now.1.toInt + seconds.toInt * 1000000000 ↔
      now.1.toInt + seconds.toInt * 1000000000 < 2 ^ 63 := by
  have hnow : 0 ≤ now.1.toInt := Int64.le_iff_toInt_le.mp now.2
  have hseconds : 0 ≤ seconds.toInt := Int64.le_iff_toInt_le.mp h
  rw [addSeconds, Int64.toInt_add, Int64.toInt_mul, Int.add_bmod_bmod,
    show (1000000000 : Int64).toInt = 1000000000 by decide, bmod_eq_self_iff]
  omega

theorem toInt_fromEpochMillis_iff (millis : Int64) :
    (fromEpochMillis millis).toInt = millis.toInt * 1000000 ↔
      -2 ^ 63 ≤ millis.toInt * 1000000 ∧ millis.toInt * 1000000 < 2 ^ 63 := by
  rw [fromEpochMillis, Int64.toInt_mul, toInt_million, bmod_eq_self_iff]

theorem live_expireAt {S : Sharding} {s : StorageEngine S} {now t deadline : TimePoint}
    {key : Bytes} (hlive : (s.cells key).live now ≠ none) (hnow : now ≤ t) (ht : t < deadline) :
    ((s.expireAt now key deadline).2.cells key).live t ≠ none := by
  obtain ⟨⟨value, old⟩, hcell⟩ := Option.ne_none_iff_exists'.mp hlive
  have hlater : ¬ deadline ≤ now := fun hle ↦
    Int64.not_lt.mpr (Int64.le_trans hle hnow) ht
  rw [cells_expireAt, Function.update_self, Cell.expireAt, hcell]
  simp [hlater, Cell.live_of_lt value ht]

/-- The deadline of `EXPIRE` is exact if and only if it fits in the ticks of the clock, and
so is the one of `EXPIREAT`. -/
theorem expire_exact_iff {S : Sharding} (v : Server S) (env : Environment) (key arg : Bytes)
    (hlive : (v.storage.cells key).live (env.clock 1).1 ≠ none) :
    (∀ seconds, parseInt64 arg = some seconds → 0 ≤ seconds →
        (ExpireExact v env key arg seconds ↔
          (env.clock 0).1.toInt + seconds.toInt * 1000000000 < 2 ^ 63)) ∧
      ∀ millis, parseInt64 arg = some millis →
        (ExpireatExact v env key arg millis ↔
          -2 ^ 63 ≤ millis.toInt * 1000000 ∧ millis.toInt * 1000000 < 2 ^ 63) := by
  constructor
  · intro seconds hparse hnonneg
    refine ⟨fun h ↦ (toInt_addSeconds_iff _ hnonneg).mp h.exact, fun hfits ↦ ?_⟩
    have hexact := (toInt_addSeconds_iff (env.clock 0) hnonneg).mpr hfits
    refine ⟨hexact, fun _ t hnow ht ↦ ?_, fun fewer hfewer hle ↦ ?_⟩
    · have hexecute : (v.execute env ⟨.expire, [key, arg]⟩).2.storage =
          (v.storage.expireAt (env.clock 1).1 key (addSeconds (env.clock 0).1 seconds)).2 := by
        simp [Server.execute, Command.arg, hparse, Int64.not_lt.mpr hnonneg, Server.withStorage]
      rw [hexecute]
      exact live_expireAt hlive hnow (Int64.lt_iff_toInt_lt.mpr (hexact ▸ ht))
    · have htoInt := Int64.le_iff_toInt_le.mp hle
      rw [Int64.le_iff_toInt_le, hexact, (toInt_addSeconds_iff _ hfewer).mpr (by omega)]
      omega
  · intro millis hparse
    rw [← toInt_fromEpochMillis_iff]
    refine ⟨fun h ↦ h.exact, fun hexact ↦ ⟨hexact, fun t hnow ht ↦ ?_, fun fewer hfewer hle ↦ ?_⟩⟩
    · have hexecute : (v.execute env ⟨.expireat, [key, arg]⟩).2.storage =
          (v.storage.expireAt (env.clock 0).1 key (fromEpochMillis millis)).2 := by
        simp [Server.execute, Command.arg, hparse, Server.withStorage]
      -- a key that is live at the second reading is live at the first
      have hlive' : (v.storage.cells key).live (env.clock 0).1 ≠ none := by
        intro hnone
        rw [← Cell.live_live_of_le (env.monotone 0 1 (by decide)), hnone] at hlive
        exact hlive rfl
      rw [hexecute]
      exact live_expireAt hlive' hnow (Int64.lt_iff_toInt_lt.mpr (hexact ▸ ht))
    · have htoInt := Int64.le_iff_toInt_le.mp hle
      rw [Int64.le_iff_toInt_le, hexact, hfewer]
      omega

/-- A server with one key. -/
def keyServer : Server oneShard :=
  ⟨({} : StorageEngine oneShard).set 0 (ascii "k") (ascii "v"), { enabled := true }, {}⟩

theorem expire_exact_hundred :
    ExpireExact keyServer (.at ⟨1000, by decide⟩) (ascii "k") (ascii "100") 100 := by
  refine ((expire_exact_iff keyServer (.at ⟨1000, by decide⟩) (ascii "k") (ascii "100") ?_).1
    100 ?_ ?_).mpr ?_
  all_goals decide +kernel

/-- The longest accepted time to live ends at once. -/
theorem expire_longest_deletes :
    let env : Environment := .at ⟨1700000000000000000, by decide⟩
    let command : Command := ⟨.expire, [ascii "k", ascii "9223372036854775807"]⟩
    let result := keyServer.execute env command
    (keyServer.storage.cells (ascii "k")).live (env.clock 1).1 = some (ascii "v", none) ∧
      result.1.response = .integer 1 ∧ result.2.storage.cells (ascii "k") = none ∧
      addSeconds (env.clock 0).1 9223372036854775807 = 1699999999000000000 := by
  decide +kernel

end ByteCacheDB
