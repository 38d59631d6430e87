import ByteCacheDB.Evictions
import ByteCacheDB.Session

/-!
# The order in which a replay touches the keys

A replay gives every key it writes a fresh access number, and recovery evicts by these
numbers when the log has been read.  The order of the keys by their last access is a
function of the replayed commands alone; the reads of the server that wrote them left
nothing in the log.
-/

namespace ByteCacheDB

open CommandParser StorageEngine AppendOnlyFile Recency

namespace Command

/-- The command sets a deadline that is over when it is replayed at time `t`. -/
def overdue (t : TimePoint) (command : Command) : Bool :=
  match command.type, stoll (command.arg 1) with
  | .expire, .ok seconds => decide (addSeconds t seconds ≤ t)
  | .expireat, .ok millis => decide (fromEpochMillis millis ≤ t)
  | _, _ => false

/-- What replaying a command at time `t` makes of the keys in the order of their last
access. -/
def reorder (t : TimePoint) (l : List Bytes) (command : Command) : List Bytes :=
  match command.type with
  | .set | .incr | .decr | .append => touch l (command.arg 0)
  | .mset => ((argPairs command.args).map Prod.fst).foldl touch l
  | .del => forget l (command.arg 0)
  | .flush => []
  | .persist => renew l (command.arg 0)
  | .expire | .expireat =>
      if command.overdue t then forget l (command.arg 0) else renew l (command.arg 0)
  | _ => l

/-- The time of the replay matters only for the deadlines that are over. -/
theorem reorder_congr {t₁ t₂ : TimePoint} {command : Command}
    (h : command.overdue t₂ = command.overdue t₁) (l : List Bytes) :
    command.reorder t₂ l = command.reorder t₁ l := by
  rw [reorder, reorder, h]

end Command

/-- The keys that a replay at time `t` leaves, the least recently touched first. -/
def replayOrder (t : TimePoint) (commands : List Command) : List Bytes :=
  commands.foldl (Command.reorder t) []

theorem replayOrder_append (t : TimePoint) (xs ys : List Command) :
    replayOrder t (xs ++ ys) = ys.foldl (Command.reorder t) (replayOrder t xs) := by
  rw [replayOrder, List.foldl_append, ← replayOrder]

theorem replayOrder_congr {t₁ t₂ : TimePoint} {commands : List Command}
    (h : ∀ command ∈ commands, command.overdue t₂ = command.overdue t₁) :
    replayOrder t₂ commands = replayOrder t₁ commands :=
  List.foldl_ext _ _ _ fun l command hcommand ↦ Command.reorder_congr (h command hcommand) l

theorem Command.reorder_cases (t : TimePoint) (l : List Bytes) (command : Command) :
    command.reorder t l = l ∨ command.reorder t l = [] ∨
      command.reorder t l = touch l (command.arg 0) ∨
      command.reorder t l = forget l (command.arg 0) ∨
      command.reorder t l = ((argPairs command.args).map Prod.fst).foldl touch l := by
  obtain ⟨type, args⟩ := command
  cases type with
  | persist =>
      simp only [reorder, renew]
      split_ifs <;> simp
  | expire | expireat =>
      simp only [reorder, renew]
      split_ifs <;> simp
  | _ => simp [reorder]

theorem nodup_foldl_reorder (t : TimePoint) {l : List Bytes} (h : l.Nodup)
    (commands : List Command) : (commands.foldl (Command.reorder t) l).Nodup := by
  refine List.foldlRecOn commands _ h fun l hl command _ ↦ ?_
  rcases command.reorder_cases t l with hsame | hnil | htouch | hforget | hall
  · rwa [hsame]
  · rw [hnil]
    exact List.nodup_nil
  · rw [htouch]
    exact nodup_touch hl _
  · rw [hforget]
    exact hl.sublist (forget_sublist l _)
  · rw [hall]
    exact nodup_foldl_touch hl _

theorem nodup_replayOrder (t : TimePoint) (commands : List Command) :
    (replayOrder t commands).Nodup :=
  nodup_foldl_reorder t List.nodup_nil commands

theorem Command.length_reorder_le (t : TimePoint) (l : List Bytes) (command : Command) :
    (command.reorder t l).length ≤ l.length + (command.args.length + 1) := by
  rcases command.reorder_cases t l with hsame | hnil | htouch | hforget | hall
  · rw [hsame]
    omega
  · rw [hnil]
    exact Nat.zero_le _
  · have hlength := length_touch_le l (command.arg 0)
    rw [htouch]
    omega
  · have hlength := (forget_sublist l (command.arg 0)).length_le
    rw [hforget]
    omega
  · have hpairs := length_argPairs command.args
    have hlength := length_foldl_touch_le l ((argPairs command.args).map Prod.fst)
    rw [List.length_map] at hlength
    rw [hall]
    omega

/-- Each replayed command touches at most one key more than it has arguments. -/
theorem length_replayOrder_le (t : TimePoint) (commands : List Command) :
    (replayOrder t commands).length ≤ weight commands := by
  induction commands using List.reverseRecOn with
  | nil => exact Nat.le_refl _
  | append_singleton commands command ih =>
      have hstep := command.length_reorder_le t (replayOrder t commands)
      rw [replayOrder_append, weight_append, List.foldl_cons, List.foldl_nil]
      simp only [weight, List.map_cons, List.map_nil, List.sum_singleton] at ih ⊢
      omega

/-! ## What a record does to the order -/

/-- A replay at time `t` moves the key to the end of the order. -/
def CellOp.Touches (t : TimePoint) (present : Prop) : CellOp → Prop
  | .keep | .remove => False
  | .write _ | .increment _ | .append _ => True
  | .persist => present
  | .expireAt deadline => t < deadline ∧ present

/-- Operations on one key that is moved or taken away. -/
theorem exists_filter_append {t : TimePoint} {l l' : List Bytes} (hl : l.Nodup)
    {ops : Bytes → CellOp} {op : CellOp} {k : Bytes} (hop : op ≠ .keep)
    (hops : ∀ key, ops key = if key = k then op else .keep)
    (hl' : (l' = touch l k ∧ op.Touches t (k ∈ l)) ∨
      (l' = forget l k ∧ ¬op.Touches t (k ∈ l))) :
    ∃ new, l' = (l.filter fun key ↦ ops key = .keep) ++ new ∧
      ∀ key, key ∈ new ↔ (ops key).Touches t (key ∈ l) := by
  have hfilter : (l.filter fun key ↦ ops key = .keep) = l.filter fun key ↦ key ≠ k := by
    refine List.filter_congr fun key _ ↦ ?_
    by_cases hk : key = k <;> simp [hops, hk, hop]
  have hothers : ∀ key, key ≠ k → ¬(ops key).Touches t (key ∈ l) := by
    intro key hk
    simp [hops, hk, CellOp.Touches]
  have hself : (ops k).Touches t (k ∈ l) ↔ op.Touches t (k ∈ l) := by simp [hops]
  rw [hfilter]
  rcases hl' with ⟨rfl, htouches⟩ | ⟨rfl, hnot⟩
  · refine ⟨[k], touch_eq_filter hl k, fun key ↦ ?_⟩
    by_cases hk : key = k
    · subst hk
      simp [hself, htouches]
    · simp [hk, hothers key hk]
  · refine ⟨[], by rw [forget_eq_filter hl, List.append_nil], fun key ↦ ?_⟩
    by_cases hk : key = k
    · subst hk
      simp [hself, hnot]
    · simp [hothers key hk]

/-- A record leaves the keys it does not name where they are; those it names go to the end,
or away. -/
theorem Command.exists_reorder {command : Command} (hlog : command.Loggable) (t : TimePoint)
    {l : List Bytes} (hl : l.Nodup) :
    ∃ new, command.reorder t l = (l.filter fun key ↦ command.op key = .keep) ++ new ∧
      ∀ key, key ∈ new ↔ (command.op key).Touches t (key ∈ l) := by
  obtain ⟨type, args⟩ := command
  cases type with
  | set | incr | decr | append =>
      exact exists_filter_append hl (by simp [keyOp]) (fun key ↦ rfl) (Or.inl ⟨rfl, trivial⟩)
  | del => exact exists_filter_append hl (by simp [keyOp]) (fun key ↦ rfl) (Or.inr ⟨rfl, id⟩)
  | flush => exact ⟨[], by simp [reorder, op], fun key ↦ by simp [op, CellOp.Touches]⟩
  | mset =>
      have hop : ∀ key, Command.op ⟨.mset, args⟩ key = .keep ↔
          key ∉ (argPairs args).map Prod.fst := by
        intro key
        rw [← lastValue_eq_none_iff]
        simp only [op]
        cases lastValue (argPairs args) key <;> simp
      refine ⟨((argPairs args).map Prod.fst).dedup, ?_, fun key ↦ ?_⟩
      · refine (foldl_touch hl ((argPairs args).map Prod.fst)).trans (congrArg (· ++ _) ?_)
        exact List.filter_congr fun key _ ↦ decide_eq_decide.mpr (hop key).symm
      · rw [List.mem_dedup, ← not_iff_not, ← hop]
        simp only [op]
        cases lastValue (argPairs args) key <;> simp [CellOp.Touches]
  | persist =>
      refine exists_filter_append hl (by simp [keyOp]) (fun key ↦ rfl) ?_
      by_cases hmem : Command.arg ⟨.persist, args⟩ 0 ∈ l
      · exact Or.inl ⟨renew_of_mem hmem, hmem⟩
      · exact Or.inr ⟨(renew_of_notMem hmem).trans (forget_of_notMem hmem).symm, hmem⟩
  | expireat =>
      cases hstoll : stoll (Command.arg ⟨.expireat, args⟩ 1) with
      | error e => simp [Loggable, hstoll, Except.toBool] at hlog
      | ok millis =>
          have hops : ∀ key, Command.op ⟨.expireat, args⟩ key =
              if key = Command.arg ⟨.expireat, args⟩ 0 then .expireAt (fromEpochMillis millis)
              else .keep := by
            intro key
            simp [op, keyOp, hstoll]
          refine exists_filter_append hl (by simp) hops ?_
          simp only [reorder, overdue, hstoll, decide_eq_true_eq, CellOp.Touches]
          by_cases hover : fromEpochMillis millis ≤ t
          · exact Or.inr ⟨if_pos hover, fun h ↦ Int64.not_le.mpr h.1 hover⟩
          · rw [if_neg hover]
            by_cases hmem : Command.arg ⟨.expireat, args⟩ 0 ∈ l
            · exact Or.inl ⟨renew_of_mem hmem, Int64.not_le.mp hover, hmem⟩
            · exact Or.inr ⟨(renew_of_notMem hmem).trans (forget_of_notMem hmem).symm,
                fun h ↦ hmem h.2⟩
  | _ => exact absurd hlog id

/-! ## The engine of a replay -/

/-- A replay at time `t` leaves nothing behind that has expired by then. -/
theorem Command.settled_onCell {t : TimePoint} {c : Cell} (hc : c.Settled t) (command : Command)
    (key : Bytes) : (command.onCell t key c).Settled t := by
  have hincrement : ∀ delta, (c.increment t delta).Settled t := by
    intro delta
    rw [Cell.increment]
    cases hnext : c.nextInteger t delta with
    | error e => exact hc
    | ok next =>
        have happly : CellOp.apply t c (.increment delta) = some (c.writeInteger t next) := by
          simp [hnext, Except.toOption]
        exact CellOp.settled_apply hc happly
  have hexpireAt : ∀ d, (c.expireAt t d).Settled t :=
    fun d ↦ CellOp.settled_apply hc (CellOp.apply_expireAt t c d)
  obtain ⟨type, args⟩ := command
  cases type with
  | flush => rfl
  | mset =>
      simp only [onCell, storePairs_eq]
      split
      · rfl
      · exact hc
  | set =>
      simp only [onCell, onKey]
      split
      · rfl
      · exact hc
  | del =>
      simp only [onCell, onKey]
      split
      · rfl
      · exact hc
  | persist =>
      simp only [onCell, onKey]
      split
      · exact CellOp.settled_apply hc (CellOp.apply_persist t c)
      · exact hc
  | append =>
      simp only [onCell, onKey]
      split
      · exact CellOp.settled_apply hc (CellOp.apply_append t c _)
      · exact hc
  | incr | decr =>
      simp only [onCell, onKey]
      split
      · exact hincrement _
      · exact hc
  | expire | expireat =>
      simp only [onCell, onKey]
      split
      · split
        · exact hc
        · exact hexpireAt _
      · exact hc
  | _ => simpa only [onCell, onKey, ite_self] using hc

namespace StorageEngine

variable {S : Sharding} {n : ℕ} {s s' : StorageEngine S} {l : List Bytes} {t : TimePoint}

theorem isExpired_of_settled {key : Bytes} {entry : ValueEntry} (h : (s.cells key).Settled t)
    (hfind : s.shards.find? key = some entry) : isExpired entry t = false := by
  rw [Cell.Settled, live_cells_of_isExpired hfind, cells_of_find? hfind] at h
  by_contra hexpired
  simp [hexpired] at h

theorem Listed.notMem_of_none (h : Listed n s l) {key : Bytes} (hfind : s.shards.find? key = none) :
    key ∉ l := fun hmem ↦ (h.mem key).mp hmem hfind

theorem Listed.mem_of_some (h : Listed n s l) {key : Bytes} {entry : ValueEntry}
    (hfind : s.shards.find? key = some entry) : key ∈ l := (h.mem key).mpr (by simp [hfind])

theorem Listed.putCounted (h : Listed n s l) (hn : n + 1 < 2 ^ 64) (key : Bytes)
    (entry : ValueEntry) : Listed (n + 1) (s.putCounted key entry) (touch l key) := by
  have hput := h.put hn key entry
  unfold StorageEngine.putCounted
  split
  · exact hput
  · exact ⟨hput.count, hput.mem, hput.sorted, hput.bound⟩

theorem Listed.storeAll (h : Listed n s l) {pairs : List (Bytes × Bytes)}
    (hn : n + pairs.length < 2 ^ 64) (now : TimePoint) :
    Listed (n + pairs.length) (s.storeAll now pairs) ((pairs.map Prod.fst).foldl touch l) := by
  induction pairs generalizing n s l with
  | nil => exact h
  | cons p ps ih =>
      rw [List.length_cons] at hn ⊢
      have hrest := ih (h.store (by omega) now p.1 p.2) (by omega)
      rwa [Nat.add_assoc, Nat.add_comm 1] at hrest

theorem Listed.del (h : Listed n s l) (key : Bytes) : Listed n (s.del key).2 (forget l key) := by
  unfold StorageEngine.del
  split
  · exact h.erase key rfl rfl
  · rename_i hfind
    rw [forget_of_notMem (h.notMem_of_none hfind)]
    exact h

theorem Listed.persist (h : Listed n s l) (hn : n + 1 < 2 ^ 64) {key : Bytes}
    (hsettled : (s.cells key).Settled t) :
    ∃ n' ≤ n + 1, Listed n' (s.persist t key).2 (renew l key) := by
  unfold StorageEngine.persist
  split
  · rename_i hfind
    rw [renew_of_notMem (h.notMem_of_none hfind)]
    exact ⟨n, Nat.le_succ n, h⟩
  · rename_i entry hfind
    rw [if_neg (by simp [isExpired_of_settled hsettled hfind]), renew_of_mem (h.mem_of_some hfind)]
    exact ⟨n + 1, Nat.le_refl _, h.put hn key _⟩

theorem Listed.expireAt (h : Listed n s l) (hn : n + 1 < 2 ^ 64) {key : Bytes}
    (hsettled : (s.cells key).Settled t) (deadline : TimePoint) :
    ∃ n' ≤ n + 1, Listed n' (s.expireAt t key deadline).2
      (if deadline ≤ t then forget l key else renew l key) := by
  unfold StorageEngine.expireAt
  split
  · rename_i hfind
    have hnot := h.notMem_of_none hfind
    rw [forget_of_notMem hnot, renew_of_notMem hnot, ite_self]
    exact ⟨n, Nat.le_succ n, h⟩
  · rename_i entry hfind
    rw [renew_of_mem (h.mem_of_some hfind)]
    by_cases hd : deadline ≤ t
    · rw [if_pos (Or.inr hd), if_pos hd]
      exact ⟨n, Nat.le_succ n, h.erase key rfl rfl⟩
    · rw [if_neg (by simp [isExpired_of_settled hsettled hfind, hd]), if_neg hd]
      exact ⟨n + 1, Nat.le_refl _, h.put hn key _⟩

/-- What has expired is dropped first, and the write touches the key. -/
theorem Listed.dropThen (h : Listed n s l) (now : TimePoint) (key : Bytes)
    (hwrite : ∀ l', Listed n (s.dropExpired now key) l' → Listed (n + 1) s' (touch l' key)) :
    Listed (n + 1) s' (touch l key) := by
  obtain ⟨l', hl', hdropped⟩ := h.dropExpired now key
  have htouch : touch l' key = touch l key := by
    rcases hdropped with rfl | rfl
    · rfl
    · exact touch_forget h.nodup key
  rw [← htouch]
  exact hwrite l' hl'

theorem Listed.appendLocked (h : Listed n s l) (hn : n + 1 < 2 ^ 64) (now : TimePoint)
    (key suffix : Bytes) : Listed (n + 1) (s.appendLocked now key suffix).2 (touch l key) := by
  refine h.dropThen now key fun l' hl' ↦ ?_
  simp only [StorageEngine.appendLocked]
  split
  · exact hl'.putCounted hn key _
  · exact hl'.put hn key _

theorem Listed.incrementLocked (h : Listed n s l) (hn : n + 1 < 2 ^ 64) {now : TimePoint}
    {key : Bytes} {delta : Int64} {result : Int64 × Bool}
    (hok : (s.incrementLocked now key delta).1 = .ok result) :
    Listed (n + 1) (s.incrementLocked now key delta).2 (touch l key) := by
  refine h.dropThen now key fun l' hl' ↦ ?_
  simp only [StorageEngine.incrementLocked] at hok ⊢
  split at hok
  · split at hok
    · simp at hok
    · exact hl'.putCounted hn key _
  · split at hok
    · simp at hok
    · exact hl'.put hn key _

/-- A replayed increment, if it is not refused. -/
theorem Listed.increment {L : UInt64} (h : Listed n s l) (hload : Loading L false s)
    (hn : n + 1 < 2 ^ 64) {now : TimePoint} {key : Bytes} {delta next : Int64}
    (hok : s.increment now key delta = (.ok next, s')) : Listed (n + 1) s' (touch l key) := by
  have hkeep := hload.of_keeps (keeps_incrementLocked s now key delta)
  rw [StorageEngine.increment] at hok
  split at hok
  · simp at hok
  · rename_i next' inserted s'' hlocked
    have hresult : (s.incrementLocked now key delta).1 = .ok (next', inserted) := by rw [hlocked]
    have hlisted := h.incrementLocked hn hresult
    rw [hlocked] at hlisted hkeep
    rw [hkeep.enforceMaxKeys, ite_self, Prod.mk.injEq] at hok
    rw [← hok.2]
    exact hlisted

/-- One replayed command. -/
theorem Listed.replay {L : UInt64} (h : Listed n s l) (hload : Loading L false s)
    (hsettled : ∀ key, (s.cells key).Settled t) {command : Command}
    (hn : n + (command.args.length + 1) < 2 ^ 64)
    (hok : applyReplayCommand s t command = .ok s') :
    ∃ n' ≤ n + (command.args.length + 1), Listed n' s' (command.reorder t l) := by
  obtain ⟨type, args⟩ := command
  dsimp only at hn ⊢
  have hone : n + 1 < 2 ^ 64 := by omega
  have hle : n + 1 ≤ n + (args.length + 1) := by omega
  cases type with
  | set =>
      have hkeep := hload.of_keeps (keeps_store s t (Command.arg ⟨.set, args⟩ 0)
        (Command.arg ⟨.set, args⟩ 1))
      obtain rfl := Except.ok.inj hok
      rw [StorageEngine.set, hkeep.enforceMaxKeys]
      exact ⟨n + 1, hle, h.store hone t _ _⟩
  | mset =>
      have hkeep := hload.of_keeps (keeps_storeAll s t (argPairs args))
      have hpairs := length_argPairs args
      obtain rfl := Except.ok.inj hok
      rw [StorageEngine.mset, hkeep.enforceMaxKeys]
      exact ⟨n + (argPairs args).length, by omega, h.storeAll (by omega) t⟩
  | del =>
      obtain rfl := Except.ok.inj hok
      exact ⟨n, Nat.le_add_right _ _, h.del _⟩
  | flush =>
      obtain rfl := Except.ok.inj hok
      exact ⟨n, Nat.le_add_right _ _, h.count, by simp [Command.reorder, StorageEngine.flush],
        List.Pairwise.nil, by simp [Command.reorder]⟩
  | persist =>
      obtain rfl := Except.ok.inj hok
      obtain ⟨n', hn', hlisted⟩ := h.persist hone (hsettled _)
      exact ⟨n', Nat.le_trans hn' hle, hlisted⟩
  | append =>
      have hkeep := hload.of_keeps (keeps_appendLocked s t (Command.arg ⟨.append, args⟩ 0)
        (Command.arg ⟨.append, args⟩ 1))
      obtain rfl := Except.ok.inj hok
      refine ⟨n + 1, hle, ?_⟩
      simp only [StorageEngine.append, hkeep.enforceMaxKeys, ite_self]
      exact h.appendLocked hone t _ _
  | incr | decr =>
      simp only [applyReplayCommand] at hok
      split at hok
      · simp at hok
      · rename_i next s'' hincrement
        obtain rfl := Except.ok.inj hok
        exact ⟨n + 1, hle, h.increment hload hone hincrement⟩
  | expire =>
      simp only [applyReplayCommand] at hok
      split at hok
      · simp at hok
      · rename_i seconds hstoll
        split at hok
        · simp at hok
        · obtain rfl := Except.ok.inj hok
          obtain ⟨n', hn', hlisted⟩ := h.expireAt hone (hsettled (Command.arg ⟨.expire, args⟩ 0))
            (addSeconds t seconds)
          refine ⟨n', Nat.le_trans hn' hle, ?_⟩
          simpa only [Command.reorder, Command.overdue, hstoll, decide_eq_true_eq] using hlisted
  | expireat =>
      simp only [applyReplayCommand] at hok
      split at hok
      · simp at hok
      · rename_i millis hstoll
        obtain rfl := Except.ok.inj hok
        obtain ⟨n', hn', hlisted⟩ := h.expireAt hone (hsettled (Command.arg ⟨.expireat, args⟩ 0))
          (fromEpochMillis millis)
        refine ⟨n', Nat.le_trans hn' hle, ?_⟩
        simpa only [Command.reorder, Command.overdue, hstoll, decide_eq_true_eq] using hlisted
  | _ => simp [applyReplayCommand] at hok

/-- A whole replay. -/
theorem Listed.replayAll {L : UInt64} {commands : List Command} (h : Listed n s l)
    (hload : Loading L false s) (hsettled : ∀ key, (s.cells key).Settled t)
    (hn : n + weight commands < 2 ^ 64) (hok : applyAll t commands s = .ok s') :
    ∃ n' ≤ n + weight commands, Listed n' s' (commands.foldl (Command.reorder t) l) := by
  induction commands generalizing n s l with
  | nil =>
      obtain rfl := Except.ok.inj hok
      exact ⟨n, Nat.le_add_right _ _, h⟩
  | cons command rest ih =>
      rw [weight_cons] at hn ⊢
      rcases applyReplayCommand_refines hload t command with
        ⟨e, hengine, -⟩ | ⟨mid, hengine, hmid, hstore⟩
      · simp [applyAll, hengine, bind, Except.bind] at hok
      · simp only [applyAll, List.foldlM_cons, hengine] at hok
        obtain ⟨n', hn', hlisted⟩ := h.replay hload hsettled (by omega) hengine
        have hkept : ∀ key, (mid.cells key).Settled t := by
          intro key
          unfold Store.replay at hstore
          split at hstore
          · simp at hstore
          · rw [← Except.ok.inj hstore]
            exact command.settled_onCell (hsettled key) key
        obtain ⟨n'', hn'', hrest⟩ := ih hlisted hmid hkept (by omega) hok
        exact ⟨n'', by omega, hrest⟩

theorem loading_applyAll {L : UInt64} {commands : List Command}
    (h : applyAll t commands (({ maxKeys := L } : StorageEngine S).setEvictionEnabled false) =
      .ok s') : Loading L false s' := by
  rcases applyAll_refines (loading_start (S := S) L) t commands with
    ⟨e, herror, -⟩ | ⟨s, hs, hload, -⟩
  · rw [h] at herror
    simp at herror
  · obtain rfl := Except.ok.inj (h.symm.trans hs)
    exact hload

/-- Recovery keeps the keys that were touched last, up to the limit, and throws the names
of the others away. -/
theorem cells_recovered {L : UInt64} (hL : L ≠ 0) {commands : List Command}
    (hsmall : weight commands < 2 ^ 64)
    (hok : applyAll t commands (({ maxKeys := L } : StorageEngine S).setEvictionEnabled false) =
      .ok s') :
    (s'.setEvictionEnabled true).takeEvictedKeys.1 = (replayOrder t commands).rdrop L.toNat ∧
      ∀ key, (s'.setEvictionEnabled true).takeEvictedKeys.2.cells key ≠ none ↔
        key ∈ (replayOrder t commands).rtake L.toNat := by
  have hstart : Listed 0 (({ maxKeys := L } : StorageEngine S).setEvictionEnabled false) [] :=
    ⟨rfl, fun key ↦ by simp [setEvictionEnabled], List.Pairwise.nil, by simp⟩
  obtain ⟨n, hn, hlisted⟩ := hstart.replayAll (loading_start L) (fun key ↦ rfl)
    (by simpa using hsmall) hok
  rw [← replayOrder] at hlisted
  have hload := loading_applyAll hok
  obtain rfl := hload.maxKeys
  have henabled : Listed n { s' with evictionEnabled := true } (replayOrder t commands) :=
    ⟨hlisted.count, hlisted.mem, hlisted.sorted, hlisted.bound⟩
  obtain ⟨hkept, htrims⟩ := henabled.enforceMaxKeys hload.drift
    (Nat.lt_of_le_of_lt (length_replayOrder_le t commands) hsmall) hL rfl
  refine ⟨htrims.pending.trans ?_, fun key ↦ ?_⟩
  · exact (congrArg (· ++ _) hload.pending).trans (List.nil_append _)
  · rw [ne_eq, cells_eq_none_iff]
    exact (hkept.mem key).symm

end StorageEngine

end ByteCacheDB
