import ByteCacheDB.CutLog
import ByteCacheDB.Mirror
import ByteCacheDB.Session

/-!
# Durability under `FsyncPolicy::Always`

A crash leaves of the log some prefix that covers the last successful `fsync`.
Beside the session the state keeps all records written so far, the length of
the log at the last successful `fsync`, and the number of records and the live
store at the last mutation that was acknowledged.  The prefix may end inside a
record, or between a record and the `DEL`s of the keys that were evicted for it;
in the second case the surviving records hold more keys than the limit allows.
-/

namespace ByteCacheDB

open CommandParser Lines StorageEngine AppendOnlyFile Runs

/-- How far the log is synced after consecutive appends. -/
def syncedEach (writes : ℕ → WriteOutcome) : ℕ → List Command → ℕ → AppendOnlyFile → Disk → ℕ
  | _, [], synced, _, _ => synced
  | i, command :: rest, synced, f, disk =>
      let appended := f.append disk (writes i) command
      syncedEach writes (i + 1) rest
        (if appended.1.toBool ∧ f.fsyncPolicy = .always then (appended.2.2.aof.getD []).length
          else synced)
        appended.2.1 appended.2.2

structure Durable (S : Sharding) where
  session : Session S
  history : List Command
  synced : ℕ
  acked : ℕ
  store : Store

/-- Every line of the file that recovery does not skip is a command. -/
def Readable (minimum : UInt64) (file : Bytes) : Prop :=
  ∀ r ∈ decodeLog file, r.1 ≤ minimum ∨ r.2.toBool = true

instance (minimum : UInt64) (file : Bytes) : Decidable (Readable minimum file) :=
  inferInstanceAs (Decidable (∀ r ∈ decodeLog file, r.1 ≤ minimum ∨ r.2.toBool = true))

/-- The first of some records, up to an `MSET` that may have lost its last pairs. -/
def CarriedOn (rest later : List Command) : Prop :=
  later <+: rest ∨ ∃ whole args j, later = whole ++ [⟨.mset, args.take j⟩] ∧
    whole ++ [⟨.mset, args⟩] <+: rest

/-- The keys that are there behind a command, given the ones before it, as long
as no deadline is reached. -/
def Command.keysAfter (keys : Finset Bytes) (command : Command) : Finset Bytes :=
  match command.type with
  | .set | .incr | .decr | .append => insert (command.arg 0) keys
  | .mset => keys ∪ ((argPairs command.args).map Prod.fst).toFinset
  | .del => keys.erase (command.arg 0)
  | .flush => ∅
  | _ => keys

/-- The keys that a log leaves behind. -/
def keysOf (commands : List Command) : Finset Bytes := commands.foldl Command.keysAfter ∅

namespace Durable

variable {S : Sharding}

def initial (S : Sharding) (path : Bool) (maxKeys : UInt64) : Durable S where
  session := Session.initial S .always path maxKeys
  history := []
  synced := 0
  acked := 0
  store := fun _ ↦ none

/-- The action is a mutation that is answered without an error. -/
def Acknowledges (d : Durable S) : Action → Prop
  | .command command env =>
      (d.session.server.executeOrdered env command).1.response.isError = false ∧
        d.session.server.records env command ≠ []
  | .sweep _ => False

instance (d : Durable S) : (a : Action) → Decidable (d.Acknowledges a)
  | .command _ _ => inferInstanceAs (Decidable (_ ∧ _))
  | .sweep _ => inferInstanceAs (Decidable False)

def syncedAfter (d : Durable S) : Action → ℕ
  | .command command env => syncedEach env.writes 0 (d.session.server.records env command) d.synced
      d.session.server.persistence d.session.server.disk
  | .sweep _ => d.synced

def step (d : Durable S) (a : Action) : Option (Durable S) :=
  (d.session.step a).map fun st ↦
    { session := st
      history := d.history ++ d.session.records a
      synced := d.syncedAfter a
      acked := if d.Acknowledges a then (d.history ++ d.session.records a).length else d.acked
      store := if d.Acknowledges a then st.cells else d.store }

/-- The engine of a process that starts on the surviving files. -/
def recoverFrom (d : Durable S) (pre : Bytes) (t : TimePoint) : Option (StorageEngine S) :=
  (d.session.server.persistence.fresh.recover { d.session.server.disk with aof := some pre }
    { maxKeys := d.session.server.storage.maxKeys } t).toOption.map Prod.snd

/-- The number that the snapshot of the session carries, zero without one. -/
def checkpoint (d : Durable S) : UInt64 :=
  if d.session.server.persistence.hasSnapshotPath then
    ((d.session.server.disk.snapshot.bind fun file ↦ (getlines newline file).head?).bind
      parseHeader).getD 0
  else 0

/-- The records that the surviving files stand for: the commands on the lines of
the log, and no fewer records than the snapshot covers. -/
def survivors (d : Durable S) (pre : Bytes) : List Command :=
  if (decodeLog pre).length ≤ d.checkpoint.toNat then d.history.take d.checkpoint.toNat
  else (decodeLog pre).filterMap fun r ↦ r.2.toOption

/-- The surviving records hold no more keys than the limit allows. -/
def Within (d : Durable S) (pre : Bytes) : Prop :=
  d.session.server.storage.maxKeys = 0 ∨
    (keysOf (d.survivors pre)).card ≤ d.session.server.storage.maxKeys.toNat

instance (d : Durable S) (pre : Bytes) : Decidable (d.Within pre) :=
  inferInstanceAs (Decidable (_ ∨ _))

/-- The records that survive behind the ones acknowledged in `past` are records
of the run, and replaying them on the store acknowledged last gives `m`. -/
def CarriesTo (past d : Durable S) (pre : Bytes) (t : TimePoint) (m : Store) : Prop :=
  CarriedOn (d.history.drop past.acked) ((d.survivors pre).drop past.acked) ∧
    Store.replayAll t ((d.survivors pre).drop past.acked) past.store = .ok m

/-- The files of `d` with `pre` as the log give back the store at the last
acknowledged mutation of `past`, carried on by the records that survive. -/
def Survives (past d : Durable S) (pre : Bytes) (t : TimePoint) : Prop :=
  ∃ s m, d.recoverFrom pre t = some s ∧ past.CarriesTo d pre t m ∧
    ∀ key, (s.cells key).truncated = (m key).truncated

/-- They give it back up to the limit: recovery has evicted keys until no more
than the limit were left, and the others are as they were. -/
def SurvivesEvicted (past d : Durable S) (pre : Bytes) (t : TimePoint) : Prop :=
  ∃ s m, d.recoverFrom pre t = some s ∧ past.CarriesTo d pre t m ∧
    s.totalKeys = d.session.server.storage.maxKeys ∧
    ∀ key, s.cells key = none ∨ (s.cells key).truncated = (m key).truncated

end Durable

section
variable {S : Sharding}

/-! ## The keys of a log -/

/-- Whether a key is there behind an operation that reaches no deadline. -/
def CellOp.Leaves (present : Prop) : CellOp → Prop
  | .keep | .persist | .expireAt _ => present
  | .write _ | .increment _ | .append _ => True
  | .remove => False

theorem CellOp.leaves_apply {op : CellOp} {t : TimePoint} {c c' : Cell} (hc : c.Settled t)
    (hahead : ∀ d, op = .expireAt d → t < d) (h : op.apply t c = some c') :
    c' ≠ none ↔ op.Leaves (c ≠ none) := by
  unfold Cell.Settled at hc
  cases op with
  | keep =>
      obtain rfl := Option.some.inj h
      rfl
  | write value =>
      obtain rfl := Option.some.inj h
      simp [Leaves]
  | remove =>
      obtain rfl := Option.some.inj h
      simp [Leaves]
  | persist =>
      obtain rfl := Option.some.inj h
      simp [Leaves, Cell.persist, hc]
  | expireAt d =>
      obtain rfl := Option.some.inj h
      have hopen : ¬d ≤ t := Int64.not_le.mpr (hahead d rfl)
      simp only [Leaves, Cell.expireAt, hc, hopen, if_false]
      cases c <;> simp
  | increment delta =>
      obtain ⟨next, -, rfl⟩ := Option.map_eq_some_iff.mp h
      simp [Leaves, Cell.writeInteger]
  | append suffix =>
      obtain rfl := Option.some.inj h
      rw [Cell.append]
      split <;> simp [Leaves]

theorem Command.mem_keysAfter {command : Command} {keys : Finset Bytes} {key : Bytes} :
    key ∈ command.keysAfter keys ↔ (command.op key).Leaves (key ∈ keys) := by
  obtain ⟨type, args⟩ := command
  cases type with
  | mset =>
      simp only [keysAfter, op, Finset.mem_union, List.mem_toFinset]
      cases hvalue : lastValue (argPairs args) key with
      | none => simp [CellOp.Leaves, lastValue_eq_none_iff.mp hvalue]
      | some value =>
          have hmem : key ∈ (argPairs args).map Prod.fst := by
            by_contra hnot
            simp [lastValue_eq_none_iff.mpr hnot] at hvalue
          simp [CellOp.Leaves, hmem]
  | flush => simp [keysAfter, op, CellOp.Leaves]
  | expireat =>
      simp only [keysAfter, op, keyOp]
      split
      · split <;> rfl
      · rfl
  | _ =>
      simp only [keysAfter, op, keyOp]
      split <;> rename_i hkey <;> simp [CellOp.Leaves, hkey]

theorem keysOf_concat (commands : List Command) (command : Command) :
    keysOf (commands ++ [command]) = command.keysAfter (keysOf commands) := by
  rw [keysOf, List.foldl_append, ← keysOf, List.foldl_cons, List.foldl_nil]

theorem card_keysAfter_le (command : Command) (keys : Finset Bytes) :
    (command.keysAfter keys).card ≤ keys.card + (command.args.length + 1) := by
  have hinsert := Finset.card_insert_le (command.arg 0) keys
  unfold Command.keysAfter
  split
  · omega
  · omega
  · omega
  · omega
  · have hunion := Finset.card_union_le keys ((argPairs command.args).map Prod.fst).toFinset
    have hpairs := List.toFinset_card_le ((argPairs command.args).map Prod.fst)
    rw [List.length_map, length_argPairs] at hpairs
    omega
  · have herase := Finset.card_erase_le (a := command.arg 0) (s := keys)
    omega
  · simp
  · omega

theorem card_keysOf_le (commands : List Command) : (keysOf commands).card ≤ weight commands := by
  induction commands using List.reverseRecOn with
  | nil => exact Nat.zero_le _
  | append_singleton commands command ih =>
      rw [keysOf_concat, weight_append, weight_cons]
      exact (card_keysAfter_le command _).trans (Nat.add_le_add ih (Nat.le_add_right _ _))

/-- The deadline of the command lies ahead of `t`. -/
def Command.Pending (t : TimePoint) (command : Command) : Prop :=
  ∀ d ∈ command.deadline?, t < truncMillis d

instance (t : TimePoint) (command : Command) : Decidable (command.Pending t) :=
  decidable_of_iff ((command.deadline?.all fun d ↦ decide (t < truncMillis d)) = true)
    (by simp [Command.Pending, Option.all_eq_true])

/-- Before every deadline, the keys of a log are the keys of its replay. -/
theorem mem_keysOf {t : Instant} {commands : List Command} {m : Store}
    (h : replayed t.1 commands = some m) (hlog : ∀ command ∈ commands, command.Loggable)
    (hpending : ∀ command ∈ commands, command.Pending t.1) (key : Bytes) :
    (m key).Settled t.1 ∧ (m key ≠ none ↔ key ∈ keysOf commands) := by
  induction commands using List.reverseRecOn generalizing m with
  | nil =>
      obtain rfl := Option.some.inj h
      exact ⟨rfl, by simp [keysOf]⟩
  | append_singleton commands command ih =>
      obtain ⟨mid, hmid, hacts⟩ := (replayed_concat_eq_some_iff (hlog command (by simp))).mp h
      obtain ⟨hsettled, hmem⟩ := ih hmid (fun c hc ↦ hlog c (by simp [hc]))
        fun c hc ↦ hpending c (by simp [hc])
      refine ⟨CellOp.settled_apply hsettled (hacts key), ?_⟩
      rw [keysOf_concat, Command.mem_keysAfter, ← propext hmem]
      refine CellOp.leaves_apply hsettled (fun d hd ↦ ?_) (hacts key)
      exact lt_of_lt_truncMillis t.2 (hpending command (by simp) d (Command.deadline?_of_op hd))

/-- A store that a log stands for has as many keys as the log leaves behind. -/
theorem Reflected.size_eq {t : Instant} {s : StorageEngine S} {all : List Command}
    (h : Reflected t.1 all s.cells) (hlog : ∀ command ∈ all, command.Loggable)
    (hpending : ∀ command ∈ all, command.Pending t.1) : s.shards.size = (keysOf all).card := by
  obtain ⟨m, hm, hmirror⟩ := h
  refine size_eq_card fun key ↦ ?_
  rw [← (mem_keysOf hm hlog hpending key).2, ne_eq, ne_eq, (hmirror key).eq_none_iff]

/-! ## What is synced -/

theorem syncedEach_spec (writes : ℕ → WriteOutcome) (i : ℕ) (commands : List Command) (synced : ℕ)
    (error : Option Bytes) (f : AppendOnlyFile) (disk : Disk) (henabled : f.enabled = true)
    (hopened : f.opened = true) (hpolicy : f.fsyncPolicy = .always)
    (hsynced : synced ≤ (disk.aof.getD []).length) :
    synced ≤ syncedEach writes i commands synced f disk ∧
      syncedEach writes i commands synced f disk ≤
        ((appendEach writes i commands error f disk).2.2.aof.getD []).length ∧
      ((appendEach writes i commands error f disk).1 = none →
        error = none ∧ (commands ≠ [] → syncedEach writes i commands synced f disk =
          ((appendEach writes i commands error f disk).2.2.aof.getD []).length)) := by
  induction commands generalizing i synced error f disk with
  | nil => exact ⟨Nat.le_refl _, hsynced, fun h ↦ ⟨h, fun hne ↦ absurd rfl hne⟩⟩
  | cons command rest ih =>
      obtain ⟨d, happend⟩ := append_spec henabled hopened disk (writes i) command
      have hgrows : (disk.aof.getD []).length ≤
          ((f.append disk (writes i) command).2.2.aof.getD []).length := by
        rw [happend]
        simp
      have hfile : (f.append disk (writes i) command).2.1.enabled = true ∧
          (f.append disk (writes i) command).2.1.opened = true ∧
          (f.append disk (writes i) command).2.1.fsyncPolicy = .always := by
        rw [happend]
        exact ⟨henabled, hopened, hpolicy⟩
      simp only [syncedEach, appendEach, hpolicy, and_true]
      generalize f.append disk (writes i) command = appended at hgrows hfile ⊢
      obtain ⟨result, f', disk'⟩ := appended
      obtain ⟨henabled', hopened', hpolicy'⟩ := hfile
      dsimp only at hgrows ⊢
      cases result with
      | error e =>
          obtain ⟨hmono, hle, hnone⟩ := ih (i + 1) synced (some e) f' disk' henabled' hopened'
            hpolicy' (Nat.le_trans hsynced hgrows)
          refine ⟨hmono, hle, fun h ↦ ?_⟩
          exact absurd (hnone h).1 (by simp)
      | ok u =>
          obtain ⟨hmono, hle, hnone⟩ := ih (i + 1) (disk'.aof.getD []).length error f' disk'
            henabled' hopened' hpolicy' (Nat.le_refl _)
          refine ⟨Nat.le_trans (Nat.le_trans hsynced hgrows) hmono, hle, fun h ↦ ?_⟩
          refine ⟨(hnone h).1, fun _ ↦ ?_⟩
          cases rest with
          | nil => rfl
          | cons c cs => exact (hnone h).2 (by simp)

/-- The log object keeps its policy. -/
theorem fsyncPolicy_step {st st' : Session S} {base all : List Command} {saved : ℕ} {L : UInt64}
    {a : Action} (h : Filed st base all saved) (hready : Ready L st.server.storage)
    (hstep : st.step a = some st') :
    st'.server.persistence.fsyncPolicy = st.server.persistence.fsyncPolicy := by
  cases a with
  | sweep now =>
      simp only [Session.step, Option.ite_none_right_eq_some, Option.some.injEq] at hstep
      rw [← hstep.2]
      rfl
  | command command env =>
      simp only [Session.step, Option.ite_none_right_eq_some, Option.some.injEq] at hstep
      obtain ⟨⟨hadm, -, -⟩, rfl⟩ := hstep
      cases handles_executeOrdered st.server env hadm h.enabled h.opened h.size hready.pending with
      | quiet _ _ _ hpersistence _ => exact congrArg AppendOnlyFile.fsyncPolicy hpersistence
      | save _ _ hv =>
          dsimp only
          rw [hv]
      | logged i ops log ks s _ _ _ _ _ _ _ _ _ hpersistence _ _ _ =>
          obtain ⟨d, hpersistence⟩ := hpersistence
          dsimp only
          rw [hpersistence]

theorem synced_step {d : Durable S} {st : Session S} {base : List Command} {saved : ℕ}
    {a : Action} (h : Filed d.session base d.history saved)
    (hpolicy : d.session.server.persistence.fsyncPolicy = .always)
    (hsynced : d.synced ≤ (d.session.server.disk.aof.getD []).length)
    (hstep : d.session.step a = some st) :
    d.synced ≤ d.syncedAfter a ∧ d.syncedAfter a ≤ (st.server.disk.aof.getD []).length ∧
      (d.Acknowledges a → d.syncedAfter a = (st.server.disk.aof.getD []).length) := by
  cases a with
  | sweep now =>
      simp only [Session.step, Option.ite_none_right_eq_some, Option.some.injEq] at hstep
      rw [← hstep.2]
      exact ⟨Nat.le_refl _, hsynced, fun hack ↦ absurd hack id⟩
  | command command env =>
      simp only [Session.step, Option.ite_none_right_eq_some, Option.some.injEq] at hstep
      obtain ⟨⟨hadm, -, hwritten⟩, rfl⟩ := hstep
      by_cases hrecords : d.session.server.records env command = []
      · rw [Session.RecordsWritten, hrecords, numbered, written, List.flatMap_nil,
          List.append_nil] at hwritten
        simp only [Durable.syncedAfter, hrecords, syncedEach, hwritten]
        exact ⟨Nat.le_refl _, hsynced, fun hack ↦ absurd hrecords hack.2⟩
      · obtain ⟨hordered, hanswer⟩ := executeOrdered_records d.session.server env hadm hrecords
        obtain ⟨hmono, hle, hall⟩ := syncedEach_spec env.writes 0
          (d.session.server.records env command) d.synced none d.session.server.persistence
          d.session.server.disk h.enabled h.opened hpolicy hsynced
        rw [hordered]
        exact ⟨hmono, hle, fun hack ↦ (hall (hanswer hack.1)).2 hrecords⟩

/-! ## What a run of the machine keeps -/

/-- The files of a durable session, and how much of them is safe. -/
structure Sound (L : UInt64) (d : Durable S) (base : List Command) (saved : ℕ) : Prop where
  filed : Filed d.session base d.history saved
  ready : Ready L d.session.server.storage
  policy : d.session.server.persistence.fsyncPolicy = .always
  synced_le : d.synced ≤ (d.session.server.disk.aof.getD []).length
  acked_le : d.acked ≤ d.history.length
  acked_synced : (written (numbered 0 (d.history.take d.acked))).length ≤ d.synced

/-- Replays at time `t` of the records, of the records behind the snapshot and
of the acknowledged records; the records of whole actions are within the limit. -/
structure Faithful (t : TimePoint) (d : Durable S) (base : List Command) (saved : ℕ) : Prop where
  live : Reflected t d.history d.session.cells
  base : ∃ m, replayed t base = some m ∧ Reflected t (d.history.take saved) m
  acked : Reflected t (d.history.take d.acked) d.store
  within : d.session.server.storage.maxKeys = 0 ∨
    d.session.server.storage.shards.size ≤ d.session.server.storage.maxKeys.toNat

theorem sound_initial (path : Bool) (L : UInt64) : Sound L (Durable.initial S path L) [] 0 where
  filed := filed_initial .always path L
  ready := ready_initial .always path L
  policy := rfl
  synced_le := Nat.zero_le _
  acked_le := Nat.le_refl _
  acked_synced := Nat.le_refl _

theorem faithful_initial (t : TimePoint) (path : Bool) (L : UInt64) :
    Faithful t (Durable.initial S path L) [] 0 :=
  ⟨Reflected.nil t, ⟨_, replayed_nil t, Reflected.nil t⟩, Reflected.nil t,
    Or.inr (Nat.le_trans (Nat.le_of_eq PartMap.size_empty) (Nat.zero_le _))⟩

/-- The live operation of a pending record sets a deadline ahead of `t`. -/
theorem Command.Pending.of_loggedAs {t d : TimePoint} {command : Command}
    (h : command.Pending t) {op : CellOp} {key : Bytes} (hlogged : op.LoggedAs (command.op key))
    (hop : op = .expireAt d) : t < truncMillis d := by
  rcases hlogged with hsame | ⟨d', hlive, hrecord⟩
  · exact h d (Command.deadline?_of_op (hsame.trans hop))
  · obtain rfl := CellOp.expireAt.inj (hop.symm.trans hlive)
    have hahead := h _ (Command.deadline?_of_op hrecord)
    rwa [truncMillis_truncMillis] at hahead

/-- One action keeps the replay of all records equal to the live store. -/
theorem Reflected.moves {t : Instant} {st st' : Session S} {a : Action} {all : List Command}
    (h : Reflected t.1 all st.cells) (hmoves : Moves st st' a) (hend : st'.now.1 ≤ t.1)
    (hpending : ∀ command ∈ st.records a, command.Pending t.1) :
    Reflected t.1 (all ++ st.records a) st'.cells := by
  cases hmoves with
  | lapse hsaves hrecords hjournal hcells =>
      rw [hrecords, List.append_nil]
      exact h.lapse t.2 hend hcells
  | save now hsaves hrecords hfrom hto hcells hjournal =>
      rw [hrecords, List.append_nil, hcells]
      exact h
  | log now ops log ks mid hsaves hfrom hto hreading hrecords hjournal hloggable hops hacts hcells
      hunlimited =>
      have hlog : log.Pending t.1 := hpending log (by rw [hrecords]; exact List.mem_cons_self)
      have hone := h.record t.2 (Int64.le_trans hto hend) hloggable hops
        (fun key d hd _ ↦ hlog.of_loggedAs (hops key) hd) hacts
      have hall := hone.evictions t.2 ks
      rw [List.append_assoc, List.singleton_append] at hall
      rw [hrecords, hcells]
      exact hall

/-- An action leaves the live store within the limit. -/
theorem within_moves {L : UInt64} {st st' : Session S} {a : Action} (hmoves : Moves st st' a)
    (hready : Ready L st.server.storage) (hready' : Ready L st'.server.storage)
    (hsmall : st'.server.storage.shards.size < 2 ^ 64)
    (h : st.server.storage.maxKeys = 0 ∨
      st.server.storage.shards.size ≤ st.server.storage.maxKeys.toNat) :
    st'.server.storage.maxKeys = 0 ∨
      st'.server.storage.shards.size ≤ st'.server.storage.maxKeys.toNat := by
  rw [hready.maxKeys] at h
  rw [hready'.maxKeys]
  cases hmoves with
  | lapse _ _ _ hcells =>
      refine h.imp_right (Nat.le_trans (size_le_of_cells_none fun key hkey ↦ ?_))
      exact (hcells key).elim (fun hsame ↦ hsame.trans hkey) fun hgone ↦ hgone.1
  | save _ _ _ _ _ hcells _ =>
      exact h.imp_right (Nat.le_trans (Nat.le_of_eq (size_eq_of_cells hcells)))
  | log _ _ _ _ _ _ _ _ _ _ _ _ _ _ _ _ _ _ hroom =>
      rcases hroom with hle | hzero | htotal
      · exact h.imp_right (Nat.le_trans hle)
      · exact Or.inl (hready'.maxKeys.symm.trans hzero)
      · right
        rwa [totalKeys_of_drift hready'.drift, hready'.maxKeys, UInt64.le_iff_toNat_le,
          UInt64.toNat_ofNat_of_lt' hsmall] at htotal

theorem sound_step {L : UInt64} {d d' : Durable S} {base : List Command} {saved : ℕ} {a : Action}
    (h : Sound L d base saved) (hstep : d.step a = some d') :
    ∃ base' saved', Sound L d' base' saved' ∧ d.session.now.1 ≤ d'.session.now.1 ∧
      d'.history = d.history ++ d.session.records a ∧
      ∀ t : Instant, d'.session.now.1 ≤ t.1 → (∀ command ∈ d'.history, command.Pending t.1) →
        Faithful t.1 d base saved → Faithful t.1 d' base' saved' := by
  obtain ⟨st, hst, rfl⟩ := Option.map_eq_some_iff.mp hstep
  obtain ⟨⟨base', saved', hfiled, hcheckpoint⟩, hready, hnow, hmoves⟩ :=
    filed_step h.filed h.ready hst
  obtain ⟨hmono, hle, hack⟩ := synced_step h.filed h.policy h.synced_le hst
  have hkeep : ∀ n ≤ d.history.length,
      (d.history ++ d.session.records a).take n = d.history.take n :=
    fun n hn ↦ List.take_append_of_le_length hn
  refine ⟨base', saved', ⟨hfiled, hready, ?_, hle, ?_, ?_⟩, hnow, rfl, ?_⟩
  · exact (fsyncPolicy_step h.filed h.ready hst).trans h.policy
  · dsimp only
    split
    · exact Nat.le_refl _
    · rw [List.length_append]
      exact Nat.le_add_right_of_le h.acked_le
  · dsimp only
    split
    · rename_i hacknowledged
      rw [List.take_length, ← hfiled.aof, hack hacknowledged]
    · rw [hkeep _ h.acked_le]
      exact Nat.le_trans h.acked_synced hmono
  · intro t hend hpending hfaithful
    have hlive : Reflected t.1 (d.history ++ d.session.records a) st.cells :=
      hfaithful.live.moves hmoves hend fun c hc ↦ hpending c (List.mem_append_right _ hc)
    refine ⟨hlive, ?_, ?_, ?_⟩
    · rcases hcheckpoint with ⟨hsaves, rfl, rfl⟩ | ⟨-, rfl, rfl⟩
      · cases hmoves with
        | lapse hnot => exact absurd hsaves hnot
        | log now ops log ks mid hnot => exact absurd hsaves hnot
        | save now _ hrecords hfrom hto hcells hjournal =>
            obtain ⟨m, hm, hmirror⟩ := hlive
            have hload := replayAll_snapshotEntries (Int64.le_trans hto hend)
              d.session.server.storage
            refine ⟨fun key ↦ (d.session.cells key).reloaded t.1, ?_, m, ?_, fun key ↦ ?_⟩
            · rw [hjournal]
              exact congrArg Except.toOption hload
            · dsimp only
              rw [hkeep _ (Nat.le_refl _), List.take_length]
              rwa [hrecords, List.append_nil] at hm
            · rw [← hcells]
              exact (hmirror key).reloaded
      · dsimp only
        rw [hkeep _ h.filed.saved_le]
        exact hfaithful.base
    · dsimp only
      split
      · rw [List.take_length]
        exact hlive
      · rw [hkeep _ h.acked_le]
        exact hfaithful.acked
    · refine within_moves hmoves h.ready hready ?_ hfaithful.within
      rw [hlive.size_eq hfiled.loggable hpending]
      exact Nat.lt_of_le_of_lt (card_keysOf_le _) hfiled.weight_lt

/-- What a whole run gives. -/
theorem sound_run {L : UInt64} {d d' : Durable S} {base : List Command} {saved : ℕ}
    {events : List Action} (h : Sound L d base saved) (hrun : run Durable.step d events = some d') :
    ∃ base' saved', Sound L d' base' saved' ∧ d.session.now.1 ≤ d'.session.now.1 ∧
      d.history <+: d'.history ∧
      ∀ t : Instant, d'.session.now.1 ≤ t.1 → (∀ command ∈ d'.history, command.Pending t.1) →
        Faithful t.1 d base saved → Faithful t.1 d' base' saved' := by
  induction events generalizing d base saved with
  | nil =>
      obtain rfl := Option.some.inj hrun
      exact ⟨base, saved, h, Int64.le_refl _, List.prefix_rfl, fun _ _ _ hf ↦ hf⟩
  | cons a rest ih =>
      rw [run_cons] at hrun
      obtain ⟨mid, hmid, hrest⟩ := Option.bind_eq_some_iff.mp hrun
      obtain ⟨base₁, saved₁, hsound₁, hnow₁, hhistory₁, hfaithful₁⟩ := sound_step h hmid
      obtain ⟨base', saved', hsound, hnow, hhistory, hfaithful⟩ := ih hsound₁ hrest
      have hfirst : d.history <+: mid.history := by
        rw [hhistory₁]
        exact List.prefix_append _ _
      refine ⟨base', saved', hsound, Int64.le_trans hnow₁ hnow, hfirst.trans hhistory, ?_⟩
      intro t hend hpending hf
      apply hfaithful t hend hpending
      apply hfaithful₁ t (Int64.le_trans hnow hend) _ hf
      exact fun c hc ↦ hpending c (hhistory.subset hc)

/-! ## Recovery from a cut log -/

theorem kept_eq_drop {all : List Command} (hsmall : all.length < 2 ^ 63) {saved : ℕ}
    (hsaved : saved ≤ all.length) (k : ℕ) :
    kept (UInt64.ofNat saved) all k = (all.take k).drop saved := by
  have hle : (all.take k).length ≤ all.length := List.length_take_le' _ _
  rw [kept, take_numbered]
  exact effective_numbered (n := 0) (by omega) (by omega)

/-- Recovery from the files of a session with a cut log replays what the
snapshot stands for and the commands that the cut leaves. -/
theorem recoverFrom_cut {d : Durable S} {base : List Command} {saved : ℕ}
    (h : Filed d.session base d.history saved) {pre : Bytes} {k : ℕ} {tail : Bytes}
    (hcut : CutAt d.history pre k tail) (t : TimePoint) :
    ∃ applied, CutReplay (UInt64.ofNat saved) d.history pre k tail applied ∧
      d.recoverFrom pre t = (applied.bind fun cs ↦ (applyAll t (base ++ cs)
        (({ maxKeys := d.session.server.storage.maxKeys } :
          StorageEngine S).setEvictionEnabled false)).toOption).map
            fun s ↦ (s.setEvictionEnabled true).takeEvictedKeys.2 := by
  obtain ⟨applied, houtcome, hlines⟩ :=
    replayLines_cut (S := S) h.admissible hcut (UInt64.ofNat saved)
  refine ⟨applied, houtcome, ?_⟩
  generalize hL : d.session.server.storage.maxKeys = L
  have hload := h.loadSnapshot (({ maxKeys := L } : StorageEngine S).setEvictionEnabled false) t
  rw [Durable.recoverFrom, hL, toOption_recover]
  change ((d.session.server.persistence.fresh.loadSnapshot d.session.server.disk _ t).toOption.bind
    _) = _
  rw [hload, Option.bind_map]
  cases hbase : applyAll t base (({ maxKeys := L } : StorageEngine S).setEvictionEnabled false) with
  | error e =>
      cases applied with
      | none => rfl
      | some cs => simp [applyAll_append, hbase, Except.toOption, bind, Except.bind]
  | ok s =>
      have hafter : (({ d.session.server.persistence.fresh with
          sequence := UInt64.ofNat saved } : AppendOnlyFile).replayAfter
            { d.session.server.disk with aof := some pre } s t (UInt64.ofNat saved)).toOption.map
              Prod.snd = applied.bind fun cs ↦ (applyAll t cs s).toOption :=
        (toOption_replayAfter (f := { d.session.server.persistence.fresh with
          sequence := UInt64.ofNat saved }) h.enabled
          { d.session.server.disk with aof := some pre } rfl s t _).trans (hlines s t)
      simp only [Except.toOption, Option.bind_some, Function.comp_apply]
      refine (congrArg _ hafter).trans ?_
      cases applied with
      | none => rfl
      | some cs => simp [applyAll_append, hbase, Except.toOption, bind, Except.bind]

theorem Filed.checkpoint_eq {d : Durable S} {base : List Command} {saved : ℕ}
    (h : Filed d.session base d.history saved) : d.checkpoint = UInt64.ofNat saved := by
  rcases h.snapshot with ⟨hnone, rfl, -⟩ | ⟨hpath, entries, hfile, -⟩
  · rcases hnone with hpath | hfile
    · simp [Durable.checkpoint, hpath]
    · simp [Durable.checkpoint, hfile]
  · simp [Durable.checkpoint, hpath, hfile, getlines_snapshotFile, parseHeader_snapshotHeader]

/-- Only the piece behind the last newline can be unreadable. -/
theorem readable_iff_of_cut {all : List Command} (hadm : ∀ command ∈ all, Admissible command)
    {pre : Bytes} {k : ℕ} {tail : Bytes} (hcut : CutAt all pre k tail) (minimum : UInt64) :
    Readable minimum pre ↔ tail = [] ∨ (decodeLine (k + 1) tail).1 ≤ minimum ∨
      (decodeLine (k + 1) tail).2.toBool = true := by
  have hlog := decodeLog_written_append (admissible_take_numbered hadm k) hcut.newline_notMem
  rw [← hcut.pre_eq, hcut.length_take] at hlog
  rw [Readable, hlog]
  constructor
  · intro h
    refine (eq_or_ne tail []).imp_right fun hne ↦ h _ (List.mem_append_right _ ?_)
    simp [tailLine_of_ne_nil hne]
  · intro h r hr
    rcases List.mem_append.mp hr with hwhole | hlast
    · obtain ⟨x, -, rfl⟩ := List.mem_map.mp hwhole
      exact Or.inr rfl
    · rcases h with rfl | h
      · simp at hlast
      · cases tail with
        | nil => simp at hlast
        | cons c cs =>
            obtain rfl : r = decodeLine (k + 1) (c :: cs) := by simpa [tailLine] using hlast
            exact h

/-- A prefix as long as the first records holds all of them. -/
theorem CutAt.le_whole {all : List Command} {pre : Bytes} {k : ℕ} {tail : Bytes}
    (h : CutAt all pre k tail) {n : ℕ} (hn : n ≤ all.length)
    (hlength : (written (numbered 0 (all.take n))).length ≤ pre.length) : n ≤ k := by
  by_contra hlt
  have hk : k < all.length := by omega
  -- the first `n` records contain the one that the cut falls into
  have hsplit : all.take n = all.take k ++ all[k] :: (all.take n).drop (k + 1) := by
    have hin : k < (all.take n).length := by
      rw [List.length_take]
      omega
    have hparts := List.take_append_drop k (all.take n)
    rw [List.take_take, Nat.min_eq_left (by omega), List.drop_eq_getElem_cons hin,
      List.getElem_take] at hparts
    exact hparts.symm
  have htail : tail.length ≤ (recordLine (UInt64.ofNat (k + 1)) all[k]).length := by
    rcases h.tail_of_next with rfl | ⟨command, hcommand, htail⟩
    · exact Nat.zero_le _
    · rw [List.getElem?_eq_getElem hk] at hcommand
      obtain rfl := Option.some.inj hcommand
      exact htail.length_le
  have hnumber : UInt64.ofNat k + 1 = UInt64.ofNat (k + 1) := (UInt64.ofNat_add k 1).symm
  rw [hsplit, numbered_append, written_append, h.pre_eq, take_numbered, List.length_append,
    List.length_append, List.length_take, Nat.min_eq_left (Nat.le_of_lt hk), numbered,
    UInt64.zero_add, hnumber, written_cons, List.length_append, record, List.length_append,
    List.length_singleton] at hlength
  dsimp only at hlength
  omega

/-! ## What survives -/

/-- A store that some records stand for, and the records behind them. -/
theorem Reflected.carry {t : Instant} {all : List Command} {store : Store} {j i : ℕ}
    (h : Reflected t.1 (all.take j) store) (hall : ∃ m, replayed t.1 all = some m) (hji : j ≤ i)
    (hlog : ∀ command ∈ all, command.Loggable) (hpending : ∀ command ∈ all, command.Pending t.1) :
    ∃ m n, replayed t.1 (all.take i) = some m ∧
      Store.replayAll t.1 ((all.take i).drop j) store = .ok n ∧ Store.Mirrors t.1 n m := by
  obtain ⟨m₀, hm₀, hmirror⟩ := h
  obtain ⟨mall, hmall⟩ := hall
  have hwhole : replayed t.1 (all.take i ++ all.drop i) = some mall := by
    rwa [List.take_append_drop]
  rw [replayed_append] at hwhole
  obtain ⟨m, hm, -⟩ := Option.bind_eq_some_iff.mp hwhole
  have hsplit : all.take j ++ (all.take i).drop j = all.take i := by
    have hparts := List.take_append_drop j (all.take i)
    rwa [List.take_take, Nat.min_eq_left hji] at hparts
  have hm' := hm
  rw [← hsplit, replayed_append, hm₀, Option.bind_some] at hm'
  have hin : ∀ command ∈ (all.take i).drop j, command ∈ all :=
    fun c hc ↦ List.mem_of_mem_take (List.mem_of_mem_drop hc)
  cases hrest : Store.replayAll t.1 ((all.take i).drop j) m₀ with
  | error e => simp [hrest, Except.toOption] at hm'
  | ok m₁ =>
      rw [hrest] at hm'
      obtain rfl := Option.some.inj hm'
      obtain ⟨n, hn, hmirror'⟩ := hmirror.symm.replayAll t.2 (fun c hc ↦ hlog c (hin c hc))
        (fun c hc d hd _ ↦ hpending c (hin c hc) d hd) hrest
      exact ⟨m₁, n, hm, hn, hmirror'.symm⟩

theorem replayAll_append_ok {t : TimePoint} {xs ys : List Command} {m mid n : Store}
    (hxs : Store.replayAll t xs m = .ok mid) (hys : Store.replayAll t ys mid = .ok n) :
    Store.replayAll t (xs ++ ys) m = .ok n := by
  rw [Store.replayAll, List.foldlM_append, ← Store.replayAll, hxs]
  exact hys

/-- Some more commands on two stores that mirror each other; they carry no
deadline and are not refused. -/
theorem Store.Mirrors.carry {t : Instant} {m n : Store} (h : Store.Mirrors t.1 n m)
    {extra : List Command} (hlog : ∀ c ∈ extra, c.Loggable)
    (hplain : ∀ c ∈ extra, c.deadline? = none) {m' : Store}
    (hm' : Store.replayAll t.1 extra m = .ok m') :
    ∃ n', Store.replayAll t.1 extra n = .ok n' ∧ Store.Mirrors t.1 n' m' := by
  obtain ⟨n', hn', hmirror⟩ := h.symm.replayAll t.2 hlog
    (fun c hc d hd ↦ by simp [hplain c hc] at hd) hm'
  exact ⟨n', hn', hmirror.symm⟩

/-- What the snapshot stands for and an acknowledged store lead to the same
store, up to whole milliseconds, when the records up to the same point follow:
the store that these records give from nothing. -/
theorem Faithful.carry {t : Instant} {d : Durable S} {base : List Command} {saved acked : ℕ}
    {store : Store} (h : Faithful t.1 d base saved)
    (hacked : Reflected t.1 (d.history.take acked) store)
    (hlog : ∀ command ∈ d.history, command.Loggable)
    (hpending : ∀ command ∈ d.history, command.Pending t.1) {i : ℕ} (hsaved : saved ≤ i)
    (hi : acked ≤ i) {extra : List Command} (hextra : ∀ c ∈ extra, c.Loggable)
    (hplain : ∀ c ∈ extra, c.deadline? = none)
    (haccepted : ∀ m, ∃ m', Store.replayAll t.1 extra m = .ok m') :
    ∃ u m n, replayed t.1 (d.history.take i ++ extra) = some u ∧
      replayed t.1 (base ++ ((d.history.take i).drop saved ++ extra)) = some m ∧
      Store.replayAll t.1 ((d.history.take i).drop acked ++ extra) store = .ok n ∧
      Store.Mirrors t.1 m u ∧ Store.Mirrors t.1 n u := by
  have hall : ∃ m, replayed t.1 d.history = some m := h.live.imp fun m hm ↦ hm.1
  obtain ⟨b, hb, hbase⟩ := h.base
  obtain ⟨u, m, hu, hm, hmu⟩ := hbase.carry hall hsaved hlog hpending
  obtain ⟨u₂, n, hu₂, hn, hnu⟩ := hacked.carry hall hi hlog hpending
  obtain rfl : u = u₂ := Option.some.inj (hu.symm.trans hu₂)
  obtain ⟨u', hu'⟩ := haccepted u
  obtain ⟨m', hm', hmu'⟩ := hmu.carry hextra hplain hu'
  obtain ⟨n', hn', hnu'⟩ := hnu.carry hextra hplain hu'
  refine ⟨u', m', n', ?_, ?_, replayAll_append_ok hn hn', hmu', hnu'⟩
  · rw [replayed_append, hu, Option.bind_some, hu']
    rfl
  · rw [replayed_append, hb, Option.bind_some, replayAll_append_ok hm hm']
    rfl

theorem drop_take_prefix_drop (all : List Command) (i j : ℕ) :
    (all.take i).drop j <+: all.drop j := by
  rw [List.drop_take]
  exact List.take_prefix _ _

/-- The engine that recovery ends with: the replayed store if it is within the
limit, and otherwise as many keys of it as the limit allows. -/
theorem recoverFrom_limit {d : Durable S} {pre : Bytes} {t : TimePoint} {commands : List Command}
    (hrecover : d.recoverFrom pre t = (applyAll t commands
      (({ maxKeys := d.session.server.storage.maxKeys } :
        StorageEngine S).setEvictionEnabled false)).toOption.map
          fun s ↦ (s.setEvictionEnabled true).takeEvictedKeys.2)
    {m : Store} (hm : replayed t commands = some m) {keys : Finset Bytes}
    (hkeys : ∀ key, m key ≠ none ↔ key ∈ keys) (hsmall : keys.card < 2 ^ 64) :
    ∃ s, d.recoverFrom pre t = some s ∧
      (d.session.server.storage.maxKeys = 0 ∨
        keys.card ≤ d.session.server.storage.maxKeys.toNat → s.cells = m) ∧
      (d.session.server.storage.maxKeys ≠ 0 →
        d.session.server.storage.maxKeys.toNat < keys.card →
          s.totalKeys = d.session.server.storage.maxKeys ∧
          s.shards.size = d.session.server.storage.maxKeys.toNat ∧
          ∀ key, s.cells key = none ∨ s.cells key = m key) := by
  generalize d.session.server.storage.maxKeys = L at hrecover ⊢
  rcases applyAll_refines (loading_start (S := S) L) t commands with
    ⟨e, -, hstore⟩ | ⟨s, happly, hload, hstore⟩
  · have hnone : replayed t commands = none := congrArg Except.toOption hstore
    rw [hm] at hnone
    simp at hnone
  have hcells : s.cells = m := by
    have hsome : replayed t commands = some s.cells := congrArg Except.toOption hstore
    rw [hm] at hsome
    exact (Option.some.inj hsome).symm
  have hsize : s.shards.size = keys.card := size_eq_card (by rw [hcells]; exact hkeys)
  rw [happly] at hrecover
  refine ⟨_, hrecover, fun hwithin ↦ ?_, fun hlimit hover ↦ ?_⟩
  · have hquiet : s.setEvictionEnabled true = { s with evictionEnabled := true } := by
      refine enforceMaxKeys_of_le ?_
      refine hwithin.imp (fun hzero ↦ hload.maxKeys.trans hzero) fun hle ↦ ?_
      change s.totalKeys ≤ s.maxKeys
      rwa [hload.maxKeys, totalKeys_of_drift hload.drift, hsize, UInt64.le_iff_toNat_le,
        UInt64.toNat_ofNat_of_lt' hsmall]
    dsimp only
    rw [hquiet, ← hcells]
    rfl
  · obtain ⟨ks, hks⟩ := evicts_enforceMaxKeys { s with evictionEnabled := true }
    have hcount : (s.setEvictionEnabled true).shards.size = L.toNat := by
      have hsized := size_enforceMaxKeys (s := { s with evictionEnabled := true }) rfl
        (fun hzero ↦ hlimit (hload.maxKeys.symm.trans hzero)) hload.drift
        (by rw [hsize]; exact hsmall) (by rw [hload.maxKeys, hsize]; exact hover)
      rw [← hload.maxKeys]
      exact hsized
    refine ⟨?_, hcount, fun key ↦ ?_⟩
    · have htotal := totalKeys_of_drift (hks.drift.trans hload.drift)
      refine htotal.trans ?_
      rw [← UInt64.ofNat_toNat (x := L), ← hcount]
      rfl
    · have hcell : (s.setEvictionEnabled true).takeEvictedKeys.2.cells = m.eraseAll ks := by
        rw [← hcells]
        exact hks.cells
      rw [hcell, Store.eraseAll]
      split
      · exact Or.inl rfl
      · exact Or.inr rfl

/-! ## The surviving records -/

theorem decodeLog_cut {all : List Command} (hadm : ∀ command ∈ all, Admissible command)
    {pre : Bytes} {k : ℕ} {tail : Bytes} (hcut : CutAt all pre k tail) :
    decodeLog pre = (((numbered 0 all).take k).map fun r ↦ (r.1, .ok r.2)) ++
      (tailLine tail).map (decodeLine (k + 1)) := by
  have hlog := decodeLog_written_append (admissible_take_numbered hadm k) hcut.newline_notMem
  rwa [← hcut.pre_eq, hcut.length_take] at hlog

/-- The number that a piece of a record is read with is its own. -/
theorem CutAt.fst_decodeLine {all : List Command} {pre : Bytes} {k : ℕ} {tail : Bytes}
    (hcut : CutAt all pre k tail) (hne : tail ≠ []) :
    (decodeLine (k + 1) tail).1 = UInt64.ofNat (k + 1) := by
  obtain ⟨command, -, htail⟩ := hcut.tail_of_next.resolve_left hne
  rcases decodeLine_prefix (k + 1) htail hne with ⟨-, hdecode⟩ | ⟨text, -, -, hdecode⟩
  · rw [hdecode]
  · rw [hdecode]

/-- The first `i` records and perhaps what is left of an `MSET` behind them. -/
structure Remains (all : List Command) (i : ℕ) (extra : List Command) : Prop where
  le_length : i ≤ all.length
  extra_eq : extra = [] ∨ ∃ args j, extra = [⟨.mset, args.take j⟩] ∧ all[i]? = some ⟨.mset, args⟩

namespace Remains

variable {all extra : List Command} {i : ℕ}

theorem plain (h : Remains all i extra) :
    ∀ c ∈ extra, c.Loggable ∧ c.deadline? = none := by
  rcases h.extra_eq with rfl | ⟨args, j, rfl, -⟩
  · simp
  · intro c hc
    obtain rfl := List.mem_singleton.mp hc
    exact ⟨trivial, rfl⟩

theorem accepted (h : Remains all i extra) (t : TimePoint) (m : Store) :
    ∃ m', Store.replayAll t extra m = .ok m' := by
  rcases h.extra_eq with rfl | ⟨args, j, rfl, -⟩
  · exact ⟨_, rfl⟩
  · exact ⟨_, rfl⟩

theorem carriedOn (h : Remains all i extra) {acked : ℕ} (hacked : acked ≤ i) :
    CarriedOn (all.drop acked) ((all.take i ++ extra).drop acked) := by
  have hlen : acked ≤ (all.take i).length := by
    rw [List.length_take, Nat.min_eq_left h.le_length]
    exact hacked
  rw [List.drop_append_of_le_length hlen]
  rcases h.extra_eq with rfl | ⟨args, j, rfl, hnext⟩
  · rw [List.append_nil]
    exact Or.inl (drop_take_prefix_drop _ _ _)
  · refine Or.inr ⟨_, args, j, rfl, ?_⟩
    have hstart := drop_take_prefix_drop all (i + 1) acked
    rwa [List.take_add_one, hnext, Option.toList_some, List.drop_append_of_le_length hlen] at hstart

theorem weight_le (h : Remains all i extra) : weight (all.take i ++ extra) ≤ weight all := by
  have hwhole : weight (all.take i) + weight (all.drop i) = weight all := by
    rw [← weight_append, List.take_append_drop]
  rw [weight_append]
  rcases h.extra_eq with rfl | ⟨args, j, rfl, hnext⟩
  · simp only [weight, List.map_nil, List.sum_nil] at hwhole ⊢
    omega
  · obtain ⟨hi, hget⟩ := List.getElem?_eq_some_iff.mp hnext
    rw [List.drop_eq_getElem_cons hi, hget, weight_cons] at hwhole
    have hargs : (args.take j).length ≤ args.length := List.length_take_le' _ _
    rw [weight_cons]
    simp only [weight, List.map_nil, List.sum_nil] at hwhole ⊢
    omega

end Remains

/-- Recovery replays, behind the snapshot, what survives: the first `i` records
and `extra`. -/
structure Rebuilt (d : Durable S) (base : List Command) (saved k : ℕ) (pre : Bytes) (t : TimePoint)
    (i : ℕ) (extra : List Command) : Prop where
  le_whole : k ≤ i
  saved_le : saved ≤ i
  remains : Remains d.history i extra
  survivors_eq : d.survivors pre = d.history.take i ++ extra
  recoverFrom_eq : d.recoverFrom pre t =
    (applyAll t (base ++ ((d.history.take i).drop saved ++ extra))
      (({ maxKeys := d.session.server.storage.maxKeys } :
        StorageEngine S).setEvictionEnabled false)).toOption.map
          fun s ↦ (s.setEvictionEnabled true).takeEvictedKeys.2

section
variable {d : Durable S} {base : List Command} {saved : ℕ} {pre : Bytes} {k : ℕ} {tail : Bytes}

theorem length_decodeLog_cut (h : Filed d.session base d.history saved)
    (hcut : CutAt d.history pre k tail) :
    (decodeLog pre).length = k + (tailLine tail).length := by
  rw [decodeLog_cut h.admissible hcut, List.length_append, List.length_map, hcut.length_take,
    List.length_map]

theorem commands_decodeLog_cut (h : Filed d.session base d.history saved)
    (hcut : CutAt d.history pre k tail) :
    (decodeLog pre).filterMap (fun r ↦ r.2.toOption) = d.history.take k ++
      ((tailLine tail).map (decodeLine (k + 1))).filterMap fun r ↦ r.2.toOption := by
  have hwhole : (((numbered 0 d.history).take k).map fun r ↦
      ((r.1, .ok r.2) : UInt64 × Except Bytes Command)).filterMap (fun r ↦ r.2.toOption) =
        d.history.take k := by
    rw [List.filterMap_map, take_numbered]
    refine Eq.trans ?_ (map_snd_numbered 0 (d.history.take k))
    rw [← List.filterMap_eq_map]
    rfl
  rw [decodeLog_cut h.admissible hcut, List.filterMap_append, hwhole]

theorem Filed.toNat_checkpoint (h : Filed d.session base d.history saved) :
    d.checkpoint.toNat = saved := by
  have hsmall := h.length_lt
  have hsaved := h.saved_le
  rw [h.checkpoint_eq, UInt64.toNat_ofNat_of_lt' (by rw [UInt64.size]; omega)]

theorem Filed.ofNat_le_iff (h : Filed d.session base d.history saved) {n : ℕ}
    (hn : n ≤ d.history.length) : UInt64.ofNat n ≤ UInt64.ofNat saved ↔ n ≤ saved := by
  have hsmall := h.length_lt
  have hsaved := h.saved_le
  rw [UInt64.le_iff_toNat_le, UInt64.toNat_ofNat_of_lt' (by rw [UInt64.size]; omega),
    UInt64.toNat_ofNat_of_lt' (by rw [UInt64.size]; omega)]

/-- What a cut leaves: recovery refuses the piece behind the last newline, or it
rebuilds the store from the records that survive. -/
theorem cut_cases (h : Filed d.session base d.history saved) (hcut : CutAt d.history pre k tail)
    (t : TimePoint) :
    (¬Readable d.checkpoint pre ∧ d.recoverFrom pre t = none) ∨
      Readable d.checkpoint pre ∧ ∃ i extra, Rebuilt d base saved k pre t i extra := by
  obtain ⟨applied, houtcome, hrecover⟩ := recoverFrom_cut h hcut t
  have hkept := kept_eq_drop h.length_lt h.saved_le
  have hlength := length_decodeLog_cut h hcut
  have hread := commands_decodeLog_cut h hcut
  have hreadable := readable_iff_of_cut h.admissible hcut d.checkpoint
  -- no more lines than records that the snapshot covers
  have hcovered : k ≤ saved → (decodeLog pre).length ≤ saved →
      applied = some (kept (UInt64.ofNat saved) d.history k) →
        Rebuilt d base saved k pre t saved [] := by
    rintro hk hle rfl
    refine ⟨hk, Nat.le_refl saved, ⟨h.saved_le, Or.inl rfl⟩, ?_, ?_⟩
    · rw [Durable.survivors, h.toNat_checkpoint, if_pos hle, List.append_nil]
    · rw [hrecover, Option.bind_some, hkept, List.append_nil, List.drop_take, List.drop_take,
        Nat.sub_self, Nat.sub_eq_zero_of_le hk]
  -- a piece that is a command of its own
  have hpiece : ∀ command, (decodeLine (k + 1) tail).2 = .ok command → ¬k + 1 ≤ saved →
      Readable d.checkpoint pre ∧ d.survivors pre = d.history.take k ++ [command] := by
    intro command hcommand hlt
    have hne : tail ≠ [] := by
      rintro rfl
      have hempty : (decodeLine (k + 1) []).2 = .error (ascii "empty command") := rfl
      simp [hempty] at hcommand
    rw [tailLine_of_ne_nil hne, List.length_singleton] at hlength
    refine ⟨hreadable.mpr (Or.inr (Or.inr (by rw [hcommand]; rfl))), ?_⟩
    rw [Durable.survivors, h.toNat_checkpoint, if_neg (by omega), hread, tailLine_of_ne_nil hne]
    simp [hcommand, Except.toOption]
  cases houtcome with
  | between htail =>
      refine Or.inr ⟨hreadable.mpr (Or.inl htail), ?_⟩
      rw [htail, tailLine_nil, List.length_nil, Nat.add_zero] at hlength
      by_cases hle : k ≤ saved
      · exact ⟨saved, [], hcovered hle (by omega) rfl⟩
      · refine ⟨k, [], Nat.le_refl k, by omega, ⟨hcut.le_length, Or.inl rfl⟩, ?_, ?_⟩
        · rw [Durable.survivors, h.toNat_checkpoint, if_neg (by omega), hread, htail, tailLine_nil]
          rfl
        · rw [hrecover, Option.bind_some, hkept, List.append_nil]
  | skipped htail hskip =>
      obtain ⟨command, hcommand, -⟩ := hcut.tail_of_next.resolve_left htail
      have hk := (List.getElem?_eq_some_iff.mp hcommand).1
      have hle : k + 1 ≤ saved := (h.ofNat_le_iff hk).mp (hcut.fst_decodeLine htail ▸ hskip)
      rw [tailLine_of_ne_nil htail, List.length_singleton] at hlength
      refine Or.inr ⟨hreadable.mpr (Or.inr (Or.inl ?_)), saved, [],
        hcovered (by omega) (by omega) rfl⟩
      rw [h.checkpoint_eq]
      exact hskip
  | refused htail hskip herror =>
      obtain ⟨e, he⟩ := herror
      refine Or.inl ⟨?_, by rw [hrecover]; rfl⟩
      rw [hreadable, h.checkpoint_eq]
      simp [htail, hskip, he, Except.toBool]
  | unended command hcommand hnew hdecode =>
      have hk := (List.getElem?_eq_some_iff.mp hcommand).1
      have hlt : ¬k + 1 ≤ saved := fun hle ↦ UInt64.not_le.mpr hnew ((h.ofNat_le_iff hk).mpr hle)
      obtain ⟨hok, hsurvivors⟩ := hpiece command hdecode hlt
      refine Or.inr ⟨hok, k + 1, [], Nat.le_succ k, by omega, ⟨hk, Or.inl rfl⟩, ?_, ?_⟩
      · rw [hsurvivors, List.take_add_one, hcommand, Option.toList_some, List.append_nil]
      · rw [hrecover, Option.bind_some, hkept, List.append_nil]
  | shortened args j hmset hdecode =>
      have hk := (List.getElem?_eq_some_iff.mp hmset.mset).1
      have hlt : ¬k + 1 ≤ saved :=
        fun hle ↦ UInt64.not_le.mpr hmset.above ((h.ofNat_le_iff hk).mpr hle)
      obtain ⟨hok, hsurvivors⟩ := hpiece _ hdecode hlt
      refine Or.inr ⟨hok, k, [⟨.mset, args.take j⟩], Nat.le_refl k, by omega,
        ⟨hcut.le_length, Or.inr ⟨args, j, rfl, hmset.mset⟩⟩, hsurvivors, ?_⟩
      rw [hrecover, Option.bind_some, hkept]
  | unreplayable args hcommand =>
      exact absurd (h.loggable _ (List.mem_of_getElem? hcommand)) id

/-- What recovery makes of the surviving records, beside what they make of the
store acknowledged last. -/
theorem Rebuilt.recovers {t : Instant} {i : ℕ} {extra : List Command}
    (h : Rebuilt d base saved k pre t.1 i extra) {past : Durable S}
    (hfiled : Filed d.session base d.history saved) (hfaithful : Faithful t.1 d base saved)
    (hacked : Reflected t.1 (d.history.take past.acked) past.store) (hk : past.acked ≤ k)
    (hpending : ∀ command ∈ d.history, command.Pending t.1) :
    ∃ s n, d.recoverFrom pre t.1 = some s ∧ past.CarriesTo d pre t.1 n ∧
      (∀ key, n key ≠ none ↔ key ∈ keysOf (d.survivors pre)) ∧
      (d.Within pre → ∀ key, (s.cells key).truncated = (n key).truncated) ∧
      (¬d.Within pre → s.totalKeys = d.session.server.storage.maxKeys ∧
        s.shards.size < (keysOf (d.survivors pre)).card ∧
        ∀ key, s.cells key = none ∨ (s.cells key).truncated = (n key).truncated) := by
  have hi := Nat.le_trans hk h.le_whole
  have hplain := h.remains.plain
  obtain ⟨u, m, n, hu, hm, hn, hmu, hnu⟩ := hfaithful.carry hacked hfiled.loggable hpending
    h.saved_le hi (fun c hc ↦ (hplain c hc).1) (fun c hc ↦ (hplain c hc).2)
    (h.remains.accepted t.1)
  have hsurvive : ∀ c ∈ d.history.take i ++ extra, c.Loggable ∧ c.Pending t.1 := by
    intro c hc
    rcases List.mem_append.mp hc with hc | hc
    · have hin := List.mem_of_mem_take hc
      exact ⟨hfiled.loggable c hin, hpending c hin⟩
    · exact ⟨(hplain c hc).1, fun d hd ↦ by simp [(hplain c hc).2] at hd⟩
  have hkeys : ∀ key, u key ≠ none ↔ key ∈ keysOf (d.survivors pre) := by
    rw [h.survivors_eq]
    exact fun key ↦ (mem_keysOf hu (fun c hc ↦ (hsurvive c hc).1)
      (fun c hc ↦ (hsurvive c hc).2) key).2
  have hsmall : (keysOf (d.survivors pre)).card < 2 ^ 64 := by
    have hcard := card_keysOf_le (d.survivors pre)
    rw [h.survivors_eq] at hcard ⊢
    exact Nat.lt_of_le_of_lt hcard (Nat.lt_of_le_of_lt h.remains.weight_le hfiled.weight_lt)
  have hsame : ∀ key, (m key).truncated = (n key).truncated :=
    fun key ↦ (hmu key).truncated_eq.trans (hnu key).truncated_eq.symm
  obtain ⟨s, hs, hwithin, hover⟩ := recoverFrom_limit h.recoverFrom_eq hm
    (fun key ↦ by rw [← hkeys key, ne_eq, ne_eq, (hmu key).eq_none_iff]) hsmall
  refine ⟨s, n, hs, ⟨?_, ?_⟩, fun key ↦ ?_, fun hle key ↦ ?_, fun hnot ↦ ?_⟩
  · rw [h.survivors_eq]
    exact h.remains.carriedOn hi
  · have hlen : past.acked ≤ (d.history.take i).length := by
      rw [List.length_take, Nat.min_eq_left h.remains.le_length]
      exact hi
    rw [h.survivors_eq, List.drop_append_of_le_length hlen]
    exact hn
  · rw [← hkeys key, ne_eq, ne_eq, (hnu key).eq_none_iff]
  · rw [hwithin hle]
    exact hsame key
  · rw [Durable.Within, not_or, Nat.not_le] at hnot
    obtain ⟨htotal, hsize, hcells⟩ := hover hnot.1 hnot.2
    refine ⟨htotal, hsize ▸ hnot.2, fun key ↦ (hcells key).imp_right fun hcell ↦ ?_⟩
    rw [hcell]
    exact hsame key

end

end

/-- Let the log under `FsyncPolicy::Always` be cut anywhere behind the bytes that
were synced at some point `mid` of a run, and let the recovery run before any
logged deadline.  It gives back everything that was acknowledged up to `mid`,
carried on by the surviving records, if and only if the piece behind the last
newline is a command and the surviving records are within the limit on keys.
If they are not, recovery itself evicts keys down to the limit and keeps the
others.  They are within it when the cut falls between two actions. -/
theorem acknowledged_mutations_survive_iff (S : Sharding) (path : Bool) (L : UInt64)
    (past more : List Action) (mid last : Durable S)
    (hpast : run Durable.step (Durable.initial S path L) past = some mid)
    (hmore : run Durable.step mid more = some last) (t : Instant)
    (htime : last.session.now.1 ≤ t.1) (hpending : ∀ command ∈ last.history, command.Pending t.1)
    (pre : Bytes) (hpre : pre <+: last.session.server.disk.aof.getD [])
    (hsynced : mid.synced ≤ pre.length) :
    (mid.Survives last pre t.1 ↔ Readable last.checkpoint pre ∧ last.Within pre) ∧
      (Readable last.checkpoint pre → ¬last.Within pre → mid.SurvivesEvicted last pre t.1) ∧
      ∀ events d, events <+: more → run Durable.step mid events = some d →
        last.survivors pre = d.history → last.Within pre := by
  obtain ⟨base₀, saved₀, hsound₀, -, -, hfaithful₀⟩ := sound_run (sound_initial path L) hpast
  obtain ⟨base, saved, hsound, hnow, hhistory, hfaithful⟩ := sound_run hsound₀ hmore
  have hmid := hfaithful₀ t (Int64.le_trans hnow htime)
    (fun c hc ↦ hpending c (hhistory.subset hc)) (faithful_initial t.1 path L)
  have hlast := hfaithful t htime hpending hmid
  have hfiled := hsound.filed
  have htaken : last.history.take mid.acked = mid.history.take mid.acked := by
    obtain ⟨rest, hrest⟩ := hhistory
    rw [← hrest, List.take_append_of_le_length hsound₀.acked_le]
  have hacked : Reflected t.1 (last.history.take mid.acked) mid.store := htaken ▸ hmid.acked
  rw [hfiled.aof] at hpre
  obtain ⟨k, tail, hcut⟩ := exists_cutAt hpre
  have hk : mid.acked ≤ k := by
    refine hcut.le_whole (Nat.le_trans hsound₀.acked_le hhistory.length_le) ?_
    rw [htaken]
    exact Nat.le_trans hsound₀.acked_synced hsynced
  refine ⟨?_, fun hok hover ↦ ?_, fun events d hevents hd hsurvivors ↦ ?_⟩
  · rcases cut_cases hfiled hcut t.1 with ⟨hbad, hnone⟩ | ⟨hok, i, extra, hrebuilt⟩
    · refine iff_of_false ?_ fun hok ↦ hbad hok.1
      rintro ⟨s, m, hs, -⟩
      simp [hnone] at hs
    obtain ⟨s, n, hs, hcarries, hkeys, hwithin, hover⟩ :=
      hrebuilt.recovers hfiled hlast hacked hk hpending
    refine ⟨?_, fun h ↦ ⟨s, n, hs, hcarries, hwithin h.2⟩⟩
    rintro ⟨s', n', hs', hcarries', hsame⟩
    refine ⟨hok, ?_⟩
    by_contra hnot
    obtain rfl : s = s' := Option.some.inj (hs.symm.trans hs')
    obtain rfl : n = n' := Except.ok.inj (hcarries.2.symm.trans hcarries'.2)
    -- the recovered store would have all keys of the surviving records
    have hcard : s.shards.size = (keysOf (last.survivors pre)).card := by
      refine size_eq_card fun key ↦ ?_
      rw [← hkeys key]
      have hcell := hsame key
      rw [Cell.truncated, Cell.truncated] at hcell
      rw [ne_eq, ne_eq, not_iff_not, ← Option.map_eq_none_iff, hcell, Option.map_eq_none_iff]
    exact Nat.ne_of_lt (hover hnot).2.1 hcard
  · rcases cut_cases hfiled hcut t.1 with ⟨hbad, -⟩ | ⟨-, i, extra, hrebuilt⟩
    · exact absurd hok hbad
    obtain ⟨s, n, hs, hcarries, -, -, hevicted⟩ :=
      hrebuilt.recovers hfiled hlast hacked hk hpending
    obtain ⟨htotal, -, hcells⟩ := hevicted hover
    exact ⟨s, n, hs, hcarries, htotal, hcells⟩
  · obtain ⟨rest, rfl⟩ := hevents
    rw [run_append, hd, Option.bind_some] at hmore
    obtain ⟨base₁, saved₁, hsound₁, -, -, hfaithful₁⟩ := sound_run hsound₀ hd
    obtain ⟨-, -, -, hnow₁, hhistory₁, -⟩ := sound_run hsound₁ hmore
    have hpending₁ : ∀ c ∈ d.history, c.Pending t.1 := fun c hc ↦ hpending c (hhistory₁.subset hc)
    have hd' := hfaithful₁ t (Int64.le_trans hnow₁ htime) hpending₁ hmid
    have hsize := hd'.live.size_eq hsound₁.filed.loggable hpending₁
    have hwithin := hd'.within
    rw [Durable.Within, hsurvivors, ← hsize, hsound.ready.maxKeys]
    rwa [hsound₁.ready.maxKeys] at hwithin

/-- A crash inside the write of the second of two commands. -/
def setThenMset : List Action × List Action :=
  ([.command ⟨.set, [ascii "a", ascii "1"]⟩ (.at ⟨0, epoch_nonneg⟩)],
    [.command ⟨.mset, [ascii "b", ascii "2", ascii "c", ascii "3"]⟩ (.at ⟨0, epoch_nonneg⟩)])

/-- `SET a 1` is acknowledged, and its record is on disk. -/
theorem run_setThenMset_fst :
    ∃ mid, run Durable.step (Durable.initial oneShard true 2) setThenMset.1 = some mid ∧
      mid.synced = 14 ∧ mid.acked = 1 := by
  have hpast : ((run Durable.step (Durable.initial oneShard true 2) setThenMset.1).map fun mid ↦
      (mid.synced, mid.acked)) = some (14, 1) := by decide +kernel
  obtain ⟨mid, hmid, hpair⟩ := Option.map_eq_some_iff.mp hpast
  exact ⟨mid, hmid, Prod.mk.inj hpair⟩

def firstPair : Bytes := ascii "1\tSET \"a\" \"1\"\n2\tMSET \"b\" \"2\""

/-- With the second pair, and without the `DEL` of `a` that goes with it. -/
def bothPairs : Bytes := ascii "1\tSET \"a\" \"1\"\n2\tMSET \"b\" \"2\" \"c\" \"3\"\n"

/-- Two keys are allowed.  A cut that leaves the first pair of the `MSET` loses
nothing; one between the `MSET` and the eviction that it causes leaves three keys,
and recovery evicts. -/
theorem acknowledged_mutations_survive_first_pair :
    ∃ mid last, run Durable.step (Durable.initial oneShard true 2) setThenMset.1 = some mid ∧
      run Durable.step mid setThenMset.2 = some last ∧ mid.acked = 1 ∧
      mid.Survives last firstPair 0 ∧ ¬mid.Survives last bothPairs 0 ∧
      mid.SurvivesEvicted last bothPairs 0 := by
  obtain ⟨mid, hmid, hsynced, hacked⟩ := run_setThenMset_fst
  have hmore : ((run Durable.step (Durable.initial oneShard true 2)
      (setThenMset.1 ++ setThenMset.2)).map fun last ↦
        (decide (last.session.now.1 ≤ 0), decide (∀ command ∈ last.history, command.Pending 0))) =
      some (true, true) := by decide +kernel
  have hcuts : ((run Durable.step (Durable.initial oneShard true 2)
      (setThenMset.1 ++ setThenMset.2)).map fun last ↦
        ((decide (firstPair <+: last.session.server.disk.aof.getD []),
            decide (Readable last.checkpoint firstPair), decide (last.Within firstPair)),
          decide (bothPairs <+: last.session.server.disk.aof.getD []),
            decide (Readable last.checkpoint bothPairs), decide (last.Within bothPairs))) =
      some ((true, true, true), true, true, false) := by decide +kernel
  rw [run_append, hmid, Option.bind_some] at hmore hcuts
  obtain ⟨last, hlast, hparts⟩ := Option.map_eq_some_iff.mp hmore
  rw [hlast, Option.map_some] at hcuts
  simp only [Prod.mk.injEq, Option.some.injEq, decide_eq_true_eq, decide_eq_false_iff_not]
    at hparts hcuts
  obtain ⟨hnow, hpending⟩ := hparts
  obtain ⟨⟨hfirst, hfirstRead, hfirstFits⟩, hboth, hbothRead, hbothOver⟩ := hcuts
  have hafter := fun pre hpre hlength ↦ acknowledged_mutations_survive_iff oneShard true 2 _ _
    mid last hmid hlast ⟨0, by decide⟩ hnow hpending pre hpre hlength
  have hcut := hafter firstPair hfirst (by rw [hsynced]; decide)
  have hwhole := hafter bothPairs hboth (by rw [hsynced]; decide)
  refine ⟨mid, last, hmid, hlast, hacked, hcut.1.mpr ⟨hfirstRead, hfirstFits⟩, fun h ↦ ?_,
    hwhole.2.1 hbothRead hbothOver⟩
  exact hbothOver (hwhole.1.mp h).2

/-- Three bytes less leave a quote open, and the server does not start. -/
theorem torn_tail_refused :
    ∃ mid last, run Durable.step (Durable.initial oneShard true 2) setThenMset.1 = some mid ∧
      run Durable.step mid setThenMset.2 = some last ∧ mid.acked = 1 ∧ mid.synced = 14 ∧
      (ascii "1\tSET \"a\" \"1\"\n2\tMSET \"b") <+: last.session.server.disk.aof.getD [] ∧
      last.recoverFrom (ascii "1\tSET \"a\" \"1\"\n2\tMSET \"b") 0 = none ∧
      ¬mid.Survives last (ascii "1\tSET \"a\" \"1\"\n2\tMSET \"b") 0 := by
  obtain ⟨mid, hmid, hsynced, hacked⟩ := run_setThenMset_fst
  have hmore : ((run Durable.step (Durable.initial oneShard true 2)
      (setThenMset.1 ++ setThenMset.2)).map fun last ↦
        (decide ((ascii "1\tSET \"a\" \"1\"\n2\tMSET \"b") <+:
            last.session.server.disk.aof.getD []),
          (last.recoverFrom (ascii "1\tSET \"a\" \"1\"\n2\tMSET \"b") 0).isNone)) =
      some (true, true) := by decide +kernel
  rw [run_append, hmid, Option.bind_some] at hmore
  obtain ⟨last, hlast, hparts⟩ := Option.map_eq_some_iff.mp hmore
  simp only [Prod.mk.injEq, decide_eq_true_eq, Option.isNone_iff_eq_none] at hparts
  obtain ⟨hpre, hnone⟩ := hparts
  refine ⟨mid, last, hmid, hlast, hacked, hsynced, hpre, hnone, ?_⟩
  rintro ⟨s, m, hs, -⟩
  simp [hnone] at hs

end ByteCacheDB
