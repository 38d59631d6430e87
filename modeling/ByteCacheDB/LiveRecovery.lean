import ByteCacheDB.Mirror
import ByteCacheDB.Shards
import ByteCacheDB.WritePath

/-!
# Recovery reproduces the live store

The journal is what the files stand for, and behind it stand the records that the writer
still owes.  When no logged deadline falls between the clock reading of its command and
the recovery, nothing of the store ever expires: readers and sweeps change no cell, the
writer owes exactly what it has changed, and replaying the journal and the owed records
gives the live store at every step.  Since the writer alone stores keys, it leaves no
more of them behind than the limit allows, and recovery evicts none.
-/

namespace ByteCacheDB

open CommandParser StorageEngine AppendOnlyFile Runs Threads

/-! ## How many keys the records can store -/

theorem fst_mem_of_mem_argPairs {args : List Bytes} {p : Bytes × Bytes} (h : p ∈ argPairs args) :
    p.1 ∈ args := by
  fun_induction argPairs args with
  | case1 key value rest ih =>
      rcases List.mem_cons.mp h with rfl | h
      · exact List.mem_cons_self
      · exact List.mem_cons_of_mem _ (List.mem_cons_of_mem _ (ih h))
  | case2 => simp at h

theorem Command.op_cases (command : Command) (key : Bytes) :
    command.op key = .keep ∨ command.op key = .remove ∨ key ∈ command.arg 0 :: command.args := by
  rw [Command.op]
  split
  · exact Or.inr (Or.inl rfl)
  · split
    · rename_i value hvalue
      have hmem : key ∈ (argPairs command.args).map Prod.fst := by
        by_contra hnot
        simp [lastValue_eq_none_iff.mpr hnot] at hvalue
      obtain ⟨p, hp, rfl⟩ := List.mem_map.mp hmem
      exact Or.inr (Or.inr (List.mem_cons_of_mem _ (fst_mem_of_mem_argPairs hp)))
    · exact Or.inl rfl
  · split
    · rename_i hkey
      exact Or.inr (Or.inr (hkey ▸ List.mem_cons_self))
    · exact Or.inl rfl

/-- Only keys among its arguments come into being by a command. -/
theorem Command.mem_of_creates {command : Command} {key : Bytes} {op : CellOp} {now : TimePoint}
    {c : Cell} (hop : op.LoggedAs (command.op key)) (h : op.apply now none = some c)
    (hc : c ≠ none) : key ∈ command.arg 0 :: command.args := by
  rcases command.op_cases key with hkeep | hremove | hmem
  · rcases hop with hsame | ⟨d, -, hlogged⟩
    · rw [← hsame, hkeep] at h
      exact absurd (Option.some.inj h).symm hc
    · simp [hkeep] at hlogged
  · rcases hop with hsame | ⟨d, -, hlogged⟩
    · rw [← hsame, hremove] at h
      exact absurd (Option.some.inj h).symm hc
    · simp [hremove] at hlogged
  · exact hmem

theorem size_le_of_acts {S : Sharding} {s s' : StorageEngine S} {log : Command}
    {ops : Bytes → CellOp} {now : TimePoint} (hops : ∀ key, (ops key).LoggedAs (log.op key))
    (hacts : Store.Acts now ops s.cells s'.cells) :
    s'.shards.size ≤ s.shards.size + (log.args.length + 1) := by
  have hkeys : ∀ key, s.shards.find? key = none → key ∉ log.arg 0 :: log.args →
      s'.shards.find? key = none := by
    intro key hnone hnew
    rw [← cells_eq_none_iff] at hnone ⊢
    have hcell := hacts key
    rw [hnone] at hcell
    by_contra hne
    exact hnew (Command.mem_of_creates (hops key) hcell hne)
  exact PartMap.size_le_add_of_find? hkeys

/-! ## Deadlines in whole milliseconds -/

theorem whole_entryCommands {entry : SnapshotEntry} {command : Command}
    (h : command ∈ entryCommands entry) : command.Loggable ∧ command.Whole := by
  unfold entryCommands at h
  rcases List.mem_cons.mp h with rfl | h
  · exact ⟨trivial, trivial⟩
  · split at h
    · simp at h
    · rename_i deadline _
      rw [List.mem_singleton.mp h]
      exact ⟨loggable_expireAtLogCommand entry.key deadline, whole_expireAtLogCommand _ _⟩

/-- A snapshot of a mirrored store reflects it. -/
theorem Reflected.saved {S : Sharding} {t now : Instant} {journal : List Command}
    {s : StorageEngine S} (h : Reflected t.1 journal s.cells) (hnow : now.1 ≤ t.1) :
    Reflected t.1 ((s.snapshotEntries now.1).flatMap entryCommands) s.cells := by
  obtain ⟨r, -, hmirror⟩ := h
  refine ⟨_, congrArg Except.toOption (replayAll_snapshotEntries hnow s), fun key ↦ ?_⟩
  exact (hmirror key).trans (hmirror key).reloaded.symm

theorem Cell.truncated_eq_self {c : Cell} (h : ∀ e ∈ c, ∀ d ∈ e.2, truncMillis d = d) :
    c.truncated = c := by
  match c with
  | none => rfl
  | some (value, none) => rfl
  | some (value, some d) => simp [truncated, h _ rfl d rfl]

theorem Cell.deadline_of_truncated {c : Cell} (h : c.truncated = c) (now : TimePoint) :
    ∀ e ∈ c.live now, ∀ d ∈ e.2, truncMillis d = d := by
  rintro ⟨value, deadline⟩ he d hd
  obtain rfl : deadline = some d := hd
  rcases live_eq_self_or_none now c with hsame | hnone
  · rw [hsame] at he
    obtain rfl : c = some (value, some d) := he
    simpa [truncated] using h
  · rw [hnone] at he
    simp at he

theorem Cell.truncated_apply {op : CellOp} {now : TimePoint} {c c' : Cell}
    (hop : ∀ d, op = .expireAt d → truncMillis d = d) (hc : c.truncated = c)
    (h : op.apply now c = some c') : c'.truncated = c' := by
  have hlive := deadline_of_truncated hc now
  cases op with
  | keep => exact Option.some.inj h ▸ hc
  | write value => exact Option.some.inj h ▸ rfl
  | remove => exact Option.some.inj h ▸ rfl
  | persist =>
      obtain rfl := Option.some.inj h
      rw [persist]
      cases c.live now <;> rfl
  | expireAt d =>
      obtain rfl := Option.some.inj h
      rw [expireAt]
      cases c.live now with
      | none => rfl
      | some e =>
          rw [Option.bind_some]
          split
          · rfl
          · simp [truncated, hop d rfl]
  | increment delta =>
      obtain ⟨next, -, rfl⟩ := Option.map_eq_some_iff.mp h
      apply truncated_eq_self
      intro e he d hd
      obtain rfl : e = _ := (Option.some.inj he).symm
      obtain ⟨e', he', hd'⟩ := Option.bind_eq_some_iff.mp hd
      exact hlive e' he' d hd'
  | append suffix =>
      obtain rfl := Option.some.inj h
      apply truncated_eq_self
      intro e he d hd
      rw [append] at he
      split at he
      · rename_i value deadline hsome
        obtain rfl : e = _ := (Option.some.inj he).symm
        exact hlive _ hsome d hd
      · obtain rfl : e = _ := (Option.some.inj he).symm
        simp at hd

/-- What is replayed from whole deadlines has whole deadlines. -/
theorem truncated_of_replayed {journal : List Command} {t : TimePoint} {r : Store}
    (hwhole : ∀ c ∈ journal, c.Loggable ∧ c.Whole) (h : replayed t journal = some r)
    (key : Bytes) : (r key).truncated = r key := by
  induction journal using List.reverseRecOn generalizing r with
  | nil =>
      obtain rfl := Option.some.inj h
      rfl
  | append_singleton journal command ih =>
      obtain ⟨hlog, hcommand⟩ := hwhole command (by simp)
      obtain ⟨mid, hmid, hacts⟩ := (replayed_concat_eq_some_iff hlog).mp h
      have hbefore := ih (fun c hc ↦ hwhole c (List.mem_append_left _ hc)) hmid
      refine Cell.truncated_apply (fun d hd ↦ ?_) hbefore (hacts key)
      have hdeadline := Command.deadline?_of_op hd
      rw [Command.deadline?] at hdeadline
      rw [Command.Whole] at hcommand
      split at hdeadline
      · rename_i hop
        rw [hop] at hcommand
        exact Option.some.inj hdeadline ▸ hcommand
      · simp at hdeadline

namespace SharedServer

variable {S : Sharding} {κ : Type*} [Fintype κ] [DecidableEq κ] {t : Instant}
  {m m' : SharedServer S κ} {owed : List Command}

/-! ## The counter and the limit -/

omit [Fintype κ] [DecidableEq κ] in
/-- The writer removes nothing as a sweep does, and where it watches the limit, it has
found the shards it has scanned empty. -/
theorem Owes.writer_pc (h : Owes t m owed) {k : κ} (hk : m.writer.map Prod.fst = some k) :
    (m.engine.pcs k).removed = 0 ∧
      ((m.engine.pcs k).watching = true → (m.engine.pcs k).Scanned m.engine.engine) := by
  cases h with
  | free hw => simp [hw] at hk
  | entering hw _ _ hpc =>
      obtain rfl : _ = k := by simpa [hw] using hk
      rw [hpc]
      exact ⟨rfl, fun hwatching ↦ by simp [EnginePc.watching] at hwatching⟩
  | refused hw hpc =>
      obtain rfl : _ = k := by simpa [hw] using hk
      exact ⟨hpc.works.removed_eq, fun hwatching ↦ by simp [hpc.watching_eq] at hwatching⟩
  | evicting hw _ _ hpc hscanned =>
      obtain rfl : _ = k := by simpa [hw] using hk
      exact ⟨hpc.removed_eq, fun _ ↦ hscanned⟩
  | holding hw _ hidle | prepared hw _ _ hidle | logging hw _ _ _ hidle | draining hw hidle
  | appending hw hidle | snapshotting hw hidle | saving hw hidle =>
      obtain rfl : _ = k := by simpa [hw] using hk
      rw [hidle]
      exact ⟨rfl, fun hwatching ↦ by simp [EnginePc.watching] at hwatching⟩

omit [DecidableEq κ] [Fintype κ] in
theorem Controlled.removed_eq (h : Controlled t m owed) (k : κ) : (m.engine.pcs k).removed = 0 := by
  by_cases hk : m.writer.map Prod.fst = some k
  · exact (h.owes.writer_pc hk).1
  · exact (h.others k hk).removed_eq

/-- How many entries there are when nothing but the writer stores them: `bound` counts
what the records can have stored. -/
structure Bounded (limit : UInt64) (bound : ℕ) (m : ConcurrentEngine S κ) : Prop where
  balanced : m.Balanced
  maxKeys : m.engine.maxKeys = limit
  evictionEnabled : m.engine.evictionEnabled = true
  size_le : m.engine.shards.size ≤ bound
  settled : (∀ k, (m.pcs k).watching = false) → limit ≠ 0 → bound < 2 ^ 64 →
    m.engine.shards.size ≤ limit.toNat

/-- The writer stops watching the limit when it is met. -/
theorem Bounded.stop_watching {limit : UInt64} {bound : ℕ} (h : Bounded limit bound m.engine)
    (hcontrolled : Controlled t m owed) (hlimit : limit ≠ 0) (hbound : bound < 2 ^ 64) {k : κ}
    {s' : StorageEngine S} {pc : EnginePc S}
    (hadvances : ConcurrentEngine.Advances m.engine (m.engine.pcs k) s' pc)
    (hbefore : (m.engine.pcs k).watching = true) (hafter : pc.watching = false) :
    s'.shards.size ≤ limit.toNat := by
  have hk : m.writer.map Prod.fst = some k := by
    by_contra hne
    simp [(hcontrolled.others k hne).watching_eq] at hbefore
  -- nobody else has counts to make up for
  have htotal : total EnginePc.owed m.engine.pcs = (m.engine.pcs k).owed := by
    apply total_eq_single
    intro j hj
    refine (hcontrolled.others j ?_).owed_eq
    rw [hk, ne_eq, Option.some.injEq]
    exact hj.symm
  have hcount := h.balanced.count
  rw [htotal] at hcount
  have hexact : (m.engine.pcs k).owed = 0 → m.engine.engine.totalKeys ≤ limit →
      m.engine.engine.shards.size ≤ limit.toNat := by
    intro howed hle
    rw [howed, UInt64.add_zero] at hcount
    have hsize := h.size_le
    rw [hcount, UInt64.le_iff_toNat_le,
      UInt64.toNat_ofNat_of_lt' (by rw [UInt64.size]; omega)] at hle
    exact hle
  obtain ⟨rfl, hstop⟩ := ConcurrentEngine.watching_advances hadvances hbefore hafter
  rcases hstop with ⟨hpc, hoff | hzero | hle⟩ | ⟨hpc, hle⟩ | hpc
  · simp [h.evictionEnabled] at hoff
  · exact absurd (h.maxKeys.symm.trans hzero) hlimit
  · exact hexact (by rw [hpc]; rfl) (h.maxKeys ▸ hle)
  · exact hexact (by rw [hpc]; rfl) (h.maxKeys ▸ hle)
  · have hempty := (hcontrolled.owes.writer_pc hk).2 hbefore [] hpc
    have hzero : m.engine.engine.shards.size = 0 :=
      PartMap.size_eq_zero_of_find? fun key ↦ hempty key (by simp)
    exact hzero.trans_le (Nat.zero_le _)

/-- A step in the engine. -/
theorem Bounded.engine_step {limit : UInt64} {bound bound' : ℕ} (h : Bounded limit bound m.engine)
    (hcontrolled : Controlled t m owed) {e : ThreadEvent κ} {engine : ConcurrentEngine S κ}
    (hstep : m.engine.step e = some engine) (hsize : engine.engine.shards.size ≤ bound')
    (hle : bound ≤ bound') : Bounded limit bound' engine := by
  have halone : m.engine.FlushesAlone e := by
    cases e with
    | call => trivial
    | step k => exact fun _ j ↦ hcontrolled.removed_eq j
  have hbalanced := ConcurrentEngine.balanced_step h.balanced halone hstep
  cases ConcurrentEngine.stepped_of_step hstep with
  | @call k call now pc hidle hbegin hengine hpcs =>
      refine ⟨hbalanced, by rw [hengine, h.maxKeys], by rw [hengine, h.evictionEnabled], hsize, ?_⟩
      intro hwatching hlimit hbound
      rw [hengine]
      refine h.settled (fun j ↦ ?_) hlimit (by omega)
      by_cases hj : j = k
      · rw [hj, hidle]
        rfl
      · have hsame := hwatching j
        rwa [hpcs, Function.update_of_ne hj] at hsame
  | @step k pc hadvances hpcs =>
      obtain ⟨hmax, hon⟩ := ConcurrentEngine.config_advances (h.balanced.wellFormed k) hadvances
      refine ⟨hbalanced, hmax.trans h.maxKeys, hon.trans h.evictionEnabled, hsize, ?_⟩
      intro hwatching hlimit hbound
      have hafter : pc.watching = false := by
        have hself := hwatching k
        rwa [hpcs, Function.update_self] at hself
      cases hbefore : (m.engine.pcs k).watching with
      | true => exact h.stop_watching hcontrolled hlimit (by omega) hadvances hbefore hafter
      | false =>
          have hshrinks := ConcurrentEngine.shrinks_advances (h.balanced.wellFormed k) hadvances
            hafter
          refine hshrinks.size_le.trans (h.settled (fun j ↦ ?_) hlimit (by omega))
          by_cases hj : j = k
          · rw [hj, hbefore]
          · have hsame := hwatching j
            rwa [hpcs, Function.update_of_ne hj] at hsame

/-- What a step of the server does to the clock and to the engine. -/
theorem engine_cases {e : ServerEvent κ} (hstep : m.step e = some m') :
    m.now.1 ≤ m'.now.1 ∧ (m'.engine = m.engine ∨ (∃ ev, m.engine.step ev = some m'.engine) ∨
      m'.engine = { m.engine with engine := m.engine.engine.takeEvictedKeys.2 }) := by
  have hsame := Int64.le_refl m.now.1
  cases e with
  | read | sweep =>
      simp only [step, Option.ite_none_right_eq_some, Option.some.injEq] at hstep
      obtain ⟨-, rfl⟩ := hstep
      exact ⟨hsame, Or.inl rfl⟩
  | call k now =>
      simp only [step] at hstep
      split at hstep
      · simp at hstep
      · rw [Option.ite_none_right_eq_some] at hstep
        obtain ⟨engine, hcall, rfl⟩ := Option.map_eq_some_iff.mp hstep.2
        exact ⟨hstep.1, Or.inr (Or.inl ⟨_, hcall⟩)⟩
  | step k =>
      obtain ⟨engine, hengine, rfl⟩ := Option.map_eq_some_iff.mp hstep
      exact ⟨hsame, Or.inr (Or.inl ⟨_, hengine⟩)⟩
  | mutate now =>
      simp only [step] at hstep
      split at hstep
      · rw [Option.ite_none_right_eq_some] at hstep
        obtain ⟨engine, hcall, rfl⟩ := Option.map_eq_some_iff.mp hstep.2
        exact ⟨hstep.1, Or.inr (Or.inl ⟨_, hcall⟩)⟩
      · simp at hstep
  | append o =>
      simp only [step] at hstep
      split at hstep
      · rw [(record_spec hstep).1]
        exact ⟨hsame, Or.inl rfl⟩
      · rw [(record_spec hstep).1]
        exact ⟨hsame, Or.inl rfl⟩
      · simp at hstep
  | write k command =>
      simp only [step] at hstep
      split at hstep
      · simp only [Option.ite_none_right_eq_some, Option.some.injEq] at hstep
        obtain ⟨-, rfl⟩ := hstep
        exact ⟨hsame, Or.inl rfl⟩
      · simp at hstep
  | prepare now =>
      simp only [step] at hstep
      split at hstep
      · simp only [Option.ite_none_right_eq_some, Option.some.injEq] at hstep
        obtain ⟨hnow, rfl⟩ := hstep
        exact ⟨hnow, Or.inl rfl⟩
      · simp at hstep
  | save o =>
      simp only [step] at hstep
      split at hstep
      · obtain rfl := Option.some.inj hstep
        exact ⟨hsame, Or.inl rfl⟩
      · simp at hstep
  | finish =>
      simp only [step] at hstep
      split at hstep
      · simp only [Option.ite_none_right_eq_some, Option.some.injEq] at hstep
        obtain ⟨-, rfl⟩ := hstep
        exact ⟨hsame, Or.inl rfl⟩
      · obtain rfl := Option.some.inj hstep
        exact ⟨hsame, Or.inr (Or.inr rfl)⟩
      · obtain rfl := Option.some.inj hstep
        exact ⟨hsame, Or.inl rfl⟩
      · simp only [Option.ite_none_right_eq_some, Option.some.injEq] at hstep
        obtain ⟨-, rfl⟩ := hstep
        exact ⟨hsame, Or.inl rfl⟩
      · simp at hstep

theorem Bounded.step {limit : UInt64} {bound bound' : ℕ} (h : Bounded limit bound m.engine)
    (hcontrolled : Controlled t m owed) {e : ServerEvent κ} (hstep : m.step e = some m')
    (hsize : m'.engine.engine.shards.size ≤ bound') (hle : bound ≤ bound') :
    Bounded limit bound' m'.engine := by
  rcases (engine_cases hstep).2 with hsame | ⟨ev, hev⟩ | hdrain
  · rw [hsame] at hsize ⊢
    exact ⟨h.balanced, h.maxKeys, h.evictionEnabled, hsize,
      fun hwatching hlimit hbound ↦ h.settled hwatching hlimit (by omega)⟩
  · exact h.engine_step hcontrolled hev hsize hle
  · rw [hdrain] at hsize ⊢
    exact ⟨⟨h.balanced.wellFormed, h.balanced.count⟩, h.maxKeys, h.evictionEnabled, hsize,
      fun hwatching hlimit hbound ↦ h.settled hwatching hlimit (by omega)⟩

/-! ## The journal -/

/-- The server as a session sees it. -/
def session (m : SharedServer S κ) (journal : List Command) : Session S :=
  ⟨⟨m.engine.engine, m.persistence, m.disk⟩, m.now, journal⟩

/-- The journal and the owed records stand for the live store. -/
structure Traced (t : Instant) (limit : UInt64) (m : SharedServer S κ) (base all : List Command)
    (saved : ℕ) (owed : List Command) : Prop where
  controlled : Controlled t m owed
  filed : Filed (m.session (base ++ all.drop saved)) base all saved
  reflected : Reflected t.1 (base ++ all.drop saved ++ owed) m.cells
  whole : ∀ c ∈ base ++ all.drop saved, c.Loggable ∧ c.Whole
  bounded : Bounded limit (weight (all ++ owed)) m.engine

omit [Fintype κ] [DecidableEq κ] in
/-- A store that the journal reflects keeps everything up to the recovery. -/
theorem liveUntil_of_reflected {journal : List Command} (h : Reflected t.1 journal m.cells) :
    m.cells.LiveUntil t.1 := by
  obtain ⟨r, -, hmirror⟩ := h
  intro now hnow key
  exact (hmirror key).live_eq t.2 hnow

section
variable {limit : UInt64} {base all : List Command} {saved : ℕ}

omit [Fintype κ] [DecidableEq κ] in
/-- An append that succeeds adds a whole record. -/
theorem filed_record {journal : List Command} (h : Filed (m.session journal) base all saved)
    {command : Command} {o : WriteOutcome} (hadm : Admissible command) (hlog : command.Loggable)
    (happend : m.persistence.append m.disk o command = (.ok (), m'.persistence, m'.disk)) :
    Filed (m'.session (journal ++ [command])) base (all ++ [command]) saved := by
  have henabled : m.persistence.enabled = true := h.enabled
  have hopened : m.persistence.opened = true := h.opened
  have hroom : (ByteCacheDB.record (m.persistence.sequence + 1) command).length ≤
      room m.disk o := by
    apply length_le_room_of_append_ok henabled hopened
    rw [happend]
  obtain ⟨d, hspec⟩ := append_spec henabled hopened m.disk o command
  rw [happend, List.take_of_length_le hroom, Prod.mk.injEq] at hspec
  obtain ⟨hpersistence, hdisk⟩ := hspec
  have hone : UInt64.ofNat [command].length = 1 := rfl
  refine filed_log h (d := d) ?_ ?_ hdisk ?_ ?_ rfl
  · intro c hc
    rw [List.mem_singleton.mp hc]
    exact ⟨hadm, hlog⟩
  · rw [hone]
    exact hpersistence
  · have hbefore : (m.disk.aof.getD []).length ≤ maxFileSize := h.size
    rw [room] at hroom
    change (m'.disk.aof.getD []).length ≤ maxFileSize
    rw [hdisk, Option.getD_some, List.length_append]
    omega
  · change m'.disk.aof.getD [] = _
    rw [hdisk, Option.getD_some]
    simp [session, numbered, written]

omit [DecidableEq κ] in
/-- The entries that a save has written take the place of the journal; after a save that
has failed nothing is different. -/
theorem Traced.save (h : Traced t limit m base all saved []) (hcontrolled : Controlled t m' [])
    (hbounded : Bounded limit (weight (all ++ [])) m'.engine) {storage : StorageEngine S}
    {now : Instant} {o : SaveOutcome} (hnow : now.1 ≤ t.1) (hstorage : storage.cells = m.cells)
    (hcells : m'.cells = m.cells) (hpersistence : m'.persistence = m.persistence)
    (hdisk : m'.disk = (m.persistence.saveSnapshot m.disk storage now.1 o).2) :
    ∃ base' all' saved' owed', Traced t limit m' base' all' saved' owed' := by
  cases hresult : (m.persistence.saveSnapshot m.disk storage now.1 o).1 with
  | error e =>
      obtain ⟨hsnapshot, haof⟩ := saveSnapshot_error hresult
      refine ⟨base, all, saved, [], hcontrolled, ?_, ?_, h.whole, hbounded⟩
      · exact h.filed.of_same hpersistence ((congrArg Disk.aof hdisk).trans haof)
          ((congrArg Disk.snapshot hdisk).trans hsnapshot) rfl
      · rw [hcells]
        exact h.reflected
  | ok u =>
      rw [saveSnapshot_ok hresult] at hdisk
      have haof : m'.disk.aof = m.disk.aof := by rw [hdisk]
      have hsnapshot : m'.disk.snapshot = some (snapshotFile m.persistence.sequence
          (storage.snapshotEntries now.1)) := by rw [hdisk]
      have hreflected := h.reflected
      rw [← hstorage] at hreflected
      refine ⟨(storage.snapshotEntries now.1).flatMap entryCommands, all, all.length, [],
        hcontrolled, ?_, ?_, ?_, hbounded⟩
      · refine filed_save h.filed hpersistence (hasSnapshotPath_of_saveSnapshot hresult)
          haof hsnapshot ?_
        rw [session, List.drop_length, List.append_nil]
      · rw [List.drop_length, List.append_nil, List.append_nil, hcells, ← hstorage]
        exact hreflected.saved hnow
      · rw [List.drop_length, List.append_nil]
        intro c hc
        obtain ⟨entry, -, hentry⟩ := List.mem_flatMap.mp hc
        exact whole_entryCommands hentry

theorem Traced.step (h : Traced t limit m base all saved owed) {e : ServerEvent κ}
    (hahead : Ahead t.1 m e) (hrange : m.InRange e) (hend : m'.now.1 ≤ t.1)
    (hstep : m.step e = some m') :
    ∃ base' all' saved' owed', Traced t limit m' base' all' saved' owed' := by
  obtain ⟨owed', hcontrolled, heffect⟩ :=
    controlled_step h.controlled (liveUntil_of_reflected h.reflected) hahead hrange hend hstep
  cases heffect with
  | same hcells hpersistence hdisk =>
      have hsize := size_eq_of_cells hcells
      refine ⟨base, all, saved, owed, hcontrolled, ?_, ?_, h.whole, ?_⟩
      · exact h.filed.of_same hpersistence (congrArg Disk.aof hdisk) (congrArg Disk.snapshot hdisk)
          rfl
      · rw [hcells]
        exact h.reflected
      · exact h.bounded.step h.controlled hstep (hsize.trans_le h.bounded.size_le) (le_refl _)
  | @acts ops log now hnow hlog hadm hops hclear hacts hpersistence hdisk =>
      have hsize := size_le_of_acts hops hacts
      have hbefore := h.bounded.size_le
      refine ⟨base, all, saved, [log], hcontrolled, ?_, ?_, h.whole, ?_⟩
      · exact h.filed.of_same hpersistence (congrArg Disk.aof hdisk) (congrArg Disk.snapshot hdisk)
          rfl
      · have hreflected := h.reflected
        rw [List.append_nil] at hreflected
        exact hreflected.record t.2 hnow hlog hops hclear hacts
      · rw [List.append_nil] at hbefore
        apply h.bounded.step h.controlled hstep
        · rw [weight_append, weight_cons]
          omega
        · simp
  | @evict _ key hcells hpersistence hdisk =>
      have hshrink := size_le_of_cells hcells
      refine ⟨base, all, saved, _, hcontrolled, ?_, ?_, h.whole, ?_⟩
      · exact h.filed.of_same hpersistence (congrArg Disk.aof hdisk) (congrArg Disk.snapshot hdisk)
          rfl
      · have hevicted := h.reflected.evictions t.2 [key]
        rw [Store.eraseAll_cons, Store.eraseAll_nil, ← hcells, List.append_assoc] at hevicted
        exact hevicted
      · have hle : weight (all ++ owed) ≤ weight (all ++ (owed ++ [evictionCommand key])) := by
          simp only [weight_append]
          omega
        exact h.bounded.step h.controlled hstep (hshrink.trans (h.bounded.size_le.trans hle)) hle
  | @record command _ o hcells hadm hlog hwhole happend =>
      have hsize := size_eq_of_cells hcells
      have hdrop : (all ++ [command]).drop saved = all.drop saved ++ [command] :=
        List.drop_append_of_le_length h.filed.saved_le
      refine ⟨base, all ++ [command], saved, _, hcontrolled, ?_, ?_, ?_, ?_⟩
      · rw [hdrop, ← List.append_assoc]
        exact filed_record h.filed hadm hlog happend
      · rw [hcells, hdrop]
        simpa using h.reflected
      · rw [hdrop, ← List.append_assoc]
        intro c hc
        rcases List.mem_append.mp hc with hc | hc
        · exact h.whole c hc
        · rw [List.mem_singleton.mp hc]
          exact ⟨hlog, hwhole⟩
      · rw [List.append_assoc, List.singleton_append]
        exact h.bounded.step h.controlled hstep (hsize.trans_le h.bounded.size_le) (le_refl _)
  | save hnow hstorage hcells hpersistence hdisk =>
      have hsize := size_eq_of_cells hcells
      have hbounded := h.bounded.step h.controlled hstep (hsize.trans_le h.bounded.size_le)
        (le_refl _)
      exact h.save hcontrolled hbounded hnow hstorage hcells hpersistence hdisk

omit [DecidableEq κ] in
theorem bounded_initial (policy : FsyncPolicy) (path : Bool) :
    Bounded limit 0 (SharedServer.initial S κ policy path limit).engine where
  balanced := ConcurrentEngine.balanced_start (by simp [drift])
  maxKeys := rfl
  evictionEnabled := rfl
  size_le := Nat.le_of_eq PartMap.size_empty
  settled := by simp [SharedServer.initial]

omit [DecidableEq κ] in
theorem traced_initial (t : Instant) (policy : FsyncPolicy) (path : Bool) :
    Traced t limit (SharedServer.initial S κ policy path limit) [] [] 0 [] where
  controlled :=
    { reading := by simp [SharedServer.initial]
      apart := by simp [SharedServer.initial]
      others := fun k _ ↦ trivial
      owes := .free rfl rfl }
  filed := filed_initial policy path limit
  reflected := Reflected.nil t.1
  whole := by simp
  bounded := bounded_initial policy path

theorem traced_run {policy : FsyncPolicy} {path : Bool} {events : List (ServerEvent κ)}
    (hahead : Along SharedServer.step (Ahead t.1) (SharedServer.initial S κ policy path limit)
      events)
    (hrange : Along SharedServer.step InRange (SharedServer.initial S κ policy path limit) events)
    (hrun : run SharedServer.step (SharedServer.initial S κ policy path limit) events = some m)
    (hend : m.now.1 ≤ t.1) : ∃ base all saved owed, Traced t limit m base all saved owed := by
  refine run_invariant (P := fun _ (m : SharedServer S κ) ↦ m.now.1 ≤ t.1 →
    ∃ base all saved owed, Traced t limit m base all saved owed) ?_ ?_ (hahead.and hrange) hrun hend
  · intro _
    exact ⟨[], [], 0, [], traced_initial t policy path⟩
  · intro _ m e m' ih hcond hstep hnow
    obtain ⟨base, all, saved, owed, h⟩ := ih (Int64.le_trans (engine_cases hstep).1 hnow)
    exact h.step hcond.1 hcond.2 hnow hstep

omit [DecidableEq κ] in
/-- Between two commands nobody watches the limit, and it is met. -/
theorem Traced.size_le (h : Traced t limit m base all saved owed) (hfree : m.writer = none)
    (howed : owed = []) (hlimit : limit ≠ 0) : m.engine.engine.shards.size ≤ limit.toNat := by
  apply h.bounded.settled
  · intro k
    exact (h.controlled.others k (by simp [hfree])).watching_eq
  · exact hlimit
  · rw [howed, List.append_nil]
    exact h.filed.weight_lt

omit [DecidableEq κ] in
/-- Replaying the journal evicts nothing. -/
theorem Traced.recovered (h : Traced t limit m base all saved []) (hfree : m.writer = none) :
    ∃ s, m.recovered t.1 = some s ∧ replayed t.1 (base ++ all.drop saved) = some s.cells := by
  obtain ⟨r, hr, hmirror⟩ := h.reflected
  rw [List.append_nil] at hr
  rcases h.filed.recovered_cases t.1 with ⟨-, hnone⟩ | ⟨s, hload, hreplay, hsome⟩
  · rw [session, hr] at hnone
    simp at hnone
  have hmax : s.maxKeys = limit := hload.maxKeys.trans h.bounded.maxKeys
  have hcells : s.cells = r := Option.some.inj (hreplay.symm.trans hr)
  have hsize : s.shards.size = m.engine.engine.shards.size := by
    apply PartMap.size_congr
    intro key
    rw [← cells_eq_none_iff, ← cells_eq_none_iff, hcells]
    exact (hmirror key).eq_none_iff
  have hle : s.maxKeys = 0 ∨ s.totalKeys ≤ s.maxKeys := by
    by_cases hlimit : limit = 0
    · exact Or.inl (hmax.trans hlimit)
    · right
      have hfits := h.size_le hfree rfl hlimit
      rw [totalKeys_of_drift hload.drift, hmax, hsize, UInt64.le_iff_toNat_le, UInt64.toNat_ofNat']
      exact (Nat.mod_le _ _).trans hfits
  have hquiet : s.setEvictionEnabled true = { s with evictionEnabled := true } :=
    enforceMaxKeys_of_le hle
  refine ⟨_, hsome, ?_⟩
  rw [hquiet]
  exact hreplay

end

/-- Recovery reproduces the live store.  Threads run commands, readers and sweeps in any
interleaving; the writers take turns. -/
theorem recovery_reproduces_live (S : Sharding) {κ : Type*} [Fintype κ] [DecidableEq κ]
    (policy : FsyncPolicy) (path : Bool) (limit : UInt64) (events : List (ServerEvent κ))
    (m : SharedServer S κ) (t : Instant)
    (hrun : run SharedServer.step (SharedServer.initial S κ policy path limit) events = some m)
    (hahead : Along SharedServer.step (Ahead t.1) (SharedServer.initial S κ policy path limit)
      events)
    (hrange : Along SharedServer.step InRange (SharedServer.initial S κ policy path limit) events)
    (hend : m.now.1 ≤ t.1) (hfree : m.writer = none) :
    ∃ s, m.recovered t.1 = some s ∧
      ∀ now ≤ t.1, ∀ key, s.cells key = ((m.cells key).live now).truncated := by
  obtain ⟨base, all, saved, owed, h⟩ := traced_run hahead hrange hrun hend
  obtain rfl : owed = [] := by
    cases h.controlled.owes with
    | free => rfl
    | _ hw => simp [hfree] at hw
  obtain ⟨s, hs, hreplay⟩ := h.recovered hfree
  obtain ⟨r, hr, hmirror⟩ := h.reflected
  rw [List.append_nil, hreplay] at hr
  obtain rfl := Option.some.inj hr
  refine ⟨s, hs, fun now hnow key ↦ ?_⟩
  calc s.cells key = (s.cells key).truncated := (truncated_of_replayed h.whole hreplay key).symm
    _ = (m.cells key).truncated := (hmirror key).truncated_eq.symm
    _ = ((m.cells key).live now).truncated := by rw [(hmirror key).live_eq t.2 hnow]

/-- One command up to its record, with the clock readings of the handler and of the engine
and the number of steps in the engine. -/
def executed (command : Command) (now now' : Instant) (steps : ℕ) : List (ServerEvent Bool) :=
  List.flatten [[.write false command, .prepare now, .mutate now'],
    List.replicate steps (.step false), [.finish, .append ⟨maxFileSize, true, []⟩, .finish]]

/-- With room for one key `SET b` looks for a victim; a `GET a` between the scans of the
two shards saves `a`, so that `b` itself goes.  A `SAVE`, an `EXPIRE` and the beginning of
a sweep follow. -/
def readBetweenScans : List (ServerEvent Bool) :=
  List.flatten [
    executed ⟨.set, [ascii "a", ascii "1"]⟩ ⟨0, epoch_nonneg⟩ ⟨0, epoch_nonneg⟩ 4, [.finish],
    [.write false ⟨.set, [ascii "b", ascii "2"]⟩, .prepare ⟨0, epoch_nonneg⟩,
      .mutate ⟨0, epoch_nonneg⟩],
    List.replicate 7 (.step false),
    [.read true ⟨.get, [ascii "a"]⟩, .call true ⟨0, epoch_nonneg⟩, .step true, .step true],
    List.replicate 5 (.step false),
    [.finish, .append ⟨maxFileSize, true, []⟩, .finish, .append ⟨maxFileSize, true, []⟩, .finish],
    [.write true ⟨.save, []⟩, .prepare ⟨0, epoch_nonneg⟩, .finish, .save {}],
    executed ⟨.expire, [ascii "a", ascii "5"]⟩ ⟨1500000, by decide⟩ ⟨2500000, by decide⟩ 2,
    [.finish, .sweep true, .call true ⟨3500000, by decide⟩, .step true]]

theorem recovery_reproduces_live_read_between_scans :
    ∃ (m : SharedServer twoShards Bool) (s : StorageEngine twoShards),
      run SharedServer.step (SharedServer.initial twoShards Bool .always true 1)
          readBetweenScans = some m ∧
        m.engine.engine.evictedKeys = 1 ∧ m.recovered 3500000 = some s ∧
        ∀ now ≤ 3500000, ∀ key, s.cells key = ((m.cells key).live now).truncated := by
  have hrun : (run SharedServer.step (SharedServer.initial twoShards Bool .always true 1)
      readBetweenScans).map (fun m ↦ (decide (m.now.1 ≤ 3500000), m.writer.isNone,
        m.engine.engine.evictedKeys)) = some (true, true, 1) := by decide +kernel
  obtain ⟨m, hm, hvalues⟩ := Option.map_eq_some_iff.mp hrun
  simp only [Prod.mk.injEq, decide_eq_true_eq, Option.isNone_iff_eq_none] at hvalues
  obtain ⟨hnow, hfree, hevicted⟩ := hvalues
  obtain ⟨s, hs, hcells⟩ := recovery_reproduces_live twoShards .always true 1 readBetweenScans m
    ⟨3500000, by decide⟩ hm (by decide +kernel) (by decide +kernel) hnow hfree
  exact ⟨m, s, hm, hevicted, hs, hcells⟩

/-- A deadline that is logged, and was still ahead when the engine read the clock, is
behind `t`, where it is the logged deadline that counts. -/
def LoggedAhead (t : TimePoint) : SharedServer S κ → ServerEvent κ → Prop :=
  LoggedDeadlines fun now d ↦ now < truncMillis d → t < truncMillis d

instance (t : TimePoint) (m : SharedServer S κ) (e : ServerEvent κ) :
    Decidable (LoggedAhead t m e) :=
  inferInstanceAs (Decidable (LoggedDeadlines _ m e))

/-- `EXPIRE k 1` is handled at 0.5 ms, and its engine call, which takes a second to begin,
still meets a deadline that is 0.3 ms ahead.  The log has it 0.5 ms earlier.  `PERSIST`
takes the deadline away. -/
def persistedInTime : List (ServerEvent Bool) :=
  List.flatten [
    executed ⟨.set, [ascii "k", ascii "v"]⟩ ⟨500000, by decide⟩ ⟨500000, by decide⟩ 4, [.finish],
    executed ⟨.expire, [ascii "k", ascii "1"]⟩ ⟨500000, by decide⟩ ⟨1000200000, by decide⟩ 2,
    [.finish],
    executed ⟨.persist, [ascii "k"]⟩ ⟨1000300000, by decide⟩ ⟨1000300000, by decide⟩ 2, [.finish]]

/-- The replayed `EXPIREAT` deletes the key before `PERSIST` comes. -/
theorem live_key_lost_by_truncation :
    ∃ m : SharedServer oneShard Bool,
      run SharedServer.step (SharedServer.initial oneShard Bool .always true 0)
          persistedInTime = some m ∧
        Along SharedServer.step (LoggedAhead 1000300000)
          (SharedServer.initial oneShard Bool .always true 0) persistedInTime ∧
        Along SharedServer.step InRange
          (SharedServer.initial oneShard Bool .always true 0) persistedInTime ∧
        m.now.1 ≤ 1000300000 ∧ m.writer = none ∧
        m.cells (ascii "k") = some (ascii "v", none) ∧
        (m.recovered 1000300000).map (fun s ↦ s.cells (ascii "k")) = some none := by
  have hrun : (run SharedServer.step (SharedServer.initial oneShard Bool .always true 0)
      persistedInTime).map (fun m ↦ (decide (m.now.1 ≤ 1000300000), m.writer.isNone,
        decide (m.cells (ascii "k") = some (ascii "v", none)),
        decide ((m.recovered 1000300000).map (fun s ↦ s.cells (ascii "k")) = some none))) =
          some (true, true, true, true) := by decide +kernel
  obtain ⟨m, hm, hvalues⟩ := Option.map_eq_some_iff.mp hrun
  simp only [Prod.mk.injEq, decide_eq_true_eq, Option.isNone_iff_eq_none] at hvalues
  obtain ⟨hnow, hfree, hlive, hlost⟩ := hvalues
  exact ⟨m, hm, by decide +kernel, by decide +kernel, hnow, hfree, hlive, hlost⟩

end SharedServer

end ByteCacheDB
