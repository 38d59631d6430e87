import ByteCacheDB.Cell

/-!
# Counters, limits and eviction

`drift` is the difference between the key counter and the number of stored
entries.  Every call of the engine keeps it, so a counter that starts exact
stays exact.  Eviction is described by the list of keys it removes: it erases
their cells and appends them to the list that the log will drain.
-/

namespace ByteCacheDB

namespace Store

/-- The store without the listed keys. -/
def eraseAll (ks : List Bytes) (m : Store) : Store := fun key ↦ if key ∈ ks then none else m key

@[simp] theorem eraseAll_nil (m : Store) : m.eraseAll [] = m := by
  funext key
  simp [eraseAll]

theorem eraseAll_cons (k : Bytes) (ks : List Bytes) (m : Store) :
    m.eraseAll (k :: ks) = eraseAll ks (Function.update m k none) := by
  funext key
  by_cases hk : key = k
  · simp [eraseAll, hk]
  · simp [eraseAll, hk]

end Store

namespace StorageEngine

variable {S : Sharding}

/-- How far the key counter is from the number of entries. -/
def drift (s : StorageEngine S) : UInt64 := s.totalKeys - UInt64.ofNat s.shards.size

theorem totalKeys_of_drift {s : StorageEngine S} (h : s.drift = 0) :
    s.totalKeys = UInt64.ofNat s.shards.size := by
  rw [drift] at h
  grind

/-- What a call leaves alone when it evicts nothing. -/
structure Keeps (s s' : StorageEngine S) : Prop where
  maxKeys : s'.maxKeys = s.maxKeys
  evictionEnabled : s'.evictionEnabled = s.evictionEnabled
  pending : s'.pendingEvictedKeys = s.pendingEvictedKeys
  evictedKeys : s'.evictedKeys = s.evictedKeys
  drift : s'.drift = s.drift

theorem Keeps.refl (s : StorageEngine S) : Keeps s s := ⟨rfl, rfl, rfl, rfl, rfl⟩

theorem Keeps.trans {s t u : StorageEngine S} (h : Keeps s t) (h' : Keeps t u) : Keeps s u :=
  ⟨h'.maxKeys.trans h.maxKeys, h'.evictionEnabled.trans h.evictionEnabled,
    h'.pending.trans h.pending, h'.evictedKeys.trans h.evictedKeys, h'.drift.trans h.drift⟩

theorem keeps_put {s : StorageEngine S} {key : Bytes} {old : ValueEntry} (entry : ValueEntry)
    (h : s.shards.find? key = some old) : Keeps s (s.put key entry) := by
  refine ⟨rfl, rfl, rfl, rfl, ?_⟩
  simp only [drift, put, PartMap.size_insert_of_some _ h]

/-- Removing a stored entry and counting it down once. -/
theorem drift_erase {s s' : StorageEngine S} {key : Bytes} {old : ValueEntry}
    (h : s.shards.find? key = some old) (hshards : s'.shards = s.shards.erase key)
    (htotal : s'.totalKeys = s.totalKeys - 1) : s'.drift = s.drift := by
  have hsize := PartMap.size_erase_of_some s.shards h
  rw [drift, drift, hshards, htotal, ← hsize, UInt64.ofNat_add]
  grind

theorem keeps_removeExpired {s : StorageEngine S} {key : Bytes} {old : ValueEntry}
    (h : s.shards.find? key = some old) : Keeps s (s.removeExpired key) :=
  ⟨rfl, rfl, rfl, rfl, drift_erase h rfl rfl⟩

theorem keeps_dropExpired (s : StorageEngine S) (now : TimePoint) (key : Bytes) :
    Keeps s (s.dropExpired now key) := by
  unfold dropExpired
  split
  · rename_i entry hfind
    split
    · exact keeps_removeExpired hfind
    · exact Keeps.refl s
  · exact Keeps.refl s

theorem keeps_putCounted (s : StorageEngine S) (key : Bytes) (entry : ValueEntry) :
    Keeps s (s.putCounted key entry) := by
  unfold putCounted
  split
  · rename_i old hfind
    exact keeps_put entry hfind
  · rename_i hfind
    refine ⟨rfl, rfl, rfl, rfl, ?_⟩
    simp only [drift, put, PartMap.size_insert_of_none _ _ hfind, UInt64.ofNat_add]
    grind

theorem keeps_store (s : StorageEngine S) (now : TimePoint) (key value : Bytes) :
    Keeps s (s.store now key value) :=
  (keeps_dropExpired s now key).trans (keeps_putCounted _ key _)

theorem keeps_storeAll (s : StorageEngine S) (now : TimePoint) (pairs : List (Bytes × Bytes)) :
    Keeps s (s.storeAll now pairs) := by
  induction pairs generalizing s with
  | nil => exact Keeps.refl s
  | cons p ps ih => exact (keeps_store s now p.1 p.2).trans (ih _)

theorem keeps_del (s : StorageEngine S) (key : Bytes) : Keeps s (s.del key).2 := by
  unfold del
  split
  · rename_i entry hfind
    exact ⟨rfl, rfl, rfl, rfl, drift_erase hfind rfl rfl⟩
  · exact Keeps.refl s

theorem keeps_expireAt (s : StorageEngine S) (now : TimePoint) (key : Bytes)
    (expiresAt : TimePoint) : Keeps s (s.expireAt now key expiresAt).2 := by
  unfold expireAt
  split
  · exact Keeps.refl s
  · rename_i entry hfind
    split
    · exact keeps_removeExpired hfind
    · exact keeps_put _ hfind

theorem keeps_meet (s : StorageEngine S) (now : TimePoint) (key : Bytes)
    (write : ValueEntry → ValueEntry) : Keeps s (s.meet now key write) := by
  refine meet_cases s now key write ?_ ?_ ?_
  · exact fun _ ↦ Keeps.refl s
  · exact fun _ hfind _ ↦ keeps_removeExpired hfind
  · exact fun _ hfind _ ↦ keeps_put _ hfind

theorem keeps_persist (s : StorageEngine S) (now : TimePoint) (key : Bytes) :
    Keeps s (s.persist now key).2 := by
  rw [snd_persist]
  exact keeps_meet s now key _

theorem keeps_get (s : StorageEngine S) (now : TimePoint) (key : Bytes) :
    Keeps s (s.get now key).2 := by
  rw [snd_get]
  exact keeps_meet s now key id

theorem keeps_ttl (s : StorageEngine S) (now : TimePoint) (key : Bytes) :
    Keeps s (s.ttl now key).2 := by
  rw [snd_ttl]
  exact keeps_meet s now key id

theorem keeps_incrementLocked (s : StorageEngine S) (now : TimePoint) (key : Bytes)
    (delta : Int64) : Keeps s (s.incrementLocked now key delta).2 := by
  apply (keeps_dropExpired s now key).trans
  simp only [incrementLocked]
  cases hfind : (s.dropExpired now key).shards.find? key with
  | none =>
      cases checkedAdd 0 delta with
      | error e => exact Keeps.refl _
      | ok next => exact keeps_putCounted _ key _
  | some entry =>
      dsimp only
      cases storedInteger entry.value >>= (checkedAdd · delta) with
      | error e => exact Keeps.refl _
      | ok next => exact keeps_put _ hfind

theorem keeps_appendLocked (s : StorageEngine S) (now : TimePoint) (key suffix : Bytes) :
    Keeps s (s.appendLocked now key suffix).2 := by
  apply (keeps_dropExpired s now key).trans
  simp only [appendLocked]
  cases hfind : (s.dropExpired now key).shards.find? key with
  | none => exact keeps_putCounted _ key _
  | some entry => exact keeps_put _ hfind

theorem drift_flush (s : StorageEngine S) : s.flush.2.drift = 0 := by
  simp [flush, drift]

/-! ## Eviction -/

/-- `s'` is `s` after the eviction of the keys `ks`, in this order. -/
structure Evicts (s s' : StorageEngine S) (ks : List Bytes) : Prop where
  cells : s'.cells = s.cells.eraseAll ks
  pending : s'.pendingEvictedKeys = s.pendingEvictedKeys ++ ks
  maxKeys : s'.maxKeys = s.maxKeys
  evictionEnabled : s'.evictionEnabled = s.evictionEnabled
  drift : s'.drift = s.drift

theorem Evicts.refl (s : StorageEngine S) : Evicts s s [] :=
  ⟨by simp, by simp, rfl, rfl, rfl⟩

/-- The scan over all shards is one scan over all entries. -/
theorem findVictim_eq (s : StorageEngine S) :
    s.findVictim = s.shards.entries.foldl (fun v e ↦ olderEntry v e.1 e.2) none := by
  rw [PartMap.entries, List.foldl_flatMap]
  unfold findVictim scanShard
  simp only [List.foldl_map]

theorem olderEntry_ne_none (v : Option (Bytes × UInt64)) (key : Bytes) (entry : ValueEntry) :
    olderEntry v key entry ≠ none := by
  unfold olderEntry
  split
  · simp
  · split <;> simp

theorem foldl_olderEntry_eq_none {l : List (Bytes × ValueEntry)} {v : Option (Bytes × UInt64)}
    (h : l.foldl (fun v e ↦ olderEntry v e.1 e.2) v = none) : l = [] := by
  induction l generalizing v with
  | nil => rfl
  | cons e es ih =>
      rw [List.foldl_cons] at h
      have hes := ih h
      subst hes
      exact absurd h (olderEntry_ne_none v e.1 e.2)

/-- The victim is one of the entries scanned, or the one known before, and none of
these is older. -/
theorem foldl_olderEntry_spec {l : List (Bytes × ValueEntry)} {v : Option (Bytes × UInt64)}
    {key : Bytes} {oldest : UInt64}
    (h : l.foldl (fun v e ↦ olderEntry v e.1 e.2) v = some (key, oldest)) :
    (v = some (key, oldest) ∨ ∃ entry, (key, entry) ∈ l ∧ entry.lastAccessSequence = oldest) ∧
      (∀ p, v = some p → oldest ≤ p.2) ∧ ∀ e ∈ l, oldest ≤ e.2.lastAccessSequence := by
  induction l generalizing v with
  | nil =>
      refine ⟨Or.inl h, ?_, by simp⟩
      rintro p rfl
      obtain rfl := Option.some.inj h
      exact UInt64.le_refl _
  | cons e es ih =>
      obtain ⟨hfrom, hknown, hscanned⟩ := ih h
      beta_reduce at hfrom hknown
      -- the entry becomes the victim, or the one known before stays
      have hstep : olderEntry v e.1 e.2 = some (e.1, e.2.lastAccessSequence) ∧
            (∀ p, v = some p → e.2.lastAccessSequence ≤ p.2) ∨
          olderEntry v e.1 e.2 = v ∧ ∃ p, v = some p ∧ p.2 ≤ e.2.lastAccessSequence := by
        unfold olderEntry
        split
        · exact Or.inl ⟨rfl, by simp⟩
        · rename_i known seq
          split
          · rename_i hlt
            refine Or.inl ⟨rfl, ?_⟩
            rintro p hp
            obtain rfl := Option.some.inj hp
            exact UInt64.le_of_lt hlt
          · rename_i hge
            exact Or.inr ⟨rfl, _, rfl, UInt64.not_lt.mp hge⟩
      rcases hstep with ⟨hnew, hle⟩ | ⟨hold, p, rfl, hle⟩
      · have hnewest := hknown _ hnew
        refine ⟨Or.inr ?_, fun p hp ↦ UInt64.le_trans hnewest (hle p hp), ?_⟩
        · rcases hfrom with hfrom | ⟨entry, hmem, hseq⟩
          · obtain ⟨rfl, rfl⟩ := Prod.mk.inj (Option.some.inj (hnew.symm.trans hfrom))
            exact ⟨e.2, by simp, rfl⟩
          · exact ⟨entry, List.mem_cons_of_mem e hmem, hseq⟩
        · rintro x hx
          rcases List.mem_cons.mp hx with rfl | hx
          · exact hnewest
          · exact hscanned x hx
      · rw [hold] at hfrom hknown
        refine ⟨?_, hknown, ?_⟩
        · refine hfrom.imp_right ?_
          rintro ⟨entry, hmem, hseq⟩
          exact ⟨entry, List.mem_cons_of_mem e hmem, hseq⟩
        · rintro x hx
          rcases List.mem_cons.mp hx with rfl | hx
          · exact UInt64.le_trans (hknown p rfl) hle
          · exact hscanned x hx

theorem size_eq_zero_of_findVictim {s : StorageEngine S} (h : s.findVictim = none) :
    s.shards.size = 0 := by
  rw [findVictim_eq] at h
  rw [← PartMap.length_entries, foldl_olderEntry_eq_none h, List.length_nil]

theorem findVictim_spec {s : StorageEngine S} {key : Bytes} {oldest : UInt64}
    (h : s.findVictim = some (key, oldest)) :
    ∃ entry, s.shards.find? key = some entry ∧ entry.lastAccessSequence = oldest ∧
      ∀ k e, s.shards.find? k = some e → oldest ≤ e.lastAccessSequence := by
  rw [findVictim_eq] at h
  obtain ⟨hfrom, -, hscanned⟩ := foldl_olderEntry_spec h
  rcases hfrom with hnone | ⟨entry, hmem, hseq⟩
  · exact absurd hnone (by simp)
  · refine ⟨entry, (PartMap.mem_entries_iff _ _ _).mp hmem, hseq, fun k e he ↦ ?_⟩
    exact hscanned (k, e) ((PartMap.mem_entries_iff _ _ _).mpr he)

theorem evict_eq {s : StorageEngine S} {key : Bytes} {entry : ValueEntry}
    (h : s.shards.find? key = some entry) :
    s.evict key = { s with
      shards := s.shards.erase key
      totalKeys := s.totalKeys - 1
      evictedKeys := s.evictedKeys + 1
      pendingEvictedKeys := s.pendingEvictedKeys ++ [key] } := by
  simp [evict, h]

theorem evicts_evict {s : StorageEngine S} {key : Bytes} {entry : ValueEntry}
    (h : s.shards.find? key = some entry) :
    Evicts s (s.evict key) [key] ∧ (s.evict key).shards.size + 1 = s.shards.size := by
  rw [evict_eq h]
  refine ⟨⟨?_, rfl, rfl, rfl, drift_erase h rfl rfl⟩, PartMap.size_erase_of_some _ h⟩
  rw [Store.eraseAll_cons, Store.eraseAll_nil]
  exact cells_erase s key

theorem Evicts.cons {s t u : StorageEngine S} {k : Bytes} {ks : List Bytes}
    (h : Evicts s t [k]) (h' : Evicts t u ks) : Evicts s u (k :: ks) := by
  refine ⟨?_, ?_, h'.maxKeys.trans h.maxKeys,
    h'.evictionEnabled.trans h.evictionEnabled, h'.drift.trans h.drift⟩
  · rw [h'.cells, h.cells, Store.eraseAll_cons, Store.eraseAll_cons, Store.eraseAll_nil]
  · rw [h'.pending, h.pending, List.append_assoc, List.singleton_append]

/-- The loop evicts some keys; given a round for every entry, it only stops at
the limit or with nothing left to evict. -/
theorem evictionLoop_spec (limit : UInt64) (rounds : ℕ) (s : StorageEngine S) :
    ∃ ks, Evicts s (evictionLoop limit rounds s) ks ∧
      (s.shards.size < rounds →
        (evictionLoop limit rounds s).totalKeys ≤ limit ∨
          (evictionLoop limit rounds s).shards.size = 0) := by
  induction rounds generalizing s with
  | zero => exact ⟨[], Evicts.refl s, fun h ↦ absurd h (Nat.not_lt_zero _)⟩
  | succ rounds ih =>
      unfold evictionLoop
      split
      · split
        · rename_i hnone
          exact ⟨[], Evicts.refl s, fun _ ↦ Or.inr (size_eq_zero_of_findVictim hnone)⟩
        · rename_i key oldest hvictim
          obtain ⟨entry, hfind, -⟩ := findVictim_spec hvictim
          obtain ⟨hevict, hsize⟩ := evicts_evict hfind
          obtain ⟨ks, hloop, hstop⟩ := ih (s.evict key)
          exact ⟨key :: ks, hevict.cons hloop, fun h ↦ hstop (by omega)⟩
      · rename_i hle
        exact ⟨[], Evicts.refl s, fun _ ↦ Or.inl (UInt64.not_lt.mp hle)⟩

theorem evicts_enforceMaxKeys (s : StorageEngine S) :
    ∃ ks, Evicts s s.enforceMaxKeys ks := by
  unfold enforceMaxKeys
  split
  · exact ⟨[], Evicts.refl s⟩
  · obtain ⟨ks, hks, -⟩ := evictionLoop_spec s.maxKeys (s.shards.size + 1) s
    exact ⟨ks, hks⟩

theorem enforceMaxKeys_of_disabled {s : StorageEngine S} (h : s.evictionEnabled = false) :
    s.enforceMaxKeys = s := by
  simp [enforceMaxKeys, h]

theorem enforceMaxKeys_of_le {s : StorageEngine S}
    (h : s.maxKeys = 0 ∨ s.totalKeys ≤ s.maxKeys) : s.enforceMaxKeys = s := by
  rw [enforceMaxKeys, if_pos (Or.inr h)]

/-- An exact counter ends within the limit. -/
theorem totalKeys_enforceMaxKeys_le {s : StorageEngine S} (henabled : s.evictionEnabled = true)
    (hdrift : s.drift = 0) :
    s.enforceMaxKeys.maxKeys = 0 ∨ s.enforceMaxKeys.totalKeys ≤ s.enforceMaxKeys.maxKeys := by
  unfold enforceMaxKeys
  split
  · rename_i hstop
    rcases hstop with hdisabled | hzero | hle
    · simp [henabled] at hdisabled
    · exact Or.inl hzero
    · exact Or.inr hle
  · obtain ⟨ks, hks, hstop⟩ := evictionLoop_spec s.maxKeys (s.shards.size + 1) s
    rw [hks.maxKeys]
    rcases hstop (Nat.lt_succ_self _) with hle | hzero
    · exact Or.inr hle
    · have hexact := hks.drift.trans hdrift
      rw [drift, hzero] at hexact
      have htotal : (evictionLoop s.maxKeys (s.shards.size + 1) s).totalKeys = 0 := by
        simpa using hexact
      rw [htotal]
      exact Or.inr (UInt64.zero_le)

/-- The loop evicts no more than it has to. -/
theorem size_evictionLoop {limit : UInt64} {rounds : ℕ} {s : StorageEngine S}
    (hdrift : s.drift = 0) (hsmall : s.shards.size < 2 ^ 64) (hrounds : s.shards.size < rounds)
    (hover : limit.toNat ≤ s.shards.size) :
    (evictionLoop limit rounds s).shards.size = limit.toNat := by
  induction rounds generalizing s with
  | zero => exact absurd hrounds (Nat.not_lt_zero _)
  | succ rounds ih =>
      have htotal : s.totalKeys.toNat = s.shards.size := by
        rw [totalKeys_of_drift hdrift, UInt64.toNat_ofNat_of_lt' hsmall]
      unfold evictionLoop
      split
      · rename_i hlt
        rw [UInt64.lt_iff_toNat_lt, htotal] at hlt
        split
        · rename_i hnone
          have hzero := size_eq_zero_of_findVictim hnone
          omega
        · rename_i key oldest hvictim
          obtain ⟨entry, hfind, -⟩ := findVictim_spec hvictim
          obtain ⟨hevict, hsize⟩ := evicts_evict hfind
          exact ih (hevict.drift.trans hdrift) (by omega) (by omega) (by omega)
      · rename_i hle
        rw [UInt64.not_lt, UInt64.le_iff_toNat_le, htotal] at hle
        omega

/-- Over the limit, an exact counter ends at the limit. -/
theorem size_enforceMaxKeys {s : StorageEngine S} (henabled : s.evictionEnabled = true)
    (hlimit : s.maxKeys ≠ 0) (hdrift : s.drift = 0) (hsmall : s.shards.size < 2 ^ 64)
    (hover : s.maxKeys.toNat < s.shards.size) :
    s.enforceMaxKeys.shards.size = s.maxKeys.toNat := by
  have htotal : ¬s.totalKeys ≤ s.maxKeys := by
    rw [UInt64.le_iff_toNat_le, totalKeys_of_drift hdrift, UInt64.toNat_ofNat_of_lt' hsmall]
    omega
  rw [enforceMaxKeys, if_neg (by simp [henabled, hlimit, htotal])]
  exact size_evictionLoop hdrift hsmall (Nat.lt_succ_self _) (Nat.le_of_lt hover)

/-! ## Sweeps -/

theorem find?_cleanupExpiredLocked (s : StorageEngine S) (now : TimePoint)
    (index : Fin S.count) (key : Bytes) :
    (s.cleanupExpiredLocked now index).2.shards.find? key =
      if S.shardIndex key = index then (s.shards.find? key).filter (!isExpired · now)
      else s.shards.find? key :=
  PartMap.find?_filterPart s.shards index (fun _ entry ↦ !isExpired entry now) key

theorem size_cleanupExpiredLocked (s : StorageEngine S) (now : TimePoint) (index : Fin S.count) :
    (s.cleanupExpiredLocked now index).1 + (s.cleanupExpiredLocked now index).2.shards.size =
      s.shards.size := by
  have hsize := PartMap.size_filterPart s.shards index fun _ entry ↦ !isExpired entry now
  simp only [Bool.not_not] at hsize
  rw [Nat.add_comm]
  exact hsize

/-- A sweep removes the expired entries of the shards it visits and adds up how
many they are; it leaves the counters alone. -/
theorem sweepShards_spec (now : TimePoint) (indices : List (Fin S.count)) (removed : ℕ)
    (s : StorageEngine S) :
    (sweepShards now indices (removed, s)).1 +
        (sweepShards now indices (removed, s)).2.shards.size = removed + s.shards.size ∧
      (∃ shards, (sweepShards now indices (removed, s)).2 = { s with shards := shards }) ∧
      ∀ key, (sweepShards now indices (removed, s)).2.shards.find? key =
        if S.shardIndex key ∈ indices then (s.shards.find? key).filter (!isExpired · now)
        else s.shards.find? key := by
  induction indices generalizing removed s with
  | nil => exact ⟨rfl, ⟨s.shards, rfl⟩, fun key ↦ by simp [sweepShards]⟩
  | cons index rest ih =>
      obtain ⟨hsize, ⟨shards, hshards⟩, hfind⟩ :=
        ih (removed + (s.cleanupExpiredLocked now index).1) (s.cleanupExpiredLocked now index).2
      have hone := size_cleanupExpiredLocked s now index
      refine ⟨?_, ⟨shards, hshards⟩, fun key ↦ ?_⟩
      · refine hsize.trans ?_
        omega
      · refine (hfind key).trans ?_
        rw [find?_cleanupExpiredLocked]
        by_cases hindex : S.shardIndex key = index
        · simp [hindex, Option.filter_filter]
        · simp [hindex]

theorem find?_cleanupExpired (s : StorageEngine S) (now : TimePoint) (key : Bytes) :
    (s.cleanupExpired now).2.shards.find? key =
      (s.shards.find? key).filter (!isExpired · now) := by
  refine ((sweepShards_spec now (List.finRange S.count) 0 s).2.2 key).trans ?_
  rw [if_pos (List.mem_finRange _)]

theorem cells_cleanupExpired (s : StorageEngine S) (now : TimePoint) (key : Bytes) :
    (s.cleanupExpired now).2.cells key = (s.cells key).live now := by
  rw [cells, find?_cleanupExpired]
  cases hfind : s.shards.find? key with
  | none => rw [cells_eq_none_iff.mpr hfind]; rfl
  | some entry =>
      rw [live_cells_of_isExpired hfind, cells_of_find? hfind]
      by_cases hexp : isExpired entry now = true <;> simp [Option.filter, hexp]

theorem size_cleanupExpired (s : StorageEngine S) (now : TimePoint) :
    (s.cleanupExpired now).1 + (s.cleanupExpired now).2.shards.size = s.shards.size := by
  have hsize := (sweepShards_spec now (List.finRange S.count) 0 s).1
  rwa [Nat.zero_add] at hsize

theorem cleanupExpired_eq (s : StorageEngine S) (now : TimePoint) :
    ∃ shards, (s.cleanupExpired now).2 = { s with
      shards := shards
      totalKeys := s.totalKeys - UInt64.ofNat (s.cleanupExpired now).1
      expiredKeysRemoved :=
        s.expiredKeysRemoved + UInt64.ofNat (s.cleanupExpired now).1 } := by
  obtain ⟨shards, hshards⟩ := (sweepShards_spec now (List.finRange S.count) 0 s).2.1
  exact ⟨shards, by simp only [cleanupExpired, hshards]⟩

theorem keeps_cleanupExpired (s : StorageEngine S) (now : TimePoint) :
    Keeps s (s.cleanupExpired now).2 := by
  have hsize := size_cleanupExpired s now
  obtain ⟨shards, hshards⟩ := cleanupExpired_eq s now
  rw [hshards] at hsize
  rw [hshards]
  refine ⟨rfl, rfl, rfl, rfl, ?_⟩
  simp only [drift] at hsize ⊢
  rw [← hsize, UInt64.ofNat_add]
  grind

end StorageEngine

end ByteCacheDB
