import ByteCacheDB.EngineCalls

/-!
# Sharding cannot be seen

Two engines with the same entries, however they are spread over shards and in
whatever order the shards list them, answer every call alike.  The scan for a
victim is the only place where the order could matter, and there it does not:
access numbers are handed out once, so there is exactly one oldest entry.
-/

namespace ByteCacheDB

open StorageEngine

/-- The same entries and the same counters. -/
structure Alike {S T : Sharding} (s : StorageEngine S) (t : StorageEngine T) : Prop where
  same : s.shards.Same t.shards
  totalKeys : s.totalKeys = t.totalKeys
  maxKeys : s.maxKeys = t.maxKeys
  evictedKeys : s.evictedKeys = t.evictedKeys
  expiredKeysRemoved : s.expiredKeysRemoved = t.expiredKeysRemoved
  accessSequence : s.accessSequence = t.accessSequence
  evictionEnabled : s.evictionEnabled = t.evictionEnabled
  pending : s.pendingEvictedKeys = t.pendingEvictedKeys

namespace Alike

variable {S T : Sharding} {s : StorageEngine S} {t : StorageEngine T}

theorem refl (s : StorageEngine S) : Alike s s := ⟨fun _ ↦ rfl, rfl, rfl, rfl, rfl, rfl, rfl, rfl⟩

theorem symm (h : Alike s t) : Alike t s :=
  ⟨fun key ↦ (h.same key).symm, h.totalKeys.symm, h.maxKeys.symm, h.evictedKeys.symm,
    h.expiredKeysRemoved.symm, h.accessSequence.symm, h.evictionEnabled.symm, h.pending.symm⟩

theorem trans {U : Sharding} {u : StorageEngine U} (h : Alike s t) (h' : Alike t u) : Alike s u :=
  ⟨fun key ↦ (h.same key).trans (h'.same key), h.totalKeys.trans h'.totalKeys,
    h.maxKeys.trans h'.maxKeys, h.evictedKeys.trans h'.evictedKeys,
    h.expiredKeysRemoved.trans h'.expiredKeysRemoved, h.accessSequence.trans h'.accessSequence,
    h.evictionEnabled.trans h'.evictionEnabled, h.pending.trans h'.pending⟩

/-! ## One key at a time -/

variable (h : Alike s t)
include h

theorem cells_eq : s.cells = t.cells := by
  funext key
  rw [cells, cells, h.same key]

theorem put (key : Bytes) (entry : ValueEntry) : Alike (s.put key entry) (t.put key entry) where
  same := by
    simp only [StorageEngine.put, h.accessSequence]
    exact h.same.insert key _
  accessSequence := congrArg (· + 1) h.accessSequence
  totalKeys := h.totalKeys
  maxKeys := h.maxKeys
  evictedKeys := h.evictedKeys
  expiredKeysRemoved := h.expiredKeysRemoved
  evictionEnabled := h.evictionEnabled
  pending := h.pending

theorem removeExpired (key : Bytes) : Alike (s.removeExpired key) (t.removeExpired key) where
  same := h.same.erase key
  totalKeys := congrArg (· - 1) h.totalKeys
  expiredKeysRemoved := congrArg (· + 1) h.expiredKeysRemoved
  maxKeys := h.maxKeys
  evictedKeys := h.evictedKeys
  accessSequence := h.accessSequence
  evictionEnabled := h.evictionEnabled
  pending := h.pending

theorem dropExpired (now : TimePoint) (key : Bytes) :
    Alike (s.dropExpired now key) (t.dropExpired now key) := by
  unfold StorageEngine.dropExpired
  rw [h.same key]
  split
  · split
    · exact h.removeExpired key
    · exact h
  · exact h

theorem putCounted (key : Bytes) (entry : ValueEntry) :
    Alike (s.putCounted key entry) (t.putCounted key entry) := by
  unfold StorageEngine.putCounted
  rw [h.same key]
  split
  · exact h.put key entry
  · exact { h.put key entry with totalKeys := congrArg (· + 1) h.totalKeys }

theorem store (now : TimePoint) (key value : Bytes) :
    Alike (s.store now key value) (t.store now key value) :=
  (h.dropExpired now key).putCounted key _

omit h in
theorem storeAll (now : TimePoint) (pairs : List (Bytes × Bytes)) {s : StorageEngine S}
    {t : StorageEngine T} (h : Alike s t) :
    Alike (s.storeAll now pairs) (t.storeAll now pairs) := by
  induction pairs generalizing s t with
  | nil => exact h
  | cons p ps ih => exact ih (h.store now p.1 p.2)

theorem del (key : Bytes) :
    (s.del key).1 = (t.del key).1 ∧ Alike (s.del key).2 (t.del key).2 := by
  unfold StorageEngine.del
  rw [h.same key]
  split
  · refine ⟨rfl, { h with same := h.same.erase key, totalKeys := congrArg (· - 1) h.totalKeys }⟩
  · exact ⟨rfl, h⟩

theorem expireAt (now : TimePoint) (key : Bytes) (deadline : TimePoint) :
    (s.expireAt now key deadline).1 = (t.expireAt now key deadline).1 ∧
      Alike (s.expireAt now key deadline).2 (t.expireAt now key deadline).2 := by
  unfold StorageEngine.expireAt
  rw [h.same key]
  split
  · exact ⟨rfl, h⟩
  · split
    · exact ⟨rfl, h.removeExpired key⟩
    · exact ⟨rfl, h.put key _⟩

theorem persist (now : TimePoint) (key : Bytes) :
    (s.persist now key).1 = (t.persist now key).1 ∧
      Alike (s.persist now key).2 (t.persist now key).2 := by
  unfold StorageEngine.persist
  rw [h.same key]
  split
  · exact ⟨rfl, h⟩
  · split
    · exact ⟨rfl, h.removeExpired key⟩
    · exact ⟨rfl, h.put key _⟩

theorem get (now : TimePoint) (key : Bytes) :
    (s.get now key).1 = (t.get now key).1 ∧ Alike (s.get now key).2 (t.get now key).2 := by
  unfold StorageEngine.get
  rw [h.same key]
  split
  · exact ⟨rfl, h⟩
  · split
    · exact ⟨rfl, h.removeExpired key⟩
    · exact ⟨rfl, h.put key _⟩

theorem ttl (now : TimePoint) (key : Bytes) :
    (s.ttl now key).1 = (t.ttl now key).1 ∧ Alike (s.ttl now key).2 (t.ttl now key).2 := by
  unfold StorageEngine.ttl
  rw [h.same key]
  split
  · exact ⟨rfl, h⟩
  · split
    · exact ⟨rfl, h.removeExpired key⟩
    · split
      · exact ⟨rfl, h.put key _⟩
      · exact ⟨rfl, h.put key _⟩

omit h in
theorem mget (pairs : List (Bytes × TimePoint)) {s : StorageEngine S} {t : StorageEngine T}
    (h : Alike s t) :
    (s.mget pairs).1 = (t.mget pairs).1 ∧ Alike (s.mget pairs).2 (t.mget pairs).2 := by
  induction pairs generalizing s t with
  | nil => exact ⟨rfl, h⟩
  | cons p rest ih =>
      obtain ⟨hvalue, hget⟩ := h.get p.2 p.1
      obtain ⟨hvalues, hrest⟩ := ih hget
      exact ⟨congrArg₂ List.cons hvalue hvalues, hrest⟩

theorem incrementLocked (now : TimePoint) (key : Bytes) (delta : Int64) :
    (s.incrementLocked now key delta).1 = (t.incrementLocked now key delta).1 ∧
      Alike (s.incrementLocked now key delta).2 (t.incrementLocked now key delta).2 := by
  have hdrop := h.dropExpired now key
  simp only [StorageEngine.incrementLocked]
  rw [hdrop.same key]
  split
  · split
    · exact ⟨rfl, hdrop⟩
    · exact ⟨rfl, hdrop.putCounted key _⟩
  · split
    · exact ⟨rfl, hdrop⟩
    · exact ⟨rfl, hdrop.put key _⟩

theorem appendLocked (now : TimePoint) (key suffix : Bytes) :
    (s.appendLocked now key suffix).1 = (t.appendLocked now key suffix).1 ∧
      Alike (s.appendLocked now key suffix).2 (t.appendLocked now key suffix).2 := by
  have hdrop := h.dropExpired now key
  simp only [StorageEngine.appendLocked]
  rw [hdrop.same key]
  split
  · exact ⟨rfl, hdrop.putCounted key _⟩
  · exact ⟨rfl, hdrop.put key _⟩

/-! ## All shards at once -/

theorem snapshotEntries_eq (now : TimePoint) : s.snapshotEntries now = t.snapshotEntries now := by
  have hmem : ∀ x, x ∈ s.snapshotEntries now ↔ x ∈ t.snapshotEntries now := by
    intro x
    rw [mem_snapshotEntries, mem_snapshotEntries, h.cells_eq]
  have hperm : (s.snapshotEntries now).Perm (t.snapshotEntries now) :=
    (List.perm_ext_iff_of_nodup (nodup_snapshotEntries s now).of_map
      (nodup_snapshotEntries t now).of_map).mpr hmem
  refine hperm.eq_of_pairwise ?_ (List.pairwise_map.mp (pairwise_snapshotEntries s now))
    (List.pairwise_map.mp (pairwise_snapshotEntries t now))
  intro a b _ _ hab hba
  exact absurd hba (List.lt_asymm hab)

theorem keys_eq (now : TimePoint) : s.keys now = t.keys now := by
  rw [StorageEngine.keys, StorageEngine.keys, h.snapshotEntries_eq now]

theorem flush : s.flush.1 = t.flush.1 ∧ Alike s.flush.2 t.flush.2 :=
  ⟨h.totalKeys, { h with same := fun _ ↦ rfl, totalKeys := rfl }⟩

theorem cleanupExpired (now : TimePoint) :
    (s.cleanupExpired now).1 = (t.cleanupExpired now).1 ∧
      Alike (s.cleanupExpired now).2 (t.cleanupExpired now).2 := by
  have hsame : (s.cleanupExpired now).2.shards.Same (t.cleanupExpired now).2.shards := by
    intro key
    rw [find?_cleanupExpired, find?_cleanupExpired, h.same key]
  have hremoved : (s.cleanupExpired now).1 = (t.cleanupExpired now).1 := by
    have hs := size_cleanupExpired s now
    have ht := size_cleanupExpired t now
    have hbefore := h.same.size_eq
    have hafter := hsame.size_eq
    omega
  obtain ⟨shards, hshards⟩ := cleanupExpired_eq s now
  obtain ⟨shards', hshards'⟩ := cleanupExpired_eq t now
  refine ⟨hremoved, ?_⟩
  rw [hremoved] at hshards
  rw [hshards, hshards'] at hsame ⊢
  exact { h with
    same := hsame
    totalKeys := congrArg (· - UInt64.ofNat (t.cleanupExpired now).1) h.totalKeys
    expiredKeysRemoved :=
      congrArg (· + UInt64.ofNat (t.cleanupExpired now).1) h.expiredKeysRemoved }

/-- A call gives the same result, and leaves engines alike for the eviction. -/
theorem beforeEviction (e : EngineEvent) :
    (s.beforeEviction e).1 = (t.beforeEviction e).1 ∧
      (s.beforeEviction e).2.1 = (t.beforeEviction e).2.1 ∧
      Alike (s.beforeEviction e).2.2 (t.beforeEviction e).2.2 := by
  obtain ⟨call, clock⟩ := e
  cases call with
  | set key value => exact ⟨rfl, rfl, h.store _ key value⟩
  | mset args => exact ⟨rfl, rfl, h.storeAll _ (argPairs args)⟩
  | get key =>
      obtain ⟨hresult, hnext⟩ := h.get (clock 0) key
      exact ⟨congrArg EngineResult.value hresult, rfl, hnext⟩
  | mget keys =>
      obtain ⟨hresult, hnext⟩ := h.mget (keys.mapIdx fun i key ↦ (key, clock i))
      exact ⟨congrArg EngineResult.values hresult, rfl, hnext⟩
  | del key =>
      obtain ⟨hresult, hnext⟩ := h.del key
      exact ⟨congrArg EngineResult.count hresult, rfl, hnext⟩
  | «exists» key =>
      obtain ⟨hresult, hnext⟩ := h.get (clock 0) key
      exact ⟨congrArg (fun v ↦ EngineResult.flag (Option.isSome v)) hresult, rfl, hnext⟩
  | expireAt key deadline =>
      obtain ⟨hresult, hnext⟩ := h.expireAt (clock 0) key deadline
      exact ⟨congrArg EngineResult.flag hresult, rfl, hnext⟩
  | ttl key =>
      obtain ⟨hresult, hnext⟩ := h.ttl (clock 0) key
      exact ⟨congrArg EngineResult.seconds hresult, rfl, hnext⟩
  | persist key =>
      obtain ⟨hresult, hnext⟩ := h.persist (clock 0) key
      exact ⟨congrArg EngineResult.flag hresult, rfl, hnext⟩
  | keys => exact ⟨congrArg EngineResult.keys (h.keys_eq (clock 0)), rfl, h⟩
  | flush =>
      obtain ⟨hresult, hnext⟩ := h.flush
      exact ⟨congrArg (fun n : UInt64 ↦ EngineResult.count n.toNat) hresult, rfl, hnext⟩
  | increment key delta =>
      obtain ⟨hresult, hnext⟩ := h.incrementLocked (clock 0) key delta
      simp only [StorageEngine.beforeEviction]
      rcases hs : s.incrementLocked (clock 0) key delta with ⟨result, s'⟩
      rcases ht : t.incrementLocked (clock 0) key delta with ⟨result', t'⟩
      rw [hs, ht] at hresult hnext
      dsimp only at hresult
      subst hresult
      rcases result with _ | ⟨n, inserted⟩ <;> exact ⟨rfl, rfl, hnext⟩
  | append key suffix =>
      obtain ⟨hresult, hnext⟩ := h.appendLocked (clock 0) key suffix
      exact ⟨congrArg (fun r : ℕ × Bool ↦ EngineResult.count r.1) hresult,
        congrArg Prod.snd hresult, hnext⟩
  | strlen key =>
      obtain ⟨hresult, hnext⟩ := h.get (clock 0) key
      refine ⟨?_, rfl, hnext⟩
      simp only [StorageEngine.beforeEviction, StorageEngine.call, strlen, hresult]
  | cleanupExpired =>
      obtain ⟨hresult, hnext⟩ := h.cleanupExpired (clock 0)
      exact ⟨congrArg EngineResult.count hresult, rfl, hnext⟩
  | size =>
      obtain ⟨-, hnext⟩ := h.cleanupExpired (clock 0)
      exact ⟨congrArg (fun n : UInt64 ↦ EngineResult.count n.toNat) hnext.totalKeys, rfl, hnext⟩
  | snapshotEntries =>
      exact ⟨congrArg EngineResult.entries (h.snapshotEntries_eq (clock 0)), rfl, h⟩
  | evictedKeys =>
      exact ⟨congrArg (fun n : UInt64 ↦ EngineResult.count n.toNat) h.evictedKeys, rfl, h⟩
  | expiredKeysRemoved =>
      exact ⟨congrArg (fun n : UInt64 ↦ EngineResult.count n.toNat) h.expiredKeysRemoved, rfl, h⟩
  | takeEvictedKeys =>
      exact ⟨congrArg EngineResult.keys h.pending, rfl, { h with pending := rfl }⟩
  | setMaxKeys n => exact ⟨rfl, rfl, { h with maxKeys := rfl }⟩
  | setEvictionEnabled enabled => exact ⟨rfl, rfl, { h with evictionEnabled := rfl }⟩

end Alike

/-! ## Access numbers -/

section
variable {S T : Sharding} {s s' : StorageEngine S} {n : ℕ}

/-- After `n` accesses, of which none wrapped the counter: every entry has the
number of an access of its own. -/
structure Fresh (n : ℕ) (s : StorageEngine S) : Prop where
  count : s.accessSequence.toNat = n
  bound : ∀ key entry, s.shards.find? key = some entry → entry.lastAccessSequence.toNat ≤ n
  distinct : ∀ key entry key' entry', s.shards.find? key = some entry →
    s.shards.find? key' = some entry' →
      entry.lastAccessSequence = entry'.lastAccessSequence → key = key'

theorem Fresh.of_sub (h : Fresh n s) (hsequence : s'.accessSequence = s.accessSequence)
    (hsub : ∀ key entry, s'.shards.find? key = some entry → s.shards.find? key = some entry) :
    Fresh n s' where
  count := by rw [hsequence, h.count]
  bound key entry hfind := h.bound key entry (hsub key entry hfind)
  distinct key entry key' entry' hfind hfind' :=
    h.distinct key entry key' entry' (hsub key entry hfind) (hsub key' entry' hfind')

theorem Fresh.of_erase (h : Fresh n s) (key : Bytes)
    (hsequence : s'.accessSequence = s.accessSequence)
    (hshards : s'.shards = s.shards.erase key) : Fresh n s' := by
  refine h.of_sub hsequence fun k entry hfind ↦ ?_
  rw [hshards] at hfind
  by_cases hk : k = key
  · simp [hk] at hfind
  · rwa [PartMap.find?_erase_ne _ hk] at hfind

theorem Fresh.put (h : Fresh n s) (hn : n + 1 < 2 ^ 64) (key : Bytes) (entry : ValueEntry) :
    Fresh (n + 1) (s.put key entry) := by
  have hcount : (s.accessSequence + 1).toNat = n + 1 := by
    rw [UInt64.toNat_add, h.count]
    exact Nat.mod_eq_of_lt hn
  have hcases : ∀ k e, (s.put key entry).shards.find? k = some e →
      (k = key ∧ e.lastAccessSequence.toNat = n + 1) ∨
        s.shards.find? k = some e ∧ e.lastAccessSequence.toNat ≤ n := by
    intro k e hfind
    simp only [StorageEngine.put] at hfind
    by_cases hk : k = key
    · subst hk
      rw [PartMap.find?_insert, Option.some.injEq] at hfind
      subst hfind
      exact Or.inl ⟨rfl, hcount⟩
    · rw [PartMap.find?_insert_ne _ _ hk] at hfind
      exact Or.inr ⟨hfind, h.bound k e hfind⟩
  refine ⟨hcount, fun k e hfind ↦ ?_, fun k e k' e' hfind hfind' heq ↦ ?_⟩
  · rcases hcases k e hfind with ⟨-, hseq⟩ | ⟨-, hseq⟩ <;> omega
  · have htoNat := congrArg UInt64.toNat heq
    rcases hcases k e hfind with ⟨rfl, hseq⟩ | ⟨hold, hseq⟩ <;>
      rcases hcases k' e' hfind' with ⟨rfl, hseq'⟩ | ⟨hold', hseq'⟩
    · rfl
    · omega
    · omega
    · exact h.distinct k e k' e' hold hold' heq

theorem Fresh.putCounted (h : Fresh n s) (hn : n + 1 < 2 ^ 64) (key : Bytes)
    (entry : ValueEntry) : Fresh (n + 1) (s.putCounted key entry) := by
  unfold StorageEngine.putCounted
  have hput := h.put hn key entry
  split
  · exact hput
  · exact ⟨hput.count, hput.bound, hput.distinct⟩

theorem Fresh.dropExpired (h : Fresh n s) (now : TimePoint) (key : Bytes) :
    Fresh n (s.dropExpired now key) := by
  unfold StorageEngine.dropExpired
  split
  · split
    · exact h.of_erase key rfl rfl
    · exact h
  · exact h

theorem Fresh.store (h : Fresh n s) (hn : n + 1 < 2 ^ 64) (now : TimePoint)
    (key value : Bytes) : Fresh (n + 1) (s.store now key value) :=
  (h.dropExpired now key).putCounted hn key _

theorem Fresh.storeAll (now : TimePoint) (pairs : List (Bytes × Bytes)) {s : StorageEngine S}
    {n : ℕ} (h : Fresh n s) (hn : n + pairs.length < 2 ^ 64) :
    Fresh (n + pairs.length) (s.storeAll now pairs) := by
  induction pairs generalizing s n with
  | nil => exact h
  | cons p ps ih =>
      rw [List.length_cons] at hn ⊢
      have hrest := ih (h.store (by omega) now p.1 p.2) (by omega)
      rwa [Nat.add_right_comm, Nat.add_assoc] at hrest

/-- Whether a call at time `now` finds the key. -/
def found (s : StorageEngine S) (now : TimePoint) (key : Bytes) : ℕ :=
  if ((s.cells key).live now).isSome then 1 else 0

theorem found_of_none {now : TimePoint} {key : Bytes} (h : s.shards.find? key = none) :
    found s now key = 0 := by
  simp [found, cells_eq_none_iff.mpr h]

theorem found_of_some {now : TimePoint} {key : Bytes} {entry : ValueEntry}
    (h : s.shards.find? key = some entry) :
    found s now key = if isExpired entry now then 0 else 1 := by
  rw [found, live_cells_of_isExpired h]
  split
  · simp
  · simp [cells_of_find? h]

/-- The calls that drop the entry of a key if it is expired, and access it if not. -/
theorem Fresh.meet (h : Fresh n s) {now : TimePoint} {key : Bytes}
    (hn : n + found s now key < 2 ^ 64) (write : ValueEntry → ValueEntry) :
    Fresh (n + found s now key) (s.meet now key write) := by
  refine meet_cases s now key write ?_ ?_ ?_
  · intro hfind
    rw [found_of_none hfind]
    exact h
  · intro entry hfind hexp
    rw [found_of_some hfind, if_pos hexp]
    exact h.of_erase key rfl rfl
  · intro entry hfind hexp
    rw [found_of_some hfind, if_neg (by simp [hexp])] at hn ⊢
    exact h.put hn key (write entry)

theorem Fresh.get (h : Fresh n s) {now : TimePoint} {key : Bytes}
    (hn : n + found s now key < 2 ^ 64) : Fresh (n + found s now key) (s.get now key).2 := by
  rw [snd_get]
  exact h.meet hn id

theorem Fresh.persist (h : Fresh n s) {now : TimePoint} {key : Bytes}
    (hn : n + found s now key < 2 ^ 64) : Fresh (n + found s now key) (s.persist now key).2 := by
  rw [snd_persist]
  exact h.meet hn _

theorem Fresh.ttl (h : Fresh n s) {now : TimePoint} {key : Bytes}
    (hn : n + found s now key < 2 ^ 64) : Fresh (n + found s now key) (s.ttl now key).2 := by
  rw [snd_ttl]
  exact h.meet hn id

theorem Fresh.expireAt (h : Fresh n s) {now deadline : TimePoint} {key : Bytes}
    (hn : n + (if deadline ≤ now then 0 else found s now key) < 2 ^ 64) :
    Fresh (n + if deadline ≤ now then 0 else found s now key)
      (s.expireAt now key deadline).2 := by
  by_cases hdue : deadline ≤ now
  · rw [if_pos hdue]
    unfold StorageEngine.expireAt
    split
    · exact h
    · rw [if_pos (Or.inr hdue)]
      exact h.of_erase key rfl rfl
  · rw [if_neg hdue] at hn ⊢
    rw [snd_expireAt_of_not_le s now key hdue]
    exact h.meet hn _

theorem found_eq (now : TimePoint) (key : Bytes) :
    found s now key = [(s.get now key).1].countP Option.isSome := by
  rw [(cells_get s now key).2, found, List.countP_singleton, Option.isSome_map]

theorem Fresh.mget (pairs : List (Bytes × TimePoint)) {s : StorageEngine S} {n : ℕ}
    (h : Fresh n s) (hn : n + (s.mget pairs).1.countP Option.isSome < 2 ^ 64) :
    Fresh (n + (s.mget pairs).1.countP Option.isSome) (s.mget pairs).2 := by
  induction pairs generalizing s n with
  | nil => exact h
  | cons p rest ih =>
      have hcount : (s.mget (p :: rest)).1.countP Option.isSome =
          found s p.2 p.1 + ((s.get p.2 p.1).2.mget rest).1.countP Option.isSome := by
        rw [found_eq, ← List.countP_append]
        rfl
      rw [hcount, ← Nat.add_assoc] at hn ⊢
      exact ih (h.get (by omega)) hn

theorem Fresh.appendLocked (h : Fresh n s) (hn : n + 1 < 2 ^ 64) (now : TimePoint)
    (key suffix : Bytes) : Fresh (n + 1) (s.appendLocked now key suffix).2 := by
  have hdrop := h.dropExpired now key
  simp only [StorageEngine.appendLocked]
  split
  · exact hdrop.putCounted hn key _
  · exact hdrop.put hn key _

theorem Fresh.incrementLocked (h : Fresh n s) {now : TimePoint} {key : Bytes} {delta : Int64}
    (hn : n + (if (s.incrementLocked now key delta).1.isOk then 1 else 0) < 2 ^ 64) :
    Fresh (n + if (s.incrementLocked now key delta).1.isOk then 1 else 0)
      (s.incrementLocked now key delta).2 := by
  have hdrop := h.dropExpired now key
  cases hfind : (s.dropExpired now key).shards.find? key with
  | none =>
      cases hadd : checkedAdd 0 delta with
      | error e =>
          simpa [StorageEngine.incrementLocked, hfind, hadd, Except.isOk, Except.toBool] using hdrop
      | ok next =>
          simp only [StorageEngine.incrementLocked, hfind, hadd] at hn ⊢
          exact hdrop.putCounted hn key _
  | some entry =>
      cases hadd : storedInteger entry.value >>= (checkedAdd · delta) with
      | error e =>
          simpa [StorageEngine.incrementLocked, hfind, hadd, Except.isOk, Except.toBool] using hdrop
      | ok next =>
          simp only [StorageEngine.incrementLocked, hfind, hadd] at hn ⊢
          exact hdrop.put hn key _

theorem Fresh.cleanupExpired (h : Fresh n s) (now : TimePoint) :
    Fresh n (s.cleanupExpired now).2 := by
  obtain ⟨shards, hshards⟩ := cleanupExpired_eq s now
  refine h.of_sub (by rw [hshards]) fun key entry hfind ↦ ?_
  rw [find?_cleanupExpired, Option.filter_eq_some_iff] at hfind
  exact hfind.1

end

/-- The number of calls of `next_access_sequence` that a call makes. -/
def StorageEngine.accesses {S : Sharding} (s : StorageEngine S) (e : EngineEvent) : ℕ :=
  let now := e.clock 0
  match e.call with
  | .set _ _ | .append _ _ => 1
  | .mset args => (argPairs args).length
  | .get key | .exists key | .strlen key | .ttl key | .persist key => found s now key
  | .mget keys =>
      (s.mget (keys.mapIdx fun i key ↦ (key, e.clock i))).1.countP Option.isSome
  | .expireAt key deadline => if deadline ≤ now then 0 else found s now key
  | .increment key delta => if (s.incrementLocked now key delta).1.isOk then 1 else 0
  | _ => 0

section
variable {S T : Sharding} {s : StorageEngine S} {t : StorageEngine T} {n : ℕ}

theorem Fresh.beforeEviction (h : Fresh n s) {e : EngineEvent} (hn : n + s.accesses e < 2 ^ 64) :
    Fresh (n + s.accesses e) (s.beforeEviction e).2.2 := by
  obtain ⟨call, clock⟩ := e
  cases call with
  | set key value => exact h.store hn _ key value
  | mset args => exact h.storeAll _ (argPairs args) hn
  | get key | «exists» key | strlen key => exact h.get hn
  | mget keys => exact h.mget _ hn
  | del key =>
      simp only [StorageEngine.beforeEviction, call, del]
      split
      · exact h.of_erase key rfl rfl
      · exact h
  | expireAt key deadline => exact h.expireAt hn
  | ttl key => exact h.ttl hn
  | persist key => exact h.persist hn
  | flush =>
      refine h.of_sub rfl fun key entry hfind ↦ ?_
      simp [StorageEngine.beforeEviction, call, flush] at hfind
  | increment key delta =>
      rw [snd_beforeEviction_increment]
      exact h.incrementLocked hn
  | append key suffix => exact h.appendLocked hn _ key suffix
  | cleanupExpired | size => exact h.cleanupExpired (clock 0)
  | keys | snapshotEntries | evictedKeys | expiredKeysRemoved => exact h
  | takeEvictedKeys | setMaxKeys | setEvictionEnabled => exact ⟨h.count, h.bound, h.distinct⟩

/-! ## Eviction -/

theorem findVictim_eq_none_iff : s.findVictim = none ↔ s.shards.entries = [] := by
  rw [StorageEngine.findVictim_eq]
  exact ⟨foldl_olderEntry_eq_none, fun hnil ↦ by rw [hnil]; rfl⟩

theorem Alike.findVictim_eq_none (h : Alike s t) :
    s.findVictim = none ↔ t.findVictim = none := by
  rw [findVictim_eq_none_iff, findVictim_eq_none_iff, ← List.length_eq_zero_iff,
    ← List.length_eq_zero_iff, h.same.perm_entries.length_eq]

/-- There is one oldest entry. -/
theorem Alike.findVictim_eq (h : Alike s t) (hs : Fresh n s) : s.findVictim = t.findVictim := by
  have hback : ∀ key entry, t.shards.find? key = some entry → s.shards.find? key = some entry :=
    fun key entry hfind ↦ (h.same key).trans hfind
  cases hsv : s.findVictim with
  | none => exact (h.findVictim_eq_none.mp hsv).symm
  | some p =>
      cases htv : t.findVictim with
      | none => simp [h.findVictim_eq_none.mpr htv] at hsv
      | some q =>
          obtain ⟨key, oldest⟩ := p
          obtain ⟨key', oldest'⟩ := q
          obtain ⟨entry, hfind, hseq, hleast⟩ := findVictim_spec hsv
          obtain ⟨entry', hfind', hseq', hleast'⟩ := findVictim_spec htv
          have hle := hleast key' entry' (hback key' entry' hfind')
          have hge := hleast' key entry ((h.same key).symm.trans hfind)
          rw [hseq'] at hle
          rw [hseq] at hge
          obtain rfl : oldest = oldest' := UInt64.le_antisymm hle hge
          rw [hs.distinct key entry key' entry' hfind (hback key' entry' hfind')
            (hseq.trans hseq'.symm)]

theorem Alike.evict (h : Alike s t) (key : Bytes) : Alike (s.evict key) (t.evict key) := by
  unfold StorageEngine.evict
  rw [h.same key]
  split
  · exact { h with
      same := h.same.erase key
      totalKeys := congrArg (· - 1) h.totalKeys
      evictedKeys := congrArg (· + 1) h.evictedKeys
      pending := congrArg (· ++ [key]) h.pending }
  · exact h

theorem Fresh.evict (h : Fresh n s) (key : Bytes) : Fresh n (s.evict key) := by
  unfold StorageEngine.evict
  split
  · exact h.of_erase key rfl rfl
  · exact h

theorem evictionLoop_alike (limit : UInt64) (rounds : ℕ) {s : StorageEngine S}
    {t : StorageEngine T} (h : Alike s t) (hs : Fresh n s) :
    Alike (evictionLoop limit rounds s) (evictionLoop limit rounds t) ∧
      Fresh n (evictionLoop limit rounds s) := by
  induction rounds generalizing s t with
  | zero => exact ⟨h, hs⟩
  | succ rounds ih =>
      simp only [evictionLoop]
      rw [← h.totalKeys, ← h.findVictim_eq hs]
      split
      · split
        · exact ⟨h, hs⟩
        · rename_i key _ _
          exact ih (h.evict key) (hs.evict key)
      · exact ⟨h, hs⟩

/-- Both evict the same keys in the same order. -/
theorem Alike.enforceMaxKeys (h : Alike s t) (hs : Fresh n s) :
    Alike s.enforceMaxKeys t.enforceMaxKeys ∧ Fresh n s.enforceMaxKeys := by
  unfold StorageEngine.enforceMaxKeys
  rw [← h.evictionEnabled, ← h.maxKeys, ← h.totalKeys, ← h.same.size_eq]
  split
  · exact ⟨h, hs⟩
  · exact evictionLoop_alike s.maxKeys _ h hs

end

/-! ## Runs -/

/-- A call under some iteration orders: the entries of the shards may be in any
order when it begins, and in any other when it comes to the eviction.  Erasing
does not change the order. -/
def AnswersAs {S : Sharding} (s : StorageEngine S) (e : EngineEvent) (result : EngineResult)
    (s' : StorageEngine S) : Prop :=
  ∃ s₁ s₂ : StorageEngine S, Alike s s₁ ∧ Alike (s₁.beforeEviction e).2.2 s₂ ∧
    (s₁.beforeEviction e).1 = result ∧
    s' = if (s₁.beforeEviction e).2.1 then s₂.enforceMaxKeys else s₂

/-- The results of a sequence of calls and the number of accesses they make. -/
inductive RunsAs {S : Sharding} : StorageEngine S → List EngineEvent → List EngineResult → ℕ → Prop
  | nil (s : StorageEngine S) : RunsAs s [] [] 0
  | cons {s s' : StorageEngine S} {e : EngineEvent} {events : List EngineEvent}
      {result : EngineResult} {results : List EngineResult} {n : ℕ}
      (hcall : AnswersAs s e result s') (hrest : RunsAs s' events results n) :
      RunsAs s (e :: events) (result :: results) (s.accesses e + n)

/-- The results of the calls, and the accesses they make, when the shards keep the
order in which the model lists their entries. -/
def StorageEngine.results {S : Sharding} (s : StorageEngine S) :
    List EngineEvent → List EngineResult
  | [] => []
  | e :: events => (s.call e).1 :: (s.call e).2.results events

def StorageEngine.totalAccesses {S : Sharding} (s : StorageEngine S) : List EngineEvent → ℕ
  | [] => 0
  | e :: events => s.accesses e + (s.call e).2.totalAccesses events

section
variable {S T : Sharding}

theorem answersAs_call (s : StorageEngine S) (e : EngineEvent) :
    AnswersAs s e (s.call e).1 (s.call e).2 := by
  refine ⟨s, (s.beforeEviction e).2.2, Alike.refl s, Alike.refl _, ?_, ?_⟩
  · rw [call_eq]
  · rw [call_eq]

theorem runsAs_results (s : StorageEngine S) (events : List EngineEvent) :
    RunsAs s events (s.results events) (s.totalAccesses events) := by
  induction events generalizing s with
  | nil => exact .nil s
  | cons e events ih => exact .cons (answersAs_call s e) (ih (s.call e).2)

theorem Alike.accesses_eq {s : StorageEngine S} {t : StorageEngine T} (h : Alike s t)
    (e : EngineEvent) : s.accesses e = t.accesses e := by
  have hfound : ∀ now key, found s now key = found t now key := by
    intro now key
    rw [found, found, h.cells_eq]
  obtain ⟨call, clock⟩ := e
  cases call with
  | mget keys => simp only [accesses, (h.mget (keys.mapIdx fun i key ↦ (key, clock i))).1]
  | increment key delta => simp only [accesses, (h.incrementLocked (clock 0) key delta).1]
  | expireAt key deadline => simp only [accesses, hfound]
  | get key | «exists» key | strlen key | ttl key | persist key => exact hfound _ key
  | set | mset | del | keys | flush | append | cleanupExpired | size | snapshotEntries
  | evictedKeys | expiredKeysRemoved | takeEvictedKeys | setMaxKeys | setEvictionEnabled => rfl

theorem Fresh.of_alike {s : StorageEngine S} {t : StorageEngine T} {n : ℕ} (h : Fresh n s)
    (halike : Alike s t) : Fresh n t where
  count := by rw [← halike.accessSequence, h.count]
  bound key entry hfind := h.bound key entry ((halike.same key).trans hfind)
  distinct key entry key' entry' hfind hfind' :=
    h.distinct key entry key' entry' ((halike.same key).trans hfind)
      ((halike.same key').trans hfind')

/-- Engines alike answer alike and stay alike, under any iteration orders. -/
theorem Alike.answersAs {s s' : StorageEngine S} {t t' : StorageEngine T} {n : ℕ}
    {e : EngineEvent} {result result' : EngineResult} (h : Alike s t) (hs : Fresh n s)
    (hn : n + s.accesses e < 2 ^ 64) (hcall : AnswersAs s e result s')
    (hcall' : AnswersAs t e result' t') :
    result = result' ∧ Alike s' t' ∧ Fresh (n + s.accesses e) s' := by
  obtain ⟨s₁, s₂, hs₁, hs₂, rfl, rfl⟩ := hcall
  obtain ⟨t₁, t₂, ht₁, ht₂, rfl, rfl⟩ := hcall'
  obtain ⟨hresult, hevicts, hbefore⟩ := (hs₁.symm.trans (h.trans ht₁)).beforeEviction e
  have halike : Alike s₂ t₂ := hs₂.symm.trans (hbefore.trans ht₂)
  have hfresh : Fresh (n + s.accesses e) s₂ := by
    rw [hs₁.accesses_eq e] at hn ⊢
    exact ((hs.of_alike hs₁).beforeEviction hn).of_alike hs₂
  obtain ⟨henforced, hfresh'⟩ := halike.enforceMaxKeys hfresh
  refine ⟨hresult, ?_⟩
  rw [← hevicts]
  split
  · exact ⟨henforced, hfresh'⟩
  · exact ⟨halike, hfresh⟩

theorem Alike.runsAs {events : List EngineEvent} {s : StorageEngine S} {t : StorageEngine T}
    {results results' : List EngineResult} {k n m : ℕ} (h : Alike s t) (hs : Fresh k s)
    (hrun : RunsAs s events results n) (hn : k + n < 2 ^ 64)
    (hrun' : RunsAs t events results' m) : results = results' := by
  induction events generalizing s t results results' k n m with
  | nil =>
      cases hrun
      cases hrun'
      rfl
  | cons e events ih =>
      obtain - | ⟨hcall, hrest⟩ := hrun
      obtain - | ⟨hcall', hrest'⟩ := hrun'
      obtain ⟨rfl, halike, hfresh⟩ := h.answersAs hs (by omega) hcall hcall'
      rw [ih halike hfresh hrest (by omega) hrest']

end

/-- However the keys are hashed, into however many shards and in whatever order
the shards list them, a sequence of calls has the same results. -/
theorem sharding_invisible (S T : Sharding) (maxKeys : UInt64) (events : List EngineEvent)
    (results results' : List EngineResult) (n m : ℕ)
    (hrun : RunsAs ({ maxKeys := maxKeys } : StorageEngine S) events results n)
    (hrun' : RunsAs ({ maxKeys := maxKeys } : StorageEngine T) events results' m)
    (hn : n < 2 ^ 64) : results = results' := by
  have halike : Alike ({ maxKeys := maxKeys } : StorageEngine S)
      ({ maxKeys := maxKeys } : StorageEngine T) := ⟨fun _ ↦ rfl, rfl, rfl, rfl, rfl, rfl, rfl, rfl⟩
  have hfresh : Fresh 0 ({ maxKeys := maxKeys } : StorageEngine S) :=
    ⟨rfl, fun key entry hfind ↦ by simp at hfind, fun key entry _ _ hfind ↦ by simp at hfind⟩
  exact halike.runsAs hfresh hrun (by omega) hrun'

/-- Keys by the parity of their first byte. -/
def twoShards : Sharding := ⟨2, Nat.two_pos, fun key ↦ (key.headD 0).toUInt64⟩

/-- With room for one key, `SET a`, `SET b` and `GET b`: the key `a` is evicted. -/
def evictingCalls : List EngineEvent :=
  [⟨.set (ascii "a") (ascii "1"), fun _ ↦ 0⟩, ⟨.set (ascii "b") (ascii "2"), fun _ ↦ 0⟩,
    ⟨.get (ascii "b"), fun _ ↦ 0⟩, ⟨.takeEvictedKeys, fun _ ↦ 0⟩]

theorem sharding_invisible_twoShards :
    ({ maxKeys := 1 } : StorageEngine twoShards).results evictingCalls =
      [.nothing, .nothing, .value (some (ascii "2")), .keys [ascii "a"]] := by
  have hone : ({ maxKeys := 1 } : StorageEngine oneShard).results evictingCalls =
      [.nothing, .nothing, .value (some (ascii "2")), .keys [ascii "a"]] := by decide +kernel
  rw [← hone]
  exact sharding_invisible twoShards oneShard 1 evictingCalls _ _ _ _ (runsAs_results _ _)
    (runsAs_results _ _) (by decide +kernel)

end ByteCacheDB
