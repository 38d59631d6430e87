import ByteCacheDB.EngineActs

/-!
# Every key is accounted for

Entries are created by writes, and they leave the engine as expired, evicted,
deleted or flushed ones.  The counters of the engine and the results of `del` and
`flush` together give the number of entries ever created, and what has been
evicted is what `take_evicted_keys` has handed out or will.
-/

namespace ByteCacheDB

namespace EngineAct

def victim? : EngineAct → Option Bytes
  | evict key => some key
  | _ => none

/-- The acts that no call makes but the one they are named after. -/
def singular : EngineAct → Bool
  | delete _ | clear | drain => true
  | _ => false

end EngineAct

/-- The number of entries that some acts create. -/
def creations (acts : List EngineAct) : ℕ := acts.countP EngineAct.creates

/-- The keys that some acts evict, in order. -/
def victims (acts : List EngineAct) : List Bytes := acts.filterMap EngineAct.victim?

theorem creations_append (acts acts' : List EngineAct) :
    creations (acts ++ acts') = creations acts + creations acts' :=
  List.countP_append

theorem victims_append (acts acts' : List EngineAct) :
    victims (acts ++ acts') = victims acts ++ victims acts' :=
  List.filterMap_append

/-! ## What the callers see -/

def delResult : EngineCall × EngineResult → ℕ
  | (.del _, .count n) => n
  | _ => 0

def flushResult : EngineCall × EngineResult → ℕ
  | (.flush, .count n) => n
  | _ => 0

def drainedKeys : EngineCall × EngineResult → List Bytes
  | (.takeEvictedKeys, .keys keys) => keys
  | _ => []

namespace StorageEngine

variable {S : Sharding}

/-- The calls of a run with their results. -/
def transcript (s : StorageEngine S) : List EngineEvent → List (EngineCall × EngineResult)
  | [] => []
  | e :: events => (e.call, (s.call e).1) :: (s.call e).2.transcript events

/-! ## One act -/

/-- Of `created` entries, the engine still has some, `taken` were deleted or flushed, and
the others are in its counters. -/
structure Balanced (s : StorageEngine S) (created taken : ℕ) (evicted : List Bytes) : Prop where
  entries : ∃ expired, created = s.shards.size + expired + evicted.length + taken ∧
    s.expiredKeysRemoved = UInt64.ofNat expired
  evicted : s.evictedKeys = UInt64.ofNat evicted.length
  drift : s.drift = 0

/-- A step that moves entries between the accounts. -/
theorem Balanced.move {s s' : StorageEngine S} {created taken : ℕ} {evicted : List Bytes}
    (h : s.Balanced created taken evicted) (create expire take : ℕ) (evict : List Bytes)
    (hsize : s'.shards.size + expire + evict.length + take = s.shards.size + create)
    (hexpired : s'.expiredKeysRemoved = s.expiredKeysRemoved + UInt64.ofNat expire)
    (hevicted : s'.evictedKeys = s.evictedKeys + UInt64.ofNat evict.length)
    (hdrift : s'.drift = 0) :
    s'.Balanced (created + create) (taken + take) (evicted ++ evict) := by
  obtain ⟨⟨expired, hcreated, hcount⟩, hkeys, -⟩ := h
  refine ⟨⟨expired + expire, ?_, ?_⟩, ?_, hdrift⟩
  · rw [List.length_append]
    omega
  · rw [hexpired, hcount, UInt64.ofNat_add]
  · rw [hevicted, hkeys, List.length_append, UInt64.ofNat_add]

theorem Balanced.act {s : StorageEngine S} {created taken : ℕ} {evicted : List Bytes}
    (h : s.Balanced created taken evicted) {act : EngineAct} (hfits : act.Fits s)
    (hact : act.singular = false) :
    (act.apply s).Balanced (created + creations [act]) taken (evicted ++ victims [act]) := by
  cases act with
  | expire key =>
      obtain ⟨entry, hfind⟩ := Option.ne_none_iff_exists'.mp hfits
      have hsize := PartMap.size_erase_of_some s.shards hfind
      exact h.move 0 1 0 [] hsize rfl (UInt64.add_zero _).symm
        ((keeps_removeExpired hfind).drift.trans h.drift)
  | touch key entry =>
      obtain ⟨old, hfind⟩ := Option.ne_none_iff_exists'.mp hfits
      exact h.move 0 0 0 [] (PartMap.size_insert_of_some s.shards hfind) (UInt64.add_zero _).symm
        (UInt64.add_zero _).symm ((keeps_put entry hfind).drift.trans h.drift)
  | create key entry =>
      have hfind : s.shards.find? key = none := hfits
      have hput : EngineAct.apply s (.create key entry) = s.putCounted key entry := by
        simp [EngineAct.apply, putCounted, hfind]
      refine h.move 1 0 0 [] (PartMap.size_insert_of_none s.shards _ hfind) (UInt64.add_zero _).symm
        (UInt64.add_zero _).symm ?_
      rw [hput, (keeps_putCounted s key entry).drift, h.drift]
  | sweep now =>
      have hsize := size_cleanupExpired s now
      have hdrift := (keeps_cleanupExpired s now).drift.trans h.drift
      obtain ⟨shards, heq⟩ := cleanupExpired_eq s now
      refine h.move 0 (s.cleanupExpired now).1 0 [] ?_ ?_ ?_ hdrift
      · simpa [EngineAct.apply, Nat.add_comm] using hsize
      · rw [EngineAct.apply, heq]
      · rw [EngineAct.apply, heq]
        exact (UInt64.add_zero _).symm
  | limit maxKeys | enable enabled =>
      exact h.move 0 0 0 [] rfl (UInt64.add_zero _).symm (UInt64.add_zero _).symm h.drift
  | evict key =>
      obtain ⟨oldest, hvictim⟩ := hfits
      obtain ⟨entry, hfind, -⟩ := findVictim_spec hvictim
      obtain ⟨hevicts, hsize⟩ := evicts_evict hfind
      refine h.move 0 0 0 [key] hsize ?_ ?_ (hevicts.drift.trans h.drift)
      · rw [EngineAct.apply, evict_eq hfind]
        exact (UInt64.add_zero _).symm
      · rw [EngineAct.apply, evict_eq hfind]
        rfl
  | delete | clear | drain => simp [EngineAct.singular] at hact

theorem Balanced.acts {s : StorageEngine S} {created taken : ℕ} {evicted : List Bytes}
    (h : s.Balanced created taken evicted) {acts : List EngineAct} (hacts : s.Performs acts)
    (hsingular : ∀ act ∈ acts, act.singular = false) :
    (s.after acts).Balanced (created + creations acts) taken (evicted ++ victims acts) := by
  induction acts generalizing s created evicted with
  | nil => simpa [creations, victims] using h
  | cons act acts ih =>
      have hrest := ih (h.act hacts.1 (hsingular act (by simp))) hacts.2
        fun a ha ↦ hsingular a (by simp [ha])
      rw [← List.singleton_append, creations_append, victims_append, ← Nat.add_assoc,
        ← List.append_assoc]
      exact hrest

theorem pending_after {s : StorageEngine S} {acts : List EngineAct} (hacts : s.Performs acts)
    (hsingular : ∀ act ∈ acts, act.singular = false) :
    (s.after acts).pendingEvictedKeys = s.pendingEvictedKeys ++ victims acts := by
  induction acts generalizing s with
  | nil => simp [victims]
  | cons act acts ih =>
      have hact : (act.apply s).pendingEvictedKeys = s.pendingEvictedKeys ++ victims [act] := by
        have hnot := hsingular act (by simp)
        cases act with
        | sweep now => exact (keeps_cleanupExpired s now).pending.trans (List.append_nil _).symm
        | evict key =>
            obtain ⟨⟨oldest, hvictim⟩, -⟩ := hacts
            obtain ⟨entry, hfind, -⟩ := findVictim_spec hvictim
            exact (evicts_evict hfind).1.pending
        | delete | clear | drain => simp [EngineAct.singular] at hnot
        | _ => simp [victims, EngineAct.victim?, EngineAct.apply, removeExpired, put]
      have hrest := ih hacts.2 fun a ha ↦ hsingular a (by simp [ha])
      rw [after_cons, hrest, hact, List.append_assoc, ← victims_append, List.singleton_append]

/-! ## One call -/

section
variable (s : StorageEngine S)

theorem singular_sectionActs {e : EngineEvent} (hdel : ∀ key, e.call ≠ .del key)
    (hflush : e.call ≠ .flush) (htake : e.call ≠ .takeEvictedKeys) :
    ∀ act ∈ s.sectionActs e, act.singular = false := by
  obtain ⟨call, clock⟩ := e
  cases call with
  | set key value =>
      exact forall_storeActs (P := (·.singular = false)) s _ key rfl (fun _ ↦ rfl)
        (fun _ ↦ rfl) value
  | mset args =>
      exact forall_storeAllActs (P := (·.singular = false)) s _ (fun _ ↦ rfl) (fun _ _ ↦ rfl)
        (fun _ _ ↦ rfl) (argPairs args)
  | get key | «exists» key | strlen key | ttl key | persist key =>
      exact forall_meetActs (P := (·.singular = false)) s _ key rfl (fun _ ↦ rfl) _
  | mget keys => exact forall_mgetActs (P := (·.singular = false)) s (fun _ ↦ rfl) (fun _ _ ↦ rfl) _
  | del key => exact absurd rfl (hdel key)
  | expireAt key expiresAt =>
      exact forall_expireAtActs (P := (·.singular = false)) s _ key rfl (fun _ ↦ rfl) expiresAt
  | increment key delta =>
      refine List.forall_mem_append.mpr
        ⟨forall_dropActs (P := (·.singular = false)) s _ key rfl, ?_⟩
      split <;> split <;> simp [EngineAct.singular]
  | append key suffix =>
      refine List.forall_mem_append.mpr
        ⟨forall_dropActs (P := (·.singular = false)) s _ key rfl, ?_⟩
      split <;> simp [EngineAct.singular]
  | flush => exact absurd rfl hflush
  | takeEvictedKeys => exact absurd rfl htake
  | cleanupExpired | size | setMaxKeys | setEvictionEnabled =>
      simp [sectionActs, EngineAct.singular]
  | keys | snapshotEntries | evictedKeys | expiredKeysRemoved => simp [sectionActs]

theorem singular_acts {e : EngineEvent} (hdel : ∀ key, e.call ≠ .del key)
    (hflush : e.call ≠ .flush) (htake : e.call ≠ .takeEvictedKeys) :
    ∀ act ∈ s.acts e, act.singular = false := by
  refine List.forall_mem_append.mpr ⟨singular_sectionActs s hdel hflush htake, ?_⟩
  split
  · exact forall_enforceActs (P := (·.singular = false)) _ fun _ ↦ rfl
  · simp

end

/-- The accounts, with what `del` and `flush` have returned in place of what they removed,
and what `take_evicted_keys` has handed out. -/
structure Accounted (s : StorageEngine S) (created returned : ℕ) (evicted drained : List Bytes) :
    Prop where
  balanced : ∃ taken, s.Balanced created taken evicted ∧ returned ≤ taken ∧
    UInt64.ofNat returned = UInt64.ofNat taken
  pending : drained ++ s.pendingEvictedKeys = evicted

section
variable {s : StorageEngine S} {created returned : ℕ} {evicted drained : List Bytes}

theorem Accounted.del (h : s.Accounted created returned evicted drained) (key : Bytes) :
    (s.del key).2.Accounted created (returned + (s.del key).1) evicted drained := by
  obtain ⟨⟨taken, hbalanced, hle, hsame⟩, hpending⟩ := h
  have hdrift := (keeps_del s key).drift.trans hbalanced.drift
  cases hfind : s.shards.find? key with
  | none =>
      have hdel : s.del key = (0, s) := by simp [StorageEngine.del, hfind]
      rw [hdel]
      exact ⟨⟨taken, hbalanced, hle, hsame⟩, hpending⟩
  | some entry =>
      have hdel : s.del key = (1, { s with
          shards := s.shards.erase key, totalKeys := s.totalKeys - 1 }) := by
        simp [StorageEngine.del, hfind]
      have hmoved : (s.del key).2.Balanced (created + 0) (taken + 1) (evicted ++ []) := by
        refine hbalanced.move 0 0 1 [] ?_ ?_ ?_ hdrift
        · rw [hdel]
          exact PartMap.size_erase_of_some s.shards hfind
        · rw [hdel]
          exact (UInt64.add_zero _).symm
        · rw [hdel]
          exact (UInt64.add_zero _).symm
      rw [Nat.add_zero, List.append_nil] at hmoved
      refine ⟨⟨taken + 1, hmoved, ?_, ?_⟩, ?_⟩
      · rw [hdel]
        exact Nat.succ_le_succ hle
      · rw [hdel, UInt64.ofNat_add, UInt64.ofNat_add, hsame]
      · rw [hdel]
        exact hpending

theorem Accounted.flush (h : s.Accounted created returned evicted drained) :
    s.flush.2.Accounted created (returned + s.flush.1.toNat) evicted drained := by
  obtain ⟨⟨taken, hbalanced, hle, hsame⟩, hpending⟩ := h
  have htotal : s.flush.1 = UInt64.ofNat s.shards.size := totalKeys_of_drift hbalanced.drift
  have hmoved : s.flush.2.Balanced (created + 0) (taken + s.shards.size) (evicted ++ []) := by
    refine hbalanced.move 0 0 s.shards.size [] ?_ (UInt64.add_zero _).symm (UInt64.add_zero _).symm
      (drift_flush s)
    simp [StorageEngine.flush]
  rw [Nat.add_zero, List.append_nil] at hmoved
  refine ⟨⟨taken + s.shards.size, hmoved, ?_, ?_⟩, hpending⟩
  · have hmod := Nat.mod_le s.shards.size (2 ^ 64)
    rw [htotal, UInt64.toNat_ofNat']
    omega
  · rw [UInt64.ofNat_add, UInt64.ofNat_add, hsame, UInt64.ofNat_toNat, htotal]

theorem Accounted.call (h : s.Accounted created returned evicted drained) (e : EngineEvent) :
    (s.call e).2.Accounted (created + creations (s.acts e))
      (returned + (delResult (e.call, (s.call e).1) + flushResult (e.call, (s.call e).1)))
      (evicted ++ victims (s.acts e)) (drained ++ drainedKeys (e.call, (s.call e).1)) := by
  obtain ⟨call, clock⟩ := e
  by_cases hdel : ∃ key, call = .del key
  · obtain ⟨key, rfl⟩ := hdel
    have hacts : creations (s.acts ⟨.del key, clock⟩) = 0 ∧
        victims (s.acts ⟨.del key, clock⟩) = [] := by
      simp only [StorageEngine.acts, sectionActs, delActs, beforeEviction]
      cases s.shards.find? key <;> exact ⟨rfl, rfl⟩
    rw [hacts.1, hacts.2, List.append_nil]
    exact ⟨(h.del key).balanced, (List.append_nil drained).symm ▸ (h.del key).pending⟩
  by_cases hflush : call = .flush
  · subst hflush
    have hadd : (0 : ℕ) + s.flush.1.toNat = s.flush.1.toNat := Nat.zero_add _
    change s.flush.2.Accounted (created + 0) (returned + (0 + s.flush.1.toNat)) (evicted ++ [])
      (drained ++ [])
    rw [hadd, List.append_nil, List.append_nil]
    exact h.flush
  by_cases htake : call = .takeEvictedKeys
  · subst htake
    change s.takeEvictedKeys.2.Accounted (created + 0) (returned + 0) (evicted ++ [])
      (drained ++ s.pendingEvictedKeys)
    obtain ⟨⟨taken, ⟨hentries, hcount, hdrift⟩, hreturned⟩, hpending⟩ := h
    rw [List.append_nil]
    exact ⟨⟨taken, ⟨hentries, hcount, hdrift⟩, hreturned⟩, (List.append_nil _).trans hpending⟩
  have hsingular := singular_acts s (e := ⟨call, clock⟩) (fun key hkey ↦ hdel ⟨key, hkey⟩)
    hflush htake
  obtain ⟨hperforms, hafter⟩ := performs_acts s ⟨call, clock⟩
  have hseen (result : EngineResult) : delResult (call, result) = 0 ∧
      flushResult (call, result) = 0 ∧ drainedKeys (call, result) = [] := by
    cases call <;> simp_all [delResult, flushResult, drainedKeys]
  obtain ⟨hdels, hflushes, hdrained⟩ := hseen (s.call ⟨call, clock⟩).1
  obtain ⟨⟨taken, hbalanced, hreturned⟩, hpending⟩ := h
  dsimp only
  rw [hdels, hflushes, hdrained, List.append_nil, ← hafter]
  refine ⟨⟨taken, hbalanced.acts hperforms hsingular, hreturned⟩, ?_⟩
  rw [pending_after hperforms hsingular, ← List.append_assoc, hpending]

theorem Accounted.calls (h : s.Accounted created returned evicted drained)
    (events : List EngineEvent) :
    (s.calls events).Accounted (created + creations (s.allActs events))
      (returned + (((s.transcript events).map delResult).sum +
        ((s.transcript events).map flushResult).sum))
      (evicted ++ victims (s.allActs events))
      (drained ++ (s.transcript events).flatMap drainedKeys) := by
  induction events generalizing s created returned evicted drained with
  | nil => simpa [StorageEngine.calls, allActs, transcript, creations, victims] using h
  | cons e events ih =>
      have hrest := ih (h.call e)
      have hsum (del flush dels flushes : ℕ) : returned + (del + flush) + (dels + flushes) =
          returned + ((del + dels) + (flush + flushes)) := by omega
      rw [hsum, Nat.add_assoc created, ← creations_append, List.append_assoc evicted,
        ← victims_append, List.append_assoc drained] at hrest
      exact hrest

/-- The accounts add up modulo `2 ^ 64`, and exactly as long as no counter has wrapped. -/
theorem Accounted.total {dels flushes : ℕ}
    (h : s.Accounted created (dels + flushes) evicted drained) :
    UInt64.ofNat created = s.totalKeys + s.expiredKeysRemoved + s.evictedKeys +
        UInt64.ofNat dels + UInt64.ofNat flushes ∧
      (created < 2 ^ 64 → created = s.totalKeys.toNat + s.expiredKeysRemoved.toNat +
        s.evictedKeys.toNat + dels + flushes) := by
  obtain ⟨⟨taken, ⟨⟨expired, hcreated, hexpired⟩, hevicted, hdrift⟩, hle, hsame⟩, -⟩ := h
  rw [totalKeys_of_drift hdrift, hexpired, hevicted]
  constructor
  · rw [hcreated, UInt64.ofNat_add, ← hsame]
    simp only [UInt64.ofNat_add, UInt64.add_assoc]
  · intro hbound
    have hmod {k : ℕ} (hk : k ≤ created) : (UInt64.ofNat k).toNat = k := by
      rw [UInt64.toNat_ofNat']
      exact Nat.mod_eq_of_lt (by omega)
    have htaken := congrArg UInt64.toNat hsame
    rw [hmod (by omega), hmod (by omega)] at htaken
    rw [hmod (by omega), hmod (by omega), hmod (by omega)]
    omega

end

end StorageEngine

open StorageEngine

/-- Over every run from an empty engine, the entries created are those stored, expired,
evicted, deleted and flushed, and the keys handed out or still to be handed out by
`take_evicted_keys` are those evicted, each once and in order. -/
theorem entries_accounted (S : Sharding) (maxKeys : UInt64) (events : List EngineEvent) :
    let empty : StorageEngine S := { maxKeys := maxKeys }
    let s := empty.calls events
    let acts := empty.allActs events
    let seen := empty.transcript events
    UInt64.ofNat (creations acts) = s.totalKeys + s.expiredKeysRemoved + s.evictedKeys +
        UInt64.ofNat (seen.map delResult).sum + UInt64.ofNat (seen.map flushResult).sum ∧
      (creations acts < 2 ^ 64 →
        creations acts = s.totalKeys.toNat + s.expiredKeysRemoved.toNat + s.evictedKeys.toNat +
          (seen.map delResult).sum + (seen.map flushResult).sum) ∧
      seen.flatMap drainedKeys ++ s.pendingEvictedKeys = victims acts ∧
      s.evictedKeys = UInt64.ofNat (victims acts).length := by
  intro empty s acts seen
  have hstart : empty.Accounted 0 0 [] [] := by
    refine ⟨⟨0, ⟨⟨0, ?_, rfl⟩, rfl, ?_⟩, Nat.le_refl 0, rfl⟩, rfl⟩
    · simp [empty]
    · simp [empty, drift]
  have hend := hstart.calls events
  simp only [Nat.zero_add, List.nil_append] at hend
  obtain ⟨hmodulo, hexact⟩ := hend.total
  obtain ⟨taken, hbalanced, -⟩ := hend.balanced
  exact ⟨hmodulo, hexact, hend.pending, hbalanced.evicted⟩

/-- Three writes under a limit of one key, a deadline that has passed, and a `DEL`. -/
def accountedRun : List EngineEvent :=
  [⟨.set (ascii "a") (ascii "1"), fun _ ↦ 0⟩, ⟨.mset [ascii "b", ascii "2"], fun _ ↦ 1⟩,
    ⟨.takeEvictedKeys, fun _ ↦ 1⟩, ⟨.expireAt (ascii "b") 0, fun _ ↦ 2⟩,
    ⟨.append (ascii "c") (ascii "3"), fun _ ↦ 3⟩, ⟨.del (ascii "c"), fun _ ↦ 4⟩]

theorem entries_accounted_three :
    let s := calls ({ maxKeys := 1 } : StorageEngine oneShard) accountedRun
    3 = s.totalKeys.toNat + s.expiredKeysRemoved.toNat + s.evictedKeys.toNat + 1 + 0 := by
  have hcreated :
      creations (allActs ({ maxKeys := 1 } : StorageEngine oneShard) accountedRun) = 3 := by
    decide +kernel
  have hexact := (entries_accounted oneShard 1 accountedRun).2.1 (by rw [hcreated]; decide)
  have hseen : ((transcript ({ maxKeys := 1 } : StorageEngine oneShard) accountedRun).map
        delResult).sum = 1 ∧ ((transcript ({ maxKeys := 1 } : StorageEngine oneShard)
          accountedRun).map
        flushResult).sum = 0 := by
    decide +kernel
  rw [hcreated, hseen.1, hseen.2] at hexact
  exact hexact

end ByteCacheDB
