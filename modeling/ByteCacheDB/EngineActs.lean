import ByteCacheDB.EngineCalls

/-!
# What calls do to entries

A call of the engine is a list of small acts: an entry is met and gets a fresh
access number, an expired one is removed, a new one is created, a victim is
evicted.  What holds of every act holds of every run.
-/

namespace ByteCacheDB

inductive EngineAct where
  /-- the entry of a stored key is removed and counted as expired -/
  | expire (key : Bytes)
  /-- the entry of a stored key is written with a fresh access number -/
  | touch (key : Bytes) (entry : ValueEntry)
  /-- an entry is written for a key that is not stored -/
  | create (key : Bytes) (entry : ValueEntry)
  | delete (key : Bytes)
  | sweep (now : TimePoint)
  | clear
  | drain
  | limit (maxKeys : UInt64)
  | enable (enabled : Bool)
  /-- the least recently accessed entry is removed for the limit -/
  | evict (key : Bytes)

namespace EngineAct

variable {S : Sharding}

def apply (s : StorageEngine S) : EngineAct → StorageEngine S
  | expire key => s.removeExpired key
  | touch key entry => s.put key entry
  | create key entry => { s.put key entry with totalKeys := s.totalKeys + 1 }
  | delete key => { s with shards := s.shards.erase key, totalKeys := s.totalKeys - 1 }
  | sweep now => (s.cleanupExpired now).2
  | clear => s.flush.2
  | drain => s.takeEvictedKeys.2
  | limit maxKeys => { s with maxKeys := maxKeys }
  | enable enabled => { s with evictionEnabled := enabled }
  | evict key => s.evict key

/-- An act on a stored key meets an entry, a new key is new, and a victim is the oldest. -/
def Fits (s : StorageEngine S) : EngineAct → Prop
  | expire key | touch key _ | delete key => s.shards.find? key ≠ none
  | create key _ => s.shards.find? key = none
  | evict key => ∃ oldest, s.findVictim = some (key, oldest)
  | sweep _ | clear | drain | limit _ | enable _ => True

def creates : EngineAct → Bool
  | create _ _ => true
  | _ => false

/-- Only new entries make the engine larger. -/
theorem size_apply_le {s : StorageEngine S} {act : EngineAct} (hfits : act.Fits s)
    (h : act.creates = false) : (act.apply s).shards.size ≤ s.shards.size := by
  cases act with
  | expire key | delete key =>
      obtain ⟨entry, hfind⟩ := Option.ne_none_iff_exists'.mp hfits
      exact Nat.le_of_succ_le (PartMap.size_erase_of_some s.shards hfind).le
  | touch key entry =>
      obtain ⟨old, hfind⟩ := Option.ne_none_iff_exists'.mp hfits
      exact (PartMap.size_insert_of_some s.shards hfind).le
  | create => simp [creates] at h
  | sweep now =>
      have hsize := StorageEngine.size_cleanupExpired s now
      rw [apply]
      omega
  | clear => simp [apply, StorageEngine.flush]
  | drain | limit | enable => exact Nat.le_refl _
  | evict key =>
      obtain ⟨oldest, hvictim⟩ := hfits
      obtain ⟨entry, hfind, -⟩ := StorageEngine.findVictim_spec hvictim
      exact Nat.le_of_succ_le (StorageEngine.evicts_evict hfind).2.le

end EngineAct

namespace StorageEngine

variable {S : Sharding}

def after (s : StorageEngine S) (acts : List EngineAct) : StorageEngine S :=
  acts.foldl EngineAct.apply s

@[simp] theorem after_nil (s : StorageEngine S) : s.after [] = s := rfl

@[simp] theorem after_cons (s : StorageEngine S) (act : EngineAct) (acts : List EngineAct) :
    s.after (act :: acts) = (act.apply s).after acts := rfl

theorem after_append (s : StorageEngine S) (acts acts' : List EngineAct) :
    s.after (acts ++ acts') = (s.after acts).after acts' :=
  List.foldl_append

/-- Every act of the list fits where it is made. -/
def Performs (s : StorageEngine S) : List EngineAct → Prop
  | [] => True
  | act :: acts => act.Fits s ∧ Performs (act.apply s) acts

theorem performs_append (s : StorageEngine S) (acts acts' : List EngineAct) :
    s.Performs (acts ++ acts') ↔ s.Performs acts ∧ (s.after acts).Performs acts' := by
  induction acts generalizing s with
  | nil => simp [Performs]
  | cons act acts ih => simp [Performs, ih, and_assoc]

theorem size_after_le {s : StorageEngine S} {acts : List EngineAct} (h : s.Performs acts)
    (hacts : ∀ act ∈ acts, act.creates = false) : (s.after acts).shards.size ≤ s.shards.size := by
  induction acts generalizing s with
  | nil => exact Nat.le_refl _
  | cons act acts ih =>
      have hrest := ih h.2 fun a ha ↦ hacts a (List.mem_cons_of_mem act ha)
      exact hrest.trans (EngineAct.size_apply_le h.1 (hacts act List.mem_cons_self))

/-! ## The acts of the calls -/

def dropActs (s : StorageEngine S) (now : TimePoint) (key : Bytes) : List EngineAct :=
  match s.shards.find? key with
  | some entry => if isExpired entry now then [.expire key] else []
  | none => []

def putActs (s : StorageEngine S) (key : Bytes) (entry : ValueEntry) : List EngineAct :=
  match s.shards.find? key with
  | some _ => [.touch key entry]
  | none => [.create key entry]

def storeActs (s : StorageEngine S) (now : TimePoint) (key value : Bytes) : List EngineAct :=
  s.dropActs now key ++ (s.dropExpired now key).putActs key ⟨value, none, now, 0⟩

def storeAllActs (now : TimePoint) : StorageEngine S → List (Bytes × Bytes) → List EngineAct
  | _, [] => []
  | s, p :: ps => s.storeActs now p.1 p.2 ++ storeAllActs now (s.store now p.1 p.2) ps

/-- The calls that drop an expired entry and write the one they meet. -/
def meetActs (s : StorageEngine S) (now : TimePoint) (key : Bytes)
    (write : ValueEntry → ValueEntry) :
    List EngineAct :=
  match s.shards.find? key with
  | none => []
  | some entry => if isExpired entry now then [.expire key] else [.touch key (write entry)]

def mgetActs : StorageEngine S → List (Bytes × TimePoint) → List EngineAct
  | _, [] => []
  | s, p :: ps => s.meetActs p.2 p.1 id ++ mgetActs (s.get p.2 p.1).2 ps

def delActs (s : StorageEngine S) (key : Bytes) : List EngineAct :=
  match s.shards.find? key with
  | some _ => [.delete key]
  | none => []

def expireAtActs (s : StorageEngine S) (now : TimePoint) (key : Bytes) (expiresAt : TimePoint) :
    List EngineAct :=
  match s.shards.find? key with
  | none => []
  | some entry =>
      if isExpired entry now ∨ expiresAt ≤ now then [.expire key]
      else [.touch key { entry with expiresAt := some expiresAt }]

def incrementActs (s : StorageEngine S) (now : TimePoint) (key : Bytes) (delta : Int64) :
    List EngineAct :=
  s.dropActs now key ++
    match (s.dropExpired now key).shards.find? key with
    | none =>
        match checkedAdd 0 delta with
        | .error _ => []
        | .ok next => [.create key ⟨toStringI64 next, none, now, 0⟩]
    | some entry =>
        match storedInteger entry.value >>= (checkedAdd · delta) with
        | .error _ => []
        | .ok next => [.touch key { entry with value := toStringI64 next }]

def appendActs (s : StorageEngine S) (now : TimePoint) (key suffix : Bytes) : List EngineAct :=
  s.dropActs now key ++
    match (s.dropExpired now key).shards.find? key with
    | none => [.create key ⟨suffix, none, now, 0⟩]
    | some entry => [.touch key { entry with value := entry.value ++ suffix }]

/-- The acts of a call up to `enforce_max_keys`. -/
def sectionActs (s : StorageEngine S) (e : EngineEvent) : List EngineAct :=
  let now := e.clock 0
  match e.call with
  | .set key value => s.storeActs now key value
  | .mset args => storeAllActs now s (argPairs args)
  | .get key | .exists key | .strlen key | .ttl key => s.meetActs now key id
  | .persist key => s.meetActs now key fun entry ↦ { entry with expiresAt := none }
  | .mget keys => s.mgetActs (keys.mapIdx fun i key ↦ (key, e.clock i))
  | .del key => s.delActs key
  | .expireAt key expiresAt => s.expireAtActs now key expiresAt
  | .flush => [.clear]
  | .increment key delta => s.incrementActs now key delta
  | .append key suffix => s.appendActs now key suffix
  | .cleanupExpired | .size => [.sweep now]
  | .takeEvictedKeys => [.drain]
  | .setMaxKeys maxKeys => [.limit maxKeys]
  | .setEvictionEnabled enabled => [.enable enabled]
  | .keys | .snapshotEntries | .evictedKeys | .expiredKeysRemoved => []

def evictionActs (limit : UInt64) : ℕ → StorageEngine S → List EngineAct
  | 0, _ => []
  | rounds + 1, s =>
      if limit < s.totalKeys then
        match s.findVictim with
        | none => []
        | some (key, _) => .evict key :: evictionActs limit rounds (s.evict key)
      else []

def enforceActs (s : StorageEngine S) : List EngineAct :=
  if !s.evictionEnabled ∨ s.maxKeys = 0 ∨ s.totalKeys ≤ s.maxKeys then []
  else evictionActs s.maxKeys (s.shards.size + 1) s

/-- All acts of a call. -/
def acts (s : StorageEngine S) (e : EngineEvent) : List EngineAct :=
  s.sectionActs e ++
    if (s.beforeEviction e).2.1 then (s.beforeEviction e).2.2.enforceActs else []

/-- The acts of a sequence of calls. -/
def allActs (s : StorageEngine S) : List EngineEvent → List EngineAct
  | [] => []
  | e :: events => s.acts e ++ (s.call e).2.allActs events

/-! ## Which acts there are -/

section
variable (s : StorageEngine S) (now : TimePoint) (key : Bytes) {P : EngineAct → Prop}

theorem forall_dropActs (hexpire : P (.expire key)) : ∀ act ∈ s.dropActs now key, P act := by
  unfold dropActs
  split
  · split <;> simp [hexpire]
  · simp

theorem forall_meetActs (hexpire : P (.expire key)) (htouch : ∀ entry, P (.touch key entry))
    (write : ValueEntry → ValueEntry) : ∀ act ∈ s.meetActs now key write, P act := by
  unfold meetActs
  split
  · simp
  · split <;> simp [hexpire, htouch]

theorem forall_storeActs (hexpire : P (.expire key)) (htouch : ∀ entry, P (.touch key entry))
    (hcreate : ∀ entry, P (.create key entry)) (value : Bytes) :
    ∀ act ∈ s.storeActs now key value, P act := by
  refine List.forall_mem_append.mpr ⟨forall_dropActs s now key hexpire, ?_⟩
  unfold putActs
  split <;> simp [htouch, hcreate]

theorem forall_expireAtActs (hexpire : P (.expire key)) (htouch : ∀ entry, P (.touch key entry))
    (expiresAt : TimePoint) : ∀ act ∈ s.expireAtActs now key expiresAt, P act := by
  unfold expireAtActs
  split
  · simp
  · split <;> simp [hexpire, htouch]

theorem forall_mgetActs (hexpire : ∀ key, P (.expire key))
    (htouch : ∀ key entry, P (.touch key entry)) (pairs : List (Bytes × TimePoint)) :
    ∀ act ∈ s.mgetActs pairs, P act := by
  induction pairs generalizing s with
  | nil => simp [mgetActs]
  | cons p ps ih =>
      exact List.forall_mem_append.mpr ⟨forall_meetActs s p.2 p.1 (hexpire _) (htouch _) id, ih _⟩

theorem forall_storeAllActs (hexpire : ∀ key, P (.expire key))
    (htouch : ∀ key entry, P (.touch key entry)) (hcreate : ∀ key entry, P (.create key entry))
    (pairs : List (Bytes × Bytes)) : ∀ act ∈ storeAllActs now s pairs, P act := by
  induction pairs generalizing s with
  | nil => simp [storeAllActs]
  | cons p ps ih =>
      exact List.forall_mem_append.mpr
        ⟨forall_storeActs s now p.1 (hexpire _) (htouch _) (hcreate _) p.2, ih _⟩

theorem forall_evictionActs (hevict : ∀ key, P (.evict key)) (limit : UInt64) (rounds : ℕ) :
    ∀ act ∈ evictionActs limit rounds s, P act := by
  induction rounds generalizing s with
  | zero => simp [evictionActs]
  | succ rounds ih =>
      unfold evictionActs
      split
      · split
        · simp
        · exact List.forall_mem_cons.mpr ⟨hevict _, ih _⟩
      · simp

theorem forall_enforceActs (hevict : ∀ key, P (.evict key)) : ∀ act ∈ s.enforceActs, P act := by
  unfold enforceActs
  split
  · simp
  · exact forall_evictionActs s hevict _ _

end

/-! ## They are what the calls do -/

section
variable (s : StorageEngine S) (now : TimePoint) (key : Bytes)

theorem performs_dropActs :
    s.Performs (s.dropActs now key) ∧ s.after (s.dropActs now key) = s.dropExpired now key := by
  unfold dropActs dropExpired
  cases hfind : s.shards.find? key with
  | none => simp [Performs]
  | some entry =>
      cases hexp : isExpired entry now <;>
        simp [Performs, EngineAct.Fits, EngineAct.apply, hfind, hexp]

theorem performs_putActs (entry : ValueEntry) :
    s.Performs (s.putActs key entry) ∧ s.after (s.putActs key entry) = s.putCounted key entry := by
  unfold putActs putCounted
  cases hfind : s.shards.find? key <;>
    simp [Performs, EngineAct.Fits, EngineAct.apply, hfind]

/-- Acts on an engine, and then on the one they lead to. -/
theorem Performs.then {s t u : StorageEngine S} {acts acts' : List EngineAct}
    (h : s.Performs acts ∧ s.after acts = t) (h' : t.Performs acts' ∧ t.after acts' = u) :
    s.Performs (acts ++ acts') ∧ s.after (acts ++ acts') = u := by
  obtain ⟨hperforms, rfl⟩ := h
  rw [performs_append, after_append]
  exact ⟨⟨hperforms, h'.1⟩, h'.2⟩

theorem performs_storeActs (value : Bytes) :
    s.Performs (s.storeActs now key value) ∧
      s.after (s.storeActs now key value) = s.store now key value :=
  Performs.then (performs_dropActs s now key) (performs_putActs _ key _)

theorem performs_storeAllActs (pairs : List (Bytes × Bytes)) :
    s.Performs (storeAllActs now s pairs) ∧
      s.after (storeAllActs now s pairs) = s.storeAll now pairs := by
  induction pairs generalizing s with
  | nil => exact ⟨trivial, rfl⟩
  | cons p ps ih => exact Performs.then (performs_storeActs s now p.1 p.2) (ih _)

theorem performs_meetActs (write : ValueEntry → ValueEntry) :
    s.Performs (s.meetActs now key write) ∧
      s.after (s.meetActs now key write) = s.meet now key write := by
  unfold meetActs meet
  cases hfind : s.shards.find? key with
  | none => simp [Performs]
  | some entry =>
      cases hexp : isExpired entry now <;>
        simp [Performs, EngineAct.Fits, EngineAct.apply, hfind, hexp]

theorem performs_get :
    s.Performs (s.meetActs now key id) ∧ s.after (s.meetActs now key id) = (s.get now key).2 := by
  rw [snd_get]
  exact performs_meetActs s now key id

theorem performs_ttl :
    s.Performs (s.meetActs now key id) ∧ s.after (s.meetActs now key id) = (s.ttl now key).2 := by
  rw [snd_ttl]
  exact performs_meetActs s now key id

theorem performs_persist :
    s.Performs (s.meetActs now key fun entry ↦ { entry with expiresAt := none }) ∧
      s.after (s.meetActs now key fun entry ↦ { entry with expiresAt := none }) =
        (s.persist now key).2 := by
  rw [snd_persist]
  exact performs_meetActs s now key _

theorem performs_mgetActs (pairs : List (Bytes × TimePoint)) :
    s.Performs (s.mgetActs pairs) ∧ s.after (s.mgetActs pairs) = (s.mget pairs).2 := by
  induction pairs generalizing s with
  | nil => exact ⟨trivial, rfl⟩
  | cons p ps ih => exact Performs.then (performs_get s p.2 p.1) (ih _)

theorem performs_delActs :
    s.Performs (s.delActs key) ∧ s.after (s.delActs key) = (s.del key).2 := by
  unfold delActs del
  cases hfind : s.shards.find? key <;> simp [Performs, EngineAct.Fits, EngineAct.apply, hfind]

theorem performs_expireAtActs (expiresAt : TimePoint) :
    s.Performs (s.expireAtActs now key expiresAt) ∧
      s.after (s.expireAtActs now key expiresAt) = (s.expireAt now key expiresAt).2 := by
  unfold expireAtActs expireAt
  cases hfind : s.shards.find? key with
  | none => simp [Performs]
  | some entry =>
      by_cases hgone : isExpired entry now ∨ expiresAt ≤ now <;>
        simp [Performs, EngineAct.Fits, EngineAct.apply, hfind, hgone]

theorem performs_incrementActs (delta : Int64) :
    s.Performs (s.incrementActs now key delta) ∧
      s.after (s.incrementActs now key delta) = (s.incrementLocked now key delta).2 := by
  refine Performs.then (performs_dropActs s now key) ?_
  simp only [incrementLocked]
  cases hfind : (s.dropExpired now key).shards.find? key with
  | none =>
      cases checkedAdd 0 delta <;>
        simp [Performs, EngineAct.Fits, EngineAct.apply, hfind, putCounted]
  | some entry =>
      dsimp only
      cases storedInteger entry.value >>= (checkedAdd · delta) <;>
        simp [Performs, EngineAct.Fits, EngineAct.apply, hfind]

theorem performs_appendActs (suffix : Bytes) :
    s.Performs (s.appendActs now key suffix) ∧
      s.after (s.appendActs now key suffix) = (s.appendLocked now key suffix).2 := by
  refine Performs.then (performs_dropActs s now key) ?_
  simp only [appendLocked]
  cases hfind : (s.dropExpired now key).shards.find? key <;>
    simp [Performs, EngineAct.Fits, EngineAct.apply, hfind, putCounted]

end

theorem performs_sectionActs (s : StorageEngine S) (e : EngineEvent) :
    s.Performs (s.sectionActs e) ∧ s.after (s.sectionActs e) = (s.beforeEviction e).2.2 := by
  obtain ⟨call, clock⟩ := e
  cases call with
  | set key value => exact performs_storeActs s _ key value
  | mset args => exact performs_storeAllActs s _ (argPairs args)
  | get key | «exists» key | strlen key => exact performs_get s _ key
  | mget keys => exact performs_mgetActs s _
  | del key => exact performs_delActs s key
  | expireAt key expiresAt => exact performs_expireAtActs s _ key expiresAt
  | ttl key => exact performs_ttl s _ key
  | persist key => exact performs_persist s _ key
  | increment key delta =>
      rw [snd_beforeEviction_increment]
      exact performs_incrementActs s _ key delta
  | append key suffix => exact performs_appendActs s _ key suffix
  | keys | snapshotEntries | evictedKeys | expiredKeysRemoved => exact ⟨trivial, rfl⟩
  | flush | cleanupExpired | size | takeEvictedKeys | setMaxKeys | setEvictionEnabled =>
      exact ⟨⟨trivial, trivial⟩, rfl⟩

theorem performs_evictionActs (limit : UInt64) (rounds : ℕ) (s : StorageEngine S) :
    s.Performs (evictionActs limit rounds s) ∧
      s.after (evictionActs limit rounds s) = evictionLoop limit rounds s := by
  induction rounds generalizing s with
  | zero => exact ⟨trivial, rfl⟩
  | succ rounds ih =>
      unfold evictionActs evictionLoop
      cases hvictim : s.findVictim with
      | none => split <;> exact ⟨trivial, rfl⟩
      | some victim =>
          obtain ⟨key, oldest⟩ := victim
          obtain ⟨hperforms, hafter⟩ := ih (s.evict key)
          split
          · exact ⟨⟨⟨oldest, hvictim⟩, hperforms⟩, hafter⟩
          · exact ⟨trivial, rfl⟩

theorem performs_enforceActs (s : StorageEngine S) :
    s.Performs s.enforceActs ∧ s.after s.enforceActs = s.enforceMaxKeys := by
  unfold enforceActs enforceMaxKeys
  split
  · exact ⟨trivial, rfl⟩
  · exact performs_evictionActs _ _ s

theorem performs_acts (s : StorageEngine S) (e : EngineEvent) :
    s.Performs (s.acts e) ∧ s.after (s.acts e) = (s.call e).2 := by
  refine Performs.then (performs_sectionActs s e) ?_
  rw [call_eq]
  dsimp only
  split
  · exact performs_enforceActs _
  · exact ⟨trivial, rfl⟩

theorem performs_allActs (s : StorageEngine S) (events : List EngineEvent) :
    s.Performs (s.allActs events) ∧ s.after (s.allActs events) = s.calls events := by
  induction events generalizing s with
  | nil => exact ⟨trivial, rfl⟩
  | cons e events ih => exact Performs.then (performs_acts s e) (ih _)

end StorageEngine

end ByteCacheDB
