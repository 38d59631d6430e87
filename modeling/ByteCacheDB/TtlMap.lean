import ByteCacheDB.EngineCalls
import ByteCacheDB.Execution

/-!
# The engine as a map with deadlines

Expired entries stay in the engine until a call meets them.  The reference map
has none: a call first drops what is expired and then acts on the rest.  Without
a key limit the engine cannot be told from it.
-/

namespace ByteCacheDB

open StorageEngine

namespace TtlMap

/-- What is visible of a store at a time. -/
def visible (t : TimePoint) (m : Store) : Store := fun key ↦ (m key).live t

/-- What an increment of a cell gives. -/
def incremented (delta : Int64) : Cell → Except Bytes Int64
  | some (value, _) => storedInteger value >>= (checkedAdd · delta)
  | none => checkedAdd 0 delta

/-- The map after a call that finds the map `m`. -/
def next (now : TimePoint) (m : Store) : EngineCall → Store
  | .set key value => Function.update m key (some (value, none))
  | .mset args =>
      (argPairs args).foldl (fun m p ↦ Function.update m p.1 (some (p.2, none))) m
  | .del key => Function.update m key none
  | .flush => fun _ ↦ none
  | .expireAt key deadline =>
      Function.update m key
        ((m key).bind fun e ↦ if deadline ≤ now then none else some (e.1, some deadline))
  | .persist key => Function.update m key ((m key).map fun e ↦ (e.1, none))
  | .increment key delta =>
      match incremented delta (m key) with
      | .ok n => Function.update m key (some (toStringI64 n, (m key).bind Prod.snd))
      | .error _ => m
  | .append key suffix =>
      Function.update m key
        (match m key with
        | some (value, deadline) => some (value ++ suffix, deadline)
        | none => some (suffix, none))
  | .get _ | .mget _ | .exists _ | .ttl _ | .strlen _ | .keys | .size | .snapshotEntries
  | .cleanupExpired | .evictedKeys | .expiredKeysRemoved | .takeEvictedKeys | .setMaxKeys _
  | .setEvictionEnabled _ => m

def step (m : Store) (e : EngineEvent) : Store := next (e.clock 0) (visible (e.clock 0) m) e.call

def run (events : List EngineEvent) : Store := events.foldl step fun _ ↦ none

/-- What is stored after a call that finds `m` stored: an expired entry stays there until a
call meets it. -/
def keep (m : Store) (e : EngineEvent) : Store :=
  match e.call with
  | .set _ _ | .mset _ | .del _ | .flush => next (e.clock 0) m e.call
  | .get key | .exists key | .strlen key | .ttl key | .persist key | .expireAt key _
  | .increment key _ | .append key _ => Function.update m key (step m e key)
  | .mget keys =>
      (keys.mapIdx fun i key ↦ (key, e.clock i)).foldl
        (fun m p ↦ Function.update m p.1 ((m p.1).live p.2)) m
  | .size | .cleanupExpired => visible (e.clock 0) m
  | .keys | .snapshotEntries | .evictedKeys | .expiredKeysRemoved | .takeEvictedKeys
  | .setMaxKeys _ | .setEvictionEnabled _ => m

/-- What the calls that look at the map give on the map `m`. -/
def Returns (m : Store) (e : EngineEvent) (result : EngineResult) : Prop :=
  let now := e.clock 0
  match e.call with
  | .get key => result = .value ((visible now m key).map Prod.fst)
  | .mget keys =>
      result = .values (keys.mapIdx fun i key ↦ (visible (e.clock i) m key).map Prod.fst)
  | .exists key => result = .flag (visible now m key).isSome
  | .strlen key =>
      result = .length (some (((visible now m key).map fun c ↦ c.1.length).getD 0))
  | .keys =>
      ∃ keys, result = .keys keys ∧ keys.Pairwise (· < ·) ∧
        ∀ key, key ∈ keys ↔ (visible now m key).isSome
  | .size => result = .count ({key | (visible now m key).isSome}.ncard % 2 ^ 64)
  | .snapshotEntries =>
      ∃ entries, result = .entries entries ∧
        (entries.map SnapshotEntry.key).Pairwise (· < ·) ∧
        ∀ x, x ∈ entries ↔ visible now m x.key = some (x.value, x.expiresAt)
  | .persist key => result = .flag ((visible now m key).bind Prod.snd).isSome
  | .increment key delta => result = .integer (incremented delta (visible now m key))
  | .append key suffix =>
      result = .count (((visible now m key).map fun c ↦ c.1.length).getD 0 + suffix.length)
  | _ => True

theorem visible_visible {now t : TimePoint} (h : now ≤ t) (m : Store) :
    visible t (visible now m) = visible t m := by
  funext key
  exact Cell.live_live_of_le h (m key)

theorem visible_update {t : TimePoint} {m m' : Store} (h : visible t m = visible t m')
    (key : Bytes) (c : Cell) :
    visible t (Function.update m key c) = visible t (Function.update m' key c) := by
  funext k
  by_cases hk : k = key
  · simp [visible, hk]
  · simpa [visible, hk] using congrFun h k

theorem visible_foldl {t : TimePoint} (pairs : List (Bytes × Bytes)) {m m' : Store}
    (h : visible t m = visible t m') :
    visible t (pairs.foldl (fun m p ↦ Function.update m p.1 (some (p.2, none))) m) =
      visible t (pairs.foldl (fun m p ↦ Function.update m p.1 (some (p.2, none))) m') := by
  induction pairs generalizing m m' with
  | nil => exact h
  | cons p ps ih => exact ih (visible_update h p.1 _)

/-- An entry that is met is settled, and what is not met shows as much as before. -/
theorem visible_met {now t : TimePoint} (h : now ≤ t) {m m' : Store} {key : Bytes}
    (hother : ∀ k ≠ key, m' k = visible now m k) :
    visible t (Function.update m key (m' key)) = visible t m' := by
  funext k
  by_cases hk : k = key
  · simp [visible, hk]
  · rw [visible, Function.update_of_ne hk, visible, hother k hk]
    exact (congrFun (visible_visible h m) k).symm

theorem visible_foldl_live {t : TimePoint} (pairs : List (Bytes × TimePoint))
    (hpairs : ∀ p ∈ pairs, p.2 ≤ t) (m : Store) :
    visible t (pairs.foldl (fun (m : Store) p ↦ Function.update m p.1 ((m p.1).live p.2)) m) =
      visible t m := by
  induction pairs generalizing m with
  | nil => rfl
  | cons p pairs ih =>
      have hp := hpairs p List.mem_cons_self
      rw [List.foldl_cons, ih (fun q hq ↦ hpairs q (List.mem_cons_of_mem _ hq))]
      have hmet : visible t (Function.update m p.1 (visible p.2 m p.1)) =
          visible t (visible p.2 m) := visible_met hp fun _ _ ↦ rfl
      exact hmet.trans (visible_visible hp m)

/-! ## One call -/

section
variable {S : Sharding} {now t : TimePoint} {s s' : StorageEngine S}

theorem visible_of_lapses (h : now ≤ t) (hlapses : Lapses now s s') :
    visible t s'.cells = visible t s.cells := by
  funext key
  rw [visible, visible]
  rcases hlapses.cells key with hsame | ⟨hgone, hdead⟩
  · rw [hsame]
  · rw [hgone, ← Cell.live_live_of_le h (s.cells key), hdead]

theorem incremented_live (delta : Int64) (c : Cell) :
    incremented delta (c.live now) = c.nextInteger now delta := by
  unfold incremented Cell.nextInteger
  cases c.live now <;> rfl

section
variable (hmax : s.maxKeys = 0)
include hmax

theorem cells_set (key value : Bytes) :
    (s.set now key value).cells = Function.update s.cells key (some (value, none)) := by
  rw [StorageEngine.set, enforceMaxKeys_of_le, cells_store]
  exact Or.inl ((keeps_store s now key value).maxKeys.trans hmax)

theorem cells_mset (args : List Bytes) :
    (s.mset now args).2.cells =
      (argPairs args).foldl (fun (m : Store) p ↦ Function.update m p.1 (some (p.2, none)))
        s.cells := by
  rw [StorageEngine.mset, enforceMaxKeys_of_le, cells_storeAll]
  exact Or.inl ((keeps_storeAll s now (argPairs args)).maxKeys.trans hmax)

theorem cells_append (key suffix : Bytes) :
    (s.append now key suffix).2.cells =
      Function.update s.cells key ((s.cells key).append now suffix) := by
  have hkeeps := keeps_appendLocked s now key suffix
  simp only [StorageEngine.append]
  rw [enforceMaxKeys_of_le (Or.inl (hkeeps.maxKeys.trans hmax)), ite_self]
  exact (cells_appendLocked s now key suffix).1

theorem cells_setEvictionEnabled (enabled : Bool) :
    (s.setEvictionEnabled enabled).cells = s.cells := by
  rw [setEvictionEnabled]
  split
  · exact (congrArg cells (enforceMaxKeys_of_le (s := { s with evictionEnabled := true })
      (Or.inl hmax))).trans rfl
  · rfl

theorem increment_eq_ok {key : Bytes} {delta n : Int64}
    (h : (s.cells key).nextInteger now delta = .ok n) :
    (s.increment now key delta).1 = .ok n ∧
      (s.increment now key delta).2.cells =
        Function.update s.cells key ((s.cells key).writeInteger now n) := by
  obtain ⟨hresult, hcells⟩ := incrementLocked_ok h
  have hkeeps := keeps_incrementLocked s now key delta
  rw [increment, ← Prod.eta (s.incrementLocked now key delta), hresult]
  dsimp only
  rw [enforceMaxKeys_of_le (Or.inl (hkeeps.maxKeys.trans hmax)), ite_self]
  exact ⟨rfl, hcells⟩

end

theorem increment_eq_error {key e : Bytes} {delta : Int64}
    (h : (s.cells key).nextInteger now delta = .error e) :
    s.increment now key delta = (.error e, s.dropExpired now key) := by
  simp [increment, incrementLocked_error h]

theorem clock_zero_mem_times (e : EngineEvent) : e.clock 0 ∈ e.times := by
  unfold EngineEvent.times
  split <;> simp

theorem map_mapIdx {α β γ : Type*} (f : β → γ) (g : ℕ → α → β) (xs : List α) :
    (xs.mapIdx g).map f = xs.mapIdx fun i x ↦ f (g i x) := by
  apply List.ext_getElem?
  intro i
  simp [Option.map_map, Function.comp_def]

/-- The readings of an `mget`, key by key. -/
theorem times_mget (keys : List Bytes) (clock : ℕ → TimePoint) :
    (keys.mapIdx fun i key ↦ (key, clock i)).map Prod.snd <:+
      (EngineEvent.times ⟨.mget keys, clock⟩) := by
  cases keys with
  | nil => simp
  | cons key keys => simp [EngineEvent.times, List.mapIdx_cons, map_mapIdx]

/-- Expired entries that stay do not show. -/
theorem visible_keep {e : EngineEvent} (ht : ∀ u ∈ e.times, u ≤ t) (m : Store) :
    visible t (keep m e) = visible t (step m e) := by
  have hfirst := ht _ (clock_zero_mem_times e)
  have hsame := (visible_visible hfirst m).symm
  obtain ⟨call, clock⟩ := e
  cases call with
  | set key | del key => exact visible_update hsame key _
  | mset args => exact visible_foldl (argPairs args) hsame
  | flush | cleanupExpired | size => rfl
  | get key | «exists» key | strlen key | ttl key => exact visible_met hfirst fun _ _ ↦ rfl
  | persist key | expireAt key | append key =>
      exact visible_met hfirst fun k hk ↦ Function.update_of_ne hk _ _
  | increment key delta =>
      refine visible_met hfirst fun k hk ↦ ?_
      simp only [step, next]
      cases incremented delta (visible (clock 0) m key) with
      | ok n => exact Function.update_of_ne hk _ _
      | error e => rfl
  | mget keys =>
      refine (visible_foldl_live _ (fun p hp ↦ ?_) m).trans hsame
      exact ht p.2 ((times_mget keys clock).subset (List.mem_map_of_mem hp))
  | keys | snapshotEntries | evictedKeys | expiredKeysRemoved | takeEvictedKeys | setMaxKeys
  | setEvictionEnabled => exact hsame

theorem cells_mget (pairs : List (Bytes × TimePoint)) (s : StorageEngine S) :
    (s.mget pairs).2.cells =
      pairs.foldl (fun (m : Store) p ↦ Function.update m p.1 ((m p.1).live p.2)) s.cells := by
  induction pairs generalizing s with
  | nil => rfl
  | cons p rest ih =>
      have hcons : (s.mget (p :: rest)).2 = ((s.get p.2 p.1).2.mget rest).2 := rfl
      rw [hcons, ih, (cells_get s p.2 p.1).1, List.foldl_cons]

/-- Without a key limit the shards together hold what is stored, and no more. -/
theorem cells_call (hmax : s.maxKeys = 0) {e : EngineEvent}
    (hcall : ∀ n, e.call = .setMaxKeys n → n = 0) : (s.call e).2.cells = keep s.cells e := by
  obtain ⟨call, clock⟩ := e
  cases call with
  | set key value => exact cells_set hmax key value
  | mset args => exact cells_mset hmax args
  | get key | «exists» key | strlen key => exact (cells_get s _ key).1
  | ttl key => exact cells_ttl s _ key
  | mget keys => exact cells_mget _ s
  | del key => exact cells_del s key
  | expireAt key deadline =>
      simp only [keep, step, next, Function.update_self]
      exact cells_expireAt s _ key deadline
  | persist key =>
      simp only [keep, step, next, Function.update_self]
      exact cells_persist s _ key
  | flush => rfl
  | increment key delta =>
      simp only [keep, step, next, visible, incremented_live]
      cases hnext : (s.cells key).nextInteger (clock 0) delta with
      | error e =>
          rw [show (s.call ⟨.increment key delta, clock⟩).2 = s.dropExpired (clock 0) key from
            congrArg Prod.snd (increment_eq_error hnext)]
          exact cells_dropExpired s (clock 0) key
      | ok n =>
          simp only [Function.update_self]
          exact (increment_eq_ok hmax hnext).2
  | append key suffix =>
      simp only [keep, step, next, Function.update_self]
      exact cells_append hmax key suffix
  | cleanupExpired | size => exact funext (cells_cleanupExpired s (clock 0))
  | keys | snapshotEntries | evictedKeys | expiredKeysRemoved | takeEvictedKeys => rfl
  | setMaxKeys n =>
      obtain rfl := hcall n rfl
      have hset : s.setMaxKeys 0 = { s with maxKeys := 0 } := enforceMaxKeys_of_le (Or.inl rfl)
      exact (congrArg cells hset).trans rfl
  | setEvictionEnabled enabled => exact cells_setEvictionEnabled hmax enabled

/-- A call changes the visible map as it changes the reference. -/
theorem visible_call (hmax : s.maxKeys = 0) {e : EngineEvent}
    (hcall : ∀ n, e.call = .setMaxKeys n → n = 0) (ht : ∀ u ∈ e.times, u ≤ t) :
    visible t (s.call e).2.cells = visible t (step s.cells e) := by
  rw [cells_call hmax hcall, visible_keep ht]

/-! ## Its result -/

/-- Each `get` of an `mget` meets what was there when the call began. -/
theorem mget_fst (pairs : List (Bytes × TimePoint)) (s : StorageEngine S)
    (hpairs : (pairs.map Prod.snd).Pairwise (· ≤ ·)) :
    (s.mget pairs).1 = pairs.map fun p ↦ (visible p.2 s.cells p.1).map Prod.fst := by
  induction pairs generalizing s with
  | nil => rfl
  | cons p rest ih =>
      rw [List.map_cons, List.pairwise_cons] at hpairs
      have hcons : (s.mget (p :: rest)).1 = (s.get p.2 p.1).1 :: ((s.get p.2 p.1).2.mget rest).1 :=
        rfl
      rw [hcons, List.map_cons, ih (s.get p.2 p.1).2 hpairs.2, (cells_get s p.2 p.1).2]
      congr 1
      refine List.map_congr_left fun q hq ↦ ?_
      have hle := hpairs.1 q.2 (List.mem_map_of_mem hq)
      rw [visible_of_lapses hle (lapses_get s p.2 p.1)]

theorem appendLocked_length (key suffix : Bytes) :
    (s.appendLocked now key suffix).1.1 =
      ((visible now s.cells key).map fun c ↦ c.1.length).getD 0 + suffix.length := by
  have hlook := find?_dropExpired s now key
  rw [visible, ← hlook]
  cases hfind : (s.dropExpired now key).shards.find? key with
  | none => simp [appendLocked, hfind]
  | some entry => simp [appendLocked, hfind]

theorem size_eq (hdrift : s.drift = 0) :
    (s.size now).1.toNat = {key | (visible now s.cells key).isSome}.ncard % 2 ^ 64 := by
  have hkeys : {key | (visible now s.cells key).isSome} =
      {key | ((s.cleanupExpired now).2.shards.find? key).isSome} := by
    ext key
    have hcell := cells_cleanupExpired s now key
    rw [Set.mem_ofPred_eq, Set.mem_ofPred_eq, visible, ← hcell, cells, Option.isSome_map]
  have hexact := totalKeys_of_drift ((keeps_cleanupExpired s now).drift.trans hdrift)
  rw [hkeys, ← PartMap.size_eq_ncard]
  change (s.cleanupExpired now).2.totalKeys.toNat = _
  rw [hexact, UInt64.toNat_ofNat']

theorem returns_call (hdrift : s.drift = 0) (e : EngineEvent)
    (htimes : e.times.Pairwise (· ≤ ·)) : Returns s.cells e (s.call e).1 := by
  obtain ⟨call, clock⟩ := e
  cases call with
  | get key => exact congrArg EngineResult.value (cells_get s _ key).2
  | mget keys =>
      have hpairs := htimes.sublist (times_mget keys clock).sublist
      refine congrArg EngineResult.values ((mget_fst _ s hpairs).trans ?_)
      rw [map_mapIdx]
  | «exists» key =>
      refine congrArg EngineResult.flag ((congrArg Option.isSome (cells_get s _ key).2).trans ?_)
      rw [Option.isSome_map]
      rfl
  | strlen key =>
      have hget := (cells_get s (clock 0) key).2
      simp only [Returns, StorageEngine.call, strlen, hget, visible]
      cases (s.cells key).live (clock 0) <;> simp
  | keys =>
      refine ⟨_, congrArg EngineResult.keys (keys_eq s _), pairwise_snapshotEntries s _, ?_⟩
      intro key
      rw [List.mem_map, Option.isSome_iff_exists]
      constructor
      · rintro ⟨x, hx, rfl⟩
        exact ⟨_, mem_snapshotEntries.mp hx⟩
      · rintro ⟨c, hc⟩
        exact ⟨⟨key, c.1, c.2⟩, mem_snapshotEntries.mpr hc, rfl⟩
  | size => exact congrArg EngineResult.count (size_eq hdrift)
  | snapshotEntries =>
      exact ⟨_, rfl, pairwise_snapshotEntries s _, fun x ↦ mem_snapshotEntries⟩
  | persist key =>
      refine congrArg EngineResult.flag (Bool.eq_iff_iff.mpr ?_)
      rw [persist_eq_true_iff, Option.isSome_iff_exists]
      simp only [visible, Option.bind_eq_some_iff, Prod.exists]
      constructor
      · rintro ⟨value, deadline, hlive⟩
        exact ⟨deadline, value, some deadline, hlive, rfl⟩
      · rintro ⟨deadline, value, _, hlive, rfl⟩
        exact ⟨value, deadline, hlive⟩
  | increment key delta =>
      apply congrArg EngineResult.integer
      exact (fst_increment s _ key delta).trans (incremented_live delta (s.cells key)).symm
  | append key suffix => exact congrArg EngineResult.count (appendLocked_length key suffix)
  | set | mset | del | expireAt | ttl | flush | cleanupExpired | evictedKeys | expiredKeysRemoved
  | takeEvictedKeys | setMaxKeys | setEvictionEnabled => trivial

end

/-- The result depends on what is visible at the readings only. -/
theorem Returns.congr {m m' : Store} {e : EngineEvent} {result : EngineResult}
    (h : ∀ u ∈ e.times, visible u m = visible u m') (hr : Returns m e result) :
    Returns m' e result := by
  have hfirst := h _ (clock_zero_mem_times e)
  obtain ⟨call, clock⟩ := e
  dsimp only at hfirst
  cases call with
  | mget keys =>
      refine hr.trans (congrArg EngineResult.values ?_)
      apply List.ext_getElem?
      intro i
      rw [List.getElem?_mapIdx, List.getElem?_mapIdx]
      cases hkey : keys[i]? with
      | none => rfl
      | some key =>
          have hmem : (key, clock i) ∈ keys.mapIdx fun i key ↦ (key, clock i) :=
            List.mem_of_getElem? (by rw [List.getElem?_mapIdx, hkey, Option.map_some])
          have hi := h (clock i) ((times_mget keys clock).subset (List.mem_map_of_mem hmem))
          simp only [Option.map_some, hi]
  | get | «exists» | strlen | keys | size | snapshotEntries | persist | increment | append =>
      simpa only [Returns, hfirst] using hr
  | set | mset | del | expireAt | ttl | flush | cleanupExpired | evictedKeys | expiredKeysRemoved
  | takeEvictedKeys | setMaxKeys | setEvictionEnabled => trivial

theorem run_concat (past : List EngineEvent) (e : EngineEvent) :
    run (past ++ [e]) = step (run past) e := by
  simp [run]

end TtlMap

/-! ## Whole runs -/

open TtlMap

section
variable {S : Sharding}

/-- The time of a call comes after those of the calls before it. -/
theorem Chronological.of_concat {past : List EngineEvent} {e : EngineEvent}
    (h : Chronological (past ++ [e])) :
    Chronological past ∧ e.times.Pairwise (· ≤ ·) ∧
      ∀ u ∈ e.times, ∀ v ∈ past.flatMap EngineEvent.times, v ≤ u := by
  rw [Chronological, List.flatMap_append, List.flatMap_singleton, List.pairwise_append] at h
  exact ⟨h.1, h.2.1, fun u hu v hv ↦ h.2.2 v hv u hu⟩

/-- A store that keeps expired entries shows what the reference has. -/
theorem visible_foldl_keep {events : List EngineEvent} (hevents : Chronological events)
    {t : TimePoint} (ht : ∀ u ∈ events.flatMap EngineEvent.times, u ≤ t) :
    visible t (events.foldl keep fun _ ↦ none) = visible t (TtlMap.run events) := by
  induction events using List.reverseRecOn generalizing t with
  | nil => rfl
  | append_singleton past e ih =>
      obtain ⟨hpast, -, hlater⟩ := hevents.of_concat
      rw [List.flatMap_append, List.flatMap_singleton] at ht
      have hsame := ih hpast (hlater _ (clock_zero_mem_times e))
      rw [List.foldl_append, run_concat, List.foldl_cons, List.foldl_nil,
        visible_keep fun u hu ↦ ht u (List.mem_append_right _ hu), TtlMap.step, hsame, TtlMap.step]

/-- What holds between engine and reference after some calls. -/
structure Agrees (past : List EngineEvent) (s : StorageEngine S) (m : Store) : Prop where
  maxKeys : s.maxKeys = 0
  drift : s.drift = 0
  visible : ∀ t, (∀ u ∈ past.flatMap EngineEvent.times, u ≤ t) →
    visible t s.cells = visible t m

theorem Agrees.call {past : List EngineEvent} {s : StorageEngine S} {m : Store}
    {e : EngineEvent} (h : Agrees past s m) (htimes : Chronological (past ++ [e]))
    (hcall : ∀ n, e.call = .setMaxKeys n → n = 0) :
    Returns m e (s.call e).1 ∧ Agrees (past ++ [e]) (s.call e).2 (TtlMap.step m e) := by
  obtain ⟨-, hown, hlater⟩ := htimes.of_concat
  have hsame : ∀ u ∈ e.times, TtlMap.visible u s.cells = TtlMap.visible u m :=
    fun u hu ↦ h.visible u (hlater u hu)
  refine ⟨(returns_call h.drift e hown).congr hsame, maxKeys_call h.maxKeys hcall,
    drift_call h.drift e, ?_⟩
  intro t ht
  rw [List.flatMap_append, List.flatMap_singleton] at ht
  rw [visible_call h.maxKeys hcall fun u hu ↦ ht u (List.mem_append_right _ hu), TtlMap.step,
    TtlMap.step, hsame _ (clock_zero_mem_times e)]

theorem agrees_calls (past : List EngineEvent) (htimes : Chronological past)
    (hcalls : ∀ e ∈ past, ∀ n, e.call = .setMaxKeys n → n = 0) :
    Agrees past (StorageEngine.calls ({} : StorageEngine S) past) (TtlMap.run past) := by
  induction past using List.reverseRecOn with
  | nil => exact ⟨rfl, by simp [StorageEngine.calls, drift], fun _ _ ↦ rfl⟩
  | append_singleton past e ih =>
      have hpast := ih htimes.of_concat.1 fun x hx ↦ hcalls x (List.mem_append_left _ hx)
      rw [calls_concat, run_concat]
      exact (hpast.call htimes (hcalls e (by simp))).2

end

/-- Call by call, an engine without a key limit shows the map that the reference
has, and gives the results that the reference gives. -/
theorem engine_refines_ttlMap (S : Sharding) (past : List EngineEvent) (e : EngineEvent)
    (htimes : Chronological (past ++ [e]))
    (hcalls : ∀ x ∈ past ++ [e], ∀ n, x.call = .setMaxKeys n → n = 0) :
    let s := StorageEngine.calls ({} : StorageEngine S) past
    Returns (TtlMap.run past) e (s.call e).1 ∧
      ∀ t, (∀ u ∈ (past ++ [e]).flatMap EngineEvent.times, u ≤ t) →
        visible t (s.call e).2.cells = visible t (TtlMap.step (TtlMap.run past) e) := by
  have hpast := agrees_calls (S := S) past htimes.of_concat.1
    fun x hx ↦ hcalls x (List.mem_append_left _ hx)
  obtain ⟨hreturns, hnext⟩ := hpast.call htimes (hcalls e (by simp))
  exact ⟨hreturns, hnext.visible⟩

/-- A key is set, then given a deadline, which has passed when the key is read. -/
theorem engine_refines_ttlMap_expired :
    let past : List EngineEvent :=
      [⟨.set (ascii "k") (ascii "v"), fun _ ↦ 0⟩, ⟨.expireAt (ascii "k") 10, fun _ ↦ 1⟩]
    let e : EngineEvent := ⟨.get (ascii "k"), fun _ ↦ 20⟩
    let s := StorageEngine.calls ({} : StorageEngine oneShard) past
    (s.call e).1 = .value none ∧ visible 20 (s.call e).2.cells (ascii "k") = none := by
  intro past e s
  have htimes : Chronological (past ++ [e]) := by
    simp only [Chronological]
    decide
  obtain ⟨hreturns, hvisible⟩ := engine_refines_ttlMap oneShard past e htimes (by simp [past, e])
  have hlast : ∀ u ∈ [(0 : TimePoint), 1, 20], u ≤ 20 := by
    simp only [List.forall_mem_cons, List.not_mem_nil, false_imp_iff, implies_true, and_true]
    decide
  refine ⟨hreturns.trans (congrArg EngineResult.value (by decide)), ?_⟩
  rw [hvisible 20 hlast]
  decide

end ByteCacheDB
