import ByteCacheDB.Accounting
import ByteCacheDB.LeastRecent

/-!
# What eviction does to writes and to live keys

`mset` evicts once at the end where the same writes one by one evict after each; both
leave the same entries.  Expired entries that are still stored count against the limit,
and the scan for a victim does not look at deadlines: a live key may have to go for
them.
-/

namespace ByteCacheDB

open StorageEngine Recency

namespace StorageEngine

variable {S : Sharding}

/-! ## Several writes at once -/

section
variable {n : ℕ} {s : StorageEngine S} {l : List Bytes}

theorem find?_store (s : StorageEngine S) (now : TimePoint) (key value k : Bytes) :
    (s.store now key value).shards.find? k =
      if k = key then some ⟨value, none, now, s.accessSequence + 1⟩ else s.shards.find? k := by
  have hdrop : (s.dropExpired now key).accessSequence = s.accessSequence ∧
      (k ≠ key → (s.dropExpired now key).shards.find? k = s.shards.find? k) := by
    unfold dropExpired
    split
    · split
      · exact ⟨rfl, fun hk ↦ PartMap.find?_erase_ne _ hk⟩
      · exact ⟨rfl, fun _ ↦ rfl⟩
    · exact ⟨rfl, fun _ ↦ rfl⟩
  have hshards : (s.store now key value).shards = (s.dropExpired now key).shards.insert key
      ⟨value, none, now, s.accessSequence + 1⟩ := by
    rw [← hdrop.1, store, putCounted]
    split <;> rfl
  rw [hshards]
  split
  · rename_i hk
    rw [hk, PartMap.find?_insert]
  · rename_i hk
    rw [PartMap.find?_insert_ne _ _ hk, hdrop.2 hk]

theorem Listed.dropExpired (h : Listed n s l) (now : TimePoint) (key : Bytes) :
    ∃ l', Listed n (s.dropExpired now key) l' ∧ (l' = l ∨ l' = forget l key) := by
  unfold StorageEngine.dropExpired
  split
  · split
    · exact ⟨_, h.erase key rfl rfl, Or.inr rfl⟩
    · exact ⟨l, h, Or.inl rfl⟩
  · exact ⟨l, h, Or.inl rfl⟩

theorem Listed.store (h : Listed n s l) (hn : n + 1 < 2 ^ 64) (now : TimePoint)
    (key value : Bytes) : Listed (n + 1) (s.store now key value) (touch l key) := by
  obtain ⟨l', hl', hdropped⟩ := h.dropExpired now key
  have htouch : touch l' key = touch l key := by
    rcases hdropped with rfl | rfl
    · rfl
    · exact touch_forget h.nodup key
  have hput := hl'.put hn key ⟨value, none, now, 0⟩
  rw [htouch] at hput
  rw [StorageEngine.store, putCounted]
  split
  · exact hput
  · exact ⟨hput.count, hput.mem, hput.sorted, hput.bound⟩

end

/-- The engine `m` that has stored some pairs, and the engine `t` that has also evicted after
each of them. -/
structure InStep (limit : UInt64) (n : ℕ) (l : List Bytes) (m t : StorageEngine S) : Prop where
  stored : Listed n m l
  evicted : Listed n t (l.rtake limit.toNat)
  same : ∀ key ∈ l.rtake limit.toNat, t.shards.find? key = m.shards.find? key
  length : l.length ≤ n
  drift : t.drift = 0
  maxKeys : t.maxKeys = limit
  enabled : t.evictionEnabled = true

section
variable {limit : UInt64} {n : ℕ} {l : List Bytes} {m t : StorageEngine S}

theorem InStep.store (h : InStep limit n l m t) (hlimit : limit ≠ 0) (hn : n + 1 < 2 ^ 64)
    (now : TimePoint) (key value : Bytes) :
    InStep limit (n + 1) (touch l key) (m.store now key value) (t.set now key value) := by
  have hstored := h.stored.store hn now key value
  have hkept := h.evicted.store hn now key value
  have hkeeps := keeps_store t now key value
  have hmax := hkeeps.maxKeys.trans h.maxKeys
  have hlength : (touch (l.rtake limit.toNat) key).length < 2 ^ 64 := by
    have hle := length_touch_le (l.rtake limit.toNat) key
    have hsub := (rtake_sublist limit.toNat l).length_le
    have := h.length
    omega
  obtain ⟨hevicted, hsame, -⟩ := hkept.enforceMaxKeys (hkeeps.drift.trans h.drift) hlength
    (hmax ▸ hlimit) (hkeeps.evictionEnabled.trans h.enabled)
  obtain ⟨ks, hks⟩ := evicts_enforceMaxKeys (t.store now key value)
  rw [hmax, rtake_touch_rtake h.stored.nodup] at hevicted hsame
  refine ⟨hstored, hevicted, fun k hk ↦ ?_, ?_, hks.drift.trans (hkeeps.drift.trans h.drift),
    hks.maxKeys.trans hmax, hks.evictionEnabled.trans (hkeeps.evictionEnabled.trans h.enabled)⟩
  · refine (hsame k hk).trans ?_
    rw [find?_store, find?_store]
    split
    · -- both sides have made the same number of accesses
      rw [UInt64.toNat_inj.mp (h.evicted.count.trans h.stored.count.symm)]
    · rename_i hne
      apply h.same
      have hmem : k ∈ touch (l.rtake limit.toNat) key := by
        rw [← rtake_touch_rtake h.stored.nodup] at hk
        exact (rtake_sublist _ _).subset hk
      exact (mem_touch.mp hmem).resolve_left hne
  · have hle := length_touch_le l key
    have := h.length
    omega

theorem InStep.storeAll (h : InStep limit n l m t) (hlimit : limit ≠ 0) (now : TimePoint)
    (pairs : List (Bytes × Bytes)) (hn : n + pairs.length < 2 ^ 64) :
    ∃ l', InStep limit (n + pairs.length) l' (m.storeAll now pairs)
      (pairs.foldl (fun t p ↦ t.set now p.1 p.2) t) := by
  induction pairs generalizing n l m t with
  | nil => exact ⟨l, h⟩
  | cons p ps ih =>
      rw [List.length_cons, Nat.add_comm ps.length, ← Nat.add_assoc] at hn ⊢
      exact ih (h.store hlimit (by omega) now p.1 p.2) hn

/-- Without a limit nothing is evicted. -/
theorem foldl_set_of_unlimited (now : TimePoint) (pairs : List (Bytes × Bytes))
    {s : StorageEngine S} (h : s.maxKeys = 0) :
    pairs.foldl (fun t p ↦ t.set now p.1 p.2) s = s.storeAll now pairs := by
  induction pairs generalizing s with
  | nil => rfl
  | cons p ps ih =>
      have hkeeps := (keeps_store s now p.1 p.2).maxKeys.trans h
      have hset : s.set now p.1 p.2 = s.store now p.1 p.2 := enforceMaxKeys_of_le (Or.inl hkeeps)
      rw [List.foldl_cons, hset]
      exact ih hkeeps

theorem maxKeys_calls {limit : UInt64} (hlimit : limit = 0) (events : List EngineEvent)
    (hconfig : ∀ e ∈ events, e.call.configures = false) :
    (({ maxKeys := limit } : StorageEngine S).calls events).maxKeys = 0 := by
  induction events using List.reverseRecOn with
  | nil => exact hlimit
  | append_singleton past e ih =>
      rw [calls_concat]
      refine maxKeys_call (ih fun x hx ↦ hconfig x (by simp [hx])) fun n hn ↦ ?_
      have hnot := hconfig e (by simp)
      simp [hn, EngineCall.configures] at hnot

end

end StorageEngine

/-- After calls from an empty engine, `mset` leaves the entries that the writes of its pairs
one by one leave, with their values, deadlines and access numbers, if there is no limit or
fewer than `2 ^ 64` keys have been touched. -/
theorem mset_eq_sets (S : Sharding) (limit : UInt64) (past : List EngineEvent)
    (hconfig : ∀ x ∈ past, x.call.configures = false) (now : TimePoint) (args : List Bytes)
    (hlen : limit = 0 ∨ (touchLog ({ maxKeys := limit } : StorageEngine S) past).length +
      (argPairs args).length < 2 ^ 64) :
    let s := calls ({ maxKeys := limit } : StorageEngine S) past
    ∀ key, (s.mset now args).2.shards.find? key =
      ((argPairs args).foldl (fun t p ↦ t.set now p.1 p.2) s).shards.find? key := by
  intro s key
  have hkeeps := keeps_storeAll s now (argPairs args)
  change (s.storeAll now (argPairs args)).enforceMaxKeys.shards.find? key = _
  by_cases hlimit : limit = 0
  · have hmax : s.maxKeys = 0 := maxKeys_calls hlimit past hconfig
    rw [foldl_set_of_unlimited now _ hmax,
      enforceMaxKeys_of_le (Or.inl (hkeeps.maxKeys.trans hmax))]
  · have hlen := hlen.resolve_left hlimit
    obtain ⟨htracked, hdrift, hmax, henabled, hsize⟩ :=
      bounded_calls S hlimit past hconfig (by omega)
    obtain ⟨l, hlisted, hsub⟩ := htracked
    have hlength := hsub.length_le.trans (List.dedup_sublist _).length_le
    have hstart :
        InStep limit (touchLog ({ maxKeys := limit } : StorageEngine S) past).length l s s := by
      have hkept : l.rtake limit.toNat = l := rtake_of_length_le (hlisted.length.trans_le hsize)
      exact ⟨hlisted, hkept.symm ▸ hlisted, fun _ _ ↦ rfl, hlength, hdrift, hmax, henabled⟩
    obtain ⟨l', hend⟩ := hstart.storeAll hlimit now (argPairs args) hlen
    have hmax' := hkeeps.maxKeys.trans hmax
    obtain ⟨hmset, hkept, -⟩ := hend.stored.enforceMaxKeys (hkeeps.drift.trans hdrift)
      (hend.length.trans_lt hlen) (hmax' ▸ hlimit) (hkeeps.evictionEnabled.trans henabled)
    rw [hmax'] at hmset hkept
    by_cases hkey : key ∈ l'.rtake limit.toNat
    · rw [hkept key hkey, hend.same key hkey]
    · have hleft := mt (hmset.mem key).mpr hkey
      have hright := mt (hend.evicted.mem key).mpr hkey
      rw [not_not.mp hleft, not_not.mp hright]

/-- Three pairs, two of them of one key, where there is room for one. -/
theorem mset_eq_sets_repeated :
    let past : List EngineEvent := [⟨.set (ascii "a") (ascii "1"), fun _ ↦ 0⟩]
    let s := calls ({ maxKeys := 1 } : StorageEngine oneShard) past
    (s.mset 0 [ascii "b", ascii "2", ascii "c", ascii "3", ascii "b", ascii "4"]).2.shards.find?
        (ascii "b") =
      ((((s.set 0 (ascii "b") (ascii "2")).set 0 (ascii "c") (ascii "3")).set 0 (ascii "b")
        (ascii "4"))).shards.find? (ascii "b") :=
  mset_eq_sets oneShard 1 [⟨.set (ascii "a") (ascii "1"), fun _ ↦ 0⟩] (by decide +kernel) 0
    [ascii "b", ascii "2", ascii "c", ascii "3", ascii "b", ascii "4"]
    (Or.inr (by decide +kernel)) (ascii "b")

/-- Where the access counter wraps between the pairs, the two ways differ. -/
theorem mset_ne_sets_at_wrap :
    ∃ past : List EngineEvent, (∀ x ∈ past, x.call.configures = false) ∧
      let s := calls ({ maxKeys := 1 } : StorageEngine oneShard) past
      ((s.mset 0 [ascii "b", ascii "2", ascii "b", ascii "3"]).2.shards.find? (ascii "b") = none) ∧
        ((s.set 0 (ascii "b") (ascii "2")).set 0 (ascii "b") (ascii "3")).shards.find? (ascii "b") =
          some ⟨ascii "3", none, 0, 0⟩ := by
  refine ⟨loneRun (2 ^ 64 - 3), configures_loneRun _, ?_⟩
  rw [calls_loneRun]
  decide +kernel

/-! ## Expired leftovers -/

namespace StorageEngine

variable {S : Sharding}

/-- The number of stored entries that are not expired. -/
def unexpired (s : StorageEngine S) (t : TimePoint) : ℕ :=
  s.shards.entries.countP fun e ↦ !isExpired e.2 t

/-- The keys that a call evicts, in order. -/
def evictedBy (s : StorageEngine S) (e : EngineEvent) : List Bytes :=
  if (s.beforeEviction e).2.1 then victims (s.beforeEviction e).2.2.enforceActs else []

/-- The key is stored and not expired. -/
def isLive (s : StorageEngine S) (t : TimePoint) (key : Bytes) : Bool :=
  ((s.cells key).live t).isSome

/-- The engine after the eviction of some keys. -/
def afterEvicting (s : StorageEngine S) (ks : List Bytes) : StorageEngine S :=
  s.after (ks.map EngineAct.evict)

section
variable {s : StorageEngine S} {t : TimePoint}

theorem map_evict_victims {acts : List EngineAct} (h : ∀ act ∈ acts, ∃ key, act = .evict key) :
    (victims acts).map EngineAct.evict = acts := by
  induction acts with
  | nil => rfl
  | cons act acts ih =>
      obtain ⟨key, rfl⟩ := h act (by simp)
      have hrest := ih fun a ha ↦ h a (by simp [ha])
      rw [← List.singleton_append, victims_append, List.map_append, hrest]
      rfl

theorem afterEvicting_evictedBy (s : StorageEngine S) (e : EngineEvent) :
    (s.beforeEviction e).2.2.Performs ((s.evictedBy e).map EngineAct.evict) ∧
      (s.beforeEviction e).2.2.afterEvicting (s.evictedBy e) = (s.call e).2 := by
  have hacts := map_evict_victims
    (forall_enforceActs (P := (∃ key, · = EngineAct.evict key)) (s.beforeEviction e).2.2
      fun key ↦ ⟨key, rfl⟩)
  rw [call_eq, afterEvicting, evictedBy]
  split
  · rw [hacts]
    exact performs_enforceActs _
  · exact ⟨trivial, rfl⟩

/-- An eviction takes the victim from the unexpired entries, if it is one of them. -/
theorem unexpired_evict {key : Bytes} {entry : ValueEntry} (h : s.shards.find? key = some entry) :
    (s.evict key).unexpired t + (if s.isLive t key then 1 else 0) = s.unexpired t := by
  have hperm := (PartMap.perm_entries_erase s.shards h).countP_eq fun e ↦ !isExpired e.2 t
  have hlive : s.isLive t key = !isExpired entry t := by
    rw [isLive, live_cells_of_isExpired h, cells_of_find? h]
    cases isExpired entry t <;> rfl
  rw [unexpired, unexpired, evict_eq h, hperm, List.countP_cons, hlive]

theorem isLive_evict_of_ne {key k : Bytes} {entry : ValueEntry}
    (h : s.shards.find? key = some entry) (hk : k ≠ key) :
    (s.evict key).isLive t k = s.isLive t k := by
  rw [isLive, isLive, cells, cells, evict_eq h]
  dsimp only
  rw [PartMap.find?_erase_ne _ hk]

/-- Evicted keys are stored, and no key is evicted twice. -/
theorem stored_of_evicted {ks : List Bytes} (h : s.Performs (ks.map EngineAct.evict)) :
    ∀ key ∈ ks, s.shards.find? key ≠ none := by
  induction ks generalizing s with
  | nil => simp
  | cons k ks ih =>
      obtain ⟨⟨oldest, hvictim⟩, hrest⟩ := h
      obtain ⟨entry, hfind, -⟩ := findVictim_spec hvictim
      intro key hkey
      rcases List.mem_cons.mp hkey with rfl | hkey
      · simp [hfind]
      · have hstored := ih hrest key hkey
        rw [EngineAct.apply, evict_eq hfind] at hstored
        by_cases hk : key = k
        · simp [hk] at hstored
        · rwa [PartMap.find?_erase_ne _ hk] at hstored

theorem ne_of_evicted {k : Bytes} {ks : List Bytes} {entry : ValueEntry}
    (hfind : s.shards.find? k = some entry)
    (h : (s.evict k).Performs (ks.map EngineAct.evict)) : ∀ key ∈ ks, key ≠ k := by
  rintro key hkey rfl
  have hstored := stored_of_evicted h key hkey
  simp [evict_eq hfind] at hstored

/-- The unexpired keys that evictions take away. -/
theorem unexpired_afterEvicting {ks : List Bytes} (h : s.Performs (ks.map EngineAct.evict)) :
    (s.afterEvicting ks).unexpired t + ks.countP (s.isLive t) = s.unexpired t := by
  induction ks generalizing s with
  | nil => rfl
  | cons k ks ih =>
      obtain ⟨⟨oldest, hvictim⟩, hrest⟩ := h
      obtain ⟨entry, hfind, -⟩ := findVictim_spec hvictim
      have hne := ne_of_evicted hfind hrest
      have hcount : ks.countP ((s.evict k).isLive t) = ks.countP (s.isLive t) :=
        List.countP_congr fun key hkey ↦ by rw [isLive_evict_of_ne hfind (hne key hkey)]
      have hafter := ih hrest
      have hone := unexpired_evict (t := t) hfind
      rw [EngineAct.apply, hcount] at hafter
      rw [List.countP_cons, ← hone, ← hafter, ← Nat.add_assoc]
      rfl

/-- No unexpired key goes while no more than `limit` of them are there. -/
def SparesLive (limit : ℕ) (t : TimePoint) (s : StorageEngine S) (ks : List Bytes) : Prop :=
  ∀ before key after, ks = before ++ key :: after →
    (s.afterEvicting before).isLive t key → limit < (s.afterEvicting before).unexpired t

theorem sparesLive_cons {limit : ℕ} {k : Bytes} {ks : List Bytes} :
    SparesLive limit t s (k :: ks) ↔
      (s.isLive t k → limit < s.unexpired t) ∧ SparesLive limit t (s.evict k) ks := by
  constructor
  · intro h
    refine ⟨h [] k ks rfl, fun before key after hks ↦ ?_⟩
    exact h (k :: before) key after (by rw [hks, List.cons_append])
  · rintro ⟨hhead, hrest⟩ before key after hks
    cases before with
    | nil =>
        obtain ⟨rfl, rfl⟩ := List.cons.inj hks
        exact hhead
    | cons b before =>
        obtain ⟨rfl, htail⟩ := List.cons.inj hks
        exact hrest before key after htail

theorem sparesLive_iff {limit : ℕ} {ks : List Bytes} (h : s.Performs (ks.map EngineAct.evict)) :
    SparesLive limit t s ks ↔
      ((∃ key ∈ ks, s.isLive t key) → limit ≤ (s.afterEvicting ks).unexpired t) := by
  induction ks generalizing s with
  | nil => simp [SparesLive]
  | cons k ks ih =>
      obtain ⟨⟨oldest, hvictim⟩, hrest⟩ := h
      obtain ⟨entry, hfind, -⟩ := findVictim_spec hvictim
      have hne := ne_of_evicted hfind hrest
      have hlive : (∃ key ∈ ks, (s.evict k).isLive t key) ↔ ∃ key ∈ ks, s.isLive t key := by
        refine exists_congr fun key ↦ and_congr_right fun hkey ↦ ?_
        rw [isLive_evict_of_ne hfind (hne key hkey)]
      have hone := unexpired_evict (t := t) hfind
      have hcount := unexpired_afterEvicting (t := t) hrest
      rw [EngineAct.apply] at hrest hcount
      rw [sparesLive_cons, ih hrest, hlive]
      change _ ↔ (_ → limit ≤ ((s.evict k).afterEvicting ks).unexpired t)
      rw [List.exists_mem_cons_iff]
      cases hk : s.isLive t k with
      | false => simp
      | true =>
          rw [hk, if_pos rfl] at hone
          constructor
          · rintro ⟨hmore, hlast⟩ -
            by_cases hother : ∃ key ∈ ks, s.isLive t key
            · exact hlast hother
            · -- the victim is the last unexpired one to go
              rw [← hlive, ← List.countP_pos_iff] at hother
              have hlt := hmore rfl
              omega
          · intro hkept
            have hle := hkept (Or.inl rfl)
            exact ⟨fun _ ↦ by omega, fun _ ↦ hle⟩

theorem victims_map_evict (ks : List Bytes) : victims (ks.map EngineAct.evict) = ks := by
  induction ks with
  | nil => rfl
  | cons k ks ih =>
      rw [List.map_cons, ← List.singleton_append, victims_append, ih]
      rfl

/-! ### In order of last access -/

/-- The entries that are not expired, counted along the order of the keys. -/
theorem unexpired_eq_countP {order : List Bytes} (hnodup : order.Nodup)
    (hstored : ∀ key, key ∈ order ↔ s.shards.find? key ≠ none) :
    s.unexpired t = order.countP (s.isLive t) := by
  have hperm : (s.shards.entries.map Prod.fst).Perm order := by
    refine (List.perm_ext_iff_of_nodup (PartMap.nodup_keys_entries _) hnodup).mpr fun key ↦ ?_
    rw [hstored, PartMap.mem_keys_entries, Option.isSome_iff_ne_none]
  rw [← hperm.countP_eq, List.countP_map, unexpired]
  refine List.countP_congr fun e he ↦ ?_
  have hfind : s.shards.find? e.1 = some e.2 := (PartMap.mem_entries_iff _ _ _).mp he
  rw [Function.comp_apply, isLive, live_cells_of_isExpired hfind, cells_of_find? hfind]
  cases isExpired e.2 t <;> simp

/-- What a call evicts is what the order has beyond the limit. -/
theorem EvictsLeastRecent.evictedBy {limit : ℕ} {order written : List Bytes} {e : EngineEvent}
    (h : EvictsLeastRecent limit order written (s.beforeEviction e).2.2 (s.call e).2) :
    s.evictedBy e = order.rdrop limit := by
  obtain ⟨hperforms, hafter⟩ := afterEvicting_evictedBy s e
  have hpending := pending_after hperforms fun act hact ↦ by
    obtain ⟨key, -, rfl⟩ := List.mem_map.mp hact
    rfl
  rw [victims_map_evict] at hpending
  apply List.append_cancel_left
  rw [← hpending, ← h.evicted, ← hafter]
  rfl

theorem length_touchLog_le (s : StorageEngine S) (past rest : List EngineEvent) :
    (s.touchLog past).length ≤ (s.touchLog (past ++ rest)).length := by
  induction rest using List.reverseRecOn with
  | nil => simp
  | append_singleton rest e ih =>
      rw [← List.append_assoc, touchLog_concat, List.length_append]
      exact Nat.le_add_right_of_le ih

/-- Of the keys in the order of their last access, all those beyond the limit are expired, or
none of the others is. -/
def EvictsFairly (limit : ℕ) (t : TimePoint) (order : List Bytes) (b : StorageEngine S) : Prop :=
  (∀ key ∈ order.rdrop limit, b.isLive t key = false) ∨
    ∀ key ∈ order.rtake limit, b.isLive t key = true

instance (limit : ℕ) (t : TimePoint) (order : List Bytes) (b : StorageEngine S) :
    Decidable (EvictsFairly limit t order b) :=
  inferInstanceAs (Decidable (_ ∨ _))

theorem sparesLive_iff_evictsFairly {limit : ℕ} {order written : List Bytes} {e : EngineEvent}
    (h : EvictsLeastRecent limit order written (s.beforeEviction e).2.2 (s.call e).2)
    (hnodup : order.Nodup) :
    SparesLive limit t (s.beforeEviction e).2.2 (s.evictedBy e) ↔
      EvictsFairly limit t order (s.beforeEviction e).2.2 := by
  obtain ⟨hperforms, hafter⟩ := afterEvicting_evictedBy s e
  have hcount := unexpired_afterEvicting (t := t) hperforms
  rw [unexpired_eq_countP hnodup h.stored, h.evictedBy] at hcount
  have hsplit : order.countP ((s.beforeEviction e).2.2.isLive t) =
      (order.rdrop limit).countP ((s.beforeEviction e).2.2.isLive t) +
        (order.rtake limit).countP ((s.beforeEviction e).2.2.isLive t) := by
    rw [← List.countP_append, rdrop_append_rtake]
  rw [sparesLive_iff hperforms, h.evictedBy, EvictsFairly, or_iff_not_imp_left]
  push Not
  simp only [ne_eq, Bool.not_eq_false]
  refine forall_congr' fun hlive ↦ ?_
  -- something is evicted, so the limit is used up
  have hlength : (order.rtake limit).length = limit := by
    obtain ⟨key, hkey, -⟩ := hlive
    rw [length_rtake]
    by_contra hshort
    rw [rdrop_of_length_le (by omega)] at hkey
    simp at hkey
  have hkept : ((s.beforeEviction e).2.2.afterEvicting (order.rdrop limit)).unexpired t =
      (order.rtake limit).countP ((s.beforeEviction e).2.2.isLive t) := by omega
  have hle := List.countP_le_length (p := (s.beforeEviction e).2.2.isLive t)
    (l := order.rtake limit)
  rw [hkept, ← List.countP_eq_length]
  omega

end

end StorageEngine

/-- From an empty engine with a limit, as long as fewer than `2 ^ 64` keys have been touched:
in the whole run no unexpired key is evicted while at most `limit` of them are stored, if and
only if at every call, just before `enforce_max_keys`, all keys that are beyond the limit in
the order of last access are expired or none of the others is. -/
theorem live_keys_spared_iff (S : Sharding) (limit : UInt64) (hlimit : limit ≠ 0)
    (events : List EngineEvent) (hconfig : ∀ x ∈ events, x.call.configures = false)
    (hlen : (touchLog ({ maxKeys := limit } : StorageEngine S) events).length < 2 ^ 64) :
    let empty : StorageEngine S := { maxKeys := limit }
    (∀ past e, past ++ [e] <+: events →
        SparesLive limit.toNat (e.clock 0) ((empty.calls past).beforeEviction e).2.2
          ((empty.calls past).evictedBy e)) ↔
      ∀ past e, past ++ [e] <+: events →
        EvictsFairly limit.toNat (e.clock 0)
          (((empty.calls past).beforeEviction e).2.2.recencyOrder (empty.touchLog (past ++ [e])))
          ((empty.calls past).beforeEviction e).2.2 := by
  intro empty
  refine forall_congr' fun past ↦ forall_congr' fun e ↦ forall_congr' fun hpast ↦ ?_
  obtain ⟨rest, rfl⟩ := hpast
  have hshort := (length_touchLog_le empty (past ++ [e]) rest).trans_lt hlen
  rw [touchLog_concat] at hshort ⊢
  have hbounded := bounded_calls S hlimit past (fun x hx ↦ hconfig x (by simp [hx])) (by
    rw [List.length_append] at hshort
    exact (Nat.le_add_right _ _).trans_lt hshort)
  have hevicts := (hbounded.call hlimit (hconfig e (by simp)) hshort).2
  exact sparesLive_iff_evictsFairly hevicts ((List.nodup_dedup _).filter _)

/-- A leftover that is the least recently touched key makes room for the new one. -/
def leftoverFirst : List EngineEvent :=
  [⟨.set (ascii "a") (ascii "1"), fun _ ↦ 0⟩, ⟨.expireAt (ascii "a") 10, fun _ ↦ 0⟩,
    ⟨.set (ascii "b") (ascii "2"), fun _ ↦ 0⟩, ⟨.set (ascii "c") (ascii "3"), fun _ ↦ 20⟩]

theorem live_keys_spared_iff_leftoverFirst :
    let empty : StorageEngine oneShard := { maxKeys := 2 }
    (∀ past e, past ++ [e] <+: leftoverFirst →
        SparesLive 2 (e.clock 0) ((empty.calls past).beforeEviction e).2.2
          ((empty.calls past).evictedBy e)) ∧
      (empty.calls leftoverFirst).keys 20 = [ascii "b", ascii "c"] := by
  intro empty
  refine ⟨(live_keys_spared_iff oneShard 2 (by decide) leftoverFirst (by decide +kernel)
    (by decide +kernel)).mpr ?_, by decide +kernel⟩
  -- every call of the run by its position
  have hfair : ∀ n < leftoverFirst.length, ∀ e ∈ leftoverFirst[n]?,
      EvictsFairly 2 (e.clock 0)
        (((empty.calls (leftoverFirst.take n)).beforeEviction e).2.2.recencyOrder
          (empty.touchLog (leftoverFirst.take n ++ [e])))
        ((empty.calls (leftoverFirst.take n)).beforeEviction e).2.2 := by decide +kernel
  intro past e hpast
  have hlength : past.length < leftoverFirst.length := by simpa using hpast.length_le
  have htake : past = leftoverFirst.take past.length :=
    List.prefix_iff_eq_take.mp ((List.prefix_append past [e]).trans hpast)
  have hlast : leftoverFirst[past.length]? = some e := by
    obtain ⟨rest, hrest⟩ := hpast
    simp [← hrest]
  rw [htake]
  simpa using hfair past.length hlength e hlast

/-- Room for two keys: the older one is live, the other one has expired, and a write evicts
the live one. -/
theorem live_key_evicted_for_leftover :
    let past : List EngineEvent := [⟨.set (ascii "b") (ascii "1"), fun _ ↦ 0⟩,
      ⟨.set (ascii "a") (ascii "2"), fun _ ↦ 0⟩, ⟨.expireAt (ascii "a") 10, fun _ ↦ 0⟩]
    let e : EngineEvent := ⟨.set (ascii "c") (ascii "3"), fun _ ↦ 20⟩
    let s := calls ({ maxKeys := 2 } : StorageEngine oneShard) past
    s.evictedBy e = [ascii "b"] ∧ (s.beforeEviction e).2.2.isLive 20 (ascii "b") = true ∧
      (s.beforeEviction e).2.2.unexpired 20 = 2 := by
  decide +kernel

end ByteCacheDB
