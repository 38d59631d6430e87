import ByteCacheDB.EngineActs
import ByteCacheDB.Lib.Recency

/-!
# Eviction in order of last access

The access numbers of the entries sort the stored keys by their last touch, as long as
the 64-bit counter behind them has not wrapped.  `enforce_max_keys` then keeps the most
recently touched entries and evicts the others, the least recent first.
-/

namespace ByteCacheDB

open StorageEngine Recency

/-! ## The order of the keys -/

/-- The keys to which an act gives a fresh access number. -/
def EngineAct.touched : EngineAct → List Bytes
  | .touch key _ | .create key _ => [key]
  | .expire _ | .delete _ | .evict _ | .sweep _ | .clear | .drain | .limit _ | .enable _ => []

namespace StorageEngine

variable {S : Sharding}

/-- The keys touched by a sequence of calls, in order. -/
def touchLog (s : StorageEngine S) (events : List EngineEvent) : List Bytes :=
  (s.allActs events).flatMap EngineAct.touched

/-- The stored keys, the least recently touched first. -/
def recencyOrder (s : StorageEngine S) (log : List Bytes) : List Bytes :=
  log.dedup.filter fun key ↦ (s.shards.find? key).isSome

/-- The number of the last access of a key. -/
def lastAccess (s : StorageEngine S) (key : Bytes) : ℕ :=
  ((s.shards.find? key).map fun entry ↦ entry.lastAccessSequence.toNat).getD 0

/-- After `n` accesses without a wrap, `l` has the stored keys in the order of their last
ones. -/
structure Listed (n : ℕ) (s : StorageEngine S) (l : List Bytes) : Prop where
  count : s.accessSequence.toNat = n
  mem : ∀ key, key ∈ l ↔ s.shards.find? key ≠ none
  sorted : l.Pairwise fun a b ↦ s.lastAccess a < s.lastAccess b
  bound : ∀ key ∈ l, s.lastAccess key ≤ n

section
variable {n : ℕ} {s s' : StorageEngine S} {l : List Bytes}

theorem Listed.nodup (h : Listed n s l) : l.Nodup := by
  refine h.sorted.imp ?_
  rintro a b hlt rfl
  exact Nat.lt_irrefl _ hlt

theorem Listed.length (h : Listed n s l) : l.length = s.shards.size := by
  have hperm : l.Perm (s.shards.entries.map Prod.fst) := by
    refine (List.perm_ext_iff_of_nodup h.nodup (PartMap.nodup_keys_entries _)).mpr fun key ↦ ?_
    rw [h.mem, PartMap.mem_keys_entries, Option.isSome_iff_ne_none]
  rw [hperm.length_eq, List.length_map, PartMap.length_entries]

/-- Fewer entries, otherwise unchanged. -/
theorem Listed.of_sublist (h : Listed n s l) {l' : List Bytes} (hsub : l'.Sublist l)
    (hsequence : s'.accessSequence = s.accessSequence)
    (hmem : ∀ key, key ∈ l' ↔ s'.shards.find? key ≠ none)
    (hsame : ∀ key ∈ l', s'.shards.find? key = s.shards.find? key) : Listed n s' l' := by
  have haccess : ∀ key ∈ l', s'.lastAccess key = s.lastAccess key := by
    intro key hkey
    rw [lastAccess, hsame key hkey, lastAccess]
  refine ⟨hsequence ▸ h.count, hmem, ?_, fun key hkey ↦ ?_⟩
  · refine (h.sorted.sublist hsub).imp_of_mem fun ha hb hlt ↦ ?_
    rwa [haccess _ ha, haccess _ hb]
  · rw [haccess key hkey]
    exact h.bound key (hsub.subset hkey)

theorem Listed.erase (h : Listed n s l) (key : Bytes)
    (hsequence : s'.accessSequence = s.accessSequence)
    (hshards : s'.shards = s.shards.erase key) : Listed n s' (forget l key) := by
  refine h.of_sublist (forget_sublist l key) hsequence (fun k ↦ ?_) fun k hk ↦ ?_
  · rw [mem_forget h.nodup, h.mem, hshards]
    by_cases hk : k = key
    · simp [hk]
    · simp [hk, PartMap.find?_erase_ne _ hk]
  · rw [hshards, PartMap.find?_erase_ne _ ((mem_forget h.nodup).mp hk).1]

theorem Listed.put (h : Listed n s l) (hn : n + 1 < 2 ^ 64) (key : Bytes) (entry : ValueEntry) :
    Listed (n + 1) (s.put key entry) (touch l key) := by
  have hcount : (s.accessSequence + 1).toNat = n + 1 := by
    rw [UInt64.toNat_add, h.count]
    exact Nat.mod_eq_of_lt hn
  have hself : (s.put key entry).lastAccess key = n + 1 := by
    simp [lastAccess, StorageEngine.put, hcount]
  have hother {k : Bytes} (hk : k ≠ key) :
      (s.put key entry).shards.find? k = s.shards.find? k := PartMap.find?_insert_ne _ _ hk
  have haccess {k : Bytes} (hk : k ≠ key) : (s.put key entry).lastAccess k = s.lastAccess k := by
    rw [lastAccess, hother hk, lastAccess]
  have hold {k : Bytes} (hk : k ∈ forget l key) :
      (s.put key entry).lastAccess k = s.lastAccess k ∧ s.lastAccess k ≤ n := by
    obtain ⟨hne, hmem⟩ := (mem_forget h.nodup).mp hk
    exact ⟨haccess hne, h.bound k hmem⟩
  refine ⟨hcount, fun k ↦ ?_, ?_, fun k hk ↦ ?_⟩
  · by_cases hk : k = key
    · simp [mem_touch, hk, StorageEngine.put]
    · rw [mem_touch, h.mem, hother hk]
      simp [hk]
  · refine List.pairwise_append.mpr ⟨?_, List.pairwise_singleton _ _, ?_⟩
    · refine (h.sorted.sublist (forget_sublist l key)).imp_of_mem fun ha hb hlt ↦ ?_
      rwa [(hold ha).1, (hold hb).1]
    · rintro a ha b hb
      obtain rfl := List.mem_singleton.mp hb
      have := hold ha
      omega
  · rcases List.mem_append.mp hk with hk | hk
    · have := hold hk
      omega
    · rw [List.mem_singleton.mp hk, hself]

end

end StorageEngine

/-- What an act makes of the order. -/
def EngineAct.reorder {S : Sharding} (s : StorageEngine S) (l : List Bytes) :
    EngineAct → List Bytes
  | .touch key _ | .create key _ => Recency.touch l key
  | .expire key | .delete key | .evict key => forget l key
  | .sweep now => l.filter fun key ↦ ((s.cleanupExpired now).2.shards.find? key).isSome
  | .clear => []
  | .drain | .limit _ | .enable _ => l

namespace StorageEngine

variable {S : Sharding}

section
variable {n : ℕ} {s s' : StorageEngine S} {l log : List Bytes}

theorem Listed.sweep (h : Listed n s l) (now : TimePoint) :
    Listed n (s.cleanupExpired now).2
      (l.filter fun key ↦ ((s.cleanupExpired now).2.shards.find? key).isSome) := by
  obtain ⟨shards, heq⟩ := cleanupExpired_eq s now
  have hkept {key : Bytes} {entry : ValueEntry}
      (hfind : (s.cleanupExpired now).2.shards.find? key = some entry) :
      s.shards.find? key = some entry := by
    rw [find?_cleanupExpired, Option.filter_eq_some_iff] at hfind
    exact hfind.1
  refine h.of_sublist List.filter_sublist (by rw [heq]) (fun key ↦ ?_) fun key hkey ↦ ?_
  · rw [List.mem_filter, Option.isSome_iff_ne_none, h.mem, and_iff_right_iff_imp]
    intro hne
    obtain ⟨entry, hfind⟩ := Option.ne_none_iff_exists'.mp hne
    simp [hkept hfind]
  · obtain ⟨entry, hfind⟩ := Option.isSome_iff_exists.mp (List.mem_filter.mp hkey).2
    rw [hfind, hkept hfind]

/-- One act. -/
theorem Listed.act (h : Listed n s l) {act : EngineAct} (hfits : act.Fits s)
    (hn : n + act.touched.length < 2 ^ 64) :
    Listed (n + act.touched.length) (act.apply s) (act.reorder s l) := by
  cases act with
  | touch key entry => exact h.put hn key entry
  | create key entry =>
      have hput := h.put hn key entry
      exact ⟨hput.count, hput.mem, hput.sorted, hput.bound⟩
  | expire key => exact h.erase key rfl rfl
  | delete key => exact h.erase key rfl rfl
  | evict key =>
      obtain ⟨oldest, hvictim⟩ := hfits
      obtain ⟨entry, hfind, -⟩ := findVictim_spec hvictim
      rw [EngineAct.apply, evict_eq hfind]
      exact h.erase key rfl rfl
  | sweep now => exact h.sweep now
  | clear =>
      exact ⟨h.count, fun key ↦ by simp [EngineAct.reorder, EngineAct.apply, flush], .nil,
        by simp [EngineAct.reorder]⟩
  | drain | limit _ | enable _ => exact ⟨h.count, h.mem, h.sorted, h.bound⟩

theorem reorder_sublist (h : l.Sublist log.dedup) (act : EngineAct) :
    (act.reorder s l).Sublist (log ++ act.touched).dedup := by
  cases act with
  | touch key entry | create key entry =>
      rw [EngineAct.touched, dedup_concat]
      exact touch_sublist h key
  | expire key | delete key | evict key =>
      rw [EngineAct.touched, List.append_nil]
      exact (forget_sublist l key).trans h
  | sweep now =>
      rw [EngineAct.touched, List.append_nil]
      exact List.filter_sublist.trans h
  | clear => exact List.nil_sublist _
  | drain | limit _ | enable _ =>
      rw [EngineAct.touched, List.append_nil]
      exact h

/-- The log of all touches so far gives the order of the stored keys. -/
def Tracked (s : StorageEngine S) (log : List Bytes) : Prop :=
  ∃ l, Listed log.length s l ∧ l.Sublist log.dedup

theorem Tracked.acts (h : s.Tracked log) {acts : List EngineAct} (hacts : s.Performs acts)
    (hlen : (log ++ acts.flatMap EngineAct.touched).length < 2 ^ 64) :
    (s.after acts).Tracked (log ++ acts.flatMap EngineAct.touched) := by
  induction acts generalizing s log with
  | nil => simpa using h
  | cons act acts ih =>
      rw [List.flatMap_cons, ← List.append_assoc] at hlen ⊢
      obtain ⟨l, hlisted, hsub⟩ := h
      refine ih ⟨act.reorder s l, ?_, reorder_sublist hsub act⟩ hacts.2 hlen
      rw [List.length_append] at hlen ⊢
      exact hlisted.act hacts.1 (by rw [List.length_append] at hlen; omega)

theorem Tracked.order (h : s.Tracked log) : Listed log.length s (s.recencyOrder log) := by
  obtain ⟨l, hlisted, hsub⟩ := h
  have hl : l = s.recencyOrder log := by
    refine eq_filter_of_sublist hsub (List.nodup_dedup log) fun key ↦ ?_
    rw [hlisted.mem, Option.isSome_iff_ne_none]
  exact hl ▸ hlisted

/-! ## Eviction -/

/-- The victim is the least recently touched key. -/
theorem Listed.head_of_findVictim (h : Listed n s l) {key : Bytes} {oldest : UInt64}
    (hvictim : s.findVictim = some (key, oldest)) : ∃ rest, l = key :: rest := by
  obtain ⟨entry, hfind, rfl, holdest⟩ := findVictim_spec hvictim
  have hkey : key ∈ l := (h.mem key).mpr (by simp [hfind])
  obtain ⟨first, rest, rfl⟩ := List.exists_cons_of_ne_nil (List.ne_nil_of_mem hkey)
  obtain ⟨e, he⟩ := Option.ne_none_iff_exists'.mp ((h.mem first).mp (by simp))
  have hle := UInt64.le_iff_toNat_le.mp (holdest first e he)
  rcases List.mem_cons.mp hkey with rfl | hrest
  · exact ⟨rest, rfl⟩
  · have hlt := (List.pairwise_cons.mp h.sorted).1 key hrest
    simp only [lastAccess, he, hfind, Option.map_some, Option.getD_some] at hlt
    omega

/-- `s'` is `s` with only the `limit` most recently touched keys of `l`. -/
structure Trims (limit : ℕ) (l : List Bytes) (s s' : StorageEngine S) : Prop where
  kept : ∀ key ∈ l.rtake limit, s'.shards.find? key = s.shards.find? key
  pending : s'.pendingEvictedKeys = s.pendingEvictedKeys ++ l.rdrop limit

theorem Trims.refl {limit : ℕ} (h : l.length ≤ limit) (s : StorageEngine S) : Trims limit l s s :=
  ⟨fun _ _ ↦ rfl, by rw [rdrop_of_length_le h, List.append_nil]⟩

theorem toNat_totalKeys (h : Listed n s l) (hdrift : s.drift = 0) (hsmall : l.length < 2 ^ 64) :
    s.totalKeys.toNat = l.length := by
  rw [totalKeys_of_drift hdrift, UInt64.toNat_ofNat', h.length]
  exact Nat.mod_eq_of_lt (h.length ▸ hsmall)

/-- The loop leaves the most recent keys. -/
theorem Listed.evictionLoop (limit : UInt64) (rounds : ℕ) {s : StorageEngine S} {l : List Bytes}
    (h : Listed n s l) (hdrift : s.drift = 0) (hsmall : l.length < 2 ^ 64)
    (hrounds : l.length ≤ rounds + limit.toNat) :
    Listed n (evictionLoop limit rounds s) (l.rtake limit.toNat) ∧
      Trims limit.toNat l s (StorageEngine.evictionLoop limit rounds s) := by
  induction rounds generalizing s l with
  | zero =>
      have hle : l.length ≤ limit.toNat := by omega
      rw [rtake_of_length_le hle]
      exact ⟨h, Trims.refl hle s⟩
  | succ rounds ih =>
      have htotal := toNat_totalKeys h hdrift hsmall
      unfold StorageEngine.evictionLoop
      split
      · rename_i hlt
        rw [UInt64.lt_iff_toNat_lt, htotal] at hlt
        cases hvictim : s.findVictim with
        | none =>
            have hzero := size_eq_zero_of_findVictim hvictim
            rw [h.length] at hlt
            omega
        | some victim =>
            obtain ⟨key, oldest⟩ := victim
            obtain ⟨rest, rfl⟩ := h.head_of_findVictim hvictim
            obtain ⟨entry, hfind, -⟩ := findVictim_spec hvictim
            have hle : limit.toNat ≤ rest.length := by simpa using hlt
            have hrest : Listed n (s.evict key) rest := by
              have herased : Listed n (s.evict key) (forget (key :: rest) key) := by
                rw [evict_eq hfind]
                exact h.erase key rfl rfl
              rwa [forget_head] at herased
            rw [List.length_cons] at hsmall hrounds
            obtain ⟨hlisted, hkept, hpending⟩ := ih hrest
              ((evicts_evict hfind).1.drift.trans hdrift) (by omega) (by omega)
            rw [rtake_cons_of_le key hle]
            refine ⟨hlisted, fun k hk ↦ ?_, ?_⟩
            · rw [rtake_cons_of_le key hle] at hk
              have hne : k ≠ key := by
                rintro rfl
                exact (List.nodup_cons.mp h.nodup).1 ((rtake_sublist _ rest).subset hk)
              rw [hkept k hk, evict_eq hfind]
              exact PartMap.find?_erase_ne _ hne
            · rw [hpending, (evicts_evict hfind).1.pending, rdrop_cons_of_le key hle,
                List.append_assoc, List.singleton_append]
      · rename_i hge
        rw [UInt64.not_lt, UInt64.le_iff_toNat_le, htotal] at hge
        rw [rtake_of_length_le hge]
        exact ⟨h, Trims.refl hge s⟩

theorem Listed.enforceMaxKeys (h : Listed n s l) (hdrift : s.drift = 0)
    (hsmall : l.length < 2 ^ 64) (hmax : s.maxKeys ≠ 0) (henabled : s.evictionEnabled = true) :
    Listed n s.enforceMaxKeys (l.rtake s.maxKeys.toNat) ∧
      Trims s.maxKeys.toNat l s s.enforceMaxKeys := by
  unfold StorageEngine.enforceMaxKeys
  split
  · rename_i hstop
    have hle : l.length ≤ s.maxKeys.toNat := by
      rw [← toNat_totalKeys h hdrift hsmall, ← UInt64.le_iff_toNat_le]
      simpa [henabled, hmax] using hstop
    rw [rtake_of_length_le hle]
    exact ⟨h, Trims.refl hle s⟩
  · refine h.evictionLoop s.maxKeys (s.shards.size + 1) hdrift hsmall ?_
    rw [h.length]
    omega

/-! ## One call -/

/-- The keys that a call touches, in order. -/
def touches (s : StorageEngine S) (e : EngineEvent) : List Bytes :=
  (s.sectionActs e).flatMap EngineAct.touched

theorem touched_acts (s : StorageEngine S) (e : EngineEvent) :
    (s.acts e).flatMap EngineAct.touched = s.touches e := by
  have hevict : ∀ act ∈ (s.beforeEviction e).2.2.enforceActs, act.touched = [] :=
    forall_enforceActs _ fun _ ↦ rfl
  rw [acts, List.flatMap_append, touches]
  split
  · rw [List.flatMap_eq_nil_iff.mpr hevict, List.append_nil]
  · exact List.append_nil _

theorem touchLog_concat (s : StorageEngine S) (past : List EngineEvent) (e : EngineEvent) :
    s.touchLog (past ++ [e]) = s.touchLog past ++ (s.calls past).touches e := by
  induction past generalizing s with
  | nil => simp [touchLog, allActs, touched_acts, calls]
  | cons x past ih =>
      have hrest := ih (s.call x).2
      simp only [touchLog, List.cons_append, allActs, List.flatMap_append, List.append_assoc]
        at hrest ⊢
      rw [hrest]
      rfl

end

end StorageEngine

/-- The keys that a call writes. -/
def EngineCall.written : EngineCall → List Bytes
  | .set key _ | .increment key _ | .append key _ => [key]
  | .mset args => (StorageEngine.argPairs args).map Prod.fst
  | _ => []

/-- The calls that change the limit or switch eviction. -/
def EngineCall.configures : EngineCall → Bool
  | .setMaxKeys _ | .setEvictionEnabled _ => true
  | _ => false

namespace StorageEngine

variable {S : Sharding}

section
variable (s : StorageEngine S)

theorem touched_dropActs (now : TimePoint) (key : Bytes) :
    (s.dropActs now key).flatMap EngineAct.touched = [] :=
  List.flatMap_eq_nil_iff.mpr (forall_dropActs s now key rfl)

theorem touched_storeActs (now : TimePoint) (key value : Bytes) :
    (s.storeActs now key value).flatMap EngineAct.touched = [key] := by
  rw [storeActs, List.flatMap_append, touched_dropActs, List.nil_append, putActs]
  split <;> rfl

theorem touched_storeAllActs (now : TimePoint) (pairs : List (Bytes × Bytes)) :
    (storeAllActs now s pairs).flatMap EngineAct.touched = pairs.map Prod.fst := by
  induction pairs generalizing s with
  | nil => rfl
  | cons p ps ih =>
      rw [storeAllActs, List.flatMap_append, touched_storeActs, ih, List.map_cons,
        List.singleton_append]

/-- What a call touches before an eviction is what it writes. -/
theorem touches_of_enforces {e : EngineEvent} (hconfig : e.call.configures = false)
    (h : (s.beforeEviction e).2.1 = true) : s.touches e = e.call.written := by
  obtain ⟨call, clock⟩ := e
  cases call with
  | set key value => exact touched_storeActs s _ key value
  | mset args => exact touched_storeAllActs s _ (argPairs args)
  | increment key delta =>
      simp only [touches, sectionActs, incrementActs, List.flatMap_append, touched_dropActs]
      simp only [beforeEviction, incrementLocked] at h
      cases hfind : (s.dropExpired (clock 0) key).shards.find? key with
      | none =>
          rw [hfind] at h
          cases hadd : checkedAdd 0 delta with
          | error e => simp [hadd] at h
          | ok next => rfl
      | some entry =>
          rw [hfind] at h
          dsimp only at h
          cases hadd : storedInteger entry.value >>= (checkedAdd · delta) <;> simp [hadd] at h
  | append key suffix =>
      simp only [touches, sectionActs, appendActs, List.flatMap_append, touched_dropActs]
      simp only [beforeEviction, appendLocked] at h
      cases hfind : (s.dropExpired (clock 0) key).shards.find? key with
      | none => rfl
      | some entry => simp [hfind] at h
  | setMaxKeys | setEvictionEnabled => simp [EngineCall.configures] at hconfig
  | _ => simp [beforeEviction] at h

theorem foldl_update_ne_none (pairs : List (Bytes × Bytes)) (m : Store) {key : Bytes}
    (h : m key ≠ none ∨ key ∈ pairs.map Prod.fst) :
    pairs.foldl (fun (m : Store) p ↦ Function.update m p.1 (some (p.2, none))) m key ≠ none := by
  induction pairs generalizing m with
  | nil => simpa using h
  | cons p ps ih =>
      apply ih
      by_cases hp : key = p.1
      · simp [hp]
      · simpa [hp] using h

theorem stored_of_enforces {e : EngineEvent} (hconfig : e.call.configures = false)
    (h : (s.beforeEviction e).2.1 = true) :
    ∀ key ∈ e.call.written, (s.beforeEviction e).2.2.shards.find? key ≠ none := by
  intro key hkey hnone
  rw [← cells_eq_none_iff] at hnone
  obtain ⟨call, clock⟩ := e
  cases call with
  | set k value =>
      obtain rfl := List.mem_singleton.mp hkey
      simp [beforeEviction] at hnone
  | mset args =>
      simp only [beforeEviction, cells_storeAll] at hnone
      exact foldl_update_ne_none (argPairs args) s.cells (Or.inr hkey) hnone
  | increment k delta =>
      obtain rfl := List.mem_singleton.mp hkey
      rw [snd_beforeEviction_increment] at hnone
      cases hnext : (s.cells key).nextInteger (clock 0) delta with
      | error e => simp [beforeEviction, incrementLocked_error hnext] at h
      | ok next => simp [(incrementLocked_ok hnext).2, Cell.writeInteger] at hnone
  | append k suffix =>
      obtain rfl := List.mem_singleton.mp hkey
      simp only [beforeEviction, (cells_appendLocked s (clock 0) key suffix).1,
        Function.update_self, Cell.append] at hnone
      split at hnone <;> simp at hnone
  | setMaxKeys | setEvictionEnabled => simp [EngineCall.configures] at hconfig
  | _ => simp [beforeEviction] at h

/-- A call behind which no eviction follows creates no entry. -/
theorem size_beforeEviction_le {e : EngineEvent} (h : (s.beforeEviction e).2.1 = false) :
    (s.beforeEviction e).2.2.shards.size ≤ s.shards.size := by
  obtain ⟨hperforms, hafter⟩ := performs_sectionActs s e
  rw [← hafter]
  apply size_after_le hperforms
  obtain ⟨call, clock⟩ := e
  cases call with
  | set | mset | setMaxKeys => simp [beforeEviction] at h
  | get key | «exists» key | strlen key | ttl key | persist key =>
      exact forall_meetActs (P := (·.creates = false)) s _ key rfl (fun _ ↦ rfl) _
  | mget keys => exact forall_mgetActs (P := (·.creates = false)) s (fun _ ↦ rfl) (fun _ _ ↦ rfl) _
  | del key =>
      simp only [sectionActs, delActs]
      split <;> simp [EngineAct.creates]
  | expireAt key expiresAt =>
      exact forall_expireAtActs (P := (·.creates = false)) s _ key rfl (fun _ ↦ rfl) expiresAt
  | increment key delta =>
      refine List.forall_mem_append.mpr
        ⟨forall_dropActs (P := (·.creates = false)) s _ key rfl, ?_⟩
      simp only [beforeEviction, incrementLocked] at h
      cases hfind : (s.dropExpired (clock 0) key).shards.find? key with
      | none =>
          rw [hfind] at h
          cases hadd : checkedAdd 0 delta with
          | error e => simp
          | ok next => simp [hadd] at h
      | some entry =>
          dsimp only
          cases storedInteger entry.value >>= (checkedAdd · delta) <;> simp [EngineAct.creates]
  | append key suffix =>
      refine List.forall_mem_append.mpr
        ⟨forall_dropActs (P := (·.creates = false)) s _ key rfl, ?_⟩
      simp only [beforeEviction, appendLocked] at h
      cases hfind : (s.dropExpired (clock 0) key).shards.find? key with
      | none => simp [hfind] at h
      | some entry => simp [EngineAct.creates]
  | flush | cleanupExpired | size | takeEvictedKeys | setEvictionEnabled =>
      simp [sectionActs, EngineAct.creates]
  | keys | snapshotEntries | evictedKeys | expiredKeysRemoved => simp [sectionActs]

end

/-! ## Whole runs -/

/-- Between calls, under the limit `limit`. -/
structure Bounded (limit : UInt64) (log : List Bytes) (s : StorageEngine S) : Prop where
  tracked : s.Tracked log
  drift : s.drift = 0
  maxKeys : s.maxKeys = limit
  enabled : s.evictionEnabled = true
  size : s.shards.size ≤ limit.toNat

/-- What a call has kept and evicted: `b` is the engine before `enforce_max_keys`, `s'` the
engine after it, `order` has the keys of `b` from the least to the most recently touched. -/
structure EvictsLeastRecent (limit : ℕ) (order written : List Bytes) (b s' : StorageEngine S) :
    Prop where
  stored : ∀ key, key ∈ order ↔ b.shards.find? key ≠ none
  size : s'.shards.size ≤ limit
  survivors : ∀ key, s'.shards.find? key =
    if key ∈ order.rtake limit then b.shards.find? key else none
  count : limit < b.shards.size → (order.rtake limit).length = limit
  evicted : s'.pendingEvictedKeys = b.pendingEvictedKeys ++ order.rdrop limit
  written : written.dedup.length ≤ limit → ∀ key ∈ written, key ∉ order.rdrop limit

section
variable {limit : UInt64} {log : List Bytes} {s : StorageEngine S}

theorem Bounded.beforeEviction (h : s.Bounded limit log) {e : EngineEvent}
    (hconfig : e.call.configures = false) :
    (s.beforeEviction e).2.2.maxKeys = limit ∧
      (s.beforeEviction e).2.2.evictionEnabled = true := by
  obtain ⟨call, clock⟩ := e
  rcases keeps_beforeEviction (s := s) ⟨call, clock⟩ with hkeeps | rfl | rfl | ⟨_, rfl⟩ | ⟨_, rfl⟩
  · exact ⟨hkeeps.maxKeys.trans h.maxKeys, hkeeps.evictionEnabled.trans h.enabled⟩
  · exact ⟨h.maxKeys, h.enabled⟩
  · exact ⟨h.maxKeys, h.enabled⟩
  · simp [EngineCall.configures] at hconfig
  · simp [EngineCall.configures] at hconfig

/-- No key that is written last is evicted, if there is room for all of them. -/
theorem notMem_rdrop_of_written {b : StorageEngine S} {written : List Bytes} {n : ℕ}
    (hlen : written.dedup.length ≤ n) (hstored : ∀ key ∈ written, b.shards.find? key ≠ none) :
    ∀ key ∈ written, key ∉ (b.recencyOrder (log ++ written)).rdrop n := by
  obtain ⟨rest, hrest⟩ := exists_dedup_append log written
  intro key hkey
  have hnodup : (b.recencyOrder (log ++ written)).Nodup := (List.nodup_dedup _).filter _
  rw [recencyOrder, hrest, List.filter_append] at hnodup ⊢
  refine notMem_rdrop_append hnodup ((List.length_filter_le _ _).trans hlen) ?_
  rw [List.mem_filter, List.mem_dedup, Option.isSome_iff_ne_none]
  exact ⟨hkey, hstored key hkey⟩

theorem Bounded.call (h : s.Bounded limit log) (hlimit : limit ≠ 0) {e : EngineEvent}
    (hconfig : e.call.configures = false) (hlen : (log ++ s.touches e).length < 2 ^ 64) :
    (s.call e).2.Bounded limit (log ++ s.touches e) ∧
      EvictsLeastRecent limit.toNat
        ((s.beforeEviction e).2.2.recencyOrder (log ++ s.touches e)) e.call.written
        (s.beforeEviction e).2.2 (s.call e).2 := by
  obtain ⟨hperforms, hafter⟩ := performs_sectionActs s e
  have htracked : (s.beforeEviction e).2.2.Tracked (log ++ s.touches e) :=
    hafter ▸ h.tracked.acts hperforms hlen
  have hdrift := drift_beforeEviction h.drift e
  obtain ⟨hmax, henabled⟩ := h.beforeEviction hconfig
  have horder := htracked.order
  have hsub : ((s.beforeEviction e).2.2.recencyOrder (log ++ s.touches e)).Sublist
      (log ++ s.touches e).dedup := List.filter_sublist
  have hsmall := (hsub.length_le.trans (List.dedup_sublist _).length_le).trans_lt hlen
  rw [call_eq]
  dsimp only
  split
  · rename_i henforce
    obtain ⟨hlisted, hkept, hpending⟩ :=
      horder.enforceMaxKeys hdrift hsmall (hmax ▸ hlimit) henabled
    obtain ⟨ks, hks⟩ := evicts_enforceMaxKeys (s.beforeEviction e).2.2
    rw [hmax] at hlisted hkept hpending
    have hsize : (s.beforeEviction e).2.2.enforceMaxKeys.shards.size ≤ limit.toNat := by
      rw [← hlisted.length, length_rtake]
      exact Nat.min_le_left _ _
    refine ⟨⟨⟨_, hlisted, (rtake_sublist _ _).trans hsub⟩, hks.drift.trans hdrift,
      hks.maxKeys.trans hmax, hks.evictionEnabled.trans henabled, hsize⟩,
      ⟨horder.mem, hsize, fun key ↦ ?_, fun hover ↦ ?_, hpending, fun hroom ↦ ?_⟩⟩
    · split
      · rename_i hkey
        exact hkept key hkey
      · rename_i hkey
        rw [hlisted.mem] at hkey
        exact not_not.mp hkey
    · rw [length_rtake, horder.length]
      exact Nat.min_eq_left hover.le
    · rw [touches_of_enforces s hconfig henforce]
      exact notMem_rdrop_of_written hroom (stored_of_enforces s hconfig henforce)
  · rename_i henforce
    have hsize := (size_beforeEviction_le s (Bool.not_eq_true _ ▸ henforce)).trans h.size
    have hle := horder.length.trans_le hsize
    refine ⟨⟨htracked, hdrift, hmax, henabled, hsize⟩,
      ⟨horder.mem, hsize, fun key ↦ ?_, fun hover ↦ absurd hsize hover.not_ge, ?_, fun _ ↦ ?_⟩⟩
    · rw [rtake_of_length_le hle]
      split
      · rfl
      · rename_i hkey
        rw [horder.mem] at hkey
        exact not_not.mp hkey
    · rw [rdrop_of_length_le hle, List.append_nil]
    · simp [rdrop_of_length_le hle]

theorem Bounded.calls (h : s.Bounded limit log) (hlimit : limit ≠ 0) (events : List EngineEvent)
    (hconfig : ∀ e ∈ events, e.call.configures = false)
    (hlen : (log ++ s.touchLog events).length < 2 ^ 64) :
    (s.calls events).Bounded limit (log ++ s.touchLog events) := by
  induction events using List.reverseRecOn with
  | nil => simpa [touchLog, allActs, StorageEngine.calls] using h
  | append_singleton past e ih =>
      rw [touchLog_concat, ← List.append_assoc] at hlen ⊢
      have hpast := ih (fun x hx ↦ hconfig x (by simp [hx])) (by
        rw [List.length_append] at hlen
        omega)
      rw [calls_concat]
      exact (hpast.call hlimit (hconfig e (by simp)) hlen).1

theorem bounded_calls (S : Sharding) (hlimit : limit ≠ 0) (events : List EngineEvent)
    (hconfig : ∀ e ∈ events, e.call.configures = false)
    (hlen : (touchLog ({ maxKeys := limit } : StorageEngine S) events).length < 2 ^ 64) :
    Bounded limit (touchLog ({ maxKeys := limit } : StorageEngine S) events)
      (({ maxKeys := limit } : StorageEngine S).calls events) := by
  have hstart : ({ maxKeys := limit } : StorageEngine S).Bounded limit [] := by
    refine ⟨⟨[], ⟨rfl, by simp, .nil, by simp⟩, List.nil_sublist _⟩, ?_, rfl, rfl, ?_⟩
    · simp [StorageEngine.drift]
    · simp
  exact hstart.calls hlimit events hconfig hlen

end

end StorageEngine

/-- From an empty engine with a limit, as long as fewer than `2 ^ 64` keys have been touched:
every call ends within the limit, keeps the most recently touched entries, and reports the
others in the order of their last touch. -/
theorem eviction_least_recent (S : Sharding) (limit : UInt64) (hlimit : limit ≠ 0)
    (past : List EngineEvent) (e : EngineEvent)
    (hconfig : ∀ x ∈ past ++ [e], x.call.configures = false)
    (hlen : (touchLog ({ maxKeys := limit } : StorageEngine S) (past ++ [e])).length < 2 ^ 64) :
    let empty : StorageEngine S := { maxKeys := limit }
    let b := ((empty.calls past).beforeEviction e).2.2
    EvictsLeastRecent limit.toNat (b.recencyOrder (empty.touchLog (past ++ [e]))) e.call.written b
      (empty.calls (past ++ [e])) := by
  intro empty b
  rw [touchLog_concat] at hlen ⊢
  have hpast := bounded_calls S hlimit past (fun x hx ↦ hconfig x (by simp [hx])) (by
    rw [List.length_append] at hlen
    exact (Nat.le_add_right _ _).trans_lt hlen)
  rw [calls_concat]
  exact (hpast.call hlimit (hconfig e (by simp)) hlen).2

/-- A read saves the older of two keys. -/
theorem eviction_least_recent_read :
    let past : List EngineEvent := [⟨.set (ascii "a") (ascii "1"), fun _ ↦ 0⟩,
      ⟨.set (ascii "b") (ascii "2"), fun _ ↦ 0⟩, ⟨.get (ascii "a"), fun _ ↦ 0⟩]
    let e : EngineEvent := ⟨.set (ascii "c") (ascii "3"), fun _ ↦ 0⟩
    let empty : StorageEngine oneShard := { maxKeys := 2 }
    EvictsLeastRecent 2 [ascii "b", ascii "a", ascii "c"] [ascii "c"]
      ((empty.calls past).beforeEviction e).2.2 (empty.calls (past ++ [e])) := by
  intro past e empty
  have hevicts := eviction_least_recent oneShard 2 (by decide) past e (by decide +kernel)
    (by decide +kernel)
  have horder : ((empty.calls past).beforeEviction e).2.2.recencyOrder
      (empty.touchLog (past ++ [e])) = [ascii "b", ascii "a", ascii "c"] := by decide +kernel
  dsimp only at hevicts
  rw [horder] at hevicts
  exact hevicts

/-! ## The access counter wraps -/

/-- An engine with room for one key, after some accesses to it. -/
def loneKey (accesses : UInt64) : StorageEngine oneShard where
  shards := PartMap.empty.insert (ascii "a") ⟨ascii "1", none, 0, accesses⟩
  totalKeys := 1
  maxKeys := 1
  accessSequence := accesses

theorem set_loneKey :
    ({ maxKeys := 1 } : StorageEngine oneShard).set 0 (ascii "a") (ascii "1") = loneKey 1 := by
  have hstore : ({ maxKeys := 1 } : StorageEngine oneShard).store 0 (ascii "a") (ascii "1") =
      loneKey 1 := by
    simp [store, dropExpired, putCounted, put, loneKey]
  rw [StorageEngine.set, hstore]
  exact enforceMaxKeys_of_le (Or.inr (UInt64.le_refl 1))

theorem get_loneKey (accesses : UInt64) :
    ((loneKey accesses).get 0 (ascii "a")).2 = loneKey (accesses + 1) := by
  simp [StorageEngine.get, isExpired, put, loneKey]

/-- A read of the key. -/
def readLone : EngineEvent := ⟨.get (ascii "a"), fun _ ↦ 0⟩

theorem calls_readLone (n : ℕ) (accesses : UInt64) :
    (loneKey accesses).calls (List.replicate n readLone) =
      loneKey (accesses + UInt64.ofNat n) := by
  induction n generalizing accesses with
  | zero => simp [calls]
  | succ n ih =>
      have hget : ((loneKey accesses).call readLone).2 = loneKey (accesses + 1) :=
        get_loneKey accesses
      rw [List.replicate_succ]
      change (((loneKey accesses).call readLone).2).calls (List.replicate n readLone) = _
      rw [hget, ih, Nat.add_comm, UInt64.ofNat_add, UInt64.add_assoc]
      rfl

/-- A write and `n` reads. -/
def loneRun (n : ℕ) : List EngineEvent :=
  ⟨.set (ascii "a") (ascii "1"), fun _ ↦ 0⟩ :: List.replicate n readLone

theorem calls_loneRun (n : ℕ) :
    calls ({ maxKeys := 1 } : StorageEngine oneShard) (loneRun n) =
      loneKey (1 + UInt64.ofNat n) := by
  change calls (({ maxKeys := 1 } : StorageEngine oneShard).set 0 (ascii "a") (ascii "1")) _ = _
  rw [set_loneKey, calls_readLone]

theorem configures_loneRun (n : ℕ) : ∀ x ∈ loneRun n, x.call.configures = false := by
  intro x hx
  rcases List.mem_cons.mp hx with rfl | hx
  · rfl
  · rw [List.eq_of_mem_replicate hx]
    rfl

/-- After `2 ^ 64 - 1` touches of the key, a new key is the one that is evicted. -/
theorem newest_evicted_after_wrap :
    ∃ past : List EngineEvent, (∀ x ∈ past, x.call.configures = false) ∧
      let s := calls ({ maxKeys := 1 } : StorageEngine oneShard) past
      let s' := (s.call ⟨.set (ascii "b") (ascii "2"), fun _ ↦ 0⟩).2
      s'.shards.find? (ascii "b") = none ∧ s'.pendingEvictedKeys = [ascii "b"] := by
  refine ⟨loneRun (2 ^ 64 - 2), configures_loneRun _, ?_⟩
  rw [calls_loneRun]
  decide +kernel

end ByteCacheDB
