import ByteCacheDB.Concurrency
import ByteCacheDB.Execution

/-!
# The limit on the number of keys

A call that has stored a new key is going to check the counter, and so is a
thread that evicts.  Such threads watch the limit: as long as there are more
entries than the limit allows, some thread is watching.  A thread gives up
watching when it reads a counter within the limit, or when its scan has found no
entry at all; in the second case whatever was stored behind the scan was stored
by a thread that is still watching.
-/

namespace ByteCacheDB

open Runs Threads StorageEngine

namespace StorageEngine

variable {S : Sharding}

/-- No key is new. -/
def Shrinks (s s' : StorageEngine S) : Prop :=
  ∀ key, s.shards.find? key = none → s'.shards.find? key = none

theorem Shrinks.refl (s : StorageEngine S) : Shrinks s s := fun _ h ↦ h

theorem Shrinks.size_le {s s' : StorageEngine S} (h : Shrinks s s') :
    s'.shards.size ≤ s.shards.size :=
  PartMap.size_le_of_find? h

theorem shrinks_of_update {s s' : StorageEngine S} {key : Bytes} {c : Cell}
    (hcells : s'.cells = Function.update s.cells key c) (hc : s.cells key = none → c = none) :
    Shrinks s s' := by
  intro k hk
  rw [← cells_eq_none_iff] at hk ⊢
  rw [hcells, Function.update_apply]
  split
  · rename_i heq
    exact hc (heq ▸ hk)
  · exact hk

theorem isNone_live_of_none {now : TimePoint} {c : Cell} (h : c = none) :
    (c.live now).isNone = true := by
  rw [h]
  rfl

/-- A section behind which no eviction follows stores no new key. -/
theorem shrinks_enter {s : StorageEngine S} {call : EngineCall} {now : TimePoint}
    (hcall : call.sectioned = true) (h : (s.beforeEviction ⟨call, fun _ ↦ now⟩).2.1 = false) :
    Shrinks s (ConcurrentEngine.enter s call now) := by
  have hshards : (ConcurrentEngine.enter s call now).shards =
      (s.beforeEviction ⟨call, fun _ ↦ now⟩).2.2.shards := by
    cases call <;> rfl
  suffices hbefore : Shrinks s (s.beforeEviction ⟨call, fun _ ↦ now⟩).2.2 by
    intro key hkey
    rw [hshards]
    exact hbefore key hkey
  cases call with
  | set key value => simp [beforeEviction] at h
  | mset args => simp [beforeEviction] at h
  | get key | «exists» key | strlen key =>
      exact shrinks_of_update (cells_get s now key).1 fun hnone ↦ by rw [hnone]; rfl
  | del key => exact shrinks_of_update (cells_del s key) fun _ ↦ rfl
  | expireAt key deadline =>
      exact shrinks_of_update (cells_expireAt s now key deadline) fun hnone ↦ by rw [hnone]; rfl
  | ttl key => exact shrinks_of_update (cells_ttl s now key) fun hnone ↦ by rw [hnone]; rfl
  | persist key => exact shrinks_of_update (cells_persist s now key) fun hnone ↦ by rw [hnone]; rfl
  | flush => exact fun _ _ ↦ rfl
  | increment key delta =>
      rw [snd_beforeEviction_increment]
      cases hnext : (s.cells key).nextInteger now delta with
      | error e =>
          rw [incrementLocked_error hnext]
          exact shrinks_of_update (cells_dropExpired s now key) fun hnone ↦ by rw [hnone]; rfl
      | ok next =>
          obtain ⟨hresult, hcells⟩ := incrementLocked_ok hnext
          refine shrinks_of_update hcells fun hnone ↦ ?_
          have hinserted : (s.beforeEviction ⟨.increment key delta, fun _ ↦ now⟩).2.1 =
              ((s.cells key).live now).isNone := by
            simp only [beforeEviction]
            rcases hinc : s.incrementLocked now key delta with ⟨_ | ⟨n, inserted⟩, s'⟩
            · simp [hinc] at hresult
            · simpa [hinc] using (Prod.mk.inj (Except.ok.inj (hinc ▸ hresult))).2
          rw [hinserted, isNone_live_of_none hnone] at h
          simp at h
  | append key suffix =>
      obtain ⟨hcells, hinserted⟩ := cells_appendLocked s now key suffix
      refine shrinks_of_update hcells fun hnone ↦ ?_
      have hflag : (s.appendLocked now key suffix).1.2 = false := h
      rw [hinserted, isNone_live_of_none hnone] at hflag
      simp at hflag
  | mget | cleanupExpired | size => simp [EngineCall.sectioned] at hcall
  | _ => exact Shrinks.refl s

/-- A section that lists a new key is followed by eviction. -/
theorem enforce_of_up {s : StorageEngine S} {call : EngineCall} {now : TimePoint}
    (h : .up ∈ s.counts now call) : (s.beforeEviction ⟨call, fun _ ↦ now⟩).2.1 = true := by
  have hdrop : ∀ key, .up ∉ s.dropCounts now key := by
    intro key hup
    unfold dropCounts at hup
    repeat' split at hup
    all_goals simp at hup
  cases call with
  | set key value => rfl
  | mset args => rfl
  | increment key delta =>
      rcases List.mem_append.mp h with hup | hup
      · exact absurd hup (hdrop key)
      · simp only [beforeEviction]
        rcases hinc : s.incrementLocked now key delta with ⟨_ | ⟨n, inserted⟩, s'⟩
        · simp [hinc] at hup
        · cases inserted with
          | true => rfl
          | false => simp [hinc] at hup
  | append key suffix =>
      rcases List.mem_append.mp h with hup | hup
      · exact absurd hup (hdrop key)
      · simp only [beforeEviction, appendLocked]
        cases hfind : (s.dropExpired now key).shards.find? key with
        | none => rfl
        | some entry => simp [putCounts, hfind] at hup
  | get key | «exists» key | strlen key | ttl key | persist key => exact absurd h (hdrop key)
  | del key | expireAt key deadline =>
      simp only [counts] at h
      repeat' split at h
      all_goals simp at h
  | _ => simp [counts] at h

/-- A scan that has found no victim has met an empty shard. -/
theorem find?_of_scanShard {s : StorageEngine S} {victim : Option (Bytes × UInt64)}
    {i : Fin S.count} (h : s.scanShard victim i = none) :
    victim = none ∧ ∀ key, S.shardIndex key = i → s.shards.find? key = none := by
  unfold scanShard at h
  cases hentries : (s.shards.part i).entries with
  | nil =>
      rw [hentries] at h
      refine ⟨h, fun key hkey ↦ ?_⟩
      rw [PartMap.find?]
      have hpart : s.shards.part (S.shardIndex key) = ∅ := by
        rw [hkey]
        exact AList.ext hentries
      rw [hpart]
      rfl
  | cons e es =>
      have hlast : ∀ (l : List (Sigma fun _ : Bytes ↦ ValueEntry)) (v : Bytes × UInt64),
          l.foldl (fun v e ↦ olderEntry v e.1 e.2) (some v) ≠ none := by
        intro l
        induction l with
        | nil => simp
        | cons e es ih =>
            intro v
            obtain ⟨w, hw⟩ := Option.ne_none_iff_exists'.mp (olderEntry_ne_none (some v) e.1 e.2)
            rw [List.foldl_cons, hw]
            exact ih w
      obtain ⟨w, hw⟩ := Option.ne_none_iff_exists'.mp (olderEntry_ne_none victim e.1 e.2)
      rw [hentries, List.foldl_cons, hw] at h
      exact absurd h (hlast es w)

end StorageEngine

namespace EnginePc

variable {S : Sharding}

/-- The thread is going to check the counter before its call ends. -/
def watching : EnginePc S → Bool
  | counting _ _ enforce => enforce
  | limiting | waiting | evicting | scanning _ _ | striking _ | struck _ => true
  | _ => false

/-- Entries that are stored and not yet counted. -/
def adds : EnginePc S → ℕ
  | counting _ counts _ => counts.count .up
  | _ => 0

/-- Entries that are gone and still counted. -/
def subs : EnginePc S → ℕ
  | counting _ counts _ => counts.count .down
  | sweeping _ _ removed _ => removed
  | struck _ => 1
  | _ => 0

/-- Who has stored a key is watching. -/
def Heedful : EnginePc S → Prop
  | counting _ counts enforce => .up ∈ counts → enforce = true
  | _ => True

theorem tally_eq (counts : List Count) :
    tally counts + UInt64.ofNat (counts.count .down) = UInt64.ofNat (counts.count .up) := by
  induction counts with
  | nil => rfl
  | cons c cs ih =>
      cases c with
      | up =>
          rw [List.count_cons_self, List.count_cons_of_ne (by decide), UInt64.ofNat_add, ← ih,
            tally_cons, Count.delta]
          grind
      | down =>
          rw [List.count_cons_self, List.count_cons_of_ne (by decide), UInt64.ofNat_add, ← ih,
            tally_cons, Count.delta]
          grind

theorem owed_eq (pc : EnginePc S) :
    pc.owed + UInt64.ofNat pc.subs = UInt64.ofNat pc.adds := by
  cases pc with
  | counting held counts enforce => exact tally_eq counts
  | sweeping now rest removed sized =>
      simp only [owed, subs, adds]
      grind
  | struck key =>
      simp only [owed, subs, adds]
      grind
  | _ => rfl

theorem watching_of_adds {pc : EnginePc S} (h : pc.Heedful) (hadds : 0 < pc.adds) :
    pc.watching = true := by
  cases pc with
  | counting held counts enforce => exact h (List.count_pos_iff.mp hadds)
  | _ => simp [adds] at hadds

end EnginePc

namespace ConcurrentEngine

variable {S : Sharding} {κ : Type*}

/-! ## One step -/

section
variable {m : ConcurrentEngine S κ} {pc pc' : EnginePc S} {s' : StorageEngine S}

theorem config_advances (hpc : pc.WellFormed) (h : Advances m pc s' pc') :
    s'.maxKeys = m.engine.maxKeys ∧ s'.evictionEnabled = m.engine.evictionEnabled := by
  cases h with
  | @enter call now hfree =>
      have henter : (enter m.engine call now).maxKeys =
            (m.engine.beforeEviction ⟨call, fun _ ↦ now⟩).2.2.maxKeys ∧
          (enter m.engine call now).evictionEnabled =
            (m.engine.beforeEviction ⟨call, fun _ ↦ now⟩).2.2.evictionEnabled := by
        cases call <;> exact ⟨rfl, rfl⟩
      rw [henter.1, henter.2]
      rcases keeps_beforeEviction (s := m.engine) ⟨call, fun _ ↦ now⟩ with
        hkeeps | rfl | rfl | ⟨n, rfl⟩ | ⟨b, rfl⟩
      · exact ⟨hkeeps.maxKeys, hkeeps.evictionEnabled⟩
      · exact ⟨rfl, rfl⟩
      · exact ⟨rfl, rfl⟩
      · simp [EnginePc.WellFormed, EngineCall.sectioned] at hpc
      · simp [EnginePc.WellFormed, EngineCall.sectioned] at hpc
  | strike hfree hfind => simp [evict, hfind]
  | _ => exact ⟨rfl, rfl⟩

theorem heedful_advances (hpc : pc.Heedful) (h : Advances m pc s' pc') : pc'.Heedful := by
  cases h with
  | enter hfree => exact enforce_of_up
  | count => exact fun hup ↦ hpc (List.mem_cons_of_mem _ hup)
  | settle => split <;> trivial
  | _ => trivial

theorem flushing_advances (h : Advances m pc s' pc') : pc'.flushing = false := by
  cases h with
  | settle => split <;> rfl
  | _ => rfl

theorem holdsEviction_advances (h : Advances m pc s' pc') (hholds : pc'.holdsEviction = true) :
    pc.holdsEviction = true ∨ ∀ k, (m.pcs k).holdsEviction = false := by
  cases h with
  | lock hfree => exact Or.inr hfree
  | settle => split at hholds <;> simp [EnginePc.holdsEviction] at hholds
  | scan | scanShard | victim | strike | miss | struck => exact Or.inl rfl
  | _ => simp [EnginePc.holdsEviction] at hholds

/-- A step behind which the thread does not watch stores no new key. -/
theorem shrinks_advances (hpc : pc.WellFormed) (h : Advances m pc s' pc')
    (hwatching : pc'.watching = false) : Shrinks m.engine s' := by
  cases h with
  | enter hfree => exact shrinks_enter hpc hwatching
  | @sweep now i rest removed sized hfree =>
      intro key hkey
      rw [find?_cleanupExpiredLocked, hkey]
      simp
  | strike | struck => simp [EnginePc.watching] at hwatching
  | _ => exact Shrinks.refl _

/-- The three ways to stop watching. -/
theorem watching_advances (h : Advances m pc s' pc') (hbefore : pc.watching = true)
    (hafter : pc'.watching = false) : s' = m.engine ∧
      ((pc = .limiting ∧ (m.engine.evictionEnabled = false ∨ m.engine.maxKeys = 0 ∨
          m.engine.totalKeys ≤ m.engine.maxKeys)) ∨
        (pc = .evicting ∧ m.engine.totalKeys ≤ m.engine.maxKeys) ∨ pc = .scanning [] none) := by
  cases h with
  | within hwithin => exact ⟨rfl, Or.inl ⟨rfl, hwithin⟩⟩
  | enough henough => exact ⟨rfl, Or.inr (Or.inl ⟨rfl, henough⟩)⟩
  | noVictim => exact ⟨rfl, Or.inr (Or.inr rfl)⟩
  | count => exact absurd (hbefore.symm.trans hafter) (by decide)
  | exceeds | lock | scan | scanShard | victim | strike | miss | struck | enforce =>
      simp [EnginePc.watching] at hafter
  | _ => simp [EnginePc.watching] at hbefore

end

/-- A scan without a victim has met only empty shards. -/
theorem scanned_advances {rest : List (Fin S.count)} {m : ConcurrentEngine S κ}
    {pc pc' : EnginePc S} {s' : StorageEngine S} (h : Advances m pc s' pc')
    (hpc' : pc' = .scanning rest none) : s' = m.engine ∧
      (rest = List.finRange S.count ∨ ∃ i, pc = .scanning (i :: rest) none ∧
        ∀ key, S.shardIndex key = i → m.engine.shards.find? key = none) := by
  cases h with
  | scan => exact ⟨rfl, Or.inl (EnginePc.scanning.inj hpc').1.symm⟩
  | @scanShard i rest' victim hfree =>
      obtain ⟨rfl, hvictim⟩ := EnginePc.scanning.inj hpc'
      obtain ⟨rfl, hempty⟩ := find?_of_scanShard hvictim
      exact ⟨rfl, Or.inr ⟨i, rfl, hempty⟩⟩
  | settle => split at hpc' <;> simp at hpc'
  | _ => simp at hpc'

/-! ## The invariant -/

variable [Fintype κ] [DecidableEq κ]

/-- Every stored or still counted entry fits the counter. -/
def Fits (m : ConcurrentEngine S κ) (_ : ThreadEvent κ) : Prop :=
  m.engine.shards.size + total EnginePc.subs m.pcs < 2 ^ 64

instance (m : ConcurrentEngine S κ) (e : ThreadEvent κ) : Decidable (m.Fits e) :=
  inferInstanceAs (Decidable (_ < _))

/-- No more entries than the limit, or somebody other than `k` to check. -/
def Watched (limit : UInt64) (m : ConcurrentEngine S κ) (k : κ) : Prop :=
  m.engine.shards.size ≤ limit.toNat ∨ ∃ j, j ≠ k ∧ (m.pcs j).watching = true

structure Limited (limit : UInt64) (m : ConcurrentEngine S κ) : Prop where
  balanced : m.Balanced
  maxKeys : m.engine.maxKeys = limit
  evictionEnabled : m.engine.evictionEnabled = true
  heedful : ∀ k, (m.pcs k).Heedful
  flushing : ∀ k, (m.pcs k).flushing = false
  exclusive : ∀ j k, (m.pcs j).holdsEviction = true → (m.pcs k).holdsEviction = true → j = k
  watched : m.engine.shards.size ≤ limit.toNat ∨ ∃ k, (m.pcs k).watching = true
  scanned : ∀ k rest, m.pcs k = .scanning rest none →
    (∀ key, S.shardIndex key ∉ rest → m.engine.shards.find? key = none) ∨ m.Watched limit k

omit [DecidableEq κ] in
/-- A counter within the limit leaves an excess only to threads that have not
counted what they stored. -/
theorem Limited.size_le_or_adds {limit : UInt64} {m : ConcurrentEngine S κ}
    (h : m.Limited limit) (hfits : m.engine.shards.size + total EnginePc.subs m.pcs < 2 ^ 64)
    (hle : m.engine.totalKeys ≤ limit) :
    m.engine.shards.size ≤ limit.toNat ∨ ∃ k, 0 < (m.pcs k).adds := by
  by_cases hadds : ∃ k, 0 < (m.pcs k).adds
  · exact Or.inr hadds
  left
  push Not at hadds
  let cast : ℕ →+ UInt64 := ⟨⟨UInt64.ofNat, rfl⟩, fun a b ↦ UInt64.ofNat_add a b⟩
  have howed : total EnginePc.owed m.pcs + cast (total EnginePc.subs m.pcs) = 0 := by
    rw [← total_map, ← total_add]
    apply total_eq_zero
    intro k
    have heq := EnginePc.owed_eq (m.pcs k)
    rw [Nat.le_zero.mp (hadds k)] at heq
    exact heq
  have htotal : m.engine.totalKeys =
      UInt64.ofNat (m.engine.shards.size + total EnginePc.subs m.pcs) := by
    have hcount := h.balanced.count
    rw [UInt64.ofNat_add, ← hcount]
    change _ + UInt64.ofNat _ = 0 at howed
    grind
  have hnat : m.engine.totalKeys.toNat = m.engine.shards.size + total EnginePc.subs m.pcs := by
    rw [htotal, UInt64.toNat_ofNat']
    exact Nat.mod_eq_of_lt hfits
  have hle' := UInt64.le_iff_toNat_le.mp hle
  omega

omit [DecidableEq κ] in
/-- A thread that stops watching leaves few enough entries, or another watcher;
and for a second thread that scans, a watcher other than that one. -/
theorem Limited.stop_watching {limit : UInt64} {m : ConcurrentEngine S κ} {k : κ}
    {pc : EnginePc S} {s' : StorageEngine S} (h : m.Limited limit) (hlimit : limit ≠ 0)
    (hfits : m.engine.shards.size + total EnginePc.subs m.pcs < 2 ^ 64)
    (hadvances : Advances m (m.pcs k) s' pc) (hbefore : (m.pcs k).watching = true)
    (hafter : pc.watching = false) : m.Watched limit k ∧
      ∀ j rest, m.pcs j = .scanning rest none → j ≠ k → m.engine.shards.size ≤ limit.toNat ∨
        ∃ i, i ≠ j ∧ i ≠ k ∧ (m.pcs i).watching = true := by
  -- who has not counted what it stored is watching, and neither checks nor scans
  have hwatcher : ∀ i, 0 < (m.pcs i).adds → (m.pcs i).watching = true :=
    fun i hi ↦ EnginePc.watching_of_adds (h.heedful i) hi
  have hne : ∀ {i j}, 0 < (m.pcs i).adds → (m.pcs j).adds = 0 → i ≠ j := by
    rintro i _ hi hj rfl
    omega
  -- two threads in eviction are one
  have hscans : ∀ j rest, (m.pcs k).holdsEviction = true → m.pcs j = .scanning rest none →
      j ≠ k → False := by
    intro j rest hk hj hjk
    exact hjk (h.exclusive j k (by rw [hj]; rfl) hk)
  obtain ⟨-, ⟨hpc, hwithin⟩ | ⟨hpc, henough⟩ | hpc⟩ := watching_advances hadvances hbefore hafter
  · have hle : m.engine.totalKeys ≤ limit := by
      rcases hwithin with hoff | hzero | hle
      · simp [h.evictionEnabled] at hoff
      · exact absurd (h.maxKeys.symm.trans hzero) hlimit
      · exact h.maxKeys ▸ hle
    rcases h.size_le_or_adds hfits hle with hsize | ⟨i, hi⟩
    · exact ⟨Or.inl hsize, fun _ _ _ _ ↦ Or.inl hsize⟩
    · have hik : i ≠ k := hne hi (by rw [hpc]; rfl)
      refine ⟨Or.inr ⟨i, hik, hwatcher i hi⟩, fun j rest hj _ ↦ Or.inr ?_⟩
      exact ⟨i, hne hi (by rw [hj]; rfl), hik, hwatcher i hi⟩
  · have hle : m.engine.totalKeys ≤ limit := h.maxKeys ▸ henough
    refine ⟨?_, fun j rest hj hjk ↦ (hscans j rest (by rw [hpc]; rfl) hj hjk).elim⟩
    rcases h.size_le_or_adds hfits hle with hsize | ⟨i, hi⟩
    · exact Or.inl hsize
    · exact Or.inr ⟨i, hne hi (by rw [hpc]; rfl), hwatcher i hi⟩
  · refine ⟨?_, fun j rest hj hjk ↦ (hscans j rest (by rw [hpc]; rfl) hj hjk).elim⟩
    rcases h.scanned k [] hpc with hempty | hwatched
    · have hzero : m.engine.shards.size = 0 :=
        PartMap.size_eq_zero_of_find? fun key ↦ hempty key (by simp)
      exact Or.inl (hzero.trans_le (Nat.zero_le _))
    · exact hwatched

/-- A step of thread `k` keeps the excess watched. -/
theorem Limited.watched_step {limit : UInt64} {m m' : ConcurrentEngine S κ} {k : κ}
    {pc : EnginePc S} (h : m.Limited limit) (hlimit : limit ≠ 0)
    (hfits : m.engine.shards.size + total EnginePc.subs m.pcs < 2 ^ 64)
    (hadvances : Advances m (m.pcs k) m'.engine pc) (hpcs : m'.pcs = Function.update m.pcs k pc) :
    (m'.engine.shards.size ≤ limit.toNat ∨ ∃ j, (m'.pcs j).watching = true) ∧
      ∀ j rest, m.pcs j = .scanning rest none → j ≠ k →
        (∀ key, S.shardIndex key ∉ rest → m'.engine.shards.find? key = none) ∨
          m'.Watched limit j := by
  have hself : m'.pcs k = pc := by rw [hpcs, Function.update_self]
  have hother : ∀ {j}, j ≠ k → m'.pcs j = m.pcs j := fun hj ↦ by
    rw [hpcs, Function.update_of_ne hj]
  cases hafter : pc.watching with
  | true =>
      refine ⟨Or.inr ⟨k, by rw [hself, hafter]⟩, fun j _ _ hj ↦ Or.inr (Or.inr ?_)⟩
      exact ⟨k, hj.symm, by rw [hself, hafter]⟩
  | false =>
      have hshrinks := shrinks_advances (h.balanced.wellFormed k) hadvances hafter
      have hsize := hshrinks.size_le
      cases hbefore : (m.pcs k).watching with
      | false =>
          -- every watcher is another thread, and stays one
          have hkeep : ∀ j, (m.pcs j).watching = true → (m'.pcs j).watching = true := by
            intro j hj
            have hjk : j ≠ k := by
              rintro rfl
              simp [hbefore] at hj
            rw [hother hjk, hj]
          refine ⟨?_, fun j rest hj hjk ↦ ?_⟩
          · rcases h.watched with hle | ⟨j, hj⟩
            · exact Or.inl (hsize.trans hle)
            · exact Or.inr ⟨j, hkeep j hj⟩
          · rcases h.scanned j rest hj with hempty | hle | ⟨i, hij, hi⟩
            · exact Or.inl fun key hkey ↦ hshrinks key (hempty key hkey)
            · exact Or.inr (Or.inl (hsize.trans hle))
            · exact Or.inr (Or.inr ⟨i, hij, hkeep i hi⟩)
      | true =>
          obtain ⟨hleft, hscans⟩ := h.stop_watching hlimit hfits hadvances hbefore hafter
          refine ⟨?_, fun j rest hj hjk ↦ Or.inr ?_⟩
          · rcases hleft with hle | ⟨j, hjk, hj⟩
            · exact Or.inl (hsize.trans hle)
            · exact Or.inr ⟨j, by rw [hother hjk, hj]⟩
          · rcases hscans j rest hj hjk with hle | ⟨i, hij, hik, hi⟩
            · exact Or.inl (hsize.trans hle)
            · exact Or.inr ⟨i, hij, by rw [hother hik, hi]⟩

/-- The scan of thread `k` itself. -/
theorem Limited.scanned_step {limit : UInt64} {m m' : ConcurrentEngine S κ} {k : κ}
    {rest : List (Fin S.count)} (h : m.Limited limit)
    (hadvances : Advances m (m.pcs k) m'.engine (.scanning rest none))
    (hpcs : m'.pcs = Function.update m.pcs k (.scanning rest none)) :
    (∀ key, S.shardIndex key ∉ rest → m'.engine.shards.find? key = none) ∨
      m'.Watched limit k := by
  obtain ⟨hengine, rfl | ⟨i, hpc, hempty⟩⟩ := scanned_advances hadvances rfl
  · exact Or.inl fun key hkey ↦ absurd (List.mem_finRange _) hkey
  rw [hengine]
  rcases h.scanned k (i :: rest) hpc with hbefore | hle | ⟨j, hjk, hj⟩
  · left
    intro key hkey
    by_cases hi : S.shardIndex key = i
    · exact hempty key hi
    · exact hbefore key (by simp [hi, hkey])
  · exact Or.inr (Or.inl (by rw [hengine]; exact hle))
  · exact Or.inr (Or.inr ⟨j, hjk, by rw [hpcs, Function.update_of_ne hjk, hj]⟩)

omit [Fintype κ] [DecidableEq κ] in
theorem begin_of_ne_flush {call : EngineCall} {now : TimePoint} {pc : EnginePc S}
    (h : begin call now = some pc) (hcall : call ≠ .flush) : pc.flushing = false ∧
      pc.holdsEviction = false ∧ pc.Heedful ∧ ∀ rest, pc ≠ .scanning rest none := by
  unfold begin at h
  split at h
  · obtain rfl := Option.some.inj h
    exact ⟨rfl, rfl, trivial, by simp⟩
  · obtain rfl := Option.some.inj h
    exact ⟨rfl, rfl, trivial, by simp⟩
  · rw [Option.ite_none_right_eq_some] at h
    obtain rfl := Option.some.inj h.2
    refine ⟨?_, rfl, trivial, by simp⟩
    cases call with
    | flush => exact absurd rfl hcall
    | _ => rfl

theorem limited_step {limit : UInt64} {m m' : ConcurrentEngine S κ} {e : ThreadEvent κ}
    (h : m.Limited limit) (hlimit : limit ≠ 0) (hfits : m.Fits e)
    (hflush : ∀ k now, e ≠ .call k .flush now) (hstep : m.step e = some m') :
    m'.Limited limit := by
  have halone : m.FlushesAlone e := by
    cases e with
    | call k call now => trivial
    | step k => exact fun hk ↦ absurd hk (by simp [h.flushing k])
  have hbalanced := balanced_step h.balanced halone hstep
  cases stepped_of_step hstep with
  | @call k call now pc hidle hbegin hengine hpcs =>
      obtain ⟨hpcFlush, hpcHolds, hpcHeeds, hpcScan⟩ :=
        begin_of_ne_flush hbegin fun hcall ↦ hflush k now (by rw [hcall])
      -- the thread was not watching before
      have hkeep : ∀ j, (m.pcs j).watching = true → (m'.pcs j).watching = true := by
        intro j hj
        have hjk : j ≠ k := by
          rintro rfl
          simp [hidle, EnginePc.watching] at hj
        rw [hpcs, Function.update_of_ne hjk, hj]
      refine ⟨hbalanced, hengine ▸ h.maxKeys, hengine ▸ h.evictionEnabled, ?_, ?_, ?_, ?_, ?_⟩
      · rw [hpcs]
        exact forall_update h.heedful hpcHeeds
      · rw [hpcs]
        exact @forall_update _ _ _ (EnginePc.flushing · = false) _ _ _ h.flushing hpcFlush
      · rw [hpcs]
        exact @exclusive_update _ _ _ (EnginePc.holdsEviction · = true) _ _ _ h.exclusive
          fun hholds ↦ absurd hholds (by simp [hpcHolds])
      · rw [hengine]
        exact h.watched.imp_right fun ⟨j, hj⟩ ↦ ⟨j, hkeep j hj⟩
      · intro j rest hj
        have hjk : j ≠ k := by
          rintro rfl
          rw [hpcs, Function.update_self] at hj
          exact hpcScan rest hj
        rw [hpcs, Function.update_of_ne hjk] at hj
        unfold Watched
        rw [hengine]
        exact (h.scanned j rest hj).imp_right
          (Or.imp_right fun ⟨i, hij, hi⟩ ↦ ⟨i, hij, hkeep i hi⟩)
  | @step k pc hadvances hpcs =>
      have hconfig := config_advances (h.balanced.wellFormed k) hadvances
      obtain ⟨hwatched, hscanned⟩ := h.watched_step hlimit hfits hadvances hpcs
      refine ⟨hbalanced, hconfig.1.trans h.maxKeys, hconfig.2.trans h.evictionEnabled, ?_, ?_, ?_,
        hwatched, ?_⟩
      · rw [hpcs]
        exact forall_update h.heedful (heedful_advances (h.heedful k) hadvances)
      · rw [hpcs]
        exact @forall_update _ _ _ (EnginePc.flushing · = false) _ _ _ h.flushing
          (flushing_advances hadvances)
      · rw [hpcs]
        exact @exclusive_update _ _ _ (EnginePc.holdsEviction · = true) _ _ _ h.exclusive
          fun hholds ↦ (holdsEviction_advances hadvances hholds).imp_right
            fun hfree j ↦ by simp [hfree j]
      · intro j rest hj
        by_cases hjk : j = k
        · subst hjk
          rw [hpcs, Function.update_self] at hj
          subst hj
          exact h.scanned_step hadvances hpcs
        · rw [hpcs, Function.update_of_ne hjk] at hj
          exact hscanned j rest hj hjk

omit [DecidableEq κ] in
theorem limited_start {s : StorageEngine S} (hs : s.drift = 0) (hon : s.evictionEnabled = true)
    (hsize : s.shards.size ≤ s.maxKeys.toNat) :
    Limited (κ := κ) s.maxKeys { engine := s } where
  balanced := balanced_start hs
  maxKeys := rfl
  evictionEnabled := hon
  heedful _ := trivial
  flushing _ := rfl
  exclusive _ _ h := absurd h (by simp [EnginePc.holdsEviction])
  watched := Or.inl hsize
  scanned _ _ h := absurd h (by simp)

/-- However the steps of the threads are interleaved, without a `flush` there are no
more entries than the limit allows whenever no call is in progress. -/
theorem size_le_of_quiet (s : StorageEngine S) (hs : s.drift = 0) (hlimit : s.maxKeys ≠ 0)
    (hon : s.evictionEnabled = true) (hsize : s.shards.size ≤ s.maxKeys.toNat)
    (events : List (ThreadEvent κ)) (m : ConcurrentEngine S κ)
    (hrun : run step { engine := s } events = some m)
    (hflush : ∀ e ∈ events, ∀ k now, e ≠ .call k .flush now)
    (hfits : Along step Fits { engine := s } events) (hquiet : m.Quiet) :
    m.engine.shards.size ≤ s.maxKeys.toNat := by
  have hallowed := hfits.and (along_of_forall_mem hflush)
  have hlimited : m.Limited s.maxKeys := by
    refine run_invariant (P := fun _ m ↦ m.Limited s.maxKeys) (limited_start hs hon hsize) ?_
      hallowed hrun
    intro _ m e m' h hnext hstep
    exact limited_step h hlimit hnext.1 hnext.2 hstep
  rcases hlimited.watched with hle | ⟨k, hk⟩
  · exact hle
  · rw [hquiet k] at hk
    simp [EnginePc.watching] at hk

/-- Two threads store a key each under a limit of one, and one of them evicts. -/
def storeTwo : List (ThreadEvent Bool) :=
  [.call false (.set (ascii "a") (ascii "v")) 0, .call true (.set (ascii "b") (ascii "v")) 0] ++
  List.replicate 3 (.step false) ++ List.replicate 3 (.step true) ++
  List.replicate 8 (.step false) ++ [.step true]

theorem size_le_of_quiet_evicted :
    ∃ m, run step { engine := { ({} : StorageEngine oneShard) with maxKeys := 1 } } storeTwo =
        some m ∧ m.engine.evictedKeys = 1 ∧ m.engine.shards.size ≤ 1 := by
  have hrun : (run step { engine := { ({} : StorageEngine oneShard) with maxKeys := 1 } }
      storeTwo).map (fun m ↦ (decide m.Quiet, m.engine.evictedKeys)) = some (true, 1) := by
    decide +kernel
  obtain ⟨m, hm, hvalues⟩ := Option.map_eq_some_iff.mp hrun
  simp only [Prod.mk.injEq, decide_eq_true_eq] at hvalues
  refine ⟨m, hm, hvalues.2, ?_⟩
  exact size_le_of_quiet { ({} : StorageEngine oneShard) with maxKeys := 1 } (by decide) (by decide)
    rfl (by decide) _ m hm (by simp [storeTwo]) (by decide +kernel) hvalues.1

end ConcurrentEngine

end ByteCacheDB
