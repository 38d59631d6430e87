import ByteCacheDB.Deadlines
import ByteCacheDB.Lib.TwoPhase
import ByteCacheDB.Shards
import ByteCacheDB.TtlMap

/-!
# Calls under the locks of the shards

Each shard has its own `shared_mutex`.  A call of a single key takes the lock of
the key's shard, `mset` those of all its keys in the order of the shards, and
`flush`, `keys` and `snapshot_entries` those of all shards.  Pairs are written one
at a time, shards are read and cleared one at a time, and locks are taken and
given back one at a time, with the steps of other threads in between.  As every
call has all its locks before it touches an entry, and gives none back before it
is done, no call sees another one in part.
-/

namespace ByteCacheDB

open Runs TwoPhase StorageEngine

/-- The key of a call that works on a single one. -/
def EngineCall.key? : EngineCall → Option Bytes
  | .set key _ | .get key | .del key | .exists key | .expireAt key _ | .ttl key | .persist key
  | .increment key _ | .append key _ | .strlen key => some key
  | _ => none

/-- What a call does under its locks without a break. -/
inductive ShardAct (S : Sharding)
  | entry (now : TimePoint) (call : EngineCall) (key : Bytes) (h : call.key? = some key)
  | pair (now : TimePoint) (key value : Bytes)
  | exchange
  | clear (index : Fin S.count)
  | collect (now : TimePoint) (index : Fin S.count)

namespace ShardAct

variable {S : Sharding}

def write : ShardAct S → StorageEngine S → StorageEngine S
  | entry now call _ _, s => (s.beforeEviction ⟨call, fun _ ↦ now⟩).2.2
  | pair now key value, s => s.store now key value
  | exchange, s => { s with totalKeys := 0 }
  | clear index, s => { s with shards := s.shards.filterPart index fun _ _ ↦ false }
  | collect _ _, s => s

/-- The entries of one shard that `snapshot_entries` appends to its result. -/
def collected (s : StorageEngine S) (now : TimePoint) (index : Fin S.count) : List SnapshotEntry :=
  (((s.shards.part index).entries.map fun e ↦ (e.1, e.2)).filter fun e ↦ !isExpired e.2 now).map
    fun e ↦ ⟨e.1, e.2.value, e.2.expiresAt⟩

def read : ShardAct S → StorageEngine S → EngineResult → EngineResult
  | entry now call _ _, s, _ => (s.beforeEviction ⟨call, fun _ ↦ now⟩).1
  | pair _ key _, _, .keys keys => .keys (keys ++ [key])
  | exchange, s, _ => .count s.totalKeys.toNat
  | collect now index, s, .entries entries => .entries (entries ++ collected s now index)
  | _, _, result => result

/-- The shard an action works on. -/
def cell : ShardAct S → Option (Fin S.count)
  | entry _ _ key _ | pair _ key _ => some (S.shardIndex key)
  | exchange => none
  | clear index | collect _ index => some index

end ShardAct

/-- The shards that `mset` locks: sorted, each one once. -/
def msetIndexes (S : Sharding) (args : List Bytes) : List (Fin S.count) :=
  (((argPairs args).map fun p ↦ S.shardIndex p.1).insertionSort (· ≤ ·)).dedup

def sortEntries (entries : List SnapshotEntry) : List SnapshotEntry :=
  entries.insertionSort fun a b ↦ a.key ≤ b.key

/-- A call as a transaction; the others either take no shard lock or more than once. -/
def plan {S : Sharding} (now : TimePoint) :
    EngineCall → Option (Txn (Fin S.count) (ShardAct S) EngineResult EngineResult)
  | .mset args => some
      { mode := .exclusive
        locks := msetIndexes S args
        acts := (argPairs args).map fun p ↦ .pair now p.1 p.2
        start := .keys []
        finish := id }
  | .flush => some
      { mode := .exclusive
        locks := List.finRange S.count
        acts := .exchange :: (List.finRange S.count).map .clear
        start := .nothing
        finish := id }
  | .snapshotEntries => some
      { mode := .shared
        locks := List.finRange S.count
        acts := (List.finRange S.count).map (.collect now)
        start := .entries []
        finish := fun
          | .entries entries => .entries (sortEntries entries)
          | result => result }
  | .keys => some
      { mode := .shared
        locks := List.finRange S.count
        acts := (List.finRange S.count).map (.collect now)
        start := .entries []
        finish := fun
          | .entries entries =>
              .keys (((sortEntries entries).map SnapshotEntry.key).insertionSort fun a b ↦ a ≤ b)
          | result => result }
  | call =>
      match h : call.key? with
      | some key => some
          { mode := .exclusive
            locks := [S.shardIndex key]
            acts := [.entry now call key h]
            start := .nothing
            finish := id }
      | none => none

/-- A thread begins a call at a time, makes the next step of its call, or gives back
the lock of a shard. -/
inductive LockEvent (κ : Type*) (S : Sharding)
  | call (k : κ) (call : EngineCall) (now : TimePoint)
  | step (k : κ)
  | release (k : κ) (index : Fin S.count)

/-- The shards, their locks and the calls in progress. -/
abbrev LockedEngine (κ : Type*) (S : Sharding) : Type _ :=
  Machine κ (StorageEngine S) (Fin S.count) (ShardAct S) EngineResult EngineResult

namespace LockEvent

variable {κ : Type*} {S : Sharding}

def event? : LockEvent κ S →
    Option (Event κ (Fin S.count) (ShardAct S) EngineResult EngineResult)
  | call k c now => (plan now c).map (.begin k)
  | step k => some (.step k)
  | release k index => some (.release k index)

def begun? : LockEvent κ S → Option EngineEvent
  | call _ c now => some ⟨c, fun _ ↦ now⟩
  | _ => none

end LockEvent

/-- The calls of a run, in the order in which they began. -/
def begunCalls {κ : Type*} {S : Sharding} (events : List (LockEvent κ S)) : List EngineEvent :=
  events.filterMap LockEvent.begun?

namespace StorageEngine

variable {S : Sharding}

/-- The entries of one shard. -/
def shardView (s : StorageEngine S) (index : Fin S.count) : Store :=
  fun key ↦ if S.shardIndex key = index then s.cells key else none

theorem shardView_self {s : StorageEngine S} (key : Bytes) :
    s.shardView (S.shardIndex key) key = s.cells key := if_pos rfl

theorem cells_eq_of_shardView {s t : StorageEngine S} {key : Bytes}
    (h : s.shardView (S.shardIndex key) = t.shardView (S.shardIndex key)) :
    s.cells key = t.cells key := by
  simpa only [shardView_self] using congrFun h key

/-- The shard of a key that is written, and the others. -/
theorem shardView_of_update {s s' : StorageEngine S} {key : Bytes} {c : Cell}
    (h : s'.cells = Function.update s.cells key c) (index : Fin S.count) :
    s'.shardView index =
      if S.shardIndex key = index then Function.update (s.shardView index) key c
      else s.shardView index := by
  funext k
  by_cases hk : k = key
  · subst hk
    by_cases hindex : S.shardIndex k = index <;> simp [shardView, h, hindex]
  · by_cases hindex : S.shardIndex key = index <;>
      simp [shardView, h, hindex, Function.update_of_ne hk]

theorem cells_clear (s : StorageEngine S) (index : Fin S.count) (key : Bytes) :
    (ShardAct.write (.clear index) s).cells key =
      if S.shardIndex key = index then none else s.cells key := by
  simp only [ShardAct.write, cells, PartMap.find?_filterPart]
  split
  · simp
  · rfl

/-- A call of a single key makes of its entry what the entry decides. -/
theorem cells_beforeEviction {call : EngineCall} {key : Bytes} (h : call.key? = some key)
    (now : TimePoint) : ∃ f : Cell → Cell, ∀ s : StorageEngine S,
      (s.beforeEviction ⟨call, fun _ ↦ now⟩).2.2.cells =
        Function.update s.cells key (f (s.cells key)) := by
  cases call with
  | set k value =>
      obtain rfl := Option.some.inj h
      exact ⟨fun _ ↦ some (value, none), fun s ↦ cells_store s now k value⟩
  | get k | «exists» k | strlen k =>
      obtain rfl := Option.some.inj h
      exact ⟨_, fun s ↦ (cells_get s now k).1⟩
  | del k =>
      obtain rfl := Option.some.inj h
      exact ⟨fun _ ↦ none, fun s ↦ cells_del s k⟩
  | expireAt k deadline =>
      obtain rfl := Option.some.inj h
      exact ⟨_, fun s ↦ cells_expireAt s now k deadline⟩
  | ttl k =>
      obtain rfl := Option.some.inj h
      exact ⟨_, fun s ↦ cells_ttl s now k⟩
  | persist k =>
      obtain rfl := Option.some.inj h
      exact ⟨_, fun s ↦ cells_persist s now k⟩
  | increment k delta =>
      obtain rfl := Option.some.inj h
      refine ⟨fun c ↦ ((c.nextInteger now delta).toOption.map (c.writeInteger now)).getD
        (c.live now), fun s ↦ ?_⟩
      rw [snd_beforeEviction_increment]
      dsimp only
      cases hnext : (s.cells k).nextInteger now delta with
      | error e => exact incrementLocked_error hnext ▸ cells_dropExpired s now k
      | ok n => exact (incrementLocked_ok hnext).2
  | append k suffix =>
      obtain rfl := Option.some.inj h
      exact ⟨_, fun s ↦ (cells_appendLocked s now k suffix).1⟩
  | _ => simp [EngineCall.key?] at h

theorem find?_of_cells_eq {s t : StorageEngine S} {key : Bytes} (h : s.cells key = t.cells key) :
    s.shards.find? key = none ∧ t.shards.find? key = none ∨
      ∃ e e', s.shards.find? key = some e ∧ t.shards.find? key = some e' ∧
        e.value = e'.value ∧ e.expiresAt = e'.expiresAt := by
  cases hs : s.shards.find? key with
  | none =>
      rw [cells_eq_none_iff.mpr hs, eq_comm, cells_eq_none_iff] at h
      exact Or.inl ⟨rfl, h⟩
  | some e =>
      rw [cells_of_find? hs] at h
      obtain ⟨e', ht, heq⟩ := Option.map_eq_some_iff.mp h.symm
      obtain ⟨hvalue, hexpires⟩ := Prod.mk.inj heq
      exact Or.inr ⟨e, e', rfl, ht, hvalue.symm, hexpires.symm⟩

theorem increment_fst (s : StorageEngine S) (now : TimePoint) (key : Bytes) (delta : Int64) :
    (s.beforeEviction ⟨.increment key delta, fun _ ↦ now⟩).1 =
      .integer ((s.cells key).nextInteger now delta) := by
  simp only [beforeEviction]
  cases hnext : (s.cells key).nextInteger now delta with
  | error e => rw [incrementLocked_error hnext]
  | ok n =>
      rw [← Prod.eta (s.incrementLocked now key delta), (incrementLocked_ok hnext).1]

/-- Its result is decided by the entry as well. -/
theorem beforeEviction_congr {call : EngineCall} {key : Bytes} (h : call.key? = some key)
    {now : TimePoint} {s t : StorageEngine S} (hcells : s.cells key = t.cells key) :
    (s.beforeEviction ⟨call, fun _ ↦ now⟩).1 = (t.beforeEviction ⟨call, fun _ ↦ now⟩).1 := by
  have hget : ∀ k, s.cells k = t.cells k → (s.get now k).1 = (t.get now k).1 := by
    intro k hk
    rw [(cells_get s now k).2, (cells_get t now k).2, hk]
  cases call with
  | set k value => rfl
  | get k =>
      obtain rfl := Option.some.inj h
      exact congrArg EngineResult.value (hget k hcells)
  | «exists» k =>
      obtain rfl := Option.some.inj h
      exact congrArg (fun value ↦ EngineResult.flag (Option.isSome value)) (hget k hcells)
  | strlen k =>
      obtain rfl := Option.some.inj h
      simp only [beforeEviction, StorageEngine.call, strlen, hget k hcells]
  | del k =>
      obtain rfl := Option.some.inj h
      refine congrArg EngineResult.count ?_
      unfold del
      rcases find?_of_cells_eq hcells with ⟨hs, ht⟩ | ⟨e, e', hs, ht, -⟩ <;> rw [hs, ht]
  | expireAt k deadline =>
      obtain rfl := Option.some.inj h
      refine congrArg EngineResult.flag ?_
      rw [Bool.eq_iff_iff, expireAt_eq_true_iff, expireAt_eq_true_iff, hcells]
  | ttl k =>
      obtain rfl := Option.some.inj h
      refine congrArg EngineResult.seconds ?_
      rw [fst_ttl, fst_ttl, hcells]
  | persist k =>
      obtain rfl := Option.some.inj h
      refine congrArg EngineResult.flag ?_
      rw [Bool.eq_iff_iff, persist_eq_true_iff, persist_eq_true_iff, hcells]
  | increment k delta =>
      obtain rfl := Option.some.inj h
      rw [increment_fst, increment_fst, hcells]
  | append k suffix =>
      obtain rfl := Option.some.inj h
      refine congrArg EngineResult.count ?_
      rw [TtlMap.appendLocked_length, TtlMap.appendLocked_length, TtlMap.visible, TtlMap.visible,
        hcells]
  | _ => simp [EngineCall.key?] at h

end StorageEngine

/-! ## The shards as cells -/

namespace ShardAct

variable {S : Sharding}

/-- An action changes no other shard than its own. -/
theorem shardView_write_of_ne (a : ShardAct S) (s : StorageEngine S) {index : Fin S.count}
    (h : a.cell ≠ some index) : (a.write s).shardView index = s.shardView index := by
  cases a with
  | entry now call key hkey =>
      obtain ⟨f, hf⟩ := cells_beforeEviction (S := S) hkey now
      exact (shardView_of_update (hf s) index).trans (if_neg fun hi ↦ h (congrArg some hi))
  | pair now key value =>
      exact (shardView_of_update (cells_store s now key value) index).trans
        (if_neg fun hi ↦ h (congrArg some hi))
  | clear cleared =>
      funext key
      rw [shardView, shardView, cells_clear]
      split
      · rename_i hkey
        rw [if_neg fun hi ↦ h (congrArg some (hi.symm.trans hkey))]
      · rfl
  | exchange | collect => rfl

theorem shardView_write_congr (a : ShardAct S) {s t : StorageEngine S} {index : Fin S.count}
    (hcell : a.cell = some index) (h : s.shardView index = t.shardView index) :
    (a.write s).shardView index = (a.write t).shardView index := by
  cases a with
  | entry now call key hkey =>
      obtain ⟨f, hf⟩ := cells_beforeEviction (S := S) hkey now
      obtain rfl := Option.some.inj hcell
      have hs := shardView_of_update (hf s) (S.shardIndex key)
      rw [h, cells_eq_of_shardView h, ← shardView_of_update (hf t)] at hs
      exact hs
  | pair now key value =>
      have hs := shardView_of_update (cells_store s now key value) index
      rw [h, ← shardView_of_update (cells_store t now key value)] at hs
      exact hs
  | clear cleared =>
      obtain rfl := Option.some.inj hcell
      funext key
      rw [shardView, shardView, cells_clear, cells_clear]
      split <;> rfl
  | exchange => simp [cell] at hcell
  | collect => exact h

theorem mem_collected {s : StorageEngine S} {now : TimePoint} {index : Fin S.count}
    {e : SnapshotEntry} : e ∈ collected s now index ↔
      (s.shardView index e.key).live now = some (e.value, e.expiresAt) := by
  have hpart : e ∈ collected s now index ↔
      S.shardIndex e.key = index ∧ e ∈ s.snapshotEntries now := by
    rw [collected, snapshotEntries, List.mem_insertionSort, List.mem_map, List.mem_map]
    constructor
    · rintro ⟨p, hp, rfl⟩
      rw [List.mem_filter, List.mem_map] at hp
      obtain ⟨⟨x, hx, rfl⟩, hlive⟩ := hp
      obtain ⟨hhome, hfind⟩ := (s.shards.mem_part_iff index x.1 x.2).mp hx
      refine ⟨hhome, (x.1, x.2), List.mem_filter.mpr ⟨?_, hlive⟩, rfl⟩
      exact (s.shards.mem_entries_iff x.1 x.2).mpr hfind
    · rintro ⟨hhome, p, hp, rfl⟩
      obtain ⟨hp, hlive⟩ := List.mem_filter.mp hp
      have hfind := (s.shards.mem_entries_iff p.1 p.2).mp hp
      refine ⟨p, List.mem_filter.mpr ⟨List.mem_map.mpr ⟨⟨p.1, p.2⟩, ?_, rfl⟩, hlive⟩, rfl⟩
      exact (s.shards.mem_part_iff index p.1 p.2).mpr ⟨hhome, hfind⟩
  rw [hpart, mem_snapshotEntries, shardView]
  split
  · rename_i hhome
    exact and_iff_right hhome
  · rename_i hhome
    simp [hhome]

theorem nodup_collected (s : StorageEngine S) (now : TimePoint) (index : Fin S.count) :
    (collected s now index).Nodup := by
  apply List.Nodup.of_map SnapshotEntry.key
  have hkeys : ((s.shards.part index).entries.map fun e ↦ (e.1, e.2)).map Prod.fst =
      (s.shards.part index).keys := by
    simp [AList.keys, List.keys, Function.comp_def]
  rw [collected, List.map_map]
  have hsub := (List.filter_sublist (p := fun e : Bytes × ValueEntry ↦ !isExpired e.2 now)
    (l := (s.shards.part index).entries.map fun e ↦ (e.1, e.2))).map Prod.fst
  rw [hkeys] at hsub
  exact (s.shards.part index).keys_nodup.sublist hsub

theorem perm_collected {s t : StorageEngine S} {now : TimePoint} {index : Fin S.count}
    (h : s.shardView index = t.shardView index) :
    (collected s now index).Perm (collected t now index) := by
  rw [List.perm_ext_iff_of_nodup (nodup_collected s now index) (nodup_collected t now index)]
  intro e
  rw [mem_collected, mem_collected, h]

end ShardAct

def shardSystem (S : Sharding) :
    System (StorageEngine S) (Fin S.count) Store (ShardAct S) EngineResult where
  write := ShardAct.write
  read := ShardAct.read
  cell := ShardAct.cell
  view := shardView
  frame a s _ hcell := a.shardView_write_of_ne s hcell
  write_congr a _ _ _ hcell h := a.shardView_write_congr hcell h

/-- A result up to the order of entries that are not yet sorted. -/
def EngineResult.contents : EngineResult → EngineResult ⊕ Multiset SnapshotEntry
  | entries es => .inr es
  | result => .inl result

instance : Setoid EngineResult := Setoid.ker EngineResult.contents

theorem EngineResult.equiv_iff {r r' : EngineResult} : r ≈ r' ↔ r.contents = r'.contents := Iff.rfl

/-- Two results that are alike are equal, or two orders of the same entries. -/
theorem EngineResult.cases_of_equiv {r r' : EngineResult} (h : r ≈ r') :
    r = r' ∨ ∃ es es', r = .entries es ∧ r' = .entries es' ∧ es.Perm es' := by
  rw [equiv_iff] at h
  cases r <;> cases r' <;> simp_all [contents]

theorem EngineResult.equiv_of_perm {es es' : List SnapshotEntry} (h : es.Perm es') :
    EngineResult.entries es ≈ EngineResult.entries es' :=
  congrArg Sum.inr (Multiset.coe_eq_coe.mpr h)

theorem local_of_ne_exchange {S : Sharding} {a : ShardAct S} (h : a ≠ .exchange) :
    (shardSystem S).Local a := by
  intro s t acc acc' hview hacc
  cases a with
  | entry now call key hkey =>
      have hcells := cells_eq_of_shardView (hview _ rfl)
      exact congrArg EngineResult.contents (beforeEviction_congr hkey hcells)
  | pair now key value =>
      rcases EngineResult.cases_of_equiv hacc with rfl | ⟨es, es', rfl, rfl, hperm⟩
      · cases acc <;> exact EngineResult.equiv_iff.mpr rfl
      · exact hacc
  | exchange => exact absurd rfl h
  | clear index => exact hacc
  | collect now index =>
      have hperm : (ShardAct.collected s now index).Perm (ShardAct.collected t now index) :=
        ShardAct.perm_collected (hview index rfl)
      rcases EngineResult.cases_of_equiv hacc with rfl | ⟨es, es', rfl, rfl, hes⟩
      · cases acc with
        | entries es => exact EngineResult.equiv_of_perm (hperm.append_left es)
        | _ => exact EngineResult.equiv_iff.mpr rfl
      · exact EngineResult.equiv_of_perm (hes.append hperm)

/-! ## A call executed alone -/

section
variable {S : Sharding} {now : TimePoint} {s : StorageEngine S}

theorem call_of_key {call : EngineCall} {key : Bytes} (h : call.key? = some key)
    (hmax : s.maxKeys = 0) : s.call ⟨call, fun _ ↦ now⟩ =
      ((s.beforeEviction ⟨call, fun _ ↦ now⟩).1, (s.beforeEviction ⟨call, fun _ ↦ now⟩).2.2) := by
  have hzero : (s.beforeEviction ⟨call, fun _ ↦ now⟩).2.2.maxKeys = 0 := by
    rcases keeps_beforeEviction (s := s) ⟨call, fun _ ↦ now⟩ with
      hkeeps | rfl | rfl | ⟨n, rfl⟩ | ⟨b, rfl⟩
    · exact hkeeps.maxKeys.trans hmax
    all_goals simp [EngineCall.key?] at h
  rw [call_eq, enforceMaxKeys_of_le (Or.inl hzero), ite_self]

theorem exec_pairs (pairs : List (Bytes × Bytes)) (keys : List Bytes) :
    (shardSystem S).exec (pairs.map fun p ↦ .pair now p.1 p.2) (s, .keys keys) =
      (s.storeAll now pairs, .keys (keys ++ pairs.map Prod.fst)) := by
  induction pairs generalizing s keys with
  | nil => simp [storeAll]
  | cons p rest ih =>
      rw [List.map_cons, System.exec_cons]
      refine (ih (keys ++ [p.1])).trans ?_
      simp [storeAll, shardSystem, ShardAct.write]

theorem exec_collect (indexes : List (Fin S.count)) (entries : List SnapshotEntry) :
    (shardSystem S).exec (indexes.map (.collect now)) (s, .entries entries) =
      (s, .entries (entries ++ indexes.flatMap (ShardAct.collected s now))) := by
  induction indexes generalizing entries with
  | nil => simp
  | cons i rest ih =>
      rw [List.map_cons, System.exec_cons]
      refine (ih (entries ++ ShardAct.collected s now i)).trans ?_
      simp

/-- Clearing some of the shards. -/
theorem exec_clear (indexes : List (Fin S.count)) (result : EngineResult) :
    ((shardSystem S).exec (indexes.map .clear) (s, result)).2 = result ∧
      ∃ shards, ((shardSystem S).exec (indexes.map .clear) (s, result)).1 =
          { s with shards := shards } ∧
        ∀ i, (shards.part i).entries = if i ∈ indexes then [] else (s.shards.part i).entries := by
  induction indexes generalizing s with
  | nil => exact ⟨rfl, s.shards, rfl, by simp⟩
  | cons i rest ih =>
      obtain ⟨hresult, shards, hengine, hparts⟩ :=
        ih (s := { s with shards := s.shards.filterPart i fun _ _ ↦ false })
      refine ⟨hresult, shards, hengine, fun j ↦ ?_⟩
      rw [hparts j]
      by_cases hj : j = i
      · subst hj
        simp [PartMap.filterPart]
      · simp [PartMap.filterPart, hj]

theorem exec_flush (result : EngineResult) :
    (shardSystem S).exec (.exchange :: (List.finRange S.count).map .clear) (s, result) =
      (s.flush.2, .count s.flush.1.toNat) := by
  rw [System.exec_cons]
  obtain ⟨hresult, shards, hengine, hparts⟩ :=
    exec_clear (s := { s with totalKeys := 0 }) (List.finRange S.count) (.count s.totalKeys.toNat)
  have hempty : shards = .empty := by
    have hpart : shards.part = (PartMap.empty : PartMap _ _ S.shardIndex).part := by
      funext i
      apply AList.ext
      rw [hparts i, if_pos (List.mem_finRange i)]
      rfl
    cases shards
    exact PartMap.mk.injEq .. ▸ hpart
  rw [hempty] at hengine
  exact Prod.ext hengine hresult

theorem snapshotEntries_eq (s : StorageEngine S) (now : TimePoint) : s.snapshotEntries now =
    sortEntries ((List.finRange S.count).flatMap (ShardAct.collected s now)) := by
  unfold snapshotEntries sortEntries
  congr 1
  rw [PartMap.entries, List.filter_flatMap, List.map_flatMap]
  rfl

/-- A plan leaves the engine and gives the result that the call has. -/
theorem exec_plan {call : EngineCall}
    {t : Txn (Fin S.count) (ShardAct S) EngineResult EngineResult} (h : plan now call = some t)
    (hmax : s.maxKeys = 0) :
    ((shardSystem S).exec t.acts (s, t.start)).1 = (s.call ⟨call, fun _ ↦ now⟩).2 ∧
      t.finish ((shardSystem S).exec t.acts (s, t.start)).2 =
        (s.call ⟨call, fun _ ↦ now⟩).1 := by
  unfold plan at h
  split at h
  · rename_i args
    obtain rfl := Option.some.inj h
    dsimp only
    have hzero : (s.storeAll now (argPairs args)).maxKeys = 0 :=
      (keeps_storeAll s now (argPairs args)).maxKeys.trans hmax
    rw [exec_pairs]
    refine ⟨?_, by simp [StorageEngine.call, StorageEngine.mset]⟩
    exact (enforceMaxKeys_of_le (Or.inl hzero)).symm
  · obtain rfl := Option.some.inj h
    dsimp only
    rw [exec_flush]
    exact ⟨rfl, rfl⟩
  · obtain rfl := Option.some.inj h
    dsimp only
    rw [exec_collect, List.nil_append]
    exact ⟨rfl, congrArg EngineResult.entries (snapshotEntries_eq s now).symm⟩
  · obtain rfl := Option.some.inj h
    dsimp only
    rw [exec_collect, List.nil_append]
    refine ⟨rfl, ?_⟩
    simp only [StorageEngine.call, StorageEngine.keys, snapshotEntries_eq]
  · split at h
    · rename_i key hkey
      obtain rfl := Option.some.inj h
      rw [call_of_key hkey hmax]
      exact ⟨rfl, rfl⟩
    · simp at h

/-! ## Plans as transactions -/

theorem admits_plan {call : EngineCall}
    {t : Txn (Fin S.count) (ShardAct S) EngineResult EngineResult} (h : plan now call = some t) :
    (shardSystem S).Admits t := by
  unfold plan at h
  split at h
  · rename_i args
    obtain rfl := Option.some.inj h
    refine ⟨List.nodup_dedup _, ?_, by simp⟩
    intro a ha i hi
    obtain ⟨p, hp, rfl⟩ := List.mem_map.mp ha
    obtain rfl := Option.some.inj hi
    rw [msetIndexes, List.mem_dedup, List.mem_insertionSort]
    exact List.mem_map_of_mem hp
  · obtain rfl := Option.some.inj h
    exact ⟨List.nodup_finRange _, fun _ _ i _ ↦ List.mem_finRange i, by simp⟩
  · obtain rfl := Option.some.inj h
    refine ⟨List.nodup_finRange _, fun _ _ i _ ↦ List.mem_finRange i, fun _ a ha s ↦ ?_⟩
    obtain ⟨i, -, rfl⟩ := List.mem_map.mp ha
    rfl
  · obtain rfl := Option.some.inj h
    refine ⟨List.nodup_finRange _, fun _ _ i _ ↦ List.mem_finRange i, fun _ a ha s ↦ ?_⟩
    obtain ⟨i, -, rfl⟩ := List.mem_map.mp ha
    rfl
  · split at h
    · rename_i key hkey
      obtain rfl := Option.some.inj h
      refine ⟨List.nodup_singleton _, ?_, by simp⟩
      intro a ha i hi
      rw [List.mem_singleton.mp ha] at hi
      exact List.mem_singleton.mpr (Option.some.inj hi).symm
    · simp at h

theorem local_plan {call : EngineCall} (hcall : call ≠ .flush)
    {t : Txn (Fin S.count) (ShardAct S) EngineResult EngineResult} (h : plan now call = some t) :
    ∀ a ∈ t.acts, (shardSystem S).Local a := by
  intro a ha
  apply local_of_ne_exchange
  rintro rfl
  unfold plan at h
  split at h
  · obtain rfl := Option.some.inj h
    simp at ha
  · exact hcall rfl
  · obtain rfl := Option.some.inj h
    simp at ha
  · obtain rfl := Option.some.inj h
    simp at ha
  · split at h
    · obtain rfl := Option.some.inj h
      simp at ha
    · simp at h

theorem sortEntries_of_perm {es es' : List SnapshotEntry} (h : es.Perm es')
    (hnodup : (es'.map SnapshotEntry.key).Nodup) : sortEntries es = sortEntries es' := by
  have htotal : Std.Total fun a b : SnapshotEntry ↦ a.key ≤ b.key :=
    ⟨fun a b ↦ List.le_total a.key b.key⟩
  have htrans : IsTrans SnapshotEntry fun a b ↦ a.key ≤ b.key := ⟨fun _ _ _ ↦ List.le_trans⟩
  refine List.Perm.eq_of_pairwise ?_ (List.pairwise_insertionSort _ es)
    (List.pairwise_insertionSort _ es') ?_
  · intro a b ha hb hab hba
    have ha' : a ∈ es' := h.subset ((List.mem_insertionSort _).mp ha)
    exact List.inj_on_of_nodup_map hnodup ha' ((List.mem_insertionSort _).mp hb)
      (List.le_antisymm hab hba)
  · exact (List.perm_insertionSort _ es).trans (h.trans (List.perm_insertionSort _ es').symm)

theorem nodup_keys_collected (s : StorageEngine S) (now : TimePoint) :
    (((List.finRange S.count).flatMap (ShardAct.collected s now)).map
      SnapshotEntry.key).Nodup := by
  have hnodup := nodup_snapshotEntries s now
  rw [snapshotEntries_eq] at hnodup
  exact ((List.perm_insertionSort _ _).map _).nodup_iff.mp hnodup

theorem beforeEviction_ne_entries {call : EngineCall} {key : Bytes} (h : call.key? = some key)
    (es : List SnapshotEntry) : (s.beforeEviction ⟨call, fun _ ↦ now⟩).1 ≠ .entries es := by
  cases call with
  | increment k delta => simp [increment_fst]
  | mset | mget | keys | flush | cleanupExpired | size | snapshotEntries | evictedKeys
  | expiredKeysRemoved | takeEvictedKeys | setMaxKeys | setEvictionEnabled =>
      simp [EngineCall.key?] at h
  | _ => simp [beforeEviction, StorageEngine.call]

/-- What has been learnt up to the order of entries decides the result. -/
theorem finish_plan {call : EngineCall}
    {t : Txn (Fin S.count) (ShardAct S) EngineResult EngineResult} (h : plan now call = some t)
    {acc : EngineResult} (hacc : acc ≈ ((shardSystem S).exec t.acts (s, t.start)).2) :
    t.finish acc = t.finish ((shardSystem S).exec t.acts (s, t.start)).2 := by
  rcases EngineResult.cases_of_equiv hacc with heq | ⟨es, es', rfl, hes, hperm⟩
  · rw [heq]
  rw [hes]
  unfold plan at h
  split at h
  · obtain rfl := Option.some.inj h
    simp [exec_pairs] at hes
  · obtain rfl := Option.some.inj h
    rw [exec_flush] at hes
    simp at hes
  · obtain rfl := Option.some.inj h
    rw [exec_collect, List.nil_append, EngineResult.entries.injEq] at hes
    exact congrArg EngineResult.entries
      (sortEntries_of_perm hperm (hes ▸ nodup_keys_collected s now))
  · obtain rfl := Option.some.inj h
    rw [exec_collect, List.nil_append, EngineResult.entries.injEq] at hes
    dsimp only
    rw [sortEntries_of_perm hperm (hes ▸ nodup_keys_collected s now)]
  · split at h
    · rename_i key hkey
      obtain rfl := Option.some.inj h
      exact absurd hes (beforeEviction_ne_entries hkey es')
    · simp at h

end

/-! ## Runs -/

namespace LockedEngine

variable {κ : Type*} {S : Sharding} [DecidableEq κ]

def next (m : LockedEngine κ S) (e : LockEvent κ S) : Option (LockedEngine κ S) :=
  e.event?.bind (Machine.step (shardSystem S) m)

def start (s : StorageEngine S) : LockedEngine κ S := { store := s }

/-- The transactions of the machine are the plans of the calls. -/
def Planned (e : EngineEvent)
    (t : Txn (Fin S.count) (ShardAct S) EngineResult EngineResult) : Prop :=
  plan (e.clock 0) e.call = some t ∧ e.clock = fun _ ↦ e.clock 0

omit [DecidableEq κ] in
/-- Executed alone, it does what the call does. -/
theorem Planned.exec {e : EngineEvent}
    {t : Txn (Fin S.count) (ShardAct S) EngineResult EngineResult} (h : Planned e t)
    {s : StorageEngine S} (hmax : s.maxKeys = 0) :
    ((shardSystem S).exec t.acts (s, t.start)).1 = (s.call e).2 ∧
      ∀ acc, acc ≈ ((shardSystem S).exec t.acts (s, t.start)).2 → t.finish acc = (s.call e).1 := by
  obtain ⟨call, clock⟩ := e
  obtain ⟨hplan, hclock⟩ := h
  dsimp only at hclock
  obtain ⟨hengine, hresult⟩ := exec_plan hplan hmax
  rw [hclock]
  exact ⟨hengine, fun acc hacc ↦ (finish_plan hplan hacc).trans hresult⟩

theorem txns_step {m m' : LockedEngine κ S}
    {e : Event κ (Fin S.count) (ShardAct S) EngineResult EngineResult}
    (h : Machine.step (shardSystem S) m e = some m') :
    m'.txns = m.txns ++ (match e with | .begin _ t => [t] | _ => []) := by
  cases Machine.stepped_of_step h <;> simp

theorem run_machine {s : StorageEngine S} {events : List (LockEvent κ S)} {m : LockedEngine κ S}
    (hrun : run next (start s) events = some m) :
    (∃ events', run (Machine.step (shardSystem S)) { store := s } events' = some m ∧
      ∀ e ∈ events', Machine.Admitted (shardSystem S) e) ∧
      List.Forall₂ Planned (begunCalls events) (Machine.txns m) := by
  refine run_invariant (Q := fun _ _ ↦ True)
    (P := fun past (m : LockedEngine κ S) ↦
      (∃ events', run (Machine.step (shardSystem S)) { store := s } events' = some m ∧
        ∀ e ∈ events', Machine.Admitted (shardSystem S) e) ∧
        List.Forall₂ Planned (begunCalls past) (Machine.txns m))
    ⟨⟨[], rfl, by simp⟩, List.Forall₂.nil⟩ ?_ (along_of_forall (fun _ _ ↦ trivial) _ _) hrun
  rintro past m e m' ⟨⟨events', hrun', hadmitted⟩, hplanned⟩ - hstep
  obtain ⟨e', he', hm'⟩ := Option.bind_eq_some_iff.mp hstep
  have hadmits : Machine.Admitted (shardSystem S) e' := by
    cases e with
    | call k call now =>
        obtain ⟨t, ht, rfl⟩ := Option.map_eq_some_iff.mp he'
        exact admits_plan ht
    | step k =>
        obtain rfl := Option.some.inj he'
        trivial
    | release k index =>
        obtain rfl := Option.some.inj he'
        trivial
  refine ⟨⟨events' ++ [e'], ?_, ?_⟩, ?_⟩
  · rw [run_append, hrun', Option.bind_some, run_cons, hm']
    rfl
  · intro x hx
    rcases List.mem_append.mp hx with hx | hx
    · exact hadmitted x hx
    · exact List.mem_singleton.mp hx ▸ hadmits
  · rw [txns_step hm', begunCalls, List.filterMap_append]
    apply List.rel_append hplanned
    cases e with
    | call k call now =>
        obtain ⟨t, ht, rfl⟩ := Option.map_eq_some_iff.mp he'
        exact List.Forall₂.cons ⟨ht, rfl⟩ List.Forall₂.nil
    | step k =>
        obtain rfl := Option.some.inj he'
        exact List.Forall₂.nil
    | release k index =>
        obtain rfl := Option.some.inj he'
        exact List.Forall₂.nil

omit [DecidableEq κ] in
/-- The serial execution of the transactions is the sequence of the calls. -/
theorem serial_eq_calls {events : List EngineEvent}
    {txns : List (Txn (Fin S.count) (ShardAct S) EngineResult EngineResult)}
    (h : List.Forall₂ Planned events txns) {s : StorageEngine S} (hmax : s.maxKeys = 0) :
    (shardSystem S).serial s txns = s.calls events ∧ (s.calls events).maxKeys = 0 := by
  induction h generalizing s with
  | nil => exact ⟨rfl, hmax⟩
  | @cons e t events txns hplanned _ ih =>
      have hcalls : s.calls (e :: events) = (s.call e).2.calls events := rfl
      have hzero : (s.call e).2.maxKeys = 0 := by
        apply maxKeys_call hmax
        intro n hcall
        have hplan := hplanned.1
        simp [hcall, plan, EngineCall.key?] at hplan
      obtain ⟨hserial, hcallsZero⟩ := ih hzero
      refine ⟨?_, hcalls ▸ hcallsZero⟩
      rw [hcalls, ← hserial, ← (hplanned.exec hmax).1]
      rfl

theorem forall₂_filterMap {α β : Type*} {R : α → β → Prop} {xs : List α} {ys : List β}
    (h : List.Forall₂ R xs ys) (indexes : List ℕ) :
    List.Forall₂ R (indexes.filterMap fun n ↦ xs[n]?) (indexes.filterMap fun n ↦ ys[n]?) := by
  induction indexes with
  | nil => exact List.Forall₂.nil
  | cons n rest ih =>
      by_cases hn : n < xs.length
      · have hn' : n < ys.length := h.length_eq ▸ hn
        rw [List.filterMap_cons_some (List.getElem?_eq_getElem hn),
          List.filterMap_cons_some (List.getElem?_eq_getElem hn')]
        exact List.Forall₂.cons (h.get hn hn') ih
      · have hn' : ¬ n < ys.length := h.length_eq ▸ hn
        rw [List.filterMap_cons_none (List.getElem?_eq_none (not_lt.mp hn)),
          List.filterMap_cons_none (List.getElem?_eq_none (not_lt.mp hn'))]
        exact ih

/-- However the steps of the threads are interleaved, the calls have a total order, in
which one that has returned comes before those that began later, such that every call
except `flush` has returned what it returns when the calls are executed in that order. -/
theorem calls_linearizable (s : StorageEngine S) (hmax : s.maxKeys = 0)
    (events : List (LockEvent κ S)) (m : LockedEngine κ S)
    (hrun : run next (start s) events = some m) :
    ∃ order : List ℕ, order.Perm (List.range (begunCalls events).length) ∧
      (∀ c d result, List.Sublist [.returned c result, .began d] m.history →
        List.Sublist [c, d] order) ∧
      ∀ c result, .returned c result ∈ m.history →
        ∃ before after e, order = before ++ c :: after ∧ (begunCalls events)[c]? = some e ∧
          (e.call ≠ .flush → result = ((s.calls
            (before.filterMap fun n ↦ (begunCalls events)[n]?)).call e).1) := by
  obtain ⟨⟨events', hrun', hadmitted⟩, hplanned⟩ := run_machine hrun
  obtain ⟨order, hperm, hrealtime, hresults⟩ := Machine.linearizable hadmitted hrun'
  refine ⟨order, by rwa [hplanned.length_eq], hrealtime, fun c result hreturned ↦ ?_⟩
  obtain ⟨before, after, t, acc, horder, ht, hresult, hacc⟩ := hresults c result hreturned
  obtain ⟨hc, rfl⟩ := List.getElem?_eq_some_iff.mp ht
  have hc' : c < (begunCalls events).length := hplanned.length_eq ▸ hc
  have hget : Planned (begunCalls events)[c] m.txns[c] := hplanned.get hc' hc
  refine ⟨before, after, (begunCalls events)[c], horder, List.getElem?_eq_getElem hc', ?_⟩
  intro hflush
  obtain ⟨hserial, hzero⟩ := serial_eq_calls (forall₂_filterMap hplanned before) hmax
  have hlearnt := hacc (local_plan hflush hget.1)
  rw [hserial] at hlearnt
  rw [hresult]
  exact (hget.exec hzero).2 acc hlearnt

/-- `keys` begins while an `mset` holds the first of its two shards, and gets that
shard before the `mset` has given back the second. -/
def msetAndKeys : List (LockEvent Bool twoShards) :=
  let first := twoShards.shardIndex (ascii "b")
  let second := twoShards.shardIndex (ascii "a")
  [.call false (.mset [ascii "a", ascii "1", ascii "b", ascii "2"]) 0, .step false,
    .call true .keys 0] ++ List.replicate 5 (.step false) ++
  [.release false first, .step true, .release false second, .step false] ++
  List.replicate 5 (.step true) ++
  [.release true second, .release true first, .step true]

theorem calls_linearizable_mset :
    ∃ m, run next (start ({} : StorageEngine twoShards)) msetAndKeys = some m ∧
      .returned 1 (.keys [ascii "a", ascii "b"]) ∈ m.history ∧
      ∃ order : List ℕ, order.Perm (List.range (begunCalls msetAndKeys).length) ∧
        ∀ c d result, List.Sublist [.returned c result, .began d] m.history →
          List.Sublist [c, d] order := by
  have hrun : (run next (start ({} : StorageEngine twoShards)) msetAndKeys).map Machine.history =
      some [.began 0, .began 1, .returned 0 (.keys [ascii "a", ascii "b"]),
        .returned 1 (.keys [ascii "a", ascii "b"])] := by
    decide +kernel
  obtain ⟨m, hm, hhistory⟩ := Option.map_eq_some_iff.mp hrun
  obtain ⟨order, hperm, hrealtime, -⟩ := calls_linearizable {} rfl msetAndKeys m hm
  exact ⟨m, hm, by simp [hhistory], order, hperm, hrealtime⟩

end LockedEngine

end ByteCacheDB
