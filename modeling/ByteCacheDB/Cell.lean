import ByteCacheDB.StorageEngine

/-!
# One key seen alone

A cell is what a store knows about one key: its value and its deadline.  The
operations below say what the engine's methods do to the cell of their key.
The engine acts on cells only, so statements about whole stores reduce to
statements about one cell.
-/

namespace ByteCacheDB

abbrev Cell := Option (Bytes × Option TimePoint)

/-- What a store holds, key by key. -/
abbrev Store := Bytes → Cell

namespace Cell

/-- The cell as a call at time `now` meets it: an expired entry is not there. -/
def live (now : TimePoint) : Cell → Cell
  | some (value, some deadline) =>
      if deadline ≤ now then none else some (value, some deadline)
  | some (value, none) => some (value, none)
  | none => none

def expireAt (now deadline : TimePoint) (c : Cell) : Cell :=
  (c.live now).bind fun e ↦ if deadline ≤ now then none else some (e.1, some deadline)

def persist (now : TimePoint) (c : Cell) : Cell := (c.live now).map fun e ↦ (e.1, none)

def append (now : TimePoint) (suffix : Bytes) (c : Cell) : Cell :=
  match c.live now with
  | some (value, deadline) => some (value ++ suffix, deadline)
  | none => some (suffix, none)

/-- The number an increment leaves behind, or the error it reports. -/
def nextInteger (now : TimePoint) (delta : Int64) (c : Cell) : Except Bytes Int64 :=
  match c.live now with
  | some (value, _) => StorageEngine.storedInteger value >>= (StorageEngine.checkedAdd · delta)
  | none => StorageEngine.checkedAdd 0 delta

def writeInteger (now : TimePoint) (next : Int64) (c : Cell) : Cell :=
  some (toStringI64 next, (c.live now).bind Prod.snd)

/-- What an increment makes of a cell; a refused one leaves it alone. -/
def increment (now : TimePoint) (delta : Int64) (c : Cell) : Cell :=
  match c.nextInteger now delta with
  | .ok next => c.writeInteger now next
  | .error _ => c

@[simp] theorem live_none (now : TimePoint) : live now none = none := rfl

@[simp] theorem live_some_none (now : TimePoint) (value : Bytes) :
    live now (some (value, none)) = some (value, none) := rfl

theorem live_of_le {now deadline : TimePoint} (value : Bytes) (h : deadline ≤ now) :
    live now (some (value, some deadline)) = none := by
  simp [live, h]

theorem live_of_lt {now deadline : TimePoint} (value : Bytes) (h : now < deadline) :
    live now (some (value, some deadline)) = some (value, some deadline) := by
  simp [live, Int64.not_le.mpr h]

theorem live_eq_self_or_none (now : TimePoint) (c : Cell) :
    c.live now = c ∨ c.live now = none := by
  match c with
  | none => exact Or.inl rfl
  | some (value, none) => exact Or.inl rfl
  | some (value, some deadline) =>
      by_cases h : deadline ≤ now
      · exact Or.inr (live_of_le value h)
      · exact Or.inl (live_of_lt value (Int64.not_le.mp h))

@[simp] theorem live_live (now : TimePoint) (c : Cell) : (c.live now).live now = c.live now := by
  rcases live_eq_self_or_none now c with h | h
  · rw [h, h]
  · rw [h, live_none]

theorem lt_of_live {c : Cell} {now deadline : TimePoint} {value : Bytes}
    (h : c.live now = some (value, some deadline)) : now < deadline := by
  by_contra hle
  have hlive := live_live now c
  rw [h, live_of_le value (Int64.not_lt.mp hle)] at hlive
  simp at hlive

/-- What has expired stays expired. -/
theorem live_live_of_le {now later : TimePoint} (h : now ≤ later) (c : Cell) :
    (c.live now).live later = c.live later := by
  match c with
  | none => rfl
  | some (value, none) => rfl
  | some (value, some deadline) =>
      by_cases hd : deadline ≤ now
      · rw [live_of_le value hd, live_of_le value (Int64.le_trans hd h), live_none]
      · rw [live_of_lt value (Int64.not_le.mp hd)]

end Cell

namespace StorageEngine

/-- The overflow test of `increment` lets every sum pass that is an `int64_t`. -/
theorem checkedAdd_of_fits (current delta : Int64) (hlo : -2 ^ 63 ≤ current.toInt + delta.toInt)
    (hhi : current.toInt + delta.toInt < 2 ^ 63) :
    checkedAdd current delta = .ok (current + delta) ∧
      (current + delta).toInt = current.toInt + delta.toInt := by
  have hlow := delta.le_toInt
  have hhigh := delta.toInt_lt
  have hmax : Int64.maxValue.toInt = 2 ^ 63 - 1 := by decide
  have hmin : Int64.minValue.toInt = -2 ^ 63 := by decide
  have hzero : (0 : Int64).toInt = 0 := by decide
  constructor
  · rw [checkedAdd, if_neg]
    simp only [Int64.lt_iff_toInt_lt, Int64.toInt_sub, hmax, hmin, hzero]
    rintro (⟨hpos, hlt⟩ | ⟨hneg, hlt⟩)
    · rw [Int.bmod_eq_of_le (by omega) (by omega)] at hlt
      omega
    · rw [Int.bmod_eq_of_le (by omega) (by omega)] at hlt
      omega
  · rw [Int64.toInt_add]
    apply Int.bmod_eq_of_le <;> omega

theorem checkedAdd_zero (delta : Int64) : checkedAdd 0 delta = .ok delta := by
  have hlow := delta.le_toInt
  have hhigh := delta.toInt_lt
  have hzero : (0 : Int64).toInt = 0 := by decide
  have hfits := checkedAdd_of_fits 0 delta (by omega) (by omega)
  rw [hfits.1, Int64.zero_add]

theorem storedInteger_toStringI64 (z : Int64) : storedInteger (toStringI64 z) = .ok z := by
  rw [storedInteger, fromCharsI64_toStringI64]

variable {S : Sharding}

/-- The store an engine represents. -/
def cells (s : StorageEngine S) : Store :=
  fun key ↦ (s.shards.find? key).map fun e ↦ (e.value, e.expiresAt)

theorem cells_eq_none_iff {s : StorageEngine S} {key : Bytes} :
    s.cells key = none ↔ s.shards.find? key = none := by
  simp [cells]

theorem size_eq_of_cells {s s' : StorageEngine S} (h : s'.cells = s.cells) :
    s'.shards.size = s.shards.size :=
  PartMap.size_congr fun key ↦ by rw [← cells_eq_none_iff, ← cells_eq_none_iff, h]

theorem size_eq_card {s : StorageEngine S} {keys : Finset Bytes}
    (h : ∀ key, s.cells key ≠ none ↔ key ∈ keys) : s.shards.size = keys.card :=
  PartMap.size_eq_card fun key ↦ by rw [← h key, ne_eq, ne_eq, cells_eq_none_iff]

/-- An engine without other keys is no larger. -/
theorem size_le_of_cells_none {s s' : StorageEngine S}
    (h : ∀ key, s.cells key = none → s'.cells key = none) : s'.shards.size ≤ s.shards.size :=
  PartMap.size_le_of_find? fun key hkey ↦
    cells_eq_none_iff.mp (h key (cells_eq_none_iff.mpr hkey))

/-- Taking a key away does not make the engine larger. -/
theorem size_le_of_cells {s s' : StorageEngine S} {key : Bytes}
    (h : s'.cells = Function.update s.cells key none) : s'.shards.size ≤ s.shards.size := by
  apply size_le_of_cells_none
  intro k hk
  have hcell := congrFun h k
  by_cases hkey : k = key
  · rwa [hkey, Function.update_self, ← hkey] at hcell
  · rw [Function.update_of_ne hkey] at hcell
    exact hcell.trans hk

theorem cells_of_find? {s : StorageEngine S} {key : Bytes} {entry : ValueEntry}
    (h : s.shards.find? key = some entry) :
    s.cells key = some (entry.value, entry.expiresAt) := by
  simp [cells, h]

theorem live_cells_of_isExpired {s : StorageEngine S} {key : Bytes} {entry : ValueEntry}
    {now : TimePoint} (h : s.shards.find? key = some entry) :
    (s.cells key).live now = if isExpired entry now then none else s.cells key := by
  rw [cells_of_find? h]
  cases hd : entry.expiresAt with
  | none => simp [isExpired, hd]
  | some deadline => simp [isExpired, hd, Cell.live]

theorem cells_insert (s : StorageEngine S) (key : Bytes) (entry : ValueEntry) :
    (fun k ↦ ((s.shards.insert key entry).find? k).map fun e ↦ (e.value, e.expiresAt)) =
      Function.update s.cells key (some (entry.value, entry.expiresAt)) := by
  funext k
  by_cases hk : k = key
  · subst hk
    simp
  · simp [PartMap.find?_insert_ne _ _ hk, Function.update_of_ne hk, cells]

theorem cells_erase (s : StorageEngine S) (key : Bytes) :
    (fun k ↦ ((s.shards.erase key).find? k).map fun e ↦ (e.value, e.expiresAt)) =
      Function.update s.cells key none := by
  funext k
  by_cases hk : k = key
  · subst hk
    simp
  · simp [PartMap.find?_erase_ne _ hk, Function.update_of_ne hk, cells]

@[simp] theorem cells_put (s : StorageEngine S) (key : Bytes) (entry : ValueEntry) :
    (s.put key entry).cells =
      Function.update s.cells key (some (entry.value, entry.expiresAt)) :=
  cells_insert s key _

@[simp] theorem cells_removeExpired (s : StorageEngine S) (key : Bytes) :
    (s.removeExpired key).cells = Function.update s.cells key none :=
  cells_erase s key

@[simp] theorem cells_putCounted (s : StorageEngine S) (key : Bytes) (entry : ValueEntry) :
    (s.putCounted key entry).cells =
      Function.update s.cells key (some (entry.value, entry.expiresAt)) := by
  unfold putCounted
  split
  · exact cells_put s key entry
  · exact cells_insert s key _

@[simp] theorem cells_dropExpired (s : StorageEngine S) (now : TimePoint) (key : Bytes) :
    (s.dropExpired now key).cells =
      Function.update s.cells key ((s.cells key).live now) := by
  unfold dropExpired
  split
  · rename_i entry hfind
    rw [live_cells_of_isExpired hfind]
    split
    · exact cells_removeExpired s key
    · rw [Function.update_eq_self]
  · rename_i hfind
    rw [cells_eq_none_iff.mpr hfind, Cell.live_none, ← cells_eq_none_iff.mpr hfind,
      Function.update_eq_self]

@[simp] theorem cells_store (s : StorageEngine S) (now : TimePoint) (key value : Bytes) :
    (s.store now key value).cells = Function.update s.cells key (some (value, none)) := by
  simp [store]

theorem cells_storeAll (s : StorageEngine S) (now : TimePoint) (pairs : List (Bytes × Bytes)) :
    (s.storeAll now pairs).cells =
      pairs.foldl (fun (m : Store) p ↦ Function.update m p.1 (some (p.2, none))) s.cells := by
  induction pairs generalizing s with
  | nil => rfl
  | cons p ps ih =>
      change ((s.store now p.1 p.2).storeAll now ps).cells = _
      rw [ih, cells_store, List.foldl_cons]

theorem cells_del (s : StorageEngine S) (key : Bytes) :
    (s.del key).2.cells = Function.update s.cells key none := by
  unfold del
  split
  · exact cells_erase s key
  · rename_i hfind
    rw [← cells_eq_none_iff.mpr hfind, Function.update_eq_self]

theorem cells_expireAt (s : StorageEngine S) (now : TimePoint) (key : Bytes)
    (expiresAt : TimePoint) :
    (s.expireAt now key expiresAt).2.cells =
      Function.update s.cells key ((s.cells key).expireAt now expiresAt) := by
  unfold expireAt
  split
  · rename_i hfind
    simp only [Cell.expireAt, cells_eq_none_iff.mpr hfind, Cell.live_none, Option.bind_none]
    rw [← cells_eq_none_iff.mpr hfind, Function.update_eq_self]
  · rename_i entry hfind
    rw [Cell.expireAt, live_cells_of_isExpired hfind]
    by_cases hexp : isExpired entry now = true
    · simp [hexp]
    · by_cases hle : expiresAt ≤ now
      · simp [hexp, hle, cells_of_find? hfind]
      · simp [hexp, hle, cells_of_find? hfind]

/-- `expire_at` answers true for a live key, and for a dead one that is still
stored when the new deadline has passed as well. -/
theorem expireAt_eq_true_iff (s : StorageEngine S) (now : TimePoint) (key : Bytes)
    (expiresAt : TimePoint) :
    (s.expireAt now key expiresAt).1 = true ↔
      s.cells key ≠ none ∧ ((s.cells key).live now ≠ none ∨ expiresAt ≤ now) := by
  unfold expireAt
  split
  · rename_i hfind
    simp [cells_eq_none_iff.mpr hfind]
  · rename_i entry hfind
    have hsome : s.cells key ≠ none := by simp [cells_of_find? hfind]
    rw [live_cells_of_isExpired hfind]
    by_cases hexp : isExpired entry now = true
    · simp [hexp, hsome]
    · by_cases hle : expiresAt ≤ now
      · simp [hexp, hle, hsome]
      · simp [hexp, hle, hsome]

/-- What `get`, `ttl` and `persist` do to the engine: an expired entry goes, and a live one
is written back. -/
def meet (s : StorageEngine S) (now : TimePoint) (key : Bytes) (write : ValueEntry → ValueEntry) :
    StorageEngine S :=
  match s.shards.find? key with
  | none => s
  | some entry => if isExpired entry now then s.removeExpired key else s.put key (write entry)

section
variable (s : StorageEngine S) (now : TimePoint) (key : Bytes)

theorem snd_get : (s.get now key).2 = s.meet now key id := by
  unfold get meet
  cases s.shards.find? key with
  | none => rfl
  | some entry => cases hexp : isExpired entry now <;> simp [hexp]

theorem snd_ttl : (s.ttl now key).2 = s.meet now key id := by
  unfold ttl meet
  cases s.shards.find? key with
  | none => rfl
  | some entry =>
      cases hexp : isExpired entry now <;> cases hdeadline : entry.expiresAt <;>
        simp [hexp, hdeadline]

theorem snd_persist :
    (s.persist now key).2 = s.meet now key fun entry ↦ { entry with expiresAt := none } := by
  unfold persist meet
  cases s.shards.find? key with
  | none => rfl
  | some entry => cases hexp : isExpired entry now <;> simp [hexp]

/-- So does `expire_at` with a deadline that is ahead. -/
theorem snd_expireAt_of_not_le {expiresAt : TimePoint} (h : ¬expiresAt ≤ now) :
    (s.expireAt now key expiresAt).2 =
      s.meet now key fun entry ↦ { entry with expiresAt := some expiresAt } := by
  unfold expireAt meet
  simp only [h, or_false]
  cases s.shards.find? key with
  | none => rfl
  | some entry => cases hexp : isExpired entry now <;> simp [hexp]

/-- A property of the engine behind `meet` holds in each of its three cases. -/
@[elab_as_elim]
theorem meet_cases {motive : StorageEngine S → Prop} (write : ValueEntry → ValueEntry)
    (missing : s.shards.find? key = none → motive s)
    (expired : ∀ entry, s.shards.find? key = some entry → isExpired entry now = true →
      motive (s.removeExpired key))
    (live : ∀ entry, s.shards.find? key = some entry → isExpired entry now = false →
      motive (s.put key (write entry))) : motive (s.meet now key write) := by
  unfold meet
  split
  · rename_i hfind
    exact missing hfind
  · rename_i entry hfind
    cases hexp : isExpired entry now with
    | true => exact expired entry hfind hexp
    | false => exact live entry hfind hexp

/-- On the cell, `meet` does what `write` does to the value and the deadline. -/
theorem cells_meet (write : ValueEntry → ValueEntry)
    {f : Bytes × Option TimePoint → Bytes × Option TimePoint}
    (hwrite : ∀ e, ((write e).value, (write e).expiresAt) = f (e.value, e.expiresAt)) :
    (s.meet now key write).cells =
      Function.update s.cells key (((s.cells key).live now).map f) := by
  refine meet_cases s now key write ?_ ?_ ?_
  · intro hfind
    rw [cells_eq_none_iff.mpr hfind, Cell.live_none, Option.map_none,
      ← cells_eq_none_iff.mpr hfind, Function.update_eq_self]
  · intro entry hfind hexp
    rw [cells_removeExpired, live_cells_of_isExpired hfind, if_pos hexp, Option.map_none]
  · intro entry hfind hexp
    rw [cells_put, hwrite, live_cells_of_isExpired hfind, if_neg (by simp [hexp]),
      cells_of_find? hfind, Option.map_some]

end

theorem cells_persist (s : StorageEngine S) (now : TimePoint) (key : Bytes) :
    (s.persist now key).2.cells =
      Function.update s.cells key ((s.cells key).persist now) := by
  rw [snd_persist]
  exact cells_meet s now key _ fun _ ↦ rfl

/-- `persist` answers true when it has removed the deadline of a live key. -/
theorem persist_eq_true_iff (s : StorageEngine S) (now : TimePoint) (key : Bytes) :
    (s.persist now key).1 = true ↔
      ∃ value deadline, (s.cells key).live now = some (value, some deadline) := by
  unfold persist
  split
  · rename_i hfind
    simp [cells_eq_none_iff.mpr hfind]
  · rename_i entry hfind
    rw [live_cells_of_isExpired hfind]
    by_cases hexp : isExpired entry now = true
    · simp [hexp]
    · simp [hexp, cells_of_find? hfind, Option.isSome_iff_exists]

theorem cells_get (s : StorageEngine S) (now : TimePoint) (key : Bytes) :
    (s.get now key).2.cells = Function.update s.cells key ((s.cells key).live now) ∧
      (s.get now key).1 = ((s.cells key).live now).map Prod.fst := by
  constructor
  · rw [snd_get, cells_meet s now key id (f := id) fun _ ↦ rfl, Option.map_id_apply]
  · unfold get
    split
    · rename_i hfind
      simp [cells_eq_none_iff.mpr hfind]
    · rename_i entry hfind
      rw [live_cells_of_isExpired hfind]
      by_cases hexp : isExpired entry now = true
      · simp [hexp]
      · simp [hexp, cells_of_find? hfind]

/-- The state in which `increment` and `append` look their key up. -/
theorem find?_dropExpired (s : StorageEngine S) (now : TimePoint) (key : Bytes) :
    ((s.dropExpired now key).shards.find? key).map (fun e ↦ (e.value, e.expiresAt)) =
      (s.cells key).live now := by
  have hcells := congrFun (cells_dropExpired s now key) key
  rw [Function.update_self] at hcells
  exact hcells

theorem cells_appendLocked (s : StorageEngine S) (now : TimePoint) (key suffix : Bytes) :
    (s.appendLocked now key suffix).2.cells =
        Function.update s.cells key ((s.cells key).append now suffix) ∧
      (s.appendLocked now key suffix).1.2 = ((s.cells key).live now).isNone := by
  have hlook := find?_dropExpired s now key
  cases hfind : (s.dropExpired now key).shards.find? key with
  | none =>
      rw [hfind, Option.map_none] at hlook
      simp [appendLocked, hfind, Cell.append, ← hlook]
  | some entry =>
      rw [hfind, Option.map_some] at hlook
      simp [appendLocked, hfind, Cell.append, ← hlook]

theorem incrementLocked_error {s : StorageEngine S} {now : TimePoint} {key : Bytes}
    {delta : Int64} {e : Bytes} (h : (s.cells key).nextInteger now delta = .error e) :
    s.incrementLocked now key delta = (.error e, s.dropExpired now key) := by
  have hlook := find?_dropExpired s now key
  cases hfind : (s.dropExpired now key).shards.find? key with
  | none =>
      rw [hfind, Option.map_none] at hlook
      simp only [Cell.nextInteger, ← hlook] at h
      simp [incrementLocked, hfind, h]
  | some entry =>
      rw [hfind, Option.map_some] at hlook
      simp only [Cell.nextInteger, ← hlook] at h
      simp [incrementLocked, hfind, h]

theorem incrementLocked_ok {s : StorageEngine S} {now : TimePoint} {key : Bytes}
    {delta next : Int64} (h : (s.cells key).nextInteger now delta = .ok next) :
    (s.incrementLocked now key delta).1 = .ok (next, ((s.cells key).live now).isNone) ∧
      (s.incrementLocked now key delta).2.cells =
        Function.update s.cells key ((s.cells key).writeInteger now next) := by
  have hlook := find?_dropExpired s now key
  cases hfind : (s.dropExpired now key).shards.find? key with
  | none =>
      rw [hfind, Option.map_none] at hlook
      simp only [Cell.nextInteger, ← hlook] at h
      simp [incrementLocked, hfind, h, Cell.writeInteger, ← hlook]
  | some entry =>
      rw [hfind, Option.map_some] at hlook
      simp only [Cell.nextInteger, ← hlook] at h
      simp [incrementLocked, hfind, h, Cell.writeInteger, ← hlook]

theorem fst_increment (s : StorageEngine S) (now : TimePoint) (key : Bytes) (delta : Int64) :
    (s.increment now key delta).1 = (s.cells key).nextInteger now delta := by
  cases hnext : (s.cells key).nextInteger now delta with
  | error e => simp [increment, incrementLocked_error hnext]
  | ok n =>
      rw [increment, ← Prod.eta (s.incrementLocked now key delta), (incrementLocked_ok hnext).1]

theorem mem_snapshotEntries {s : StorageEngine S} {now : TimePoint} {e : SnapshotEntry} :
    e ∈ s.snapshotEntries now ↔ (s.cells e.key).live now = some (e.value, e.expiresAt) := by
  rw [snapshotEntries, List.mem_insertionSort, List.mem_map]
  constructor
  · rintro ⟨⟨key, entry⟩, hmem, rfl⟩
    obtain ⟨hin, hexp⟩ := List.mem_filter.mp hmem
    have hfind := (PartMap.mem_entries_iff _ _ _).mp hin
    have hlive : isExpired entry now = false := by simpa using hexp
    rw [live_cells_of_isExpired hfind, hlive]
    simp [cells_of_find? hfind]
  · intro h
    cases hfind : s.shards.find? e.key with
    | none => simp [cells_eq_none_iff.mpr hfind] at h
    | some entry =>
        rw [live_cells_of_isExpired hfind, cells_of_find? hfind] at h
        split at h
        · simp at h
        · rename_i hlive
          refine ⟨(e.key, entry), List.mem_filter.mpr
            ⟨(PartMap.mem_entries_iff _ _ _).mpr hfind, by simpa using hlive⟩, ?_⟩
          simp only [Option.some.injEq, Prod.mk.injEq] at h
          rw [h.1, h.2]

theorem nodup_snapshotEntries (s : StorageEngine S) (now : TimePoint) :
    ((s.snapshotEntries now).map SnapshotEntry.key).Nodup := by
  have hperm := (List.perm_insertionSort (fun a b : SnapshotEntry ↦ a.key ≤ b.key)
    ((s.shards.entries.filter fun e ↦ !isExpired e.2 now).map
      fun e ↦ (⟨e.1, e.2.value, e.2.expiresAt⟩ : SnapshotEntry))).map SnapshotEntry.key
  rw [snapshotEntries, hperm.nodup_iff, List.map_map]
  exact (PartMap.nodup_keys_entries s.shards).sublist (List.filter_sublist.map _)

/-- The entries come in the order of their keys, none twice. -/
theorem pairwise_snapshotEntries (s : StorageEngine S) (now : TimePoint) :
    ((s.snapshotEntries now).map SnapshotEntry.key).Pairwise (· < ·) := by
  have htotal : Std.Total fun a b : SnapshotEntry ↦ a.key ≤ b.key :=
    ⟨fun a b ↦ List.le_total a.key b.key⟩
  have htrans : IsTrans SnapshotEntry fun a b ↦ a.key ≤ b.key := ⟨fun _ _ _ ↦ List.le_trans⟩
  have hle : ((s.snapshotEntries now).map SnapshotEntry.key).Pairwise (· ≤ ·) :=
    (List.pairwise_insertionSort _ _).map SnapshotEntry.key fun _ _ h ↦ h
  exact hle.imp₂ (fun _ _ ↦ Std.lt_of_le_of_ne) (nodup_snapshotEntries s now)

theorem keys_eq (s : StorageEngine S) (now : TimePoint) :
    s.keys now = (s.snapshotEntries now).map SnapshotEntry.key := by
  apply List.Pairwise.insertionSort_eq
  exact (pairwise_snapshotEntries s now).imp Std.le_of_lt

end StorageEngine

end ByteCacheDB
