import Mathlib

/-!
# Maps split over a fixed number of parts

A key belongs to exactly one part, its home, and the structure carries the
proof that it is stored nowhere else.  Single-key operations touch the home
part only, so the whole behaves as one finite map: `find?` determines the
entries up to order, and `size` counts the keys that `find?` knows.
-/

structure PartMap (α β : Type*) {n : ℕ} (home : α → Fin n) where
  part : Fin n → AList (fun _ : α ↦ β)
  placed : ∀ i a, a ∈ part i → home a = i

namespace PartMap

variable {α β : Type*} {n : ℕ} {home : α → Fin n}

def empty : PartMap α β home := ⟨fun _ ↦ ∅, fun _ _ h ↦ absurd h (AList.notMem_empty _)⟩

/-- Stored pairs, part after part. -/
def entries (m : PartMap α β home) : List (α × β) :=
  (List.finRange n).flatMap fun i ↦ (m.part i).entries.map fun e ↦ (e.1, e.2)

/-- Number of stored keys. -/
def size (m : PartMap α β home) : ℕ := ∑ i, (m.part i).entries.length

/-- Keep the entries of one part that satisfy a test. -/
def filterPart (m : PartMap α β home) (i : Fin n) (keep : α → β → Bool) :
    PartMap α β home where
  part := Function.update m.part i
    ⟨(m.part i).entries.filter fun e ↦ keep e.1 e.2,
      (m.part i).nodupKeys.sublist List.filter_sublist⟩
  placed := by
    intro j a ha
    by_cases hj : j = i
    · subst hj
      rw [Function.update_self, AList.mem_mk] at ha
      exact m.placed j a
        (AList.mem_keys.mpr ((List.filter_sublist.map Sigma.fst).subset ha))
    · rw [Function.update_of_ne hj] at ha
      exact m.placed j a ha

section
variable [DecidableEq α]

def find? (m : PartMap α β home) (a : α) : Option β := (m.part (home a)).lookup a

def insert (m : PartMap α β home) (a : α) (b : β) : PartMap α β home where
  part := Function.update m.part (home a) ((m.part (home a)).insert a b)
  placed := by
    intro i x hx
    by_cases hi : i = home a
    · subst hi
      rw [Function.update_self, AList.mem_insert] at hx
      rcases hx with rfl | hx
      · rfl
      · exact m.placed _ _ hx
    · rw [Function.update_of_ne hi] at hx
      exact m.placed _ _ hx

def erase (m : PartMap α β home) (a : α) : PartMap α β home where
  part := Function.update m.part (home a) ((m.part (home a)).erase a)
  placed := by
    intro i x hx
    by_cases hi : i = home a
    · subst hi
      rw [Function.update_self, AList.mem_erase] at hx
      exact m.placed _ _ hx.2
    · rw [Function.update_of_ne hi] at hx
      exact m.placed _ _ hx

@[simp] theorem find?_empty (a : α) : (empty : PartMap α β home).find? a = none := rfl

@[simp] theorem find?_insert (m : PartMap α β home) (a : α) (b : β) :
    (m.insert a b).find? a = some b := by
  simp [find?, insert]

@[simp] theorem insert_insert (m : PartMap α β home) (a : α) (b c : β) :
    (m.insert a b).insert a c = m.insert a c := by
  simp only [insert, Function.update_idem, Function.update_self, AList.insert_insert]

theorem find?_insert_ne (m : PartMap α β home) {a x : α} (b : β) (hx : x ≠ a) :
    (m.insert a b).find? x = m.find? x := by
  by_cases hh : home x = home a
  · simp [find?, insert, hh, AList.lookup_insert_ne hx]
  · simp [find?, insert, Function.update_of_ne hh]

@[simp] theorem find?_erase (m : PartMap α β home) (a : α) : (m.erase a).find? a = none := by
  simp [find?, erase]

theorem find?_erase_ne (m : PartMap α β home) {a x : α} (hx : x ≠ a) :
    (m.erase a).find? x = m.find? x := by
  by_cases hh : home x = home a
  · simp [find?, erase, hh, AList.lookup_erase_ne hx]
  · simp [find?, erase, Function.update_of_ne hh]

/-- A filtered part keeps an entry exactly when the test accepts it. -/
theorem find?_filterPart (m : PartMap α β home) (i : Fin n) (keep : α → β → Bool) (a : α) :
    (m.filterPart i keep).find? a =
      if home a = i then (m.find? a).filter (keep a) else m.find? a := by
  by_cases hi : home a = i
  · subst hi
    rw [if_pos rfl]
    apply Option.ext
    intro b
    have hold := List.mem_dlookup_iff (a := a) (b := b) (m.part (home a)).nodupKeys
    have hnew := List.mem_dlookup_iff (a := a) (b := b)
      ((m.part (home a)).nodupKeys.sublist
        (List.filter_sublist (p := fun e ↦ keep e.1 e.2)))
    rw [Option.mem_def] at hold hnew
    simp only [find?, filterPart, Function.update_self, AList.lookup]
    rw [hnew, List.mem_filter, ← hold, Option.filter_eq_some_iff]
  · rw [if_neg hi]
    simp [find?, filterPart, Function.update_of_ne hi]

theorem mem_part_iff (m : PartMap α β home) (i : Fin n) (a : α) (b : β) :
    (⟨a, b⟩ : Sigma fun _ : α ↦ β) ∈ (m.part i).entries ↔ home a = i ∧ m.find? a = some b := by
  rw [← AList.mem_lookup_iff, Option.mem_def]
  constructor
  · intro h
    have hin : a ∈ m.part i := AList.lookup_isSome.mp (by rw [h]; rfl)
    have hhome := m.placed i a hin
    exact ⟨hhome, by rw [find?, hhome, h]⟩
  · rintro ⟨rfl, h⟩
    exact h

theorem mem_entries_iff (m : PartMap α β home) (a : α) (b : β) :
    (a, b) ∈ m.entries ↔ m.find? a = some b := by
  constructor
  · intro h
    obtain ⟨i, -, hi⟩ := List.mem_flatMap.mp h
    obtain ⟨⟨x, y⟩, he, hxy⟩ := List.mem_map.mp hi
    obtain ⟨rfl, rfl⟩ := Prod.mk.inj hxy
    exact ((m.mem_part_iff i x y).mp he).2
  · intro h
    refine List.mem_flatMap.mpr ⟨home a, List.mem_finRange _, ?_⟩
    exact List.mem_map.mpr ⟨⟨a, b⟩, (m.mem_part_iff _ a b).mpr ⟨rfl, h⟩, rfl⟩

end

theorem length_entries (m : PartMap α β home) : m.entries.length = m.size := by
  rw [entries, List.length_flatMap, size, Fin.sum_univ_def]
  simp

/-- No key is listed twice: within a part because the part is an association
list, across parts because a key has one home. -/
theorem nodup_keys_entries (m : PartMap α β home) : (m.entries.map Prod.fst).Nodup := by
  rw [entries, List.map_flatMap, List.nodup_flatMap]
  have hkeys : ∀ i, ((m.part i).entries.map fun e ↦ (e.1, e.2)).map Prod.fst =
      (m.part i).keys := by
    intro i
    simp [AList.keys, List.keys, Function.comp_def]
  refine ⟨fun i _ ↦ by rw [hkeys]; exact (m.part i).keys_nodup, ?_⟩
  refine List.Nodup.pairwise_of_forall_ne (List.nodup_finRange n) ?_
  intro i _ j _ hij a hi hj
  beta_reduce at hi hj
  rw [hkeys] at hi hj
  exact hij ((m.placed i a hi).symm.trans (m.placed j a hj))

/-- Changing one part changes the size by the change of that part. -/
theorem size_update (m m' : PartMap α β home) (i : Fin n) (l : AList fun _ : α ↦ β)
    (hm : m'.part = Function.update m.part i l) :
    m'.size + (m.part i).entries.length = m.size + l.entries.length := by
  have hrest : ∀ j ∈ Finset.univ.erase i,
      (m'.part j).entries.length = (m.part j).entries.length := by
    intro j hj
    rw [hm, Function.update_of_ne (Finset.ne_of_mem_erase hj)]
  rw [size, size, ← Finset.add_sum_erase _ _ (Finset.mem_univ i),
    ← Finset.add_sum_erase _ (fun j ↦ (m.part j).entries.length) (Finset.mem_univ i),
    Finset.sum_congr rfl hrest, hm, Function.update_self]
  omega

theorem length_pos_of_mem {l : AList fun _ : α ↦ β} {a : α} (ha : a ∈ l) :
    0 < l.entries.length := by
  have hk : a ∈ l.entries.map Sigma.fst := AList.mem_keys.mp ha
  have hpos := List.length_pos_of_mem hk
  simpa using hpos

section
variable [DecidableEq α]

theorem length_entries_erase (l : AList fun _ : α ↦ β) (a : α) :
    (l.erase a).entries.length = if a ∈ l then l.entries.length - 1 else l.entries.length := by
  have hlen : ∀ s : AList fun _ : α ↦ β, s.entries.length = s.keys.length := by
    intro s
    simp [AList.keys, List.keys]
  rw [hlen, hlen, AList.keys_erase]
  by_cases ha : a ∈ l
  · rw [if_pos ha, List.length_erase_of_mem (AList.mem_keys.mp ha)]
  · rw [if_neg ha, List.erase_of_not_mem fun h ↦ ha (AList.mem_keys.mpr h)]

theorem size_insert_of_none (m : PartMap α β home) {a : α} (b : β) (h : m.find? a = none) :
    (m.insert a b).size = m.size + 1 := by
  have hup := size_update m (m.insert a b) (home a) _ rfl
  rw [AList.entries_insert_of_notMem (AList.lookup_eq_none.mp h), List.length_cons] at hup
  omega

theorem mem_of_find?_eq_some {m : PartMap α β home} {a : α} {b : β} (h : m.find? a = some b) :
    a ∈ m.part (home a) :=
  AList.lookup_isSome.mp (by rw [show (m.part (home a)).lookup a = some b from h]; rfl)

theorem size_insert_of_some (m : PartMap α β home) {a : α} {b c : β} (h : m.find? a = some c) :
    (m.insert a b).size = m.size := by
  have hin := mem_of_find?_eq_some h
  have hup := size_update m (m.insert a b) (home a) _ rfl
  have her := length_entries_erase (m.part (home a)) a
  have hpos := length_pos_of_mem hin
  rw [if_pos hin] at her
  rw [AList.entries_insert, List.length_cons] at hup
  change (List.kerase a (m.part (home a)).entries).length = _ at her
  omega

theorem size_erase_of_some (m : PartMap α β home) {a : α} {c : β} (h : m.find? a = some c) :
    (m.erase a).size + 1 = m.size := by
  have hin := mem_of_find?_eq_some h
  have hup := size_update m (m.erase a) (home a) _ rfl
  have hpos := length_pos_of_mem hin
  rw [length_entries_erase, if_pos hin] at hup
  omega

end

section
variable [DecidableEq α]

theorem mem_keys_entries (m : PartMap α β home) (a : α) :
    a ∈ m.entries.map Prod.fst ↔ (m.find? a).isSome := by
  rw [List.mem_map, Option.isSome_iff_exists]
  constructor
  · rintro ⟨⟨x, b⟩, he, rfl⟩
    exact ⟨b, (mem_entries_iff m x b).mp he⟩
  · rintro ⟨b, hb⟩
    exact ⟨(a, b), (mem_entries_iff m a b).mpr hb, rfl⟩

omit [DecidableEq α] in
theorem nodup_entries (m : PartMap α β home) : m.entries.Nodup :=
  m.nodup_keys_entries.of_map _

/-- The entries without those of a key. -/
theorem perm_entries_erase (m : PartMap α β home) {a : α} {b : β} (h : m.find? a = some b) :
    m.entries.Perm ((a, b) :: (m.erase a).entries) := by
  have hnotMem : (a, b) ∉ (m.erase a).entries := by
    rw [mem_entries_iff, find?_erase]
    simp
  refine (List.perm_ext_iff_of_nodup m.nodup_entries
    (List.nodup_cons.mpr ⟨hnotMem, (m.erase a).nodup_entries⟩)).mpr ?_
  rintro ⟨x, y⟩
  rw [List.mem_cons, mem_entries_iff, mem_entries_iff, Prod.mk.injEq]
  by_cases hx : x = a
  · subst hx
    rw [h, find?_erase]
    simp [eq_comm]
  · rw [find?_erase_ne _ hx]
    simp [hx]

/-- The size is the number of keys. -/
theorem size_eq_ncard (m : PartMap α β home) : m.size = {a | (m.find? a).isSome}.ncard := by
  have hset : {a | (m.find? a).isSome} = ((m.entries.map Prod.fst).toFinset : Set α) := by
    ext a
    rw [Set.mem_ofPred_eq, ← mem_keys_entries, Finset.mem_coe, List.mem_toFinset]
  rw [hset, Set.ncard_coe_finset, List.toFinset_card_of_nodup m.nodup_keys_entries,
    List.length_map, length_entries]

/-- Maps that know the same keys are of the same size. -/
theorem size_congr {k : ℕ} {home' : α → Fin k} {m : PartMap α β home} {m' : PartMap α β home'}
    (h : ∀ a, m.find? a = none ↔ m'.find? a = none) : m.size = m'.size := by
  have hkeys : {a | (m.find? a).isSome} = {a | (m'.find? a).isSome} := by
    ext a
    simp only [Set.mem_ofPred_eq, Option.isSome_iff_ne_none, ne_eq, h]
  rw [size_eq_ncard, size_eq_ncard, hkeys]

/-- A map that knows, beside those of another one, only keys of a list. -/
theorem size_le_add_of_find? {k : ℕ} {home' : α → Fin k} {m : PartMap α β home}
    {m' : PartMap α β home'} {keys : List α}
    (h : ∀ a, m.find? a = none → a ∉ keys → m'.find? a = none) :
    m'.size ≤ m.size + keys.length := by
  have hsubset : m'.entries.map Prod.fst ⊆ m.entries.map Prod.fst ++ keys := by
    intro a ha
    rw [mem_keys_entries] at ha
    by_contra hnot
    rw [List.mem_append, not_or, mem_keys_entries, Option.not_isSome_iff_eq_none] at hnot
    rw [h a hnot.1 hnot.2] at ha
    simp at ha
  have hle := (m'.nodup_keys_entries.subperm hsubset).length_le
  rwa [List.length_append, List.length_map, List.length_map, length_entries, length_entries] at hle

/-- A map that knows no other keys is no larger. -/
theorem size_le_of_find? {k : ℕ} {home' : α → Fin k} {m : PartMap α β home}
    {m' : PartMap α β home'} (h : ∀ a, m.find? a = none → m'.find? a = none) :
    m'.size ≤ m.size :=
  @size_le_add_of_find? _ _ _ _ _ _ _ m m' [] fun a ha _ ↦ h a ha

theorem size_eq_card {m : PartMap α β home} {keys : Finset α}
    (h : ∀ a, m.find? a ≠ none ↔ a ∈ keys) : m.size = keys.card := by
  have hkeys : (m.entries.map Prod.fst).toFinset = keys := by
    ext a
    rw [List.mem_toFinset, List.mem_map, ← h a, Option.ne_none_iff_exists']
    constructor
    · rintro ⟨⟨x, b⟩, hmem, rfl⟩
      exact ⟨b, (m.mem_entries_iff x b).mp hmem⟩
    · rintro ⟨b, hb⟩
      exact ⟨(a, b), (m.mem_entries_iff a b).mpr hb, rfl⟩
  rw [← hkeys, List.toFinset_card_of_nodup m.nodup_keys_entries, List.length_map, length_entries]

/-- The same map, however it is cut into parts and whatever order these are in. -/
def Same {k : ℕ} {home' : α → Fin k} (m : PartMap α β home) (m' : PartMap α β home') : Prop :=
  ∀ a, m.find? a = m'.find? a

section
variable {k : ℕ} {home' : α → Fin k} {m : PartMap α β home} {m' : PartMap α β home'}

theorem Same.size_eq (h : Same m m') : m.size = m'.size :=
  size_congr fun a ↦ by rw [h a]

theorem Same.insert (h : Same m m') (a : α) (b : β) : Same (m.insert a b) (m'.insert a b) := by
  intro x
  by_cases hx : x = a
  · simp [hx]
  · simpa [find?_insert_ne _ b hx] using h x

theorem Same.erase (h : Same m m') (a : α) : Same (m.erase a) (m'.erase a) := by
  intro x
  by_cases hx : x = a
  · simp [hx]
  · simpa [find?_erase_ne _ hx] using h x

theorem Same.perm_entries (h : Same m m') : m.entries.Perm m'.entries := by
  rw [List.perm_ext_iff_of_nodup m.nodup_keys_entries.of_map m'.nodup_keys_entries.of_map]
  rintro ⟨a, b⟩
  rw [mem_entries_iff, mem_entries_iff, h a]

end

end

@[simp] theorem size_empty : (empty : PartMap α β home).size = 0 := by
  simp [size, empty]

theorem size_eq_zero_of_find? [DecidableEq α] {m : PartMap α β home}
    (h : ∀ a, m.find? a = none) : m.size = 0 := by
  have hle : m.size ≤ (empty : PartMap α β home).size := size_le_of_find? fun a _ ↦ h a
  rwa [size_empty, Nat.le_zero] at hle

theorem size_filterPart (m : PartMap α β home) (i : Fin n) (keep : α → β → Bool) :
    (m.filterPart i keep).size +
        ((m.part i).entries.filter fun e ↦ !keep e.1 e.2).length = m.size := by
  classical
  have hup := size_update m (m.filterPart i keep) i _ rfl
  have hsplit := List.length_eq_length_filter_add (l := (m.part i).entries)
    (fun e ↦ keep e.1 e.2)
  change _ = _ + ((m.part i).entries.filter fun e ↦ keep e.1 e.2).length at hup
  omega

end PartMap
