import ByteCacheDB.TtlMap

/-!
# Increments

`increment` reads the stored text as a number, adds with a test that cannot overflow
itself, and prints the sum.  A refused increment changes nothing, and the stored
number is the sum of what the successful ones have added, as long as the entry does
not expire between them.
-/

namespace ByteCacheDB

open StorageEngine Numerals

/-! ## The text and the sum -/

/-- The whole text is an optional minus sign and decimal digits, and denotes `z`. -/
def Denotes (text : Bytes) (z : ℤ) : Prop :=
  ∃ negative digits, digits ≠ [] ∧ (∀ b ∈ digits, isDigit b = true) ∧
    text = (if negative then [minusSign] else []) ++ digits ∧ z = signed negative (readNat digits)

abbrev IsInt64 (z : ℤ) : Prop := -2 ^ 63 ≤ z ∧ z < 2 ^ 63

theorem isInt64_toInt (z : Int64) : IsInt64 z.toInt := ⟨z.le_toInt, z.toInt_lt⟩

theorem toInt_ofInt_of_isInt64 {z : ℤ} (h : IsInt64 z) : (Int64.ofInt z).toInt = z :=
  Int64.toInt_ofInt_of_le h.1 h.2

theorem signOf_append {negative : Bool} {digits : Bytes} (hne : digits ≠ [])
    (hdigits : ∀ b ∈ digits, isDigit b = true) :
    signOf ((if negative then [minusSign] else []) ++ digits) = (negative, digits) := by
  cases negative with
  | true => rfl
  | false =>
      obtain ⟨b, bs, rfl⟩ := List.exists_cons_of_ne_nil hne
      have hb : b ≠ minusSign := by
        rintro rfl
        exact absurd (hdigits minusSign (by simp)) (by decide)
      simp [signOf, hb]

theorem append_of_signOf {text body : Bytes} {negative : Bool}
    (h : signOf text = (negative, body)) :
    text = (if negative then [minusSign] else []) ++ body := by
  cases text with
  | nil => simp_all [signOf]
  | cons c cs =>
      by_cases hc : c = minusSign <;> simp_all [signOf]

theorem int64?_eq_some_iff {n : ℤ} {z : Int64} : int64? n = some z ↔ n = z.toInt := by
  constructor
  · intro h
    unfold int64? at h
    split at h
    · rename_i hfits
      rw [← Option.some.inj h, toInt_ofInt_of_isInt64 hfits]
    · simp at h
  · rintro rfl
    exact int64?_toInt z

/-- The texts that an increment accepts. -/
theorem storedInteger_eq_ok_iff {text : Bytes} {z : Int64} :
    storedInteger text = .ok z ↔ Denotes text z.toInt := by
  constructor
  · intro h
    unfold storedInteger at h
    split at h
    · rename_i current hparse
      obtain rfl : current = z := Except.ok.inj h
      rcases hsign : signOf text with ⟨negative, body⟩
      simp only [fromCharsI64, hsign] at hparse
      split at hparse
      · simp at hparse
      · rename_i hne
        split at hparse
        · rename_i read hread
          obtain ⟨rfl, hrest⟩ := Prod.mk.inj (Except.ok.inj hparse)
          have hbody : body.takeWhile isDigit = body := by
            simpa [hrest] using List.takeWhile_append_dropWhile (p := isDigit) (l := body)
          rw [hbody] at hne hread
          refine ⟨negative, body, hne, List.takeWhile_eq_self_iff.mp hbody,
            append_of_signOf hsign, ?_⟩
          exact (int64?_eq_some_iff.mp hread).symm
        · simp at hparse
    · simp at h
  · rintro ⟨negative, digits, hne, hdigits, rfl, hz⟩
    have hsplit := takeWhile_isDigit_append digits [] hdigits (by simp)
    rw [List.append_nil] at hsplit
    have hread : int64? (signed negative (readNat digits)) = some z :=
      int64?_eq_some_iff.mpr hz.symm
    simp only [storedInteger, fromCharsI64, signOf_append hne hdigits, hsplit.1, hsplit.2, hne,
      if_false, hread]

/-- The two differences of the overflow test are exact where they are computed. -/
theorem toInt_limit_sub (delta : Int64) :
    (0 < delta → (Int64.maxValue - delta).toInt = 2 ^ 63 - 1 - delta.toInt) ∧
      (delta < 0 → (Int64.minValue - delta).toInt = -2 ^ 63 - delta.toInt) := by
  have hlo := delta.le_toInt
  have hhi := delta.toInt_lt
  have hmax : Int64.maxValue.toInt = 2 ^ 63 - 1 := by decide
  have hmin : Int64.minValue.toInt = -2 ^ 63 := by decide
  have hzero : (0 : Int64).toInt = 0 := by decide
  rw [Int64.lt_iff_toInt_lt, Int64.lt_iff_toInt_lt, Int64.toInt_sub, Int64.toInt_sub, hmax, hmin,
    hzero]
  constructor <;> intro hsign <;> apply Int.bmod_eq_of_le <;> omega

theorem checkedAdd_eq_ok_iff {current delta next : Int64} :
    checkedAdd current delta = .ok next ↔ next.toInt = current.toInt + delta.toInt := by
  have hlo := next.le_toInt
  have hhi := next.toInt_lt
  constructor
  · intro h
    unfold checkedAdd at h
    split at h
    · simp at h
    · rename_i hguard
      obtain ⟨hmax, hmin⟩ := toInt_limit_sub delta
      have hcurrent := isInt64_toInt current
      rw [← Except.ok.inj h, Int64.toInt_add]
      simp only [Int64.lt_iff_toInt_lt, not_or, not_and, Int64.toInt_zero, IsInt64]
        at hguard hmax hmin hcurrent
      apply Int.bmod_eq_of_le <;> omega
  · intro h
    obtain ⟨hadd, hexact⟩ := checkedAdd_of_fits current delta (by omega) (by omega)
    rw [hadd, Int64.toInt_inj.mp (h.trans hexact.symm)]

/-! ## One increment -/

/-- The number in a visible cell; without an entry it is zero. -/
def Cell.Holds (z : ℤ) : Cell → Prop
  | none => z = 0
  | some (value, _) => Denotes value z

/-- An increment succeeds if and only if the exact sum exists, and gives it. -/
theorem nextInteger_eq_ok_iff {c : Cell} {now : TimePoint} {delta next : Int64} :
    c.nextInteger now delta = .ok next ↔
      ∃ current, (c.live now).Holds current ∧ IsInt64 current ∧
        next.toInt = current + delta.toInt := by
  unfold Cell.nextInteger
  rcases c.live now with _ | ⟨value, deadline⟩
  · rw [checkedAdd_eq_ok_iff]
    simp [Cell.Holds, IsInt64]
  · dsimp only
    constructor
    · intro h
      cases hread : storedInteger value with
      | error e => simp [hread, bind, Except.bind] at h
      | ok current =>
          rw [hread] at h
          exact ⟨current.toInt, storedInteger_eq_ok_iff.mp hread, isInt64_toInt current,
            checkedAdd_eq_ok_iff.mp h⟩
    · rintro ⟨current, hholds, hfits, hsum⟩
      rw [← toInt_ofInt_of_isInt64 hfits] at hholds hsum
      have hread : storedInteger value = .ok (Int64.ofInt current) :=
        storedInteger_eq_ok_iff.mpr hholds
      rw [hread]
      exact checkedAdd_eq_ok_iff.mpr hsum

theorem Cell.Holds.unique {c : Cell} {y z : ℤ} (hy : c.Holds y) (hz : c.Holds z) : y = z := by
  match c with
  | none => exact hy.trans hz.symm
  | some (value, deadline) =>
      obtain ⟨negative, digits, hne, hdigits, hvalue, rfl⟩ := hy
      obtain ⟨negative', digits', hne', hdigits', hvalue', rfl⟩ := hz
      have hsign := @signOf_append negative _ hne hdigits
      rw [← hvalue, hvalue', signOf_append hne' hdigits'] at hsign
      obtain ⟨rfl, rfl⟩ := Prod.mk.inj hsign
      rfl

/-- What the property of an increment of a key at a time is. -/
structure IncrementExact {S : Sharding} (s : StorageEngine S) (now : TimePoint) (key : Bytes)
    (delta : Int64) : Prop where
  limits : (0 < delta → (Int64.maxValue - delta).toInt = 2 ^ 63 - 1 - delta.toInt) ∧
    (delta < 0 → (Int64.minValue - delta).toInt = -2 ^ 63 - delta.toInt)
  succeeds : (∃ next, (s.increment now key delta).1 = .ok next) ↔
    (s.cells key).live now = none ∨
      ∃ value deadline current, (s.cells key).live now = some (value, deadline) ∧
        Denotes value current ∧ IsInt64 current ∧ IsInt64 (current + delta.toInt)
  stores : ∀ next, (s.increment now key delta).1 = .ok next →
    (∃ current, ((s.cells key).live now).Holds current ∧ next.toInt = current + delta.toInt) ∧
      (s.increment now key delta).2.cells = Function.update s.cells key
        (some (toStringI64 next, ((s.cells key).live now).bind Prod.snd))
  refuses : ∀ e, (s.increment now key delta).1 = .error e → (s.increment now key delta).2 = s

section
variable {S : Sharding} {s : StorageEngine S} {now : TimePoint} {key : Bytes}

theorem dropExpired_of_live (h : (s.cells key).live now ≠ none) : s.dropExpired now key = s := by
  unfold dropExpired
  cases hfind : s.shards.find? key with
  | none => rfl
  | some entry =>
      have hexp : isExpired entry now = false := by
        by_contra hexp
        rw [live_cells_of_isExpired hfind] at h
        simp_all
      simp [hexp]

/-- An expired entry is dropped before the sum is made, but then there is no failure. -/
theorem increment_refused {delta : Int64} {e : Bytes}
    (h : (s.increment now key delta).1 = .error e) : (s.increment now key delta).2 = s := by
  rw [fst_increment] at h
  rw [TtlMap.increment_eq_error h]
  apply dropExpired_of_live
  intro hnone
  rw [Cell.nextInteger, hnone, checkedAdd_zero] at h
  simp at h

theorem incrementExact (hmax : s.maxKeys = 0) (delta : Int64) : IncrementExact s now key delta := by
  refine ⟨toInt_limit_sub delta, ?_, fun next hnext ↦ ?_, fun e he ↦ increment_refused he⟩
  · simp only [fst_increment, nextInteger_eq_ok_iff]
    constructor
    · rintro ⟨next, current, hholds, hfits, hsum⟩
      rcases hlive : (s.cells key).live now with _ | ⟨value, deadline⟩
      · exact Or.inl rfl
      · rw [hlive] at hholds
        exact Or.inr ⟨value, deadline, current, rfl, hholds, hfits, hsum ▸ isInt64_toInt next⟩
    · rintro (hnone | ⟨value, deadline, current, hlive, hdenotes, hfits, hsum⟩)
      · exact ⟨delta, 0, by rw [hnone]; rfl, by decide, by simp⟩
      · refine ⟨Int64.ofInt (current + delta.toInt), current, ?_, hfits,
          toInt_ofInt_of_isInt64 hsum⟩
        rw [hlive]
        exact hdenotes
  · rw [fst_increment] at hnext
    obtain ⟨current, hholds, -, hsum⟩ := nextInteger_eq_ok_iff.mp hnext
    exact ⟨⟨current, hholds, hsum⟩, (TtlMap.increment_eq_ok hmax hnext).2⟩

end

/-! ## Runs of increments -/

/-- A call that does not write the key. -/
def Spares (key : Bytes) : EngineCall → Prop
  | .set k _ | .del k | .expireAt k _ | .persist k | .increment k _ | .append k _ => k ≠ key
  | .mset args => ∀ p ∈ argPairs args, p.1 ≠ key
  | .flush | .setMaxKeys _ => False
  | .get _ | .mget _ | .exists _ | .ttl _ | .strlen _ | .keys | .cleanupExpired | .size
  | .snapshotEntries | .evictedKeys | .expiredKeysRemoved | .takeEvictedKeys
  | .setEvictionEnabled _ => True

/-- At all times of `T`, the cell looks like `c`. -/
def Steady (T : Set TimePoint) (c cell : Cell) : Prop := ∀ t ∈ T, cell.live t = c

section
variable {S : Sharding} {s s' : StorageEngine S} {T : Set TimePoint} {c cell : Cell}

theorem Steady.live (h : Steady T c cell) {now : TimePoint} (hnow : now ∈ T) :
    Steady T c (cell.live now) := by
  intro t ht
  rw [h now hnow, ← h t ht, Cell.live_live]

/-- A new value with the old deadline is as steady as the old one. -/
theorem Steady.keepsDeadline (h : Steady T c cell) (value : Bytes) :
    Steady T (some (value, c.bind Prod.snd)) (some (value, c.bind Prod.snd)) := by
  intro t ht
  match c, h t ht with
  | none, _ => rfl
  | some (_, none), _ => rfl
  | some (_, some deadline), hlive => exact Cell.live_of_lt value (Cell.lt_of_live hlive)

/-- A call that writes another cell, or drops this one if it has expired. -/
theorem Steady.update {key : Bytes} (h : Steady T c (s.cells key)) {now : TimePoint}
    (hnow : now ∈ T) {k : Bytes}
    (hcells : s'.cells = Function.update s.cells k ((s.cells k).live now)) :
    Steady T c (s'.cells key) := by
  rw [hcells]
  by_cases hk : key = k
  · subst hk
    rw [Function.update_self]
    exact h.live hnow
  · rw [Function.update_of_ne hk]
    exact h

theorem Steady.other {key k : Bytes} (h : Steady T c (s.cells key)) (hk : k ≠ key) {d : Cell}
    (hcells : s'.cells = Function.update s.cells k d) : Steady T c (s'.cells key) := by
  rw [hcells, Function.update_of_ne hk.symm]
  exact h

theorem Steady.mget {key : Bytes} (pairs : List (Bytes × TimePoint)) (hpairs : ∀ p ∈ pairs, p.2 ∈ T)
    (s : StorageEngine S) (h : Steady T c (s.cells key)) :
    Steady T c ((s.mget pairs).2.cells key) := by
  induction pairs generalizing s with
  | nil => exact h
  | cons p rest ih =>
      refine ih (fun q hq ↦ hpairs q (by simp [hq])) (s.get p.2 p.1).2 ?_
      exact h.update (hpairs p (by simp)) (cells_get s p.2 p.1).1

theorem foldl_update_of_ne {key : Bytes} (pairs : List (Bytes × Bytes))
    (hpairs : ∀ p ∈ pairs, p.1 ≠ key) (m : Store) :
    pairs.foldl (fun (m : Store) p ↦ Function.update m p.1 (some (p.2, none))) m key = m key := by
  induction pairs generalizing m with
  | nil => rfl
  | cons p rest ih =>
      rw [List.foldl_cons, ih fun q hq ↦ hpairs q (by simp [hq]),
        Function.update_of_ne (hpairs p (by simp)).symm]

theorem Steady.call {key : Bytes} (hmax : s.maxKeys = 0) (h : Steady T c (s.cells key))
    {e : EngineEvent} (hclock : ∀ i, e.clock i ∈ T) (hspares : Spares key e.call) :
    Steady T c ((s.call e).2.cells key) := by
  obtain ⟨call, clock⟩ := e
  cases call with
  | set k value => exact h.other hspares (TtlMap.cells_set hmax k value)
  | mset args =>
      rw [show (s.call ⟨.mset args, clock⟩).2.cells = _ from TtlMap.cells_mset hmax args,
        foldl_update_of_ne _ hspares]
      exact h
  | get k | «exists» k | strlen k => exact h.update (hclock 0) (cells_get s _ k).1
  | mget keys =>
      refine Steady.mget _ (fun p hp ↦ ?_) s h
      obtain ⟨i, hi, rfl⟩ := List.mem_mapIdx.mp hp
      exact hclock i
  | del k => exact h.other hspares (cells_del s k)
  | expireAt k deadline => exact h.other hspares (cells_expireAt s _ k deadline)
  | ttl k => exact h.update (hclock 0) (cells_ttl s _ k)
  | persist k => exact h.other hspares (cells_persist s _ k)
  | flush | setMaxKeys => exact hspares.elim
  | increment k delta =>
      cases hnext : (s.cells k).nextInteger (clock 0) delta with
      | error e =>
          have hsame := increment_refused ((fst_increment s (clock 0) k delta).trans hnext)
          exact hsame.symm ▸ h
      | ok n => exact h.other hspares (TtlMap.increment_eq_ok hmax hnext).2
  | append k suffix => exact h.other hspares (TtlMap.cells_append hmax k suffix)
  | cleanupExpired | size =>
      intro t ht
      have hcell := congrArg (Cell.live t) (cells_cleanupExpired s (clock 0) key)
      exact hcell.trans (h.live (hclock 0) t ht)
  | keys | snapshotEntries | evictedKeys | expiredKeysRemoved | takeEvictedKeys => exact h
  | setEvictionEnabled enabled =>
      exact (TtlMap.cells_setEvictionEnabled hmax enabled).symm ▸ h

theorem maxKeys_of_spares {key : Bytes} (hmax : s.maxKeys = 0) {e : EngineEvent}
    (h : Spares key e.call ∨ ∃ delta, e.call = .increment key delta) :
    (s.call e).2.maxKeys = 0 := by
  refine maxKeys_call hmax fun n hn ↦ ?_
  rcases h with hspares | ⟨delta, hdelta⟩
  · rw [hn] at hspares
    exact hspares.elim
  · simp [hn] at hdelta

end

/-- What a call adds to the number of a key. -/
def StorageEngine.addedBy {S : Sharding} (s : StorageEngine S) (key : Bytes)
    (e : EngineEvent) : ℤ :=
  match e.call, (s.call e).1 with
  | .increment k delta, .integer (.ok _) => if k = key then delta.toInt else 0
  | _, _ => 0

/-- The sum of the deltas of the successful increments of a key. -/
def StorageEngine.added {S : Sharding} (key : Bytes) : StorageEngine S → List EngineEvent → ℤ
  | _, [] => 0
  | s, e :: es => s.addedBy key e + added key (s.call e).2 es

section
variable {S : Sharding} {s : StorageEngine S} {T : Set TimePoint} {c : Cell} {key : Bytes} {z : ℤ}

theorem addedBy_of_spares {e : EngineEvent} (h : Spares key e.call) : s.addedBy key e = 0 := by
  unfold addedBy
  split
  · rename_i k delta _ hcall _
    rw [hcall] at h
    exact if_neg h
  · rfl

/-- One call, seen from the number of the key. -/
theorem holds_call (hmax : s.maxKeys = 0) (hsteady : Steady T c (s.cells key)) (hz : c.Holds z)
    {e : EngineEvent} (hclock : ∀ i, e.clock i ∈ T)
    (hcall : Spares key e.call ∨ ∃ delta, e.call = .increment key delta) :
    ∃ c', Steady T c' ((s.call e).2.cells key) ∧ c'.Holds (z + s.addedBy key e) := by
  rcases hcall with hspares | ⟨delta, hdelta⟩
  · refine ⟨c, hsteady.call hmax hclock hspares, ?_⟩
    rwa [addedBy_of_spares hspares, add_zero]
  · obtain ⟨call, clock⟩ := e
    obtain rfl : call = .increment key delta := hdelta
    cases hnext : (s.cells key).nextInteger (clock 0) delta with
    | error e =>
        have hfst := (fst_increment s (clock 0) key delta).trans hnext
        refine ⟨c, (increment_refused hfst).symm ▸ hsteady, ?_⟩
        have hzero : s.addedBy key ⟨.increment key delta, clock⟩ = 0 := by
          simp [addedBy, StorageEngine.call, hfst]
        rwa [hzero, add_zero]
    | ok next =>
        obtain ⟨hfst, hcells⟩ := TtlMap.increment_eq_ok hmax hnext
        obtain ⟨current, hcurrent, -, hsum⟩ := nextInteger_eq_ok_iff.mp hnext
        have hlive : (s.cells key).live (clock 0) = c := hsteady _ (hclock 0)
        have hadded : s.addedBy key ⟨.increment key delta, clock⟩ = delta.toInt := by
          simp [addedBy, StorageEngine.call, hfst]
        rw [hlive] at hcurrent
        refine ⟨some (toStringI64 next, c.bind Prod.snd), ?_, ?_⟩
        · rw [show (s.call ⟨.increment key delta, clock⟩).2.cells = _ from hcells,
            Function.update_self, Cell.writeInteger, hlive]
          exact hsteady.keepsDeadline _
        · rw [hadded, hz.unique hcurrent, ← hsum]
          exact storedInteger_eq_ok_iff.mp (storedInteger_toStringI64 next)

theorem holds_calls (hmax : s.maxKeys = 0) (hsteady : Steady T c (s.cells key)) (hz : c.Holds z)
    (events : List EngineEvent)
    (hevents : ∀ e ∈ events, (∀ i, e.clock i ∈ T) ∧
      (Spares key e.call ∨ ∃ delta, e.call = .increment key delta)) :
    ∃ c', Steady T c' ((s.calls events).cells key) ∧ c'.Holds (z + s.added key events) := by
  induction events generalizing s c z with
  | nil => exact ⟨c, hsteady, by simpa [added] using hz⟩
  | cons e es ih =>
      obtain ⟨hclock, hcall⟩ := hevents e (by simp)
      obtain ⟨c', hsteady', hz'⟩ := holds_call hmax hsteady hz hclock hcall
      rw [added, ← add_assoc]
      exact ih (maxKeys_of_spares hmax hcall) hsteady' hz' fun x hx ↦ hevents x (by simp [hx])

end

/-- Increments of a key are exact and fail cleanly; and over any calls that do not write
the key otherwise, and whose clock readings do not step over its deadline, the number of
the key grows by what the successful increments add. -/
theorem increments_exact {S : Sharding} (s : StorageEngine S) (hmax : s.maxKeys = 0) (key : Bytes) :
    (∀ now delta, IncrementExact s now key delta) ∧
      ∀ (T : Set TimePoint) (c : Cell) (z : ℤ), (∀ t ∈ T, (s.cells key).live t = c) → c.Holds z →
        ∀ events : List EngineEvent,
          (∀ e ∈ events, (∀ i, e.clock i ∈ T) ∧
            (Spares key e.call ∨ ∃ delta, e.call = .increment key delta)) →
          ∀ t ∈ T, (((s.calls events).cells key).live t).Holds (z + s.added key events) := by
  refine ⟨fun now delta ↦ incrementExact hmax delta, ?_⟩
  intro T c z hsteady hz events hevents t ht
  obtain ⟨c', hsteady', hz'⟩ := holds_calls hmax hsteady hz events hevents
  rw [hsteady' t ht]
  exact hz'

theorem increments_exact_two :
    let s : StorageEngine oneShard := {}
    ((s.calls [⟨.increment (ascii "k") 5, fun _ ↦ 0⟩, ⟨.set (ascii "j") (ascii "v"), fun _ ↦ 3⟩,
      ⟨.increment (ascii "k") (-7), fun _ ↦ 20⟩]).cells (ascii "k")).live 20 |>.Holds (-2) := by
  have hsum := (increments_exact ({} : StorageEngine oneShard) rfl (ascii "k")).2 {0, 3, 20} none 0
    (fun t _ ↦ rfl) rfl
    [⟨.increment (ascii "k") 5, fun _ ↦ 0⟩, ⟨.set (ascii "j") (ascii "v"), fun _ ↦ 3⟩,
      ⟨.increment (ascii "k") (-7), fun _ ↦ 20⟩] (by simp [Spares]; decide) 20 (by simp)
  rw [show StorageEngine.added (ascii "k") _ _ = (-2 : ℤ) by decide +kernel] at hsum
  exact hsum

/-- A deadline between two increments: the second one starts again from zero. -/
theorem increments_restart_after_deadline :
    let s := calls ({} : StorageEngine oneShard)
      [⟨.set (ascii "k") (ascii "5"), fun _ ↦ 0⟩, ⟨.expireAt (ascii "k") 10, fun _ ↦ 0⟩]
    let events : List EngineEvent :=
      [⟨.increment (ascii "k") 1, fun _ ↦ 0⟩, ⟨.increment (ascii "k") 1, fun _ ↦ 20⟩]
    s.cells (ascii "k") = some (ascii "5", some 10) ∧ s.added (ascii "k") events = 2 ∧
      (s.calls events).cells (ascii "k") = some (ascii "1", none) := by
  decide +kernel

end ByteCacheDB
