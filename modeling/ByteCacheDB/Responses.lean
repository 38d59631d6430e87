import ByteCacheDB.Execution
import ByteCacheDB.Lib.PrefixCode

/-!
# Streams of responses

The responses to pipelined commands are sent one behind the other with nothing in
between.  The first byte of a response tells its kind.  Texts and numbers end at
the first carriage return, and a bulk string says how long it is before its bytes
come, so these may look like anything.  Hence no response is the beginning of
another one, and a stream of responses can be read in one way only.
-/

namespace ByteCacheDB

open Numerals PrefixCode

namespace Response

/-- A text that does not reach into the next line. -/
def SingleLine (text : Bytes) : Prop := carriageReturn ∉ text ∧ newline ∉ text

instance (text : Bytes) : Decidable (SingleLine text) := inferInstanceAs (Decidable (_ ∧ _))

/-- The texts of a response, other than bulk strings, are single lines. -/
def Plain : Response → Prop
  | simpleString value => SingleLine value
  | error message => SingleLine message
  | integer _ | bulkString _ | nullBulkString | array _ => True

/-! ## Headers -/

/-- Two texts that end at their first carriage return. -/
theorem line_unique {text text' rest rest' : Bytes} (htext : carriageReturn ∉ text)
    (htext' : carriageReturn ∉ text') (heq : text ++ crlf ++ rest = text' ++ crlf ++ rest') :
    text = text' ∧ rest = rest' := by
  rw [List.append_assoc, List.append_assoc] at heq
  obtain ⟨rfl, htail⟩ := delimited_unique htext htext' heq
  exact ⟨rfl, List.cons_injective htail⟩

theorem carriageReturn_notMem_printNat (n : ℕ) : carriageReturn ∉ printNat n := by
  intro h
  have hdigit := isDigit_of_mem_printNat h
  exact absurd hdigit (by decide)

theorem printNat_injective : Function.Injective printNat :=
  Function.LeftInverse.injective readNat_printNat

theorem carriageReturn_notMem_toStringI64 (z : Int64) : carriageReturn ∉ toStringI64 z := by
  unfold toStringI64 printInt
  split
  · rw [List.mem_cons, not_or]
    exact ⟨by decide, carriageReturn_notMem_printNat _⟩
  · exact carriageReturn_notMem_printNat _

theorem toStringI64_injective : Function.Injective toStringI64 := by
  intro y z h
  have hread := congrArg fromCharsI64 h
  rw [fromCharsI64_toStringI64, fromCharsI64_toStringI64] at hread
  exact (Prod.mk.inj (Except.ok.inj hread)).1

/-! ## Bulk strings -/

/-- The length of a bulk string is a numeral, which does not begin with a minus sign. -/
theorem bulk_ne_null {value rest rest' : Bytes} :
    encodeBulk (some value) ++ rest ≠ encodeBulk none ++ rest' := by
  obtain ⟨b, bs, hprint, hdigit⟩ := exists_cons_printNat value.length
  intro heq
  have hsecond := congrArg (fun text : Bytes ↦ text[1]?) heq
  simp [encodeBulk, hprint, ascii] at hsecond
  rw [hsecond] at hdigit
  exact absurd hdigit (by decide)

theorem prefixFree_encodeBulk : PrefixFree encodeBulk := by
  intro b b' xs ys heq
  match b, b' with
  | none, none => rfl
  | some value, none => exact absurd heq bulk_ne_null
  | none, some value => exact absurd heq.symm bulk_ne_null
  | some value, some value' =>
      simp only [encodeBulk, List.append_assoc] at heq
      have hheader := List.append_cancel_left heq
      rw [← List.append_assoc, ← List.append_assoc (printNat value'.length)] at hheader
      obtain ⟨hlength, htail⟩ := line_unique (carriageReturn_notMem_printNat _)
        (carriageReturn_notMem_printNat _) hheader
      exact congrArg some (List.append_inj_left htail (printNat_injective hlength))

/-- As many bulk strings as the header of an array says. -/
theorem bulks_unique {bs bs' : List (Option Bytes)} (hlength : bs.length = bs'.length)
    {xs ys : Bytes} (heq : bs.flatMap encodeBulk ++ xs = bs'.flatMap encodeBulk ++ ys) :
    bs = bs' := by
  induction bs generalizing bs' with
  | nil => exact (List.length_eq_zero_iff.mp hlength.symm).symm
  | cons b bs ih =>
      cases bs' with
      | nil => simp at hlength
      | cons b' bs' =>
          rw [List.flatMap_cons, List.flatMap_cons, List.append_assoc, List.append_assoc] at heq
          obtain ⟨rfl, hrest⟩ := prefixFree_encodeBulk.rest heq
          rw [ih (Nat.succ.inj hlength) hrest]

/-! ## Responses -/

/-- The byte that tells the kind of a response. -/
def marker : Response → UInt8
  | simpleString _ => 43
  | error _ => 45
  | integer _ => 58
  | bulkString _ | nullBulkString => 36
  | array _ => 42

theorem head?_encode (r : Response) (rest : Bytes) : (r.encode ++ rest).head? = some r.marker := by
  cases r <;> rfl

/-- No plain response is the beginning of another one. -/
theorem prefixFree_encode : PrefixFree fun r : {r : Response // r.Plain} ↦ r.1.encode := by
  rintro ⟨r, hr⟩ ⟨r', hr'⟩ xs ys heq
  dsimp only at heq
  have hmarker : r.marker = r'.marker := by
    have hhead := congrArg List.head? heq
    rw [head?_encode, head?_encode] at hhead
    exact Option.some.inj hhead
  apply Subtype.ext
  cases r with
  | simpleString value =>
      cases r' with
      | simpleString value' =>
          simp only [encode, List.append_assoc] at heq
          have htext := List.append_cancel_left heq
          rw [← List.append_assoc, ← List.append_assoc value'] at htext
          obtain ⟨rfl, -⟩ := line_unique hr.1 hr'.1 htext
          rfl
      | _ => simp [marker] at hmarker
  | error message =>
      cases r' with
      | error message' =>
          simp only [encode, List.append_assoc] at heq
          have htext := List.append_cancel_left heq
          rw [← List.append_assoc, ← List.append_assoc message'] at htext
          obtain ⟨rfl, -⟩ := line_unique hr.1 hr'.1 htext
          rfl
      | _ => simp [marker] at hmarker
  | integer value =>
      cases r' with
      | integer value' =>
          simp only [encode, List.append_assoc] at heq
          have htext := List.append_cancel_left heq
          rw [← List.append_assoc, ← List.append_assoc (toStringI64 value')] at htext
          obtain ⟨hvalue, -⟩ := line_unique (carriageReturn_notMem_toStringI64 value)
            (carriageReturn_notMem_toStringI64 value') htext
          exact congrArg integer (toStringI64_injective hvalue)
      | _ => simp [marker] at hmarker
  | bulkString value =>
      cases r' with
      | bulkString value' => exact congrArg bulkString (Option.some.inj (prefixFree_encodeBulk heq))
      | nullBulkString => exact absurd heq bulk_ne_null
      | _ => simp [marker] at hmarker
  | nullBulkString =>
      cases r' with
      | bulkString value' => exact absurd heq.symm bulk_ne_null
      | nullBulkString => rfl
      | _ => simp [marker] at hmarker
  | array values =>
      cases r' with
      | array values' =>
          simp only [encode, List.append_assoc] at heq
          have hheader := List.append_cancel_left heq
          rw [← List.append_assoc, ← List.append_assoc (printNat values'.length)] at hheader
          obtain ⟨hlength, hbulks⟩ := line_unique (carriageReturn_notMem_printNat _)
            (carriageReturn_notMem_printNat _) hheader
          exact congrArg array (bulks_unique (printNat_injective hlength) hbulks)
      | _ => simp [marker] at hmarker

/-- A stream determines the plain responses it consists of. -/
theorem stream_unique (rs rs' : List Response) (hrs : ∀ r ∈ rs, r.Plain)
    (hrs' : ∀ r ∈ rs', r.Plain) (heq : rs.flatMap encode = rs'.flatMap encode) : rs = rs' := by
  have hstop : ∀ (r : {r : Response // r.Plain}) (xs : Bytes), ¬(r.1.encode ++ xs = []) := by
    intro r xs hempty
    have hhead := head?_encode r.1 xs
    simp [hempty] at hhead
  have hstream : (rs.attachWith Plain hrs).flatMap (fun r ↦ r.1.encode) ++ [] =
      (rs'.attachWith Plain hrs').flatMap (fun r ↦ r.1.encode) ++ [] := by
    simpa [List.flatMap_def, List.attachWith_map_val] using heq
  obtain ⟨hsame, -⟩ :=
    @PrefixFree.decode _ _ _ prefixFree_encode (fun xs ↦ xs = []) hstop _ _ _ _ rfl rfl hstream
  simpa using congrArg (List.map Subtype.val) hsame

/-- A value that ends a line and goes on like another response. -/
theorem stream_unique_lookalike :
    [bulkString (crlf ++ encode (integer 1)), nullBulkString] =
      [bulkString (ascii "\r\n:1\r\n"), nullBulkString] :=
  stream_unique _ _ (by simp [Plain]) (by simp [Plain]) (by decide +kernel)

end Response

/-! ## What the handler sends -/

open Response

theorem singleLine_of_checkedAdd {current delta : Int64} {e : Bytes}
    (h : StorageEngine.checkedAdd current delta = .error e) : SingleLine e := by
  unfold StorageEngine.checkedAdd at h
  split at h
  · obtain rfl := Except.error.inj h
    decide
  · simp at h

/-- Both messages of `increment`. -/
theorem singleLine_of_nextInteger {c : Cell} {now : TimePoint} {delta : Int64} {e : Bytes}
    (h : c.nextInteger now delta = .error e) : SingleLine e := by
  unfold Cell.nextInteger at h
  split at h
  · rename_i value _ _
    cases hstored : StorageEngine.storedInteger value with
    | error e' =>
        rw [hstored] at h
        obtain rfl := Except.error.inj h
        unfold StorageEngine.storedInteger at hstored
        split at hstored
        · simp at hstored
        · obtain rfl := Except.error.inj hstored
          decide
    | ok n =>
        rw [hstored] at h
        exact singleLine_of_checkedAdd h
  · exact singleLine_of_checkedAdd h

theorem plain_executeIncrement {S : Sharding} (v : Server S) (now : TimePoint) (command : Command)
    (delta : Int64) : (v.executeIncrement now command delta).1.response.Plain := by
  have hresult := StorageEngine.fst_increment v.storage now (command.arg 0) delta
  unfold Server.executeIncrement
  split
  · rename_i e storage hincrement
    rw [hincrement] at hresult
    exact singleLine_of_nextInteger hresult.symm
  · trivial

/-- The handler sends plain responses, as long as the text of a failed `SAVE` is a
single line. -/
theorem plain_execute {S : Sharding} (v : Server S) (env : Environment) (command : Command)
    (hsave : ∀ e, (v.persistence.saveSnapshot v.disk v.storage (env.clock 0).1 env.save).1 =
      .error e → SingleLine e) : (v.execute env command).1.response.Plain := by
  have htext : ∀ text, SingleLine text → (simpleString text).Plain ∧ (error text).Plain :=
    fun _ h ↦ ⟨h, h⟩
  obtain ⟨type, args⟩ := command
  cases type with
  | ping | set | flush | mset => exact (htext _ (by decide)).1
  | unknown => exact (htext _ (by decide)).2
  | get =>
      simp only [Server.execute]
      split <;> trivial
  | expire =>
      simp only [Server.execute]
      split
      · exact (htext _ (by decide)).2
      · split
        · exact (htext _ (by decide)).2
        · trivial
  | expireat =>
      simp only [Server.execute]
      split
      · exact (htext _ (by decide)).2
      · trivial
  | incr | decr => exact plain_executeIncrement v _ _ _
  | save =>
      simp only [Server.execute]
      split
      · rename_i e disk hfailed
        obtain ⟨hreturn, hline⟩ := hsave e (by rw [hfailed])
        refine ⟨?_, ?_⟩ <;> rw [List.mem_append, not_or]
        · exact ⟨by decide, hreturn⟩
        · exact ⟨by decide, hline⟩
      · exact (htext _ (by decide)).1
  | _ => trivial

end ByteCacheDB
