import ByteCacheDB.Recovery

/-!
# Records cut at any byte

A proper prefix of a serialized command ends inside its name, inside a quoted
argument, or between two arguments.  Only the last kind can be accepted by the
parser, and only where fewer arguments are still a valid number of arguments.
-/

namespace ByteCacheDB

open CommandParser Lines Numerals StorageEngine AppendOnlyFile

namespace Tokenizer

open CommandParser.Tokenizer

theorem escape_cases (c : UInt8) : escape c = [c] ∨ ∃ d, escape c = [backslash, d] := by
  unfold escape
  repeat' split
  all_goals simp

/-- A piece of an escaped value leaves the quotes open. -/
theorem inQuotes_run_escapes {value pre : Bytes} (hpre : pre <+: value.flatMap escape)
    (tokens : List Bytes) (token : Bytes) :
    (Tokenizer.run ⟨tokens, token, true, false, true⟩ pre).inQuotes = true := by
  induction value generalizing pre token with
  | nil =>
      have hnil : pre = [] := by simpa using hpre
      rw [hnil]
      rfl
  | cons c cs ih =>
      have hwhole := run_escape tokens token c
      rw [List.flatMap_cons] at hpre
      rcases prefix_append_cases hpre with hin | ⟨rest, rfl, hrest⟩
      · -- the cut falls inside the escape of `c` or right behind it
        rcases escape_cases c with hc | ⟨d, hc⟩
        · rw [hc] at hin hwhole
          rcases List.prefix_cons_iff.mp hin with rfl | ⟨t, rfl, ht⟩
          · rfl
          · rw [List.prefix_nil.mp ht, hwhole]
        · rw [hc] at hin hwhole
          rcases List.prefix_cons_iff.mp hin with rfl | ⟨t, rfl, ht⟩
          · rfl
          · rcases List.prefix_cons_iff.mp ht with rfl | ⟨u, rfl, hu⟩
            · rfl
            · rw [List.prefix_nil.mp hu, hwhole]
      · rw [run_append, hwhole]
        exact ih hrest (token ++ [c])

/-- A quoted argument that is cut after its first quote stays open. -/
theorem inQuotes_run_quote {value pre : Bytes} (hpre : pre <+: quote value) (hne : pre ≠ [])
    (hcut : pre ≠ quote value) (tokens : List Bytes) (token : Bytes) (started : Bool) :
    (Tokenizer.run ⟨tokens, token, false, false, started⟩ pre).inQuotes = true := by
  rw [quote, List.cons_append] at hpre hcut
  rcases List.prefix_cons_iff.mp hpre with rfl | ⟨rest, rfl, hrest⟩
  · exact absurd rfl hne
  · rw [run_cons, step_doubleQuote, Bool.not_false]
    rcases List.prefix_concat_iff.mp hrest with hall | hin
    · exact absurd (by rw [hall]) hcut
    · exact inQuotes_run_escapes hin tokens token

end Tokenizer

theorem finish_of_inQuotes {s : CommandParser.Tokenizer} (h : s.inQuotes = true) :
    ∃ e, s.finish = .error e := by
  unfold CommandParser.Tokenizer.finish
  by_cases hesc : s.escaping = true
  · exact ⟨_, by rw [if_pos hesc]⟩
  · exact ⟨_, by rw [if_neg hesc, if_pos h]⟩

/-! ## Cut argument lists -/

def argText (args : List Bytes) : Bytes := args.flatMap fun arg ↦ space :: quote arg

/-- The pieces of the next argument that a cut can leave behind whole ones. -/
inductive ArgPiece (arg : Bytes) : Bytes → Prop where
  | separator : ArgPiece arg [space]
  | opened {pre : Bytes} (hpre : pre <+: quote arg) (hne : pre ≠ []) (hcut : pre ≠ quote arg) :
      ArgPiece arg (space :: pre)

theorem argText_prefix {args : List Bytes} {pre : Bytes} (hpre : pre <+: argText args) :
    ∃ j, (j ≤ args.length ∧ pre = argText (args.take j)) ∨
      ∃ arg piece, args[j]? = some arg ∧ ArgPiece arg piece ∧
        pre = argText (args.take j) ++ piece := by
  induction args generalizing pre with
  | nil =>
      have hnil : pre = [] := by simpa [argText] using hpre
      exact ⟨0, Or.inl ⟨Nat.le_refl _, hnil⟩⟩
  | cons arg args ih =>
      have hcons : argText (arg :: args) = (space :: quote arg) ++ argText args := by
        simp [argText]
      rw [hcons] at hpre
      rcases prefix_append_cases hpre with hin | ⟨rest, rfl, hrest⟩
      · rcases List.prefix_cons_iff.mp hin with rfl | ⟨t, rfl, ht⟩
        · exact ⟨0, Or.inl ⟨Nat.zero_le _, rfl⟩⟩
        · by_cases hnil : t = []
          · exact ⟨0, Or.inr ⟨arg, [space], rfl, .separator, by simp [hnil, argText]⟩⟩
          · by_cases hall : t = quote arg
            · exact ⟨1, Or.inl ⟨by simp, by simp [hall, argText]⟩⟩
            · exact ⟨0, Or.inr ⟨arg, space :: t, rfl, .opened ht hnil hall,
                by simp [argText]⟩⟩
      · obtain ⟨j, ⟨hj, rfl⟩ | ⟨next, piece, hnext, hpiece, rfl⟩⟩ := ih hrest
        · exact ⟨j + 1, Or.inl ⟨by simpa using hj, by simp [argText]⟩⟩
        · exact ⟨j + 1, Or.inr ⟨next, piece, by simpa using hnext, hpiece,
            by simp [argText]⟩⟩

/-- What the tokenizer makes of a cut command: a piece of the name, an error,
or the name with some of the arguments. -/
theorem finish_prefix {command : Command} {pre : Bytes} (hpre : pre <+: serialize command) :
    (pre <+: commandName command.type ∧ pre ≠ commandName command.type) ∨
      (∃ e, (CommandParser.Tokenizer.run {} pre).finish = .error e) ∨
      ∃ j ≤ command.args.length,
        (CommandParser.Tokenizer.run {} pre).finish =
            .ok (commandName command.type :: command.args.take j) ∧
          (pre = serialize ⟨command.type, command.args.take j⟩ ∨
            j < command.args.length ∧
              pre = serialize ⟨command.type, command.args.take j⟩ ++ [space]) := by
  obtain ⟨type, args⟩ := command
  have hser : ∀ l, serialize ⟨type, l⟩ = commandName type ++ argText l := fun l ↦ rfl
  rw [hser] at hpre
  rcases prefix_append_cases hpre with hname | ⟨rest, rfl, hrest⟩
  · by_cases hall : pre = commandName type
    · refine Or.inr (Or.inr ⟨0, Nat.zero_le _, ?_, Or.inl ?_⟩)
      · have hfinish := finish_serialize ⟨type, []⟩
        rw [hser] at hfinish
        simpa [hall, argText] using hfinish
      · simp [hall, hser, argText]
    · exact Or.inl ⟨hname, hall⟩
  · right
    obtain ⟨j, ⟨hj, rfl⟩ | ⟨arg, piece, harg, hpiece, rfl⟩⟩ := argText_prefix hrest
    · exact Or.inr ⟨j, hj, finish_serialize ⟨type, args.take j⟩, Or.inl (hser _).symm⟩
    · have hj : j < args.length := (List.getElem?_eq_some_iff.mp harg).1
      obtain ⟨last, hrun, hlast⟩ := run_serialize ⟨type, args.take j⟩
      rw [hser] at hrun
      rw [← List.append_assoc, Tokenizer.run_append, hrun]
      cases hpiece with
      | separator =>
          refine Or.inr ⟨j, Nat.le_of_lt hj, ?_, Or.inr ⟨hj, by rw [hser]⟩⟩
          rw [Tokenizer.run_cons, Tokenizer.step_space,
            List.dropLast_append_getLast? last hlast]
          rfl
      | opened hin hne hcut =>
          left
          apply finish_of_inQuotes
          rw [Tokenizer.run_cons, Tokenizer.step_space]
          exact Tokenizer.inQuotes_run_quote hin hne hcut _ _ _

/-! ## Cut commands -/

/-- A piece of a command name is not a command that may stand without arguments. -/
theorem parse_name_piece (type : CommandType) :
    (commandName type).inits.all
      (fun pre ↦ pre == commandName type || !(parse pre).toBool) = true := by
  cases type <;> decide

/-- Commands whose arguments may be fewer without becoming invalid. -/
def Shorter (command : Command) (j : ℕ) : Prop :=
  0 < j ∧ j < command.args.length ∧
    (command.type = .mset ∧ j % 2 = 0 ∨ command.type = .mget)

theorem validate_take {type : CommandType} {args : List Bytes} {j : ℕ}
    (hall : validateArgumentCount type args.length = .ok ())
    (hj : validateArgumentCount type j = .ok ()) (hle : j ≤ args.length) :
    j = args.length ∨ Shorter ⟨type, args⟩ j := by
  have hexact : ∀ {n : ℕ}, exact type args.length n = .ok () → exact type j n = .ok () →
      j = args.length := by
    intro n h₁ h₂
    unfold exact at h₁ h₂
    split at h₁
    · split at h₂
      · omega
      · simp at h₂
    · simp at h₁
  cases type with
  | unknown => simp [validateArgumentCount] at hall
  | mget =>
      simp only [validateArgumentCount] at hj
      rcases Nat.lt_or_eq_of_le hle with hlt | heq
      · refine Or.inr ⟨?_, hlt, Or.inr rfl⟩
        by_contra hzero
        simp [Nat.eq_zero_of_not_pos hzero] at hj
      · exact Or.inl heq
  | mset =>
      simp only [validateArgumentCount] at hj
      rcases Nat.lt_or_eq_of_le hle with hlt | heq
      · split at hj
        · simp at hj
        · rename_i hcount
          exact Or.inr ⟨by omega, hlt, Or.inl ⟨rfl, by omega⟩⟩
      · exact Or.inl heq
  | _ => exact Or.inl (hexact hall hj)

/-- The only prefixes of a serialized command that parse are the whole and, for
`MSET` and `MGET`, those that end behind enough whole arguments. -/
theorem parse_prefix {command command' : Command} {pre : Bytes} (hadm : Admissible command)
    (hpre : pre <+: serialize command) (h : parse pre = .ok command') :
    (pre = serialize command ∧ command' = command) ∨
      ∃ j, Shorter command j ∧ command' = ⟨command.type, command.args.take j⟩ ∧
        (pre = serialize command' ∨ pre = serialize command' ++ [space]) := by
  have hcr : carriageReturn ∉ pre := fun hmem ↦
    absurd (lineControl_of_mem_serialize (hpre.subset hmem)) (by decide)
  have htok : tokenize pre = (CommandParser.Tokenizer.run {} pre).finish := by
    rw [tokenize, stripCarriageReturn_of_notMem hcr]
  rcases finish_prefix hpre with ⟨hname, hproper⟩ | ⟨e, herror⟩ | ⟨j, hj, htokens, hshape⟩
  · have hall := List.all_eq_true.mp (parse_name_piece command.type) pre
      (List.mem_inits _ _ |>.mpr hname)
    simp [h, hproper, Except.toBool] at hall
  · rw [herror] at htok
    simp [parse, htok, bind, Except.bind] at h
  · rw [htokens] at htok
    have hknown : typeFromToken (commandName command.type) = command.type :=
      typeFromToken_commandName command.type
    simp only [parse, htok, bind, Except.bind, hknown, hadm.1, if_false] at h
    cases hv : validateArgumentCount command.type (command.args.take j).length with
    | error e =>
        rw [hv] at h
        simp at h
    | ok u =>
        simp only [hv, Except.ok.injEq] at h
        rw [List.length_take, Nat.min_eq_left hj] at hv
        rcases validate_take hadm.2 hv hj with heq | hshort
        · subst heq
          rw [List.take_length] at h hshape
          refine Or.inl ⟨?_, h.symm⟩
          rcases hshape with hwhole | ⟨hlt, -⟩
          · exact hwhole
          · exact absurd hlt (Nat.lt_irrefl _)
        · exact Or.inr ⟨j, hshort, h.symm, by
            rw [← h]
            exact hshape.imp id And.right⟩

/-- A cut behind an even number of arguments of an `MSET` does parse. -/
theorem parse_shorter {command : Command} {j : ℕ} (hj : Shorter command j) {pre : Bytes}
    (hpre : pre = serialize ⟨command.type, command.args.take j⟩ ∨
      pre = serialize ⟨command.type, command.args.take j⟩ ++ [space]) :
    parse pre = .ok ⟨command.type, command.args.take j⟩ := by
  obtain ⟨hpos, hlt, htype⟩ := hj
  have hlen : (command.args.take j).length = j := by
    rw [List.length_take, Nat.min_eq_left (Nat.le_of_lt hlt)]
  have hadm : Admissible ⟨command.type, command.args.take j⟩ := by
    rcases htype with ⟨hmset, heven⟩ | hmget
    · refine ⟨by simp [hmset], ?_⟩
      simp only [hmset, hlen, validateArgumentCount]
      rw [if_neg (by omega)]
    · refine ⟨by simp [hmget], ?_⟩
      simp only [hmget, hlen, validateArgumentCount]
      rw [if_neg (by omega)]
  rcases hpre with rfl | rfl
  · exact parse_serialize hadm
  · apply parse_of_tokenize hadm
    have hcr : carriageReturn ∉ serialize ⟨command.type, command.args.take j⟩ ++ [space] := by
      intro hmem
      rcases List.mem_append.mp hmem with hmem | hmem
      · exact absurd (lineControl_of_mem_serialize hmem) (by decide)
      · exact absurd hmem (by decide)
    obtain ⟨last, hrun, hlast⟩ := run_serialize ⟨command.type, command.args.take j⟩
    rw [tokenize, stripCarriageReturn_of_notMem hcr, Tokenizer.run_append, hrun,
      Tokenizer.run_cons, Tokenizer.step_space, List.dropLast_append_getLast? last hlast]
    rfl

/-! ## Cut records -/

/-- A piece of a sequence number is not a command. -/
theorem parse_digits {digits : Bytes} (hne : digits ≠ [])
    (hdigits : ∀ b ∈ digits, isDigit b = true) : ∃ e, parse digits = .error e := by
  have hplain : digits.all Tokenizer.plain = true := by
    rw [List.all_eq_true]
    intro b hb
    have hspace := isspace_of_isDigit (hdigits b hb)
    have hquote : b ≠ doubleQuote := by
      rintro rfl
      exact absurd (hdigits _ hb) (by decide)
    simp [Tokenizer.plain, hspace, hquote]
  have hcr : carriageReturn ∉ digits := fun hmem ↦ absurd (hdigits _ hmem) (by decide)
  have htok : tokenize digits = .ok [digits] := by
    rw [tokenize, stripCarriageReturn_of_notMem hcr]
    have hrun := Tokenizer.run_plain [] [] digits hplain hne false
    change (CommandParser.Tokenizer.run ⟨[], [], false, false, false⟩ digits).finish = _
    rw [hrun]
    rfl
  have hunknown : typeFromToken digits = .unknown := by
    have hletters : kTypes.all (fun p ↦ p.1.all fun c ↦ !isDigit c) = true := by decide
    obtain ⟨b, bs, rfl⟩ := List.exists_cons_of_ne_nil hne
    have hb := hdigits b (by simp)
    have hupper : toupper b = b := by
      simp only [isDigit, decide_eq_true_eq] at hb
      rw [toupper, if_neg (by omega)]
    have hnone : kTypes.lookup (uppercase (b :: bs)) = none := by
      rw [List.lookup_eq_none_iff]
      intro p hp
      rw [bne_iff_ne]
      intro hname
      have hp1 := List.all_eq_true.mp (List.all_eq_true.mp hletters p hp) b
        (by rw [← hname, uppercase, List.map_cons, hupper]; simp)
      simp [hb] at hp1
    rw [typeFromToken, hnone, Option.getD_none]
  exact ⟨ascii "unknown command", by simp [parse, htok, hunknown, bind, Except.bind]⟩

/-- How a cut record is read: as an error, or as its own number with a command
that some prefix of its text spells. -/
theorem decodeLine_prefix {sequence : UInt64} {command : Command} {pre : Bytes} (n : ℕ)
    (hpre : pre <+: recordLine sequence command) (hne : pre ≠ []) :
    ((∃ e, parse pre = .error e) ∧ decodeLine n pre = (UInt64.ofNat n, parse pre)) ∨
      ∃ text, text <+: serialize command ∧ pre = toStringU64 sequence ++ tab :: text ∧
        decodeLine n pre = (sequence, parse text) := by
  have hdigit : ∀ {t : Bytes}, t <+: toStringU64 sequence → ∀ b ∈ t, isDigit b = true :=
    fun ht b hb ↦ isDigit_of_mem_printNat (ht.subset hb)
  have hnumber : pre <+: toStringU64 sequence →
      (∃ e, parse pre = .error e) ∧ decodeLine n pre = (UInt64.ofNat n, parse pre) := by
    intro hin
    refine ⟨parse_digits hne (hdigit hin), ?_⟩
    have htake : pre.takeWhile (fun c ↦ c != tab) = pre := by
      rw [List.takeWhile_eq_self_iff]
      intro b hb
      simpa using (ne_of_isDigit (hdigit hin b hb)).1
    simp [decodeLine, parseSequencePrefix, htake]
  rcases prefix_append_cases hpre with hin | ⟨rest, rfl, hrest⟩
  · exact Or.inl (hnumber hin)
  · rcases List.prefix_cons_iff.mp hrest with rfl | ⟨text, rfl, htext⟩
    · rw [List.append_nil] at hnumber ⊢
      exact Or.inl (hnumber (List.prefix_refl _))
    · refine Or.inr ⟨text, htext, rfl, ?_⟩
      rw [decodeLine, parseSequencePrefix_print]

end ByteCacheDB
