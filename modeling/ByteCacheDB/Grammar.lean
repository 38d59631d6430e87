import ByteCacheDB.Codec
import ByteCacheDB.Lib.PrefixCode

/-!
# The grammar of command lines

A line is read as a sequence of whitespace bytes and of tokens that each end at
a whitespace byte, with at most one more token at the end of the line.  The
reading says which bytes belong to which piece of a token; it has a spelling and
a denotation.  The tokenizer accepts the spellings and returns the denotations.
-/

namespace ByteCacheDB

open CommandParser PrefixCode

namespace Grammar

/-- What stands inside double quotes. -/
inductive QuotedByte where
  | literal (c : UInt8) (h : c ≠ doubleQuote ∧ c ≠ backslash)
  | escaped (c : UInt8)

inductive Piece where
  | bare (c : UInt8) (h : isspace c = false ∧ c ≠ doubleQuote)
  | quoted (segment : List QuotedByte)

abbrev Token := {pieces : List Piece // pieces ≠ []}

abbrev SpaceByte := {c : UInt8 // isspace c = true}

inductive Lexeme where
  | blank (c : SpaceByte)
  | word (token : Token) (c : SpaceByte)

structure Reading where
  lexemes : List Lexeme
  last : Option Token

def QuotedByte.spell : QuotedByte → Bytes
  | .literal c _ => [c]
  | .escaped c => [backslash, c]

def QuotedByte.denote : QuotedByte → UInt8
  | .literal c _ => c
  | .escaped c => unescape c

def Piece.spell : Piece → Bytes
  | .bare c _ => [c]
  | .quoted segment => doubleQuote :: (segment.flatMap QuotedByte.spell ++ [doubleQuote])

def Piece.denote : Piece → Bytes
  | .bare c _ => [c]
  | .quoted segment => segment.map QuotedByte.denote

def Token.spell (token : Token) : Bytes := token.1.flatMap Piece.spell

def Token.denote (token : Token) : Bytes := token.1.flatMap Piece.denote

def Lexeme.spell : Lexeme → Bytes
  | .blank c => [c.1]
  | .word token c => token.spell ++ [c.1]

def Lexeme.denote : Lexeme → List Bytes
  | .blank _ => []
  | .word token _ => [token.denote]

def Reading.spell (r : Reading) : Bytes :=
  r.lexemes.flatMap Lexeme.spell ++ (r.last.map Token.spell).getD []

def Reading.denote (r : Reading) : List Bytes :=
  r.lexemes.flatMap Lexeme.denote ++ (r.last.map Token.denote).toList

/-! ## Every spelling is read back -/

section
variable (tokens : List Bytes) (token : Bytes)

theorem run_segment (segment : List QuotedByte) :
    Tokenizer.run ⟨tokens, token, true, false, true⟩ (segment.flatMap QuotedByte.spell) =
      ⟨tokens, token ++ segment.map QuotedByte.denote, true, false, true⟩ := by
  induction segment generalizing token with
  | nil => simp [Tokenizer.run]
  | cons q rest ih =>
      have hone : Tokenizer.run ⟨tokens, token, true, false, true⟩ q.spell =
          ⟨tokens, token ++ [q.denote], true, false, true⟩ := by
        cases q with
        | literal c h =>
            simp [QuotedByte.spell, QuotedByte.denote, Tokenizer.run, Tokenizer.step, h.1, h.2]
        | escaped c =>
            simp [QuotedByte.spell, QuotedByte.denote, Tokenizer.run, Tokenizer.step]
      rw [List.flatMap_cons, Tokenizer.run_append, hone, ih]
      simp

theorem run_piece (started : Bool) (piece : Piece) :
    Tokenizer.run ⟨tokens, token, false, false, started⟩ piece.spell =
      ⟨tokens, token ++ piece.denote, false, false, true⟩ := by
  cases piece with
  | bare c h => simp [Piece.spell, Piece.denote, Tokenizer.run, Tokenizer.step, h.1, h.2]
  | quoted segment =>
      rw [Piece.spell, Tokenizer.run_cons, Tokenizer.step_doubleQuote, Bool.not_false,
        Tokenizer.run_append, run_segment, Tokenizer.run_cons, Tokenizer.step_doubleQuote]
      rfl

theorem run_pieces (pieces : List Piece) :
    Tokenizer.run ⟨tokens, token, false, false, true⟩ (pieces.flatMap Piece.spell) =
      ⟨tokens, token ++ pieces.flatMap Piece.denote, false, false, true⟩ := by
  induction pieces generalizing token with
  | nil => simp [Tokenizer.run]
  | cons piece rest ih =>
      rw [List.flatMap_cons, Tokenizer.run_append, run_piece, ih]
      simp

theorem run_token (t : Token) :
    Tokenizer.run ⟨tokens, [], false, false, false⟩ t.spell =
      ⟨tokens, t.denote, false, false, true⟩ := by
  obtain ⟨pieces, hne⟩ := t
  obtain ⟨piece, rest, rfl⟩ := List.exists_cons_of_ne_nil hne
  rw [Token.spell, List.flatMap_cons, Tokenizer.run_append, run_piece, run_pieces]
  rfl

theorem run_lexeme (lexeme : Lexeme) :
    Tokenizer.run ⟨tokens, [], false, false, false⟩ lexeme.spell =
      ⟨tokens ++ lexeme.denote, [], false, false, false⟩ := by
  have hspace : ∀ c : SpaceByte, c.1 ≠ doubleQuote := by
    intro c hc
    have hquote : isspace doubleQuote = false := by decide
    rw [← hc, c.2] at hquote
    simp at hquote
  cases lexeme with
  | blank c =>
      simp [Lexeme.spell, Lexeme.denote, Tokenizer.run, Tokenizer.step, hspace c, c.2]
  | word t c =>
      rw [Lexeme.spell, Tokenizer.run_append, run_token]
      simp [Lexeme.denote, Tokenizer.run, Tokenizer.step, hspace c, c.2]

theorem run_lexemes (lexemes : List Lexeme) :
    Tokenizer.run ⟨tokens, [], false, false, false⟩ (lexemes.flatMap Lexeme.spell) =
      ⟨tokens ++ lexemes.flatMap Lexeme.denote, [], false, false, false⟩ := by
  induction lexemes generalizing tokens with
  | nil => simp [Tokenizer.run]
  | cons lexeme rest ih =>
      rw [List.flatMap_cons, Tokenizer.run_append, run_lexeme, ih]
      simp

end

theorem finish_spell (r : Reading) : (Tokenizer.run {} r.spell).finish = .ok r.denote := by
  obtain ⟨lexemes, last⟩ := r
  rw [Reading.spell, Tokenizer.run_append, run_lexemes]
  cases last with
  | none => simp [Tokenizer.run, Tokenizer.finish, Reading.denote]
  | some t =>
      simp only [Option.map_some, Option.getD_some, run_token]
      simp [Tokenizer.finish, Reading.denote]

/-! ## Whatever is accepted has a reading -/

/-- What the machine has read when it stands in a state: whole lexemes, then the
pieces of the pending token, then the open quoted segment. -/
inductive Reads : Bytes → Tokenizer → Prop
  | between (lexemes : List Lexeme) :
      Reads (lexemes.flatMap Lexeme.spell)
        ⟨lexemes.flatMap Lexeme.denote, [], false, false, false⟩
  | inToken (lexemes : List Lexeme) (t : Token) :
      Reads (lexemes.flatMap Lexeme.spell ++ t.spell)
        ⟨lexemes.flatMap Lexeme.denote, t.denote, false, false, true⟩
  | inQuotes (lexemes : List Lexeme) (pieces : List Piece) (segment : List QuotedByte) :
      Reads (lexemes.flatMap Lexeme.spell ++ (pieces.flatMap Piece.spell ++
          doubleQuote :: segment.flatMap QuotedByte.spell))
        ⟨lexemes.flatMap Lexeme.denote,
          pieces.flatMap Piece.denote ++ segment.map QuotedByte.denote, true, false, true⟩
  | escaping (lexemes : List Lexeme) (pieces : List Piece) (segment : List QuotedByte) :
      Reads (lexemes.flatMap Lexeme.spell ++ (pieces.flatMap Piece.spell ++
          doubleQuote :: (segment.flatMap QuotedByte.spell ++ [backslash])))
        ⟨lexemes.flatMap Lexeme.denote,
          pieces.flatMap Piece.denote ++ segment.map QuotedByte.denote, true, true, true⟩

/-- Outside quotes, with some pieces of a token read. -/
theorem reads_piece (lexemes : List Lexeme) (pieces : List Piece) (piece : Piece) :
    Reads (lexemes.flatMap Lexeme.spell ++ (pieces.flatMap Piece.spell ++ piece.spell))
      ⟨lexemes.flatMap Lexeme.denote, pieces.flatMap Piece.denote ++ piece.denote, false, false,
        true⟩ := by
  have h := Reads.inToken lexemes ⟨pieces ++ [piece], by simp⟩
  simpa [Token.spell, Token.denote] using h

/-- A byte outside quotes that is no whitespace. -/
theorem reads_outside (lexemes : List Lexeme) (pieces : List Piece) (started : Bool) {c : UInt8}
    (hspace : isspace c = false) :
    Reads (lexemes.flatMap Lexeme.spell ++ (pieces.flatMap Piece.spell ++ [c]))
      (Tokenizer.step ⟨lexemes.flatMap Lexeme.denote, pieces.flatMap Piece.denote, false, false,
        started⟩ c) := by
  by_cases hquote : c = doubleQuote
  · subst hquote
    rw [Tokenizer.step_doubleQuote]
    simpa using Reads.inQuotes lexemes pieces []
  · have hstep : Tokenizer.step ⟨lexemes.flatMap Lexeme.denote, pieces.flatMap Piece.denote, false,
        false, started⟩ c = ⟨lexemes.flatMap Lexeme.denote, pieces.flatMap Piece.denote ++ [c],
          false, false, true⟩ := by
      simp [Tokenizer.step, hquote, hspace]
    rw [hstep]
    exact reads_piece lexemes pieces (.bare c ⟨hspace, hquote⟩)

theorem ne_doubleQuote_of_isspace {c : UInt8} (h : isspace c = true) : c ≠ doubleQuote := by
  rintro rfl
  exact absurd h (by decide)

theorem reads_step {xs : Bytes} {s : Tokenizer} (h : Reads xs s) (c : UInt8) :
    Reads (xs ++ [c]) (s.step c) := by
  cases h with
  | between lexemes =>
      cases hspace : isspace c with
      | true =>
          have hnext := Reads.between (lexemes ++ [.blank ⟨c, hspace⟩])
          simpa [Tokenizer.step, hspace, ne_doubleQuote_of_isspace hspace, Lexeme.spell,
            Lexeme.denote] using hnext
      | false => simpa using reads_outside lexemes [] false hspace
  | inToken lexemes t =>
      cases hspace : isspace c with
      | true =>
          have hnext := Reads.between (lexemes ++ [.word t ⟨c, hspace⟩])
          simpa [Tokenizer.step, hspace, ne_doubleQuote_of_isspace hspace, Lexeme.spell,
            Lexeme.denote] using hnext
      | false =>
          rw [List.append_assoc]
          exact reads_outside lexemes t.1 true hspace
  | inQuotes lexemes pieces segment =>
      by_cases hback : c = backslash
      · subst hback
        simpa [Tokenizer.step] using Reads.escaping lexemes pieces segment
      by_cases hquote : c = doubleQuote
      · subst hquote
        rw [Tokenizer.step_doubleQuote]
        simpa [Piece.spell, Piece.denote] using reads_piece lexemes pieces (.quoted segment)
      · have hnext := Reads.inQuotes lexemes pieces (segment ++ [.literal c ⟨hquote, hback⟩])
        simpa [Tokenizer.step, hback, hquote, QuotedByte.spell, QuotedByte.denote] using hnext
  | escaping lexemes pieces segment =>
      have hnext := Reads.inQuotes lexemes pieces (segment ++ [.escaped c])
      simpa [Tokenizer.step, QuotedByte.spell, QuotedByte.denote] using hnext

theorem reads_run (xs : Bytes) : Reads xs (Tokenizer.run {} xs) := by
  induction xs using List.reverseRecOn with
  | nil => exact Reads.between []
  | append_singleton xs c ih =>
      rw [Tokenizer.run_append]
      exact reads_step ih c

theorem exists_reading {line : Bytes} {tokens : List Bytes}
    (h : (Tokenizer.run {} line).finish = .ok tokens) :
    ∃ r : Reading, r.spell = line ∧ r.denote = tokens := by
  have hreads := reads_run line
  generalize Tokenizer.run {} line = s at h hreads
  cases hreads with
  | between lexemes =>
      refine ⟨⟨lexemes, none⟩, ?_, ?_⟩
      · simp [Reading.spell]
      · simpa [Tokenizer.finish, Reading.denote] using h
  | inToken lexemes t =>
      refine ⟨⟨lexemes, some t⟩, rfl, ?_⟩
      simpa [Tokenizer.finish, Reading.denote] using h
  | inQuotes lexemes pieces segment => simp [Tokenizer.finish] at h
  | escaping lexemes pieces segment => simp [Tokenizer.finish] at h

/-! ## Readings are unique -/

theorem prefixFree_quotedByte : PrefixFree QuotedByte.spell := by
  intro q q' xs ys heq
  cases q with
  | literal c h =>
      cases q' with
      | literal c' h' =>
          obtain rfl : c = c' := (List.cons.inj heq).1
          rfl
      | escaped c' => exact absurd (List.cons.inj heq).1 h.2
  | escaped c =>
      cases q' with
      | literal c' h' => exact absurd (List.cons.inj heq).1.symm h'.2
      | escaped c' =>
          obtain rfl : c = c' := (List.cons.inj (List.cons.inj heq).2).1
          rfl

/-- The text goes on with a double quote. -/
def AtQuote (xs : Bytes) : Prop := ∃ rest, xs = doubleQuote :: rest

theorem not_atQuote_quotedByte (q : QuotedByte) (xs : Bytes) : ¬AtQuote (q.spell ++ xs) := by
  rintro ⟨rest, hrest⟩
  cases q with
  | literal c h => exact h.1 (List.cons.inj hrest).1
  | escaped c => exact absurd (List.cons.inj hrest).1 (by decide)

theorem prefixFree_piece : PrefixFree Piece.spell := by
  intro p p' xs ys heq
  cases p with
  | bare c h =>
      cases p' with
      | bare c' h' =>
          obtain rfl : c = c' := (List.cons.inj heq).1
          rfl
      | quoted segment' => exact absurd (List.cons.inj heq).1 h.2
  | quoted segment =>
      cases p' with
      | bare c' h' => exact absurd (List.cons.inj heq).1.symm h'.2
      | quoted segment' =>
          have hinner : segment.flatMap QuotedByte.spell ++ doubleQuote :: xs =
              segment'.flatMap QuotedByte.spell ++ doubleQuote :: ys := by
            simpa [Piece.spell] using heq
          obtain ⟨rfl, -⟩ := prefixFree_quotedByte.decode not_atQuote_quotedByte ⟨_, rfl⟩ ⟨_, rfl⟩
            hinner
          rfl

/-- The text ends or goes on with whitespace. -/
def AtBreak (xs : Bytes) : Prop := ∀ c ∈ xs.head?, isspace c = true

theorem not_atBreak_piece (p : Piece) (xs : Bytes) : ¬AtBreak (p.spell ++ xs) := by
  intro h
  cases p with
  | bare c hc =>
      have hspace := h c rfl
      rw [hc.1] at hspace
      simp at hspace
  | quoted segment => exact absurd (h doubleQuote rfl) (by decide)

theorem token_decode {t t' : Token} {xs ys : Bytes} (hxs : AtBreak xs) (hys : AtBreak ys)
    (heq : t.spell ++ xs = t'.spell ++ ys) : t = t' ∧ xs = ys := by
  obtain ⟨hpieces, hrest⟩ := prefixFree_piece.decode not_atBreak_piece hxs hys heq
  exact ⟨Subtype.ext hpieces, hrest⟩

theorem not_atBreak_token (t : Token) (xs : Bytes) : ¬AtBreak (t.spell ++ xs) := by
  obtain ⟨pieces, hne⟩ := t
  obtain ⟨piece, rest, rfl⟩ := List.exists_cons_of_ne_nil hne
  rw [Token.spell, List.flatMap_cons, List.append_assoc]
  exact not_atBreak_piece piece _

theorem atBreak_nil : AtBreak [] := by simp [AtBreak]

theorem atBreak_space (c : SpaceByte) (xs : Bytes) : AtBreak (c.1 :: xs) := by
  intro b hb
  obtain rfl : c.1 = b := by simpa using hb
  exact c.2

theorem prefixFree_lexeme : PrefixFree Lexeme.spell := by
  intro l l' xs ys heq
  cases l with
  | blank c =>
      cases l' with
      | blank c' =>
          obtain rfl : c = c' := Subtype.ext (List.cons.inj heq).1
          rfl
      | word t' c' =>
          rw [Lexeme.spell, Lexeme.spell, List.append_assoc] at heq
          apply absurd (atBreak_space c xs)
          rw [← List.singleton_append, heq]
          exact not_atBreak_token t' _
  | word t c =>
      cases l' with
      | blank c' =>
          rw [Lexeme.spell, Lexeme.spell, List.append_assoc] at heq
          apply absurd (atBreak_space c' ys)
          rw [← List.singleton_append, ← heq]
          exact not_atBreak_token t _
      | word t' c' =>
          rw [Lexeme.spell, Lexeme.spell, List.append_assoc, List.append_assoc] at heq
          obtain ⟨rfl, hrest⟩ := token_decode (atBreak_space c _) (atBreak_space c' _) heq
          obtain rfl : c = c' := Subtype.ext (List.cons.inj hrest).1
          rfl

/-- What may stand behind the lexemes of a reading. -/
def AtLast (xs : Bytes) : Prop := ∃ last : Option Token, xs = (last.map Token.spell).getD []

theorem not_atLast_lexeme (l : Lexeme) (xs : Bytes) : ¬AtLast (l.spell ++ xs) := by
  rintro ⟨last, heq⟩
  cases l with
  | blank c =>
      cases last with
      | none => simp [Lexeme.spell] at heq
      | some t =>
          have heq' : c.1 :: xs = t.spell ++ [] := by simpa [Lexeme.spell] using heq
          apply not_atBreak_token t []
          rw [← heq']
          exact atBreak_space c xs
  | word t c =>
      rw [Lexeme.spell, List.append_assoc] at heq
      cases last with
      | none =>
          apply not_atBreak_token t ([c.1] ++ xs)
          rw [heq]
          exact atBreak_nil
      | some t' =>
          have heq' : t.spell ++ ([c.1] ++ xs) = t'.spell ++ [] := by simpa using heq
          obtain ⟨-, hrest⟩ := token_decode (atBreak_space c xs) atBreak_nil heq'
          simp at hrest

theorem spell_injective : Function.Injective Reading.spell := by
  rintro ⟨lexemes, last⟩ ⟨lexemes', last'⟩ heq
  obtain ⟨rfl, hlast⟩ := prefixFree_lexeme.decode not_atLast_lexeme ⟨last, rfl⟩ ⟨last', rfl⟩ heq
  have hsame : last = last' := by
    cases last with
    | none =>
        cases last' with
        | none => rfl
        | some t' =>
            refine absurd atBreak_nil ?_
            have hnil : ([] : Bytes) = t'.spell ++ [] := by simpa using hlast
            rw [hnil]
            exact not_atBreak_token t' []
    | some t =>
        cases last' with
        | none =>
            refine absurd atBreak_nil ?_
            have hnil : ([] : Bytes) = t.spell ++ [] := by simpa using hlast.symm
            rw [hnil]
            exact not_atBreak_token t []
        | some t' =>
            have heq' : t.spell ++ [] = t'.spell ++ [] := by simpa using hlast
            rw [(token_decode atBreak_nil atBreak_nil heq').1]
  rw [hsame]

end Grammar

open Grammar

/-- The tokenizer succeeds exactly on the lines that have a reading, it returns
the denotation of the reading, and no line has two readings. -/
theorem tokenize_eq_ok_iff_reading (line : Bytes) :
    (∀ tokens, tokenize line = .ok tokens ↔
        ∃ r : Reading, r.spell = stripCarriageReturn line ∧ r.denote = tokens) ∧
      {r : Reading | r.spell = stripCarriageReturn line}.Subsingleton := by
  refine ⟨fun tokens ↦ ⟨exists_reading, ?_⟩, fun r hr r' hr' ↦ ?_⟩
  · rintro ⟨r, hspell, rfl⟩
    rw [tokenize, ← hspell]
    exact finish_spell r
  · exact spell_injective (hr.trans hr'.symm)

end ByteCacheDB
