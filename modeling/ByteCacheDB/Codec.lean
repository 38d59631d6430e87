import ByteCacheDB.CommandParser
import ByteCacheDB.Lib.Lines

/-!
# The record format of the append-only file

A record is the decimal sequence number, a tab, and the serialized command.
Escaping removes every newline from the arguments, so records are split at
newlines; the tokenizer then undoes the quoting byte by byte.
-/

namespace ByteCacheDB

open CommandParser Numerals Lines

def escape (c : UInt8) : Bytes :=
  if c = backslash then [backslash, backslash]
  else if c = doubleQuote then [backslash, doubleQuote]
  else if c = newline then [backslash, 110]
  else if c = carriageReturn then [backslash, 114]
  else if c = tab then [backslash, 116]
  else [c]

def quote (value : Bytes) : Bytes := doubleQuote :: value.flatMap escape ++ [doubleQuote]

def serialize (command : Command) : Bytes :=
  commandName command.type ++ command.args.flatMap fun arg ↦ space :: quote arg

/-- A record without its final newline. -/
def recordLine (sequence : UInt64) (command : Command) : Bytes :=
  toStringU64 sequence ++ tab :: serialize command

/-- The bytes `append_line` writes for one command. -/
def record (sequence : UInt64) (command : Command) : Bytes :=
  recordLine sequence command ++ [newline]

/-- `parse_sequence_prefix`: its result and its two output parameters.  A number
that stops before the tab is stored although the call reports failure. -/
def parseSequencePrefix (line : Bytes) (sequence : UInt64) (commandLine : Bytes) :
    Bool × UInt64 × Bytes :=
  let digits := line.takeWhile fun c ↦ c != tab
  if digits = line ∨ digits = [] then (false, sequence, commandLine)
  else
    match fromCharsU64 digits with
    | .ok (number, []) => (true, number, line.drop (digits.length + 1))
    | .ok (number, _ :: _) => (false, number, commandLine)
    | .error _ => (false, sequence, commandLine)

/-- How `replay_after` reads one line: a line without a valid sequence number
is numbered by its position and taken whole. -/
def decodeLine (lineNumber : ℕ) (line : Bytes) : UInt64 × Except Bytes Command :=
  let (_, sequence, commandLine) := parseSequencePrefix line (UInt64.ofNat lineNumber) line
  (sequence, parse commandLine)

/-- How `replay_after` reads the lines of a log. -/
def decodeLog (file : Bytes) : List (UInt64 × Except Bytes Command) :=
  (getlines newline file).mapIdx fun i line ↦ decodeLine (i + 1) line

/-! ## The tokenizer undoes quoting -/

namespace Tokenizer

open CommandParser.Tokenizer

theorem run_append (s : Tokenizer) (xs ys : Bytes) : s.run (xs ++ ys) = (s.run xs).run ys := by
  simp [run]

theorem run_cons (s : Tokenizer) (c : UInt8) (cs : Bytes) : s.run (c :: cs) = (s.step c).run cs :=
  rfl

/-- Inside quotes, the escape of a byte adds that byte to the token. -/
theorem run_escape (tokens : List Bytes) (token : Bytes) (c : UInt8) :
    Tokenizer.run ⟨tokens, token, true, false, true⟩ (escape c) =
      ⟨tokens, token ++ [c], true, false, true⟩ := by
  by_cases h₁ : c = backslash
  · subst h₁; rfl
  by_cases h₂ : c = doubleQuote
  · subst h₂; rfl
  by_cases h₃ : c = newline
  · subst h₃; rfl
  by_cases h₄ : c = carriageReturn
  · subst h₄; rfl
  by_cases h₅ : c = tab
  · subst h₅; rfl
  simp [escape, h₁, h₂, h₃, h₄, h₅, run, step]

theorem run_escapes (tokens : List Bytes) (token value : Bytes) :
    Tokenizer.run ⟨tokens, token, true, false, true⟩ (value.flatMap escape) =
      ⟨tokens, token ++ value, true, false, true⟩ := by
  induction value generalizing token with
  | nil => simp [run]
  | cons c cs ih => rw [List.flatMap_cons, run_append, run_escape, ih]; simp

theorem step_doubleQuote (tokens : List Bytes) (token : Bytes) (inQuotes started : Bool) :
    Tokenizer.step ⟨tokens, token, inQuotes, false, started⟩ doubleQuote =
      ⟨tokens, token, !inQuotes, false, true⟩ := by
  cases inQuotes <;> rfl

theorem step_space (tokens : List Bytes) (token : Bytes) :
    Tokenizer.step ⟨tokens, token, false, false, true⟩ space =
      ⟨tokens ++ [token], [], false, false, false⟩ := rfl

/-- A quoted string adds its value to the pending token. -/
theorem run_quote (tokens : List Bytes) (token value : Bytes) (started : Bool) :
    Tokenizer.run ⟨tokens, token, false, false, started⟩ (quote value) =
      ⟨tokens, token ++ value, false, false, true⟩ := by
  rw [quote, List.cons_append, run_cons, step_doubleQuote, Bool.not_false, run_append,
    run_escapes, run_cons, step_doubleQuote]
  rfl

/-- Bytes that are plain text outside quotes. -/
def plain (c : UInt8) : Bool := c != doubleQuote && !isspace c

theorem run_plain (tokens : List Bytes) (token word : Bytes) (hword : word.all plain = true)
    (hne : word ≠ []) (started : Bool) :
    Tokenizer.run ⟨tokens, token, false, false, started⟩ word =
      ⟨tokens, token ++ word, false, false, true⟩ := by
  induction word generalizing token started with
  | nil => exact absurd rfl hne
  | cons c cs ih =>
      simp only [List.all_cons, Bool.and_eq_true, plain, bne_iff_ne, ne_eq,
        Bool.not_eq_eq_eq_not, Bool.not_true] at hword
      obtain ⟨⟨hq, hs⟩, hcsPlain⟩ := hword
      have hstep : Tokenizer.step ⟨tokens, token, false, false, started⟩ c =
          ⟨tokens, token ++ [c], false, false, true⟩ := by
        simp [step, hq, hs]
      rw [run_cons, hstep]
      by_cases hcs : cs = []
      · simp [hcs, run]
      · rw [ih _ (by simpa [plain] using hcsPlain) hcs]
        simp

/-- One separated argument finishes the pending token and becomes the next one. -/
theorem run_args (tokens : List Bytes) (token : Bytes) (args : List Bytes) :
    ∃ last, Tokenizer.run ⟨tokens, token, false, false, true⟩
        (args.flatMap fun arg ↦ space :: quote arg) =
          ⟨(tokens ++ token :: args).dropLast, last, false, false, true⟩ ∧
        (tokens ++ token :: args).getLast? = some last := by
  induction args generalizing tokens token with
  | nil => exact ⟨token, by simp [run], by simp⟩
  | cons arg args ih =>
      obtain ⟨last, hrun, hlast⟩ := ih (tokens ++ [token]) arg
      refine ⟨last, ?_, by simpa using hlast⟩
      rw [List.flatMap_cons, run_append, run_cons, step_space, run_quote, List.nil_append, hrun]
      simp

end Tokenizer

theorem plain_commandName (type : CommandType) :
    (commandName type).all Tokenizer.plain = true ∧ commandName type ≠ [] := by
  cases type <;> decide

/-- Where the tokenizer stands behind a serialized command: all tokens but the
last one are finished. -/
theorem run_serialize (command : Command) :
    ∃ last, Tokenizer.run {} (serialize command) =
        ⟨(commandName command.type :: command.args).dropLast, last, false, false, true⟩ ∧
      (commandName command.type :: command.args).getLast? = some last := by
  have hname := plain_commandName command.type
  obtain ⟨last, hrun, hlast⟩ :=
    Tokenizer.run_args [] (commandName command.type) command.args
  refine ⟨last, ?_, by simpa using hlast⟩
  rw [serialize, Tokenizer.run_append, Tokenizer.run_plain _ _ _ hname.1 hname.2,
    List.nil_append, hrun]
  simp

theorem finish_serialize (command : Command) :
    (Tokenizer.run {} (serialize command)).finish =
      .ok (commandName command.type :: command.args) := by
  obtain ⟨last, hrun, hlast⟩ := run_serialize command
  rw [hrun]
  simp only [CommandParser.Tokenizer.finish, Bool.false_eq_true, if_false, if_true,
    Except.ok.injEq]
  exact List.dropLast_append_getLast? last hlast

/-! ## Control bytes do not survive serialization -/

/-- Line feed and carriage return, the bytes that line reading gives a meaning. -/
def lineControl (c : UInt8) : Bool := c = newline ∨ c = carriageReturn

theorem lineControl_escape (c : UInt8) : (escape c).all (fun b ↦ !lineControl b) = true := by
  by_cases h₁ : c = backslash
  · subst h₁; decide
  by_cases h₂ : c = doubleQuote
  · subst h₂; decide
  by_cases h₃ : c = newline
  · subst h₃; decide
  by_cases h₄ : c = carriageReturn
  · subst h₄; decide
  by_cases h₅ : c = tab
  · subst h₅; decide
  simp [escape, h₁, h₂, h₃, h₄, h₅, lineControl]

theorem lineControl_of_mem_quote {value : Bytes} {b : UInt8} (hb : b ∈ quote value) :
    lineControl b = false := by
  simp only [quote, List.cons_append, List.mem_cons, List.mem_append, List.mem_flatMap,
    List.not_mem_nil, or_false] at hb
  rcases hb with rfl | ⟨c, _, hc⟩ | rfl
  · rfl
  · simpa using List.all_eq_true.mp (lineControl_escape c) b hc
  · rfl

theorem lineControl_commandName (type : CommandType) :
    (commandName type).all (fun b ↦ !lineControl b) = true := by
  cases type <;> decide

theorem lineControl_of_mem_serialize {command : Command} {b : UInt8}
    (hb : b ∈ serialize command) : lineControl b = false := by
  rcases List.mem_append.mp hb with hname | hargs
  · simpa using List.all_eq_true.mp (lineControl_commandName command.type) b hname
  · obtain ⟨arg, _, harg⟩ := List.mem_flatMap.mp hargs
    rcases List.mem_cons.mp harg with rfl | hq
    · rfl
    · exact lineControl_of_mem_quote hq

theorem newline_notMem_serialize (command : Command) : newline ∉ serialize command :=
  fun h ↦ absurd (lineControl_of_mem_serialize h) (by decide)

theorem stripCarriageReturn_of_notMem {line : Bytes} (h : carriageReturn ∉ line) :
    stripCarriageReturn line = line := by
  rw [stripCarriageReturn, if_neg]
  intro hlast
  exact h (List.mem_of_getLast? hlast)

theorem tokenize_serialize (command : Command) :
    tokenize (serialize command) = .ok (commandName command.type :: command.args) := by
  have hcr : carriageReturn ∉ serialize command :=
    fun h ↦ absurd (lineControl_of_mem_serialize h) (by decide)
  rw [tokenize, stripCarriageReturn_of_notMem hcr, finish_serialize]

theorem parse_serialize {command : Command} (h : Admissible command) :
    parse (serialize command) = .ok command :=
  parse_of_tokenize h (tokenize_serialize command)

/-! ## Records read back -/

theorem ne_of_isDigit {b : UInt8} (hb : isDigit b = true) : b ≠ tab ∧ b ≠ newline := by
  constructor <;> rintro rfl <;> exact absurd hb (by decide)

theorem takeWhile_recordLine (sequence : UInt64) (rest : Bytes) :
    (toStringU64 sequence ++ tab :: rest).takeWhile (fun c ↦ c != tab) =
      toStringU64 sequence := by
  rw [List.takeWhile_append_of_pos]
  · simp
  · intro b hb
    simpa using (ne_of_isDigit (isDigit_of_mem_printNat hb)).1

/-- The number in front of the first tab is the one that was printed there. -/
theorem parseSequencePrefix_print (sequence n : UInt64) (rest line : Bytes) :
    parseSequencePrefix (toStringU64 sequence ++ tab :: rest) n line = (true, sequence, rest) := by
  have hne : toStringU64 sequence ≠ toStringU64 sequence ++ tab :: rest := by
    intro h
    simpa using congrArg List.length h
  have hnil : toStringU64 sequence ≠ [] := printNat_ne_nil _
  simp only [parseSequencePrefix, takeWhile_recordLine, hne, hnil, or_self, if_false,
    fromCharsU64_toStringU64]
  simp

theorem decodeLine_recordLine (lineNumber : ℕ) (sequence : UInt64) {command : Command}
    (h : Admissible command) :
    decodeLine lineNumber (recordLine sequence command) = (sequence, .ok command) := by
  rw [decodeLine, recordLine, parseSequencePrefix_print]
  simp [parse_serialize h]

theorem newline_notMem_recordLine (sequence : UInt64) (command : Command) :
    newline ∉ recordLine sequence command := by
  intro h
  rcases List.mem_append.mp h with hdigit | hrest
  · exact (ne_of_isDigit (isDigit_of_mem_printNat hdigit)).2 rfl
  · rcases List.mem_cons.mp hrest with hbad | hcmd
    · exact absurd hbad (by decide)
    · exact newline_notMem_serialize command hcmd

/-- The bytes that appending a list of numbered commands writes. -/
def written (records : List (UInt64 × Command)) : Bytes :=
  records.flatMap fun r ↦ record r.1 r.2

theorem written_eq_unlines (records : List (UInt64 × Command)) :
    written records = unlines newline (records.map fun r ↦ recordLine r.1 r.2) := by
  simp [written, unlines, record, List.flatMap_map]

theorem written_cons (r : UInt64 × Command) (rs : List (UInt64 × Command)) :
    written (r :: rs) = record r.1 r.2 ++ written rs := by
  simp [written]

theorem written_append (xs ys : List (UInt64 × Command)) :
    written (xs ++ ys) = written xs ++ written ys := by
  simp [written]

theorem newline_notMem_of_mem_lines (records : List (UInt64 × Command)) :
    ∀ line ∈ records.map fun r ↦ recordLine r.1 r.2, newline ∉ line := by
  intro line hline
  obtain ⟨r, _, rfl⟩ := List.mem_map.mp hline
  exact newline_notMem_recordLine r.1 r.2

theorem getlines_written (records : List (UInt64 × Command)) :
    getlines newline (written records) = records.map fun r ↦ recordLine r.1 r.2 := by
  rw [written_eq_unlines, getlines_unlines newline (newline_notMem_of_mem_lines records)]

theorem decodeLog_written {records : List (UInt64 × Command)}
    (hrecords : ∀ r ∈ records, Admissible r.2) :
    decodeLog (written records) = records.map fun r ↦ (r.1, .ok r.2) := by
  rw [decodeLog, getlines_written]
  apply List.ext_getElem
  · simp
  · intro i hi hi'
    simp only [List.length_map] at hi'
    simp [decodeLine_recordLine _ _ (hrecords _ (List.getElem_mem hi'))]

theorem decodeLog_written_append {records : List (UInt64 × Command)}
    (hrecords : ∀ r ∈ records, Admissible r.2) {tail : Bytes} (htail : newline ∉ tail) :
    decodeLog (written records ++ tail) =
      (records.map fun r ↦ (r.1, .ok r.2)) ++
        (tailLine tail).map (decodeLine (records.length + 1)) := by
  have hlines := getlines_unlines_append newline (newline_notMem_of_mem_lines records) htail
  rw [← written_eq_unlines] at hlines
  have hwhole := decodeLog_written hrecords
  rw [decodeLog, getlines_written] at hwhole
  rw [decodeLog, hlines, List.mapIdx_append, hwhole, List.length_map]
  cases tail <;> simp [tailLine]

/-- Splitting the written bytes at newlines and decoding every line gives back
the sequence numbers and the commands, in order. -/
theorem written_roundTrip (records : List (UInt64 × Command))
    (hrecords : ∀ r ∈ records, Admissible r.2) (n : UInt64) :
    (getlines newline (written records)).map
        (fun line ↦ (parseSequencePrefix line n line).map id fun p ↦ (p.1, parse p.2)) =
      records.map fun r ↦ (true, r.1, .ok r.2) := by
  rw [getlines_written, List.map_map]
  apply List.map_congr_left
  intro r hr
  have hparse := parse_serialize (hrecords r hr)
  simp [recordLine, parseSequencePrefix_print, hparse]

/-- Every byte that the escaping treats in a special way, in one log. -/
theorem written_roundTrip_control_bytes :
    (getlines newline (written
        [(1, ⟨.set, [[], [34, 92, 10, 13, 9, 0, 255]]⟩), (2, ⟨.flush, []⟩)])).map
      (fun line ↦ (parseSequencePrefix line 7 line).map id fun p ↦ (p.1, parse p.2)) =
      [(true, 1, .ok ⟨.set, [[], [34, 92, 10, 13, 9, 0, 255]]⟩), (true, 2, .ok ⟨.flush, []⟩)] :=
  written_roundTrip [(1, ⟨.set, [[], [34, 92, 10, 13, 9, 0, 255]]⟩), (2, ⟨.flush, []⟩)]
    (by decide) 7

end ByteCacheDB
