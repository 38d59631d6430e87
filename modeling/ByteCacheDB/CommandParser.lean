import ByteCacheDB.Text

/-!
# The command parser

`tokenize` is the character machine of `CommandParser::tokenize`: three flags,
one pending token, and the list of finished tokens.  `parse` adds the command
table and the argument counts, with the error texts of the source.
-/

namespace ByteCacheDB

inductive CommandType where
  | set
  | get
  | del
  | «exists»
  | expire
  | expireat
  | ttl
  | persist
  | keys
  | flush
  | ping
  | info
  | mset
  | mget
  | incr
  | decr
  | append
  | strlen
  | save
  | unknown
  deriving DecidableEq, Repr

structure Command where
  type : CommandType
  args : List Bytes
  deriving DecidableEq, Repr

/-- `command.args[i]`; the parser has checked the number of arguments. -/
def Command.arg (command : Command) (i : ℕ) : Bytes := command.args.getD i []

namespace CommandParser

def commandName : CommandType → Bytes
  | .set => ascii "SET"
  | .get => ascii "GET"
  | .del => ascii "DEL"
  | .exists => ascii "EXISTS"
  | .expire => ascii "EXPIRE"
  | .expireat => ascii "EXPIREAT"
  | .ttl => ascii "TTL"
  | .persist => ascii "PERSIST"
  | .keys => ascii "KEYS"
  | .flush => ascii "FLUSH"
  | .ping => ascii "PING"
  | .info => ascii "INFO"
  | .mset => ascii "MSET"
  | .mget => ascii "MGET"
  | .incr => ascii "INCR"
  | .decr => ascii "DECR"
  | .append => ascii "APPEND"
  | .strlen => ascii "STRLEN"
  | .save => ascii "SAVE"
  | .unknown => ascii "UNKNOWN"

def isMutating : CommandType → Bool
  | .set | .del | .expire | .expireat | .persist | .flush | .mset | .incr | .decr
  | .append | .save => true
  | _ => false

/-- The command table; every listed type stands under its own name. -/
def kTypes : List (Bytes × CommandType) :=
  [CommandType.set, .get, .del, .exists, .expire, .expireat, .ttl, .persist, .keys, .flush,
    .ping, .info, .mset, .mget, .incr, .decr, .append, .strlen, .save].map
      fun type ↦ (commandName type, type)

def uppercase (value : Bytes) : Bytes := value.map toupper

def typeFromToken (token : Bytes) : CommandType :=
  (kTypes.lookup (uppercase token)).getD .unknown

/-- Loop state of `tokenize`. -/
structure Tokenizer where
  tokens : List Bytes := []
  token : Bytes := []
  inQuotes : Bool := false
  escaping : Bool := false
  tokenStarted : Bool := false
  deriving DecidableEq, Repr

/-- The byte an escaped character stands for. -/
def unescape (c : UInt8) : UInt8 :=
  if c = 110 then newline
  else if c = 114 then carriageReturn
  else if c = 116 then tab
  else c

def Tokenizer.step (s : Tokenizer) (c : UInt8) : Tokenizer :=
  if s.escaping then
    { s with token := s.token ++ [unescape c], escaping := false, tokenStarted := true }
  else if c = backslash ∧ s.inQuotes then
    { s with escaping := true, tokenStarted := true }
  else if c = doubleQuote then
    { s with inQuotes := !s.inQuotes, tokenStarted := true }
  else if !s.inQuotes ∧ isspace c then
    if s.tokenStarted then
      { s with tokens := s.tokens ++ [s.token], token := [], tokenStarted := false }
    else s
  else { s with token := s.token ++ [c], tokenStarted := true }

def Tokenizer.run (s : Tokenizer) (line : Bytes) : Tokenizer := line.foldl Tokenizer.step s

/-- What happens behind the last character. -/
def Tokenizer.finish (s : Tokenizer) : Except Bytes (List Bytes) :=
  if s.escaping then .error (ascii "unterminated escape sequence")
  else if s.inQuotes then .error (ascii "unterminated quoted string")
  else if s.tokenStarted then .ok (s.tokens ++ [s.token])
  else .ok s.tokens

/-- One trailing carriage return is not part of the line. -/
def stripCarriageReturn (line : Bytes) : Bytes :=
  if line.getLast? = some carriageReturn then line.dropLast else line

def tokenize (line : Bytes) : Except Bytes (List Bytes) :=
  (Tokenizer.run {} (stripCarriageReturn line)).finish

/-- The check shared by all commands with a fixed number of arguments. -/
def exact (type : CommandType) (count expected : ℕ) : Except Bytes Unit :=
  if count = expected then .ok ()
  else .error (commandName type ++ ascii " expects " ++ Numerals.printNat expected ++
    ascii " argument" ++ if expected = 1 then [] else ascii "s")

def validateArgumentCount (type : CommandType) (count : ℕ) : Except Bytes Unit :=
  match type with
  | .ping | .keys | .flush | .info | .save => exact type count 0
  | .get | .del | .exists | .ttl | .persist | .incr | .decr | .strlen => exact type count 1
  | .set | .expire | .expireat | .append => exact type count 2
  | .mget =>
      if count = 0 then .error (ascii "MGET expects at least 1 argument") else .ok ()
  | .mset =>
      if count < 2 ∨ count % 2 ≠ 0 then
        .error (ascii "MSET expects an even number of key/value arguments")
      else .ok ()
  | .unknown => .error (ascii "unknown command")

def parse (line : Bytes) : Except Bytes Command := do
  match ← tokenize line with
  | [] => .error (ascii "empty command")
  | name :: args =>
      let type := typeFromToken name
      if type = .unknown then .error (ascii "unknown command")
      else
        validateArgumentCount type args.length
        .ok ⟨type, args⟩

/-- Commands the parser can return: a known type with an accepted number of
arguments. -/
def Admissible (command : Command) : Prop :=
  command.type ≠ .unknown ∧ validateArgumentCount command.type command.args.length = .ok ()

instance (command : Command) : Decidable (Admissible command) :=
  decidable_of_iff (command.type ≠ .unknown ∧
    (validateArgumentCount command.type command.args.length).toBool = true) (by
      refine and_congr_right fun _ ↦ ?_
      cases validateArgumentCount command.type command.args.length <;> simp [Except.toBool])

theorem typeFromToken_commandName (type : CommandType) :
    typeFromToken (commandName type) = type := by
  cases type <;> decide

/-- Tokens that spell an admissible command are parsed to it. -/
theorem parse_of_tokenize {line : Bytes} {command : Command} (hc : Admissible command)
    (h : tokenize line = .ok (commandName command.type :: command.args)) :
    parse line = .ok command := by
  obtain ⟨hknown, hcount⟩ := hc
  simp [parse, h, typeFromToken_commandName, hknown, hcount, bind, Except.bind]

theorem admissible_of_parse {line : Bytes} {command : Command}
    (h : parse line = .ok command) : Admissible command := by
  unfold parse at h
  cases ht : tokenize line with
  | error e => simp [ht, bind, Except.bind] at h
  | ok tokens =>
      cases tokens with
      | nil => simp [ht, bind, Except.bind] at h
      | cons name args =>
          simp only [ht, bind, Except.bind] at h
          split at h
          · simp at h
          · rename_i hknown
            cases hv : validateArgumentCount (typeFromToken name) args.length with
            | error e => simp [hv] at h
            | ok u =>
                simp only [hv, Except.ok.injEq] at h
                subst h
                exact ⟨hknown, hv⟩

example : parse (ascii "set greeting \"hello \\\"systems\\\" world\"") =
    .ok ⟨.set, [ascii "greeting", ascii "hello \"systems\" world"]⟩ := by decide

end CommandParser

end ByteCacheDB
