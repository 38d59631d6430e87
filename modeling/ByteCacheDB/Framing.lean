import ByteCacheDB.Lib.Lines
import ByteCacheDB.ClientHandler

/-!
# Request lines from a byte stream

`handle` cuts what `recv` returns into lines and answers them one by one.  What
a connection sees of the rest of the server is what the other connections do to
it between two of its own commands.
-/

namespace ByteCacheDB

open CommandParser Lines

variable {S : Sharding}

/-- What the handler of a connection meets: what the other connections do before
its `n`-th command runs, whether the pool takes that command, and whether the
`n`-th response can be sent. -/
structure Peer (S : Sharding) where
  others : ℕ → Server S → Server S
  env : ℕ → Environment
  queues : ℕ → Bool := fun _ ↦ true
  sends : ℕ → Bool := fun _ ↦ true

/-- The server, the number of commands the connection had executed there and the
responses it got. -/
structure Exchange (S : Sharding) where
  server : Server S
  executed : ℕ := 0
  sent : List Bytes := []

/-- The handler of one connection, with the lines given to the parser so far. -/
structure ClientHandler (S : Sharding) extends Exchange S where
  buffer : Bytes := []
  parsed : List Bytes := []
  /-- `handle` has returned -/
  closed : Bool := false

/-- A return of `recv` into `char chunk[4096]`. -/
inductive Received where
  | chunk (bytes : Bytes) (hne : bytes ≠ []) (hsize : bytes.length ≤ 4096)
  | endOfInput
  | interrupted
  | failed

def Received.bytes : Received → Bytes
  | .chunk bytes _ _ => bytes
  | .endOfInput | .interrupted | .failed => []

/-- The connection stays open: data, or a call to be repeated. -/
def Received.isOpen : Received → Bool
  | .chunk _ _ _ | .interrupted => true
  | .endOfInput | .failed => false

/-- The line in front of the first newline and the text behind it. -/
def cutLine (buffer : Bytes) : Option (Bytes × Bytes) :=
  if newline ∈ buffer then
    some (buffer.takeWhile (· ≠ newline), (buffer.dropWhile (· ≠ newline)).drop 1)
  else none

theorem cutLine_line {line : Bytes} (hline : newline ∉ line) (rest : Bytes) :
    cutLine (line ++ newline :: rest) = some (line, rest) := by
  have hall : ∀ b ∈ line, decide (b ≠ newline) = true := by
    intro b hb
    rw [decide_eq_true_eq]
    rintro rfl
    exact hline hb
  rw [cutLine, if_pos (by simp), List.takeWhile_append_of_pos hall,
    List.dropWhile_append_of_pos hall]
  simp

theorem cutLine_unterminated {rest : Bytes} (hrest : newline ∉ rest) : cutLine rest = none := by
  simp [cutLine, hrest]

theorem eq_of_cutLine {buffer line rest : Bytes} (h : cutLine buffer = some (line, rest)) :
    buffer = line ++ newline :: rest ∧ newline ∉ line := by
  by_cases hmem : newline ∈ buffer
  · obtain ⟨line', rest', rfl, hline'⟩ := List.eq_append_cons_of_mem hmem
    rw [cutLine_line hline', Option.some.injEq, Prod.mk.injEq] at h
    obtain ⟨rfl, rfl⟩ := h
    exact ⟨rfl, hline'⟩
  · simp [cutLine_unterminated hmem] at h

theorem notMem_of_cutLine {buffer : Bytes} (h : cutLine buffer = none) : newline ∉ buffer := by
  simpa [cutLine] using h

theorem length_of_cutLine {buffer line rest : Bytes} (h : cutLine buffer = some (line, rest)) :
    rest.length < buffer.length := by
  rw [(eq_of_cutLine h).1, List.length_append, List.length_cons]
  omega

namespace ClientHandler

variable (peer : Peer S) (maxLineBytes : ℕ)

def sendAll (h : ClientHandler S) (response : Response) : ClientHandler S :=
  if peer.sends h.sent.length then { h with sent := h.sent ++ [response.encode] }
  else { h with closed := true }

/-- The body of the loop over the lines of the buffer. -/
def handleLine (h : ClientHandler S) (line : Bytes) : ClientHandler S :=
  if maxLineBytes < line.length then
    h.sendAll peer (.error (ascii "input line too large"))
  else
    let h := { h with parsed := h.parsed ++ [line] }
    match parse line with
    | .error e => h.sendAll peer (.error e)
    | .ok command =>
        if peer.queues h.executed then
          let result := (peer.others h.executed h.server).executeOrdered
            (peer.env h.executed) command
          { h with server := result.2, executed := h.executed + 1 }.sendAll peer result.1.response
        else
          { h.sendAll peer (.error (ascii "server is shutting down")) with closed := true }

@[simp] theorem buffer_sendAll (h : ClientHandler S) (response : Response) :
    (h.sendAll peer response).buffer = h.buffer := by
  unfold sendAll
  split <;> rfl

@[simp] theorem buffer_handleLine (h : ClientHandler S) (line : Bytes) :
    (h.handleLine peer maxLineBytes line).buffer = h.buffer := by
  unfold handleLine
  split
  · simp
  · dsimp only
    split
    · simp
    · split <;> simp

/-- The loop over the lines of the buffer. -/
def drain (h : ClientHandler S) : ClientHandler S :=
  match _hcut : cutLine h.buffer with
  | none => h
  | some (line, rest) =>
      let next := { h with buffer := rest }.handleLine peer maxLineBytes line
      if next.closed then next else drain next
termination_by h.buffer.length
decreasing_by
  rw [buffer_handleLine]
  exact length_of_cutLine _hcut

variable {peer maxLineBytes} in
theorem drain_unterminated {h : ClientHandler S} (hbuffer : newline ∉ h.buffer) :
    h.drain peer maxLineBytes = h := by
  rw [drain]
  split
  · rfl
  · rename_i hcut
    simp [cutLine_unterminated hbuffer] at hcut

variable {peer maxLineBytes} in
theorem drain_line {h : ClientHandler S} {line rest : Bytes} (hline : newline ∉ line)
    (hbuffer : h.buffer = line ++ newline :: rest)
    (hopen : ({ h with buffer := rest }.handleLine peer maxLineBytes line).closed = false) :
    h.drain peer maxLineBytes =
      ({ h with buffer := rest }.handleLine peer maxLineBytes line).drain peer maxLineBytes := by
  rw [drain]
  split
  · rename_i hcut
    simp [hbuffer, cutLine_line hline] at hcut
  · rename_i line' rest' hcut
    rw [hbuffer, cutLine_line hline, Option.some.injEq, Prod.mk.injEq] at hcut
    obtain ⟨rfl, rfl⟩ := hcut
    simp [hopen]

def receive (h : ClientHandler S) : Received → ClientHandler S
  | .chunk bytes _ _ =>
      let h := { h with buffer := h.buffer ++ bytes }
      if maxLineBytes < h.buffer.length ∧ newline ∉ h.buffer then
        { h.sendAll peer (.error (ascii "input line too large")) with closed := true }
      else h.drain peer maxLineBytes
  | .interrupted => h
  | .endOfInput | .failed => { h with closed := true }

def handle (h : ClientHandler S) (input : List Received) : ClientHandler S :=
  input.foldl (fun h r ↦ if h.closed then h else h.receive peer maxLineBytes r) h

end ClientHandler

/-! ## One response a line -/

namespace Exchange

variable (peer : Peer S)

/-- The answer to a line: the parse error, or what the command gives after
everything that came before it. -/
def answer (x : Exchange S) (line : Bytes) : Response × Server S :=
  match parse line with
  | .error e => (.error e, x.server)
  | .ok command =>
      let result := (peer.others x.executed x.server).executeOrdered (peer.env x.executed) command
      (result.1.response, result.2)

def next (x : Exchange S) (line : Bytes) : Exchange S where
  server := (x.answer peer line).2
  executed := if (parse line).isOk then x.executed + 1 else x.executed
  sent := x.sent ++ [(x.answer peer line).1.encode]

def serve (x : Exchange S) (lines : List Bytes) : Exchange S := lines.foldl (next peer) x

theorem sent_serve (x : Exchange S) (lines : List Bytes) :
    (x.serve peer lines).sent = x.sent ++ lines.mapIdx fun i line ↦
      ((x.serve peer (lines.take i)).answer peer line).1.encode := by
  induction lines generalizing x with
  | nil => simp [serve]
  | cons line lines ih =>
      rw [serve, List.foldl_cons, ← serve, ih]
      simp [next, serve, List.mapIdx_cons]

end Exchange

namespace ClientHandler

variable {peer : Peer S} {maxLineBytes : ℕ} (hsends : ∀ n, peer.sends n = true)
  (hqueues : ∀ n, peer.queues n = true)

include hsends hqueues

theorem handleLine_eq (h : ClientHandler S) {line : Bytes} (hline : line.length ≤ maxLineBytes) :
    h.handleLine peer maxLineBytes line =
      { h with
        toExchange := h.toExchange.next peer line
        parsed := h.parsed ++ [line] } := by
  unfold handleLine
  rw [if_neg (Nat.not_lt.mpr hline)]
  cases hparse : parse line with
  | error e =>
      simp [sendAll, hsends, Exchange.next, Exchange.answer, hparse, Except.isOk, Except.toBool]
  | ok command =>
      simp [sendAll, hsends, hqueues, Exchange.next, Exchange.answer, hparse, Except.isOk,
        Except.toBool]

/-- The buffer is answered line by line, up to its unterminated rest. -/
theorem drain_eq (h : ClientHandler S) (hopen : h.closed = false)
    (hlines : ∀ line ∈ (splitLines newline h.buffer).1, line.length ≤ maxLineBytes) :
    h.drain peer maxLineBytes =
      { h with
        toExchange := h.toExchange.serve peer (splitLines newline h.buffer).1
        buffer := (splitLines newline h.buffer).2
        parsed := h.parsed ++ (splitLines newline h.buffer).1 } := by
  obtain ⟨exchange, buffer, parsed, closed⟩ := h
  dsimp only at hopen hlines ⊢
  subst hopen
  induction buffer using lines_induction newline generalizing exchange parsed with
  | unterminated rest hrest =>
      rw [drain_unterminated hrest]
      simp [splitLines_unterminated hrest, Exchange.serve]
  | terminated line rest hline ih =>
      rw [splitLines_line hline] at hlines ⊢
      have hfirst := handleLine_eq hsends hqueues ⟨exchange, rest, parsed, false⟩
        (hlines line (by simp))
      rw [drain_line hline rfl (by rw [hfirst]), hfirst,
        ih _ _ fun l hl ↦ hlines l (List.mem_cons_of_mem _ hl)]
      simp [Exchange.serve]

/-- What the handler has done after the text: all its lines are answered, the
rest is in the buffer. -/
def After (peer : Peer S) (v : Server S) (text : Bytes) (h : ClientHandler S) : Prop :=
  h = { toExchange := Exchange.serve peer { server := v } (splitLines newline text).1
        buffer := (splitLines newline text).2
        parsed := (splitLines newline text).1
        closed := false }

theorem after_receive {v : Server S} {text : Bytes} {h : ClientHandler S}
    (hafter : After peer v text h) {r : Received} (hr : r.isOpen = true)
    (hlines : ∀ line ∈ (splitLines newline (text ++ r.bytes)).1, line.length ≤ maxLineBytes)
    (hrest : (splitLines newline (text ++ r.bytes)).2.length ≤ maxLineBytes) :
    After peer v (text ++ r.bytes) (h.receive peer maxLineBytes r) := by
  subst hafter
  cases r with
  | endOfInput | failed => simp [Received.isOpen] at hr
  | interrupted => simp [Received.bytes, receive, After]
  | chunk bytes hne hsize =>
      simp only [Received.bytes] at hlines hrest ⊢
      rw [splitLines_append] at hlines hrest
      -- a buffer without newline is the rest of the text
      have hfits : ¬(maxLineBytes < ((splitLines newline text).2 ++ bytes).length ∧
          newline ∉ (splitLines newline text).2 ++ bytes) := by
        rintro ⟨hlong, hnone⟩
        rw [splitLines_unterminated hnone] at hrest
        exact absurd hrest (Nat.not_le.mpr hlong)
      rw [receive]
      dsimp only
      rw [if_neg hfits, drain_eq hsends hqueues]
      · simp [After, splitLines_append _ text bytes, Exchange.serve]
      · rfl
      · intro line hline
        exact hlines line (List.mem_append_right _ hline)

theorem after_handle {v : Server S} (text : Bytes) {h : ClientHandler S}
    (hafter : After peer v text h) {input : List Received} (hinput : ∀ r ∈ input, r.isOpen = true)
    (hlines : ∀ line ∈ (splitLines newline (text ++ input.flatMap Received.bytes)).1,
      line.length ≤ maxLineBytes)
    (hrest : (splitLines newline (text ++ input.flatMap Received.bytes)).2.length ≤
      maxLineBytes) :
    After peer v (text ++ input.flatMap Received.bytes) (h.handle peer maxLineBytes input) := by
  induction input generalizing text h with
  | nil => simpa [handle] using hafter
  | cons r input ih =>
      rw [List.flatMap_cons, ← List.append_assoc] at hlines hrest ⊢
      have hopen : h.closed = false := by rw [hafter]
      rw [handle, List.foldl_cons, ← handle, hopen]
      refine ih (text ++ r.bytes) ?_ (fun s hs ↦ hinput s (List.mem_cons_of_mem r hs)) hlines hrest
      refine after_receive hsends hqueues hafter (hinput r (by simp)) ?_ ?_
      · intro line hline
        apply hlines line
        rw [splitLines_append]
        exact List.mem_append_left _ hline
      · exact length_splitLines_snd_le hlines hrest

end ClientHandler

/-- However the stream arrives, its lines are parsed once each and answered in
their order, the connection stays open and the unterminated rest stays in the
buffer. -/
theorem handle_eq_of_stream (peer : Peer S) (maxLineBytes : ℕ) (v : Server S) (stream : Bytes)
    (hsends : ∀ n, peer.sends n = true) (hqueues : ∀ n, peer.queues n = true)
    (hlines : ∀ line ∈ (splitLines newline stream).1, line.length ≤ maxLineBytes)
    (hrest : (splitLines newline stream).2.length ≤ maxLineBytes)
    (input : List Received) (hopen : ∀ r ∈ input, r.isOpen = true)
    (hinput : input.flatMap Received.bytes = stream) :
    let lines := (splitLines newline stream).1
    let h := ClientHandler.handle peer maxLineBytes { server := v } input
    h.parsed = lines ∧ h.closed = false ∧ h.buffer = (splitLines newline stream).2 ∧
      h.server = (Exchange.serve peer { server := v } lines).server ∧
      h.sent.length = lines.length ∧
      ∀ i line, lines[i]? = some line → h.sent[i]? = some
        ((Exchange.serve peer { server := v } (lines.take i)).answer peer line).1.encode := by
  subst hinput
  have hafter := ClientHandler.after_handle hsends hqueues [] (h := { server := v }) rfl hopen
    hlines hrest
  rw [List.nil_append] at hafter
  intro lines h
  have heq : h = _ := hafter
  have hsent : h.sent = lines.mapIdx fun i line ↦
      ((Exchange.serve peer { server := v } (lines.take i)).answer peer line).1.encode := by
    have hserve := Exchange.sent_serve peer { server := v } lines
    rw [List.nil_append] at hserve
    rw [← hserve, heq]
  refine ⟨by rw [heq], by rw [heq], by rw [heq], by rw [heq], by rw [hsent]; simp, ?_⟩
  intro i line hline
  rw [hsent, List.getElem?_mapIdx, hline, Option.map_some]

/-- No other connections, and a clock that stands still. -/
def quietPeer : Peer oneShard where
  others _ v := v
  env _ := .at ⟨0, epoch_nonneg⟩

/-- Chunks that end in the middle of a command, before a newline and in the middle
of a command again. -/
def pipelinedChunks : List Received :=
  [.chunk (ascii "SET a 1\nGE") (by decide) (by decide), .interrupted,
    .chunk (ascii "T a\nbogus") (by decide) (by decide),
    .chunk (ascii "\nPI") (by decide) (by decide)]

/-- Three lines are answered, the beginning of the fourth is kept. -/
theorem handle_eq_of_stream_pipelined :
    let h := ClientHandler.handle quietPeer 8 { server := ⟨{}, { enabled := false }, {}⟩ }
      pipelinedChunks
    h.parsed = [ascii "SET a 1", ascii "GET a", ascii "bogus"] ∧ h.closed = false ∧
      h.buffer = ascii "PI" ∧ h.sent.length = 3 := by
  have hsplit : splitLines newline (pipelinedChunks.flatMap Received.bytes) =
      ([ascii "SET a 1", ascii "GET a", ascii "bogus"], ascii "PI") := by decide
  obtain ⟨hparsed, hclosed, hbuffer, -, hlength, -⟩ := handle_eq_of_stream quietPeer 8
    ⟨{}, { enabled := false }, {}⟩ _ (fun _ ↦ rfl) (fun _ ↦ rfl) (by rw [hsplit]; decide)
    (by rw [hsplit]; decide) pipelinedChunks (by simp [pipelinedChunks, Received.isOpen]) rfl
  rw [hsplit] at hparsed hbuffer hlength
  exact ⟨hparsed, hclosed, hbuffer, hlength⟩

end ByteCacheDB
