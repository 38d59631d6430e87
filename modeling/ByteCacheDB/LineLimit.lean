import ByteCacheDB.Framing

/-!
# Lines beyond the limit

`handle` refuses a line longer than `max_line_bytes` in two places.  A line that is cut
out of the buffer is answered with an error and the connection goes on; a buffer that
has outgrown the limit before its newline has come is answered with the same error, and
the connection ends.  Which of the two happens depends on where the chunks end.
-/

namespace ByteCacheDB

open CommandParser Lines

variable {S : Sharding}

/-- The complete lines before the first chunk that has no newline and takes the line it
continues beyond the limit. -/
def overflowLine (maxLineBytes : ℕ) (text : Bytes) : List Received → Option ℕ
  | [] => none
  | .chunk bytes _ _ :: rest =>
      if maxLineBytes < ((splitLines newline text).2 ++ bytes).length ∧ newline ∉ bytes then
        some (splitLines newline text).1.length
      else overflowLine maxLineBytes (text ++ bytes) rest
  | .interrupted :: rest => overflowLine maxLineBytes text rest
  | .endOfInput :: _ | .failed :: _ => none

/-- The buffer overflows behind the text that has come so far, in a line of the stream or
in what follows its last newline. -/
theorem overflowLine_bounds {maxLineBytes k : ℕ} {text : Bytes} {input : List Received}
    (h : overflowLine maxLineBytes text input = some k) :
    (splitLines newline text).1.length ≤ k ∧
      k ≤ (splitLines newline (text ++ input.flatMap Received.bytes)).1.length := by
  have hmono : ∀ text more : Bytes, (splitLines newline text).1.length ≤
      (splitLines newline (text ++ more)).1.length := by
    intro text more
    rw [splitLines_append, List.length_append]
    omega
  fun_induction overflowLine maxLineBytes text input with
  | case1 => simp at h
  | case2 =>
      obtain rfl := Option.some.inj h
      exact ⟨le_refl _, hmono _ _⟩
  | case3 text bytes hne hsize rest hfits ih =>
      obtain ⟨hlower, hupper⟩ := ih h
      rw [List.append_assoc] at hupper
      exact ⟨(hmono text bytes).trans hlower, hupper⟩
  | case4 text rest ih => exact ih h
  | case5 | case6 => simp at h

namespace ClientHandler

variable (peer : Peer S) (maxLineBytes : ℕ)

/-- The handler without its buffer. -/
def unbuffered (h : ClientHandler S) : ClientHandler S := { h with buffer := [] }

/-- The commands that were executed: all that the parser has returned, up to one that
the pool refused. -/
def commands (h : ClientHandler S) : List Command :=
  (h.parsed.filterMap fun line ↦ (parse line).toOption).take h.executed

/-- The lines of a text, one after another, until `handle` returns. -/
def answerLines (h : ClientHandler S) (lines : List Bytes) : ClientHandler S :=
  lines.foldl (fun h line ↦ if h.closed then h else h.handleLine peer maxLineBytes line) h

/-- The buffer has outgrown the limit. -/
def overflow (h : ClientHandler S) : ClientHandler S :=
  if h.closed then h
  else { h.sendAll peer (.error (ascii "input line too large")) with closed := true }

/-- What `handle` does with a text that arrives in chunks which overflow the buffer in
line `k`, or never. -/
def answerText (h : ClientHandler S) (text : Bytes) : Option ℕ → ClientHandler S
  | none => h.answerLines peer maxLineBytes (splitLines newline text).1
  | some k => (h.answerLines peer maxLineBytes ((splitLines newline text).1.take k)).overflow peer

variable {peer maxLineBytes}

theorem answerLines_append (h : ClientHandler S) (lines more : List Bytes) :
    h.answerLines peer maxLineBytes (lines ++ more) =
      (h.answerLines peer maxLineBytes lines).answerLines peer maxLineBytes more :=
  List.foldl_append

theorem answerLines_of_closed {h : ClientHandler S} (hclosed : h.closed = true)
    (lines : List Bytes) : h.answerLines peer maxLineBytes lines = h := by
  induction lines with
  | nil => rfl
  | cons line lines ih => simpa [answerLines, hclosed] using ih

theorem handle_of_closed {h : ClientHandler S} (hclosed : h.closed = true)
    (input : List Received) : h.handle peer maxLineBytes input = h := by
  induction input with
  | nil => rfl
  | cons r input ih => simpa [handle, hclosed] using ih

/-- Once closed, the handler has done all it will do with the lines that follow. -/
theorem answerText_of_closed {h : ClientHandler S} {text : Bytes} (more : Bytes) {k : Option ℕ}
    (hclosed : (h.answerLines peer maxLineBytes (splitLines newline text).1).closed = true)
    (hk : ∀ n ∈ k, (splitLines newline text).1.length ≤ n) :
    h.answerText peer maxLineBytes (text ++ more) k =
      h.answerLines peer maxLineBytes (splitLines newline text).1 := by
  cases k with
  | none =>
      rw [answerText, splitLines_append, answerLines_append, answerLines_of_closed hclosed]
  | some n =>
      rw [answerText, splitLines_append, List.take_append, List.take_of_length_le (hk n rfl),
        answerLines_append, answerLines_of_closed hclosed, overflow, if_pos hclosed]

theorem unbuffered_sendAll (h : ClientHandler S) (response : Response) :
    (h.sendAll peer response).unbuffered = h.unbuffered.sendAll peer response := by
  cases hsends : peer.sends h.sent.length <;> simp [sendAll, unbuffered, hsends]

/-- A line is handled without a look at the buffer. -/
theorem unbuffered_handleLine (h : ClientHandler S) (line : Bytes) :
    (h.handleLine peer maxLineBytes line).unbuffered =
      h.unbuffered.handleLine peer maxLineBytes line := by
  have hsend := @unbuffered_sendAll _ peer { h with parsed := h.parsed ++ [line] }
  unfold handleLine
  split
  · exact unbuffered_sendAll h _
  · cases parse line with
    | error e => exact hsend _
    | ok command =>
        cases hqueues : peer.queues h.executed with
        | true =>
            simp only [unbuffered, hqueues, if_true]
            exact unbuffered_sendAll _ _
        | false =>
            simp only [unbuffered, hqueues]
            exact congrArg (fun h : ClientHandler S ↦ { h with closed := true }) (hsend _)

theorem answerLines_singleton {h : ClientHandler S} (hopen : h.closed = false)
    (line rest : Bytes) : h.unbuffered.answerLines peer maxLineBytes [line] =
      ({ h with buffer := rest }.handleLine peer maxLineBytes line).unbuffered := by
  rw [unbuffered_handleLine]
  simp [answerLines, unbuffered, hopen]

/-- The loop over the buffer answers its lines, and leaves the rest when it ends. -/
theorem unbuffered_drain (h : ClientHandler S) (hopen : h.closed = false) :
    (h.drain peer maxLineBytes).unbuffered =
        h.unbuffered.answerLines peer maxLineBytes (splitLines newline h.buffer).1 ∧
      ((h.drain peer maxLineBytes).closed = false →
        (h.drain peer maxLineBytes).buffer = (splitLines newline h.buffer).2) := by
  fun_induction drain peer maxLineBytes h with
  | case1 h hcut =>
      rw [splitLines_unterminated (notMem_of_cutLine hcut)]
      exact ⟨rfl, fun _ ↦ rfl⟩
  | case2 h line rest hcut next hclosed =>
      obtain ⟨hbuffer, hline⟩ := eq_of_cutLine hcut
      have hdone : next.unbuffered.closed = true := hclosed
      rw [hbuffer, splitLines_line hline, ← List.singleton_append, answerLines_append,
        answerLines_singleton hopen line rest]
      refine ⟨(answerLines_of_closed hdone _).symm, fun hnot ↦ ?_⟩
      simp [hclosed] at hnot
  | case3 h line rest hcut next hnext ih =>
      obtain ⟨hbuffer, hline⟩ := eq_of_cutLine hcut
      have hrest : next.buffer = rest := buffer_handleLine peer maxLineBytes _ line
      have hdrain := ih (by simpa using hnext)
      rw [hrest] at hdrain
      rw [hbuffer, splitLines_line hline, ← List.singleton_append, answerLines_append,
        answerLines_singleton hopen line rest]
      exact hdrain

/-- What the handler has done with a text none of whose chunks has overflown the buffer. -/
structure Answered (peer : Peer S) (maxLineBytes : ℕ) (h₀ : ClientHandler S) (text : Bytes)
    (h : ClientHandler S) : Prop where
  lines : h.unbuffered = h₀.answerLines peer maxLineBytes (splitLines newline text).1
  rest : h.closed = false → h.buffer = (splitLines newline text).2

theorem Answered.closed_eq {h₀ h : ClientHandler S} {text : Bytes}
    (ha : Answered peer maxLineBytes h₀ text h) :
    (h₀.answerLines peer maxLineBytes (splitLines newline text).1).closed = h.closed := by
  rw [← ha.lines]
  rfl

/-- A chunk that does not overflow the buffer. -/
theorem Answered.drain {h₀ h : ClientHandler S} {text : Bytes} (bytes : Bytes)
    (ha : Answered peer maxLineBytes h₀ text h) (hopen : h.closed = false) :
    Answered peer maxLineBytes h₀ (text ++ bytes)
      ({ h with buffer := h.buffer ++ bytes }.drain peer maxLineBytes) := by
  obtain ⟨hlines, hrest⟩ :=
    @unbuffered_drain _ peer maxLineBytes { h with buffer := h.buffer ++ bytes } hopen
  have hbuffer := ha.rest hopen
  refine ⟨?_, fun hclosed ↦ ?_⟩
  · have hsame : unbuffered { h with buffer := h.buffer ++ bytes } = h.unbuffered := rfl
    rw [hlines, hsame, ha.lines, splitLines_append newline text, answerLines_append, hbuffer]
  · rw [hrest hclosed, splitLines_append newline text, hbuffer]

/-- A chunk without newline that takes the buffer beyond the limit. -/
theorem Answered.overflow {h₀ h : ClientHandler S} {text : Bytes} (bytes more : Bytes)
    (ha : Answered peer maxLineBytes h₀ text h) (hopen : h.closed = false) :
    unbuffered { sendAll peer { h with buffer := h.buffer ++ bytes }
        (.error (ascii "input line too large")) with closed := true } =
      h₀.answerText peer maxLineBytes (text ++ more) (some (splitLines newline text).1.length) := by
  have hsent : (sendAll peer { h with buffer := h.buffer ++ bytes }
      (.error (ascii "input line too large"))).unbuffered =
        h.unbuffered.sendAll peer (.error (ascii "input line too large")) :=
    unbuffered_sendAll _ _
  rw [answerText, splitLines_append, List.take_append_of_le_length (le_refl _), List.take_length,
    ← ha.lines, ClientHandler.overflow, if_neg (by simp [unbuffered, hopen]), ← hsent]
  rfl

/-- The handler of a connection, over all the chunks of a text. -/
theorem Answered.handle {h₀ h : ClientHandler S} {text : Bytes}
    (ha : Answered peer maxLineBytes h₀ text h) {input : List Received}
    (hinput : ∀ r ∈ input, r.isOpen = true) :
    (h.handle peer maxLineBytes input).unbuffered =
      h₀.answerText peer maxLineBytes (text ++ input.flatMap Received.bytes)
        (overflowLine maxLineBytes text input) := by
  -- a handler that has returned has answered all it will answer
  have hdone : ∀ (text : Bytes) (h : ClientHandler S) (input : List Received),
      Answered peer maxLineBytes h₀ text h → h.closed = true →
      (h.handle peer maxLineBytes input).unbuffered =
        h₀.answerText peer maxLineBytes (text ++ input.flatMap Received.bytes)
          (overflowLine maxLineBytes text input) := by
    intro text h input ha hclosed
    rw [handle_of_closed hclosed, ha.lines]
    symm
    apply answerText_of_closed
    · rw [ha.closed_eq, hclosed]
    · intro n hn
      exact (overflowLine_bounds hn).1
  induction input generalizing text h with
  | nil =>
      rw [List.flatMap_nil, List.append_nil]
      exact ha.lines
  | cons r input ih =>
      cases hclosed : h.closed with
      | true => exact hdone text h _ ha hclosed
      | false =>
          have hopen := fun s hs ↦ hinput s (List.mem_cons_of_mem r hs)
          rw [ClientHandler.handle, List.foldl_cons, hclosed, ← ClientHandler.handle]
          cases r with
          | endOfInput | failed => simp [Received.isOpen] at hinput
          | interrupted => exact ih ha hopen
          | chunk bytes hne hsize =>
              have hbuffer := ha.rest hclosed
              have hpending := notMem_splitLines_snd newline text
              simp only [List.flatMap_cons, Received.bytes, Bool.false_eq_true, if_false, receive,
                overflowLine]
              by_cases hover : maxLineBytes < ((splitLines newline text).2 ++ bytes).length ∧
                  newline ∉ bytes
              · rw [if_pos hover, if_pos (by simpa [hbuffer, hpending] using hover),
                  handle_of_closed rfl]
                exact ha.overflow bytes _ hclosed
              · rw [if_neg hover, if_neg (by simpa [hbuffer, hpending] using hover),
                  ← List.append_assoc]
                exact ih (ha.drain bytes hclosed) hopen

/-- The same responses, the same commands and the same end of the connection. -/
def Agrees (h h' : ClientHandler S) : Prop :=
  h.sent = h'.sent ∧ h.commands = h'.commands ∧ h.closed = h'.closed

instance (h h' : ClientHandler S) : Decidable (h.Agrees h') :=
  inferInstanceAs (Decidable (_ ∧ _ ∧ _))

theorem agrees_unbuffered (h : ClientHandler S) : h.Agrees h.unbuffered := ⟨rfl, rfl, rfl⟩

theorem Agrees.symm {h h' : ClientHandler S} (ha : h.Agrees h') : h'.Agrees h :=
  ⟨ha.1.symm, ha.2.1.symm, ha.2.2.symm⟩

theorem Agrees.trans {h h' h'' : ClientHandler S} (ha : h.Agrees h') (hb : h'.Agrees h'') :
    h.Agrees h'' :=
  ⟨ha.1.trans hb.1, ha.2.1.trans hb.2.1, ha.2.2.trans hb.2.2⟩

theorem agrees_answerText (v : Server S) {input : List Received}
    (hinput : ∀ r ∈ input, r.isOpen = true) :
    Agrees (ClientHandler.handle peer maxLineBytes { server := v } input)
      (answerText peer maxLineBytes { server := v } (input.flatMap Received.bytes)
        (overflowLine maxLineBytes [] input)) := by
  have hstart : Answered peer maxLineBytes { server := v } [] { server := v } :=
    ⟨rfl, fun _ ↦ rfl⟩
  have hrun := hstart.handle hinput
  rw [List.nil_append] at hrun
  rw [← hrun]
  exact agrees_unbuffered _

/-- Chunks that overflow the buffer in the same line, or never, are all the same to
`handle`, also where responses cannot be sent or the pool is shut down. -/
theorem agrees_of_overflowLine_eq (v : Server S) {first second : List Received}
    (hfirst : ∀ r ∈ first, r.isOpen = true) (hsecond : ∀ r ∈ second, r.isOpen = true)
    (hstream : first.flatMap Received.bytes = second.flatMap Received.bytes)
    (hline : overflowLine maxLineBytes [] first = overflowLine maxLineBytes [] second) :
    Agrees (ClientHandler.handle peer maxLineBytes { server := v } first)
      (ClientHandler.handle peer maxLineBytes { server := v } second) := by
  have hother := @agrees_answerText _ peer maxLineBytes v _ hsecond
  rw [← hstream, ← hline] at hother
  exact (agrees_answerText v hfirst).trans hother.symm

section
variable (maxLineBytes) (hsends : ∀ n, peer.sends n = true) (hqueues : ∀ n, peer.queues n = true)
include hsends hqueues

/-- Every line gets one response. -/
theorem handleLine_open (h : ClientHandler S) (hopen : h.closed = false) (line : Bytes) :
    (h.handleLine peer maxLineBytes line).closed = false ∧
      (h.handleLine peer maxLineBytes line).sent.length = h.sent.length + 1 := by
  by_cases hline : line.length ≤ maxLineBytes
  · rw [handleLine_eq hsends hqueues h hline]
    exact ⟨hopen, by simp [Exchange.next]⟩
  · rw [handleLine, if_pos (Nat.not_le.mp hline), sendAll, if_pos (hsends _)]
    exact ⟨hopen, by simp⟩

theorem answerLines_open (h : ClientHandler S) (hopen : h.closed = false) (lines : List Bytes) :
    (h.answerLines peer maxLineBytes lines).closed = false ∧
      (h.answerLines peer maxLineBytes lines).sent.length = h.sent.length + lines.length := by
  induction lines generalizing h with
  | nil => exact ⟨hopen, rfl⟩
  | cons line lines ih =>
      obtain ⟨hnext, hlength⟩ := handleLine_open maxLineBytes hsends hqueues h hopen line
      obtain ⟨hclosed, hsent⟩ := ih (h.handleLine peer maxLineBytes line) hnext
      have hcons : h.answerLines peer maxLineBytes (line :: lines) =
          (h.handleLine peer maxLineBytes line).answerLines peer maxLineBytes lines := by
        simp [answerLines, hopen]
      rw [hcons, List.length_cons]
      exact ⟨hclosed, by omega⟩

theorem answerText_open (h : ClientHandler S) (hopen : h.closed = false) (text : Bytes) :
    (h.answerText peer maxLineBytes text none).closed = false :=
  (answerLines_open maxLineBytes hsends hqueues h hopen _).1

/-- The overflow is the last thing that is answered. -/
theorem answerText_overflow (h : ClientHandler S) (hopen : h.closed = false) {text : Bytes}
    {k : ℕ} (hk : k ≤ (splitLines newline text).1.length) :
    (h.answerText peer maxLineBytes text (some k)).closed = true ∧
      (h.answerText peer maxLineBytes text (some k)).sent.length = h.sent.length + k + 1 := by
  obtain ⟨hclosed, hsent⟩ := answerLines_open maxLineBytes hsends hqueues h hopen
    ((splitLines newline text).1.take k)
  rw [answerText, overflow, if_neg (by simp [hclosed]), sendAll, if_pos (hsends _)]
  refine ⟨rfl, ?_⟩
  rw [List.length_take_of_le hk] at hsent
  simp [hsent]

end

end ClientHandler

open ClientHandler

/-- Two ways to cut a stream are the same to `handle` exactly when they overflow its
buffer in the same line, or both never. -/
theorem overlong_lines_agree_iff (peer : Peer S) (maxLineBytes : ℕ) (v : Server S) (stream : Bytes)
    (hsends : ∀ n, peer.sends n = true) (hqueues : ∀ n, peer.queues n = true)
    (first second : List Received) (hfirst : ∀ r ∈ first, r.isOpen = true)
    (hsecond : ∀ r ∈ second, r.isOpen = true) (hone : first.flatMap Received.bytes = stream)
    (htwo : second.flatMap Received.bytes = stream) :
    Agrees (ClientHandler.handle peer maxLineBytes { server := v } first)
        (ClientHandler.handle peer maxLineBytes { server := v } second) ↔
      overflowLine maxLineBytes [] first = overflowLine maxLineBytes [] second := by
  refine ⟨fun hagrees ↦ ?_, agrees_of_overflowLine_eq v hfirst hsecond (hone.trans htwo.symm)⟩
  obtain ⟨hsent, -, hclosed⟩ := hagrees
  -- the lengths of the responses tell the line, and the end of the connection tells the rest
  have hspec : ∀ input : List Received, (∀ r ∈ input, r.isOpen = true) →
      let h := ClientHandler.handle peer maxLineBytes { server := v } input
      (overflowLine maxLineBytes [] input = none → h.closed = false) ∧
        ∀ k, overflowLine maxLineBytes [] input = some k →
          h.closed = true ∧ h.sent.length = k + 1 := by
    intro input hinput
    obtain ⟨hall, -, hend⟩ := @agrees_answerText _ peer maxLineBytes v _ hinput
    refine ⟨fun hnone ↦ ?_, fun k hk ↦ ?_⟩
    · rw [hnone] at hend
      exact hend.trans (answerText_open maxLineBytes hsends hqueues _ rfl _)
    · obtain ⟨hover, hlength⟩ := answerText_overflow maxLineBytes hsends hqueues
        { server := v } rfl (overflowLine_bounds hk).2
      rw [hk] at hend hall
      rw [List.nil_append, ← hall] at hlength
      exact ⟨hend.trans hover, by simpa using hlength⟩
  obtain ⟨hopen₁, hover₁⟩ := hspec first hfirst
  obtain ⟨hopen₂, hover₂⟩ := hspec second hsecond
  cases hline₁ : overflowLine maxLineBytes [] first with
  | none =>
      cases hline₂ : overflowLine maxLineBytes [] second with
      | none => rfl
      | some k => simp [hopen₁ hline₁, (hover₂ k hline₂).1] at hclosed
  | some k =>
      cases hline₂ : overflowLine maxLineBytes [] second with
      | none => simp [hopen₂ hline₂, (hover₁ k hline₁).1] at hclosed
      | some k' =>
          have hlength := congrArg List.length hsent
          rw [(hover₁ k hline₁).2, (hover₂ k' hline₂).2] at hlength
          rw [Nat.succ.inj hlength]

/-- With a limit of four bytes the first line is too long. -/
def inOneChunk : List Received := [.chunk (ascii "abcdef\nPING\n") (by decide) (by decide)]

def brokenBehindLimit : List Received :=
  [.chunk (ascii "abcde") (by decide) (by decide),
    .chunk (ascii "f\nPING\n") (by decide) (by decide)]

def brokenAtNewline : List Received :=
  [.chunk (ascii "abcdef") (by decide) (by decide),
    .chunk (ascii "\nPING\n") (by decide) (by decide)]

/-- Broken in two places behind the limit, the line ends the connection both times. -/
theorem overlong_lines_agree_broken :
    overflowLine 4 [] brokenBehindLimit = some 0 ∧
      Agrees
        (ClientHandler.handle quietPeer 4 { server := ⟨{}, { enabled := false }, {}⟩ }
          brokenBehindLimit)
        (ClientHandler.handle quietPeer 4 { server := ⟨{}, { enabled := false }, {}⟩ }
          brokenAtNewline) :=
  ⟨by decide, (overlong_lines_agree_iff quietPeer 4 ⟨{}, { enabled := false }, {}⟩
    (ascii "abcdef\nPING\n") (fun _ ↦ rfl) (fun _ ↦ rfl) brokenBehindLimit brokenAtNewline
    (by simp [brokenBehindLimit, Received.isOpen]) (by simp [brokenAtNewline, Received.isOpen])
    (by decide) (by decide)).mpr (by decide)⟩

/-- In one chunk the line is refused and `PING` is answered; broken behind the limit, it
ends the connection before `PING` is read. -/
theorem overlong_line_depends_on_chunks :
    inOneChunk.flatMap Received.bytes = brokenBehindLimit.flatMap Received.bytes ∧
      (∃ line ∈ (splitLines newline (inOneChunk.flatMap Received.bytes)).1, 4 < line.length) ∧
      let whole := ClientHandler.handle quietPeer 4 { server := ⟨{}, { enabled := false }, {}⟩ }
        inOneChunk
      let broken := ClientHandler.handle quietPeer 4 { server := ⟨{}, { enabled := false }, {}⟩ }
        brokenBehindLimit
      whole.sent = [ascii "-ERR input line too large\r\n", ascii "+PONG\r\n"] ∧
        whole.commands = [⟨.ping, []⟩] ∧ whole.closed = false ∧
        broken.sent = [ascii "-ERR input line too large\r\n"] ∧ broken.commands = [] ∧
        broken.closed = true := by
  refine ⟨by decide, by decide, ?_⟩
  obtain ⟨hsent, hcommands, hclosed⟩ := @agrees_answerText _ quietPeer 4
    ⟨{}, { enabled := false }, {}⟩ inOneChunk (by simp [inOneChunk, Received.isOpen])
  obtain ⟨hsent', hcommands', hclosed'⟩ := @agrees_answerText _ quietPeer 4
    ⟨{}, { enabled := false }, {}⟩ brokenBehindLimit (by simp [brokenBehindLimit, Received.isOpen])
  dsimp only
  rw [hsent, hcommands, hclosed, hsent', hcommands', hclosed']
  decide +kernel

end ByteCacheDB
