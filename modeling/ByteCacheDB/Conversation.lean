import ByteCacheDB.Framing
import ByteCacheDB.Lib.Runs
import ByteCacheDB.Reference
import ByteCacheDB.Responses

/-!
# A conversation with a client

`handle` as the sequence of its system calls.  `send` may take a part of what it is given,
may be interrupted and may fail at any byte, so the client reads bytes, not responses.  What
it has read is at any moment the responses that are recorded as sent, and the beginning of
the one that is being sent.
-/

namespace ByteCacheDB

open CommandParser Lines PrefixCode Runs

variable {S : Sharding}

/-- A return of `send`. -/
inductive SendReturn where
  | took (count : ℕ)
  | interrupted
  | failed

inductive CallReturn where
  | received (r : Received)
  | sent (r : SendReturn)

/-- Where `handle` is. -/
inductive HandlerStage where
  | receiving
  /-- in `send_all`, with the data that is left; `last` if `handle` returns behind it -/
  | sending (response : Response) (left : Bytes) (last : Bool)
  | returned
  /-- `send_all` has returned false, and `handle` has returned -/
  | broken (response : Response) (left : Bytes) (last : Bool)
  deriving DecidableEq

structure Conversation (S : Sharding) where
  handler : ClientHandler S
  stage : HandlerStage := .receiving
  /-- the bytes that the client can read -/
  wire : Bytes := []

namespace ClientHandler

variable (peer : Peer S) (maxLineBytes : ℕ)

/-- A line up to its response, and whether `handle` returns behind it. -/
def request (h : ClientHandler S) (line : Bytes) : ClientHandler S × Response × Bool :=
  if maxLineBytes < line.length then (h, .error (ascii "input line too large"), false)
  else
    let h := { h with parsed := h.parsed ++ [line] }
    match parse line with
    | .error e => (h, .error e, false)
    | .ok command =>
        if peer.queues h.executed then
          let result := (peer.others h.executed h.server).executeOrdered
            (peer.env h.executed) command
          ({ h with server := result.2, executed := h.executed + 1 }, result.1.response, false)
        else (h, .error (ascii "server is shutting down"), true)

end ClientHandler

namespace Conversation

variable (peer : Peer S) (maxLineBytes : ℕ)

def start (v : Server S) : Conversation S where
  handler := { server := v }

/-- The next line of the buffer, or the next `recv`. -/
def proceed (h : ClientHandler S) (wire : Bytes) : Conversation S :=
  match cutLine h.buffer with
  | none => ⟨h, .receiving, wire⟩
  | some (line, rest) =>
      let requested := { h with buffer := rest }.request peer maxLineBytes line
      ⟨requested.1, .sending requested.2.1 requested.2.1.encode requested.2.2, wire⟩

def step (c : Conversation S) : CallReturn → Option (Conversation S)
  | .received r =>
      match c.stage, r with
      | .receiving, .chunk bytes _ _ =>
          let h := { c.handler with buffer := c.handler.buffer ++ bytes }
          if maxLineBytes < h.buffer.length ∧ newline ∉ h.buffer then
            let response : Response := .error (ascii "input line too large")
            some ⟨h, .sending response response.encode true, c.wire⟩
          else some (proceed peer maxLineBytes h c.wire)
      | .receiving, .interrupted => some c
      | .receiving, .endOfInput | .receiving, .failed =>
          some { c with handler := { c.handler with closed := true }, stage := .returned }
      | _, _ => none
  | .sent r =>
      match c.stage with
      | .sending response left last =>
          match r with
          | .took count =>
              if count = 0 then
                some { c with stage := .broken response left last }
              else if count < left.length then
                some { c with
                  stage := .sending response (left.drop count) last
                  wire := c.wire ++ left.take count }
              else if count = left.length then
                let h := { c.handler with sent := c.handler.sent ++ [response.encode] }
                if last then some ⟨{ h with closed := true }, .returned, c.wire ++ left⟩
                else some (proceed peer maxLineBytes h (c.wire ++ left))
              else none
          | .interrupted => some c
          | .failed => some { c with stage := .broken response left last }
      | _ => none

/-- What `recv` has returned in the course of a run. -/
def received (events : List CallReturn) : List Received :=
  events.filterMap fun
    | .received r => some r
    | .sent _ => none

/-- The handler when it has sent the response, or failed to, and then has dealt with the
lines that are in the buffer, each response in one piece. -/
def settle (c : Conversation S) : ClientHandler S :=
  match c.stage with
  | .receiving | .returned => c.handler
  | .sending response _ last | .broken response _ last =>
      let h := c.handler.sendAll peer response
      if last then { h with closed := true }
      else if h.closed then h else h.drain peer maxLineBytes

end Conversation

namespace ClientHandler

variable {peer : Peer S} {maxLineBytes : ℕ}

theorem handleLine_eq_request (h : ClientHandler S) (line : Bytes) :
    h.handleLine peer maxLineBytes line =
      if (h.request peer maxLineBytes line).2.2 then
        { (h.request peer maxLineBytes line).1.sendAll peer
            (h.request peer maxLineBytes line).2.1 with closed := true }
      else (h.request peer maxLineBytes line).1.sendAll peer
        (h.request peer maxLineBytes line).2.1 := by
  by_cases hlong : maxLineBytes < line.length
  · simp [handleLine, request, hlong]
  · cases hparse : parse line with
    | error e => simp [handleLine, request, hlong, hparse]
    | ok command =>
        cases hqueues : peer.queues h.executed <;>
          simp [handleLine, request, hlong, hparse, hqueues]

theorem handle_concat (h : ClientHandler S) (input : List Received) (r : Received) :
    h.handle peer maxLineBytes (input ++ [r]) =
      if (h.handle peer maxLineBytes input).closed then h.handle peer maxLineBytes input
      else (h.handle peer maxLineBytes input).receive peer maxLineBytes r := by
  rw [handle, List.foldl_append]
  rfl

theorem drain_of_cutLine {h : ClientHandler S} {line rest : Bytes}
    (hcut : cutLine h.buffer = some (line, rest)) :
    h.drain peer maxLineBytes =
      if ({ h with buffer := rest }.handleLine peer maxLineBytes line).closed then
        { h with buffer := rest }.handleLine peer maxLineBytes line
      else ({ h with buffer := rest }.handleLine peer maxLineBytes line).drain peer
        maxLineBytes := by
  rw [drain]
  split
  · rename_i hnone
    simp [hcut] at hnone
  · rename_i line' rest' hsome
    obtain ⟨rfl, rfl⟩ : line = line' ∧ rest = rest' := by simpa [hcut] using hsome
    rfl

theorem request_spec (h : ClientHandler S) (line : Bytes) :
    let h' := (h.request peer maxLineBytes line).1
    h'.closed = h.closed ∧ h'.sent = h.sent ∧ h'.buffer = h.buffer := by
  unfold request
  split
  · exact ⟨rfl, rfl, rfl⟩
  · dsimp only
    split
    · exact ⟨rfl, rfl, rfl⟩
    · split <;> exact ⟨rfl, rfl, rfl⟩

end ClientHandler

theorem Response.encode_ne_nil (r : Response) : r.encode ≠ [] := by
  intro hempty
  have hhead := r.head?_encode []
  simp [hempty] at hhead

namespace Conversation

variable {peer : Peer S} {maxLineBytes : ℕ} {c c' : Conversation S}

theorem stage_proceed (h : ClientHandler S) (wire : Bytes) :
    (proceed peer maxLineBytes h wire).wire = wire ∧
      (proceed peer maxLineBytes h wire).handler.sent = h.sent ∧
      (proceed peer maxLineBytes h wire).handler.closed = h.closed ∧
      ((proceed peer maxLineBytes h wire).stage = .receiving ∧
          (proceed peer maxLineBytes h wire).handler = h ∧ newline ∉ h.buffer ∨
        ∃ response last, (proceed peer maxLineBytes h wire).stage =
          .sending response response.encode last) := by
  unfold proceed
  split
  · rename_i hcut
    exact ⟨rfl, rfl, rfl, Or.inl ⟨rfl, rfl, notMem_of_cutLine hcut⟩⟩
  · rename_i line rest hcut
    obtain ⟨hclosed, hsent, -⟩ :=
      @ClientHandler.request_spec _ peer maxLineBytes { h with buffer := rest } line
    exact ⟨rfl, hsent, hclosed, Or.inr ⟨_, _, rfl⟩⟩

/-- The lines that are in the buffer are those that `drain` takes from it. -/
theorem settle_proceed (sends : ℕ → Bool) (h : ClientHandler S) (wire : Bytes) :
    (proceed peer maxLineBytes h wire).settle { peer with sends := sends } maxLineBytes =
      h.drain { peer with sends := sends } maxLineBytes := by
  cases hcut : cutLine h.buffer with
  | none =>
      rw [ClientHandler.drain_unterminated (notMem_of_cutLine hcut)]
      simp only [proceed, hcut, settle]
  | some cut =>
      rw [ClientHandler.drain_of_cutLine hcut, ClientHandler.handleLine_eq_request]
      have hrequest : ClientHandler.request { peer with sends := sends } maxLineBytes
          { h with buffer := cut.2 } cut.1 =
        ClientHandler.request peer maxLineBytes { h with buffer := cut.2 } cut.1 := rfl
      simp only [proceed, hcut, settle, hrequest]
      cases (ClientHandler.request peer maxLineBytes { h with buffer := cut.2 } cut.1).2.2 <;> simp

/-- The wire at each stage. -/
def Staged (c : Conversation S) : Prop :=
  match c.stage with
  | .receiving => c.handler.closed = false ∧ c.wire = c.handler.sent.flatten
  | .returned => c.handler.closed = true ∧ c.wire = c.handler.sent.flatten
  | .sending response left _ | .broken response left _ => c.handler.closed = false ∧ left ≠ [] ∧
      ∃ part, response.encode = part ++ left ∧ c.wire = c.handler.sent.flatten ++ part

/-- The handler is on its way to what `handle` makes of the same input. -/
structure Follows (peer : Peer S) (maxLineBytes : ℕ) (v : Server S) (input : List Received)
    (c : Conversation S) : Prop where
  staged : c.Staged
  handled : ∀ sends : ℕ → Bool, (∀ n < c.handler.sent.length, sends n = true) →
    c.settle { peer with sends := sends } maxLineBytes =
      ClientHandler.handle { peer with sends := sends } maxLineBytes { server := v } input

variable {v : Server S} {input : List Received}

theorem staged_proceed {h : ClientHandler S} {wire : Bytes} (hopen : h.closed = false)
    (hwire : wire = h.sent.flatten) : (proceed peer maxLineBytes h wire).Staged := by
  obtain ⟨hsame, hsent, hclosed, ⟨hstage, -, -⟩ | ⟨response, last, hstage⟩⟩ :=
    @stage_proceed _ peer maxLineBytes h wire
  · rw [Staged, hstage, hclosed, hsame, hsent]
    exact ⟨hopen, hwire⟩
  · rw [Staged, hstage, hclosed, hsame, hsent]
    exact ⟨hopen, response.encode_ne_nil, [], rfl, by simpa using hwire⟩

/-- A return of `recv`. -/
theorem Follows.receive (h : Follows peer maxLineBytes v input c) {r : Received}
    (hstep : c.step peer maxLineBytes (.received r) = some c') :
    Follows peer maxLineBytes v (input ++ [r]) c' := by
  obtain ⟨handler, stage, wire⟩ := c
  cases stage with
  | sending | returned | broken => simp [step] at hstep
  | receiving =>
      obtain ⟨hopen, hwire⟩ : handler.closed = false ∧ wire = handler.sent.flatten := h.staged
      -- the abstract handler has done the same, whatever becomes of later responses
      have hnext (sends : ℕ → Bool) (hsends : ∀ n < handler.sent.length, sends n = true) :
          ClientHandler.handle { peer with sends := sends } maxLineBytes { server := v }
              (input ++ [r]) =
            handler.receive { peer with sends := sends } maxLineBytes r := by
        have hsame : handler = _ := h.handled sends hsends
        rw [ClientHandler.handle_concat, ← hsame, hopen]
        rfl
      cases r with
      | interrupted =>
          obtain rfl := Option.some.inj hstep
          exact ⟨h.staged, fun sends hsends ↦ (hnext sends hsends).symm⟩
      | endOfInput | failed =>
          obtain rfl := Option.some.inj hstep
          exact ⟨⟨rfl, hwire⟩, fun sends hsends ↦ (hnext sends hsends).symm⟩
      | chunk bytes hne hsize =>
          simp only [step] at hstep
          split at hstep
          · rename_i hlong
            obtain rfl := Option.some.inj hstep
            refine ⟨⟨hopen, Response.encode_ne_nil _, [], rfl, by simpa using hwire⟩,
              fun sends hsends ↦ ?_⟩
            rw [hnext sends hsends, ClientHandler.receive]
            simp only [settle, if_pos hlong, if_true]
          · rename_i hfits
            obtain rfl := Option.some.inj hstep
            refine ⟨staged_proceed hopen hwire, fun sends hsends ↦ ?_⟩
            have hsent := (@stage_proceed _ peer maxLineBytes
              { handler with buffer := handler.buffer ++ bytes } wire).2.1
            rw [hsent] at hsends
            rw [hnext sends hsends, ClientHandler.receive, settle_proceed]
            simp only [if_neg hfits]

/-- A return of `send`. -/
theorem Follows.send (h : Follows peer maxLineBytes v input c) {r : SendReturn}
    (hstep : c.step peer maxLineBytes (.sent r) = some c') :
    Follows peer maxLineBytes v input c' := by
  obtain ⟨handler, stage, wire⟩ := c
  cases stage with
  | receiving | returned | broken => simp [step] at hstep
  | sending response left last =>
      obtain ⟨hopen, hleft, part, hencode, hwire⟩ : handler.closed = false ∧ left ≠ [] ∧
        ∃ part, response.encode = part ++ left ∧ wire = handler.sent.flatten ++ part := h.staged
      have hbroken : Follows peer maxLineBytes v input
          ⟨handler, .broken response left last, wire⟩ := ⟨h.staged, h.handled⟩
      cases r with
      | interrupted =>
          obtain rfl := Option.some.inj hstep
          exact h
      | failed =>
          obtain rfl := Option.some.inj hstep
          exact hbroken
      | took count =>
          simp only [step] at hstep
          split at hstep
          · obtain rfl := Option.some.inj hstep
            exact hbroken
          split at hstep
          · rename_i hpart
            obtain rfl := Option.some.inj hstep
            refine ⟨⟨hopen, ?_, part ++ left.take count, ?_, ?_⟩, h.handled⟩
            · simpa using hpart
            · rw [List.append_assoc, List.take_append_drop]
              exact hencode
            · rw [hwire, List.append_assoc]
          split at hstep
          · have hsent : wire ++ left = (handler.sent ++ [response.encode]).flatten := by
              rw [List.flatten_append, List.flatten_singleton, hencode, hwire,
                List.append_assoc]
            -- this response has passed too
            have hpasses {sends : ℕ → Bool}
                (hsends : ∀ n < (handler.sent ++ [response.encode]).length, sends n = true) :
                (∀ n < handler.sent.length, sends n = true) ∧
                  sends handler.sent.length = true := by
              rw [List.length_append, List.length_singleton] at hsends
              exact ⟨fun n hn ↦ hsends n (by omega), hsends _ (by omega)⟩
            split at hstep
            · rename_i hlast
              obtain rfl := Option.some.inj hstep
              refine ⟨⟨rfl, hsent⟩, fun sends hsends ↦ ?_⟩
              obtain ⟨hbefore, hthis⟩ := hpasses hsends
              rw [← h.handled sends hbefore]
              simp [settle, ClientHandler.sendAll, hthis, hlast]
            · rename_i hlast
              obtain rfl := Option.some.inj hstep
              refine ⟨staged_proceed hopen hsent, fun sends hsends ↦ ?_⟩
              rw [(stage_proceed _ _).2.1] at hsends
              obtain ⟨hbefore, hthis⟩ := hpasses hsends
              rw [← h.handled sends hbefore, settle_proceed]
              simp [settle, ClientHandler.sendAll, hthis, hlast, hopen]
          · simp at hstep

theorem follows_run {events : List CallReturn}
    (hrun : run (step peer maxLineBytes) (start v) events = some c) :
    Follows peer maxLineBytes v (received events) c := by
  refine run_invariant (Q := fun _ _ ↦ True)
    (P := fun events (c : Conversation S) ↦ Follows peer maxLineBytes v (received events) c) ?_ ?_
    (along_of_forall (fun _ _ ↦ trivial) _ _) hrun
  · exact ⟨⟨rfl, rfl⟩, fun _ _ ↦ rfl⟩
  · intro past c e c' h _ hstep
    cases e with
    | received r =>
        have happend : received (past ++ [.received r]) = received past ++ [r] := by
          simp [received]
        rw [happend]
        exact h.receive hstep
    | sent r =>
        have happend : received (past ++ [.sent r]) = received past := by simp [received]
        rw [happend]
        exact h.send hstep

end Conversation

/-- However `recv` cuts the requests and `send` the responses: at any moment the handler is
where `handle` is when the client takes the responses that it has taken and no more, and the
client can read these and the beginning of the one that is being sent. -/
theorem conversation_refines_handle (peer : Peer S) (maxLineBytes : ℕ) (v : Server S)
    (events : List CallReturn) (c : Conversation S)
    (hrun : run (Conversation.step peer maxLineBytes) (.start v) events = some c) :
    { c.handler with closed := decide (c.stage ≠ .receiving) } =
        ClientHandler.handle
          { peer with sends := fun n ↦ decide (n < c.handler.sent.length) } maxLineBytes
          { server := v } (Conversation.received events) ∧
      ∃ part, c.wire = c.handler.sent.flatten ++ part ∧
        (c.stage = .receiving ∨ c.stage = .returned → part = []) ∧
        ∀ response left last,
          c.stage = .sending response left last ∨ c.stage = .broken response left last →
            left ≠ [] ∧ response.encode = part ++ left := by
  have h := Conversation.follows_run hrun
  have hstaged := h.staged
  rw [← h.handled _ (fun n hn ↦ decide_eq_true hn)]
  obtain ⟨handler, stage, wire⟩ := c
  cases stage with
  | receiving =>
      obtain ⟨hopen, hwire⟩ : handler.closed = false ∧ wire = handler.sent.flatten := hstaged
      refine ⟨?_, [], by simpa using hwire, by simp, by simp⟩
      simp [Conversation.settle, ← hopen]
  | returned =>
      obtain ⟨hclosed, hwire⟩ : handler.closed = true ∧ wire = handler.sent.flatten := hstaged
      refine ⟨?_, [], by simpa using hwire, by simp, by simp⟩
      simp [Conversation.settle, ← hclosed]
  | sending response left last | broken response left last =>
      obtain ⟨hopen, hleft, part, hencode, hwire⟩ : handler.closed = false ∧ left ≠ [] ∧
        ∃ part, response.encode = part ++ left ∧ wire = handler.sent.flatten ++ part := hstaged
      refine ⟨?_, part, hwire, by simp, ?_⟩
      · simp [Conversation.settle, ClientHandler.sendAll]
      · intro r l b hstage
        obtain ⟨rfl, rfl, rfl⟩ : response = r ∧ left = l ∧ last = b := by simpa using hstage
        exact ⟨hleft, hencode⟩

def firstChunk : Received := .chunk (ascii "SET b 1\nGE") (by decide) (by decide)

def secondChunk : Received := .chunk (ascii "T b\nPI") (by decide) (by decide)

/-- The client takes the first response in two pieces, one byte of the second, and is gone. -/
def leavingClient : List CallReturn :=
  [.received firstChunk, .sent (.took 3), .sent .interrupted, .sent (.took 2),
    .received .interrupted, .received secondChunk, .sent (.took 1), .sent .failed]

theorem conversation_refines_handle_leavingClient :
    ∃ c : Conversation oneShard,
      run (Conversation.step quietPeer 8) (.start ⟨{}, { enabled := false }, {}⟩) leavingClient =
          some c ∧
        c.wire = ascii "+OK\r\n$" ∧ c.handler.executed = 2 ∧
        { c.handler with closed := true } =
          ClientHandler.handle { quietPeer with sends := fun n ↦ decide (n < 1) } 8
            { server := ⟨{}, { enabled := false }, {}⟩ } (Conversation.received leavingClient) := by
  have hrun : (run (Conversation.step quietPeer 8) (.start ⟨{}, { enabled := false }, {}⟩)
      leavingClient).map (fun c ↦ decide (c.wire = ascii "+OK\r\n$" ∧ c.handler.executed = 2 ∧
        c.handler.sent.length = 1 ∧ c.stage ≠ .receiving)) = some true := by decide +kernel
  obtain ⟨c, hc, hvalues⟩ := Option.map_eq_some_iff.mp hrun
  obtain ⟨hwire, hexecuted, hsent, hstage⟩ := of_decide_eq_true hvalues
  obtain ⟨hhandled, -⟩ := conversation_refines_handle quietPeer 8 _ leavingClient c hc
  rw [decide_eq_true hstage, hsent] at hhandled
  exact ⟨c, hc, hwire, hexecuted, hhandled⟩

/-! ## What the client reads -/

/-- A connection to a server that other connections and the sweeps use too: `others n` is
what they do before its `n`-th command. -/
def Peer.among (others : ℕ → List Action) (env : ℕ → Environment) : Peer S where
  others n v := (others n).foldl Server.act v
  env := env

/-- The number of commands of the connection, and all that has been done, when these lines
have been answered. -/
def history (others : ℕ → List Action) (env : ℕ → Environment) (lines : List Bytes) :
    ℕ × List Action :=
  lines.foldl (fun past line ↦
    match parse line with
    | .error _ => past
    | .ok command =>
        (past.1 + 1, past.2 ++ others past.1 ++ [.command command (env past.1)])) (0, [])

/-- What a server that was started as `v` may answer to a line behind these lines: its parse
error, or what the command answers on the map that everything done before has left, or else
the failure of the records that the command has to write then. -/
def MayAnswer (v : Server S) (others : ℕ → List Action) (env : ℕ → Environment)
    (lines : List Bytes) (line : Bytes) (r : Response) : Prop :=
  match parse line with
  | .error e => r = .error e
  | .ok command =>
      let past := history others env lines
      let actions := past.2 ++ others past.1
      ((actions.foldl Server.act v).failure (env past.1) command).elim
        (Reference.Replies S v.persistence (env past.1)
          (actions.foldl Reference.act fun _ ↦ none) command r)
        fun e ↦ r = .error (ascii "persistence failure: " ++ e)

section
variable {others : ℕ → List Action} {env : ℕ → Environment}

theorem history_of_error {line e : Bytes} (h : parse line = .error e) (lines : List Bytes) :
    history others env (lines ++ [line]) = history others env lines := by
  simp [history, h]

theorem history_of_ok {line : Bytes} {command : Command} (h : parse line = .ok command)
    (lines : List Bytes) :
    history others env (lines ++ [line]) =
      ((history others env lines).1 + 1,
        (history others env lines).2 ++ others (history others env lines).1 ++
          [.command command (env (history others env lines).1)]) := by
  simp [history, h]

theorem serve_concat (peer : Peer S) (x : Exchange S) (lines : List Bytes) (line : Bytes) :
    x.serve peer (lines ++ [line]) = (x.serve peer lines).next peer line := by
  simp [Exchange.serve]

/-- The server is used by the actions of the history, one after another. -/
theorem serve_among (v : Server S) (lines : List Bytes) :
    (Exchange.serve (.among others env) { server := v } lines).server =
        (history others env lines).2.foldl Server.act v ∧
      (Exchange.serve (.among others env) { server := v } lines).executed =
        (history others env lines).1 := by
  induction lines using List.reverseRecOn with
  | nil => exact ⟨rfl, rfl⟩
  | append_singleton lines line ih =>
      obtain ⟨hserver, hexecuted⟩ := ih
      rw [serve_concat]
      cases hparse : parse line with
      | error e =>
          rw [history_of_error hparse]
          simp only [Exchange.next, Exchange.answer, hparse, Except.isOk, Except.toBool]
          exact ⟨hserver, hexecuted⟩
      | ok command =>
          rw [history_of_ok hparse]
          simp only [Exchange.next, Exchange.answer, hparse, hserver, hexecuted, Except.isOk,
            Except.toBool, List.foldl_append, List.foldl_cons, List.foldl_nil]
          exact ⟨rfl, rfl⟩

theorem mayAnswer_serve (log : AppendOnlyFile) (disk : Disk) (lines : List Bytes)
    (line : Bytes) :
    MayAnswer (⟨{}, log, disk⟩ : Server S) others env lines line
      ((Exchange.serve (.among others env) { server := (⟨{}, log, disk⟩ : Server S) }
        lines).answer (.among others env) line).1 := by
  rw [MayAnswer, Exchange.answer]
  cases hparse : parse line with
  | error e => rfl
  | ok command =>
      obtain ⟨hserver, hexecuted⟩ := @serve_among S others env ⟨{}, log, disk⟩ lines
      have hrefines := Reference.refines_foldl S log disk
        ((history others env lines).2 ++ others (history others env lines).1)
      have hanswers := hrefines.answers (env (history others env lines).1) command
      dsimp only
      rw [hserver, hexecuted]
      rw [List.foldl_append] at hanswers ⊢
      exact hanswers

/-- A longer conversation begins like a shorter one. -/
theorem prefix_sent_serve (peer : Peer S) (x : Exchange S) (lines more : List Bytes) :
    (x.serve peer lines).sent <+: (x.serve peer (lines ++ more)).sent := by
  have happend : x.serve peer (lines ++ more) = (x.serve peer lines).serve peer more :=
    List.foldl_append
  rw [happend, Exchange.sent_serve peer _ more]
  exact List.prefix_append _ _

end

namespace ClientHandler

variable {peer : Peer S} {maxLineBytes : ℕ}

theorem prefix_sent_handleLine (h : ClientHandler S) (line : Bytes) :
    h.sent <+: (h.handleLine peer maxLineBytes line).sent := by
  have hsendAll (h : ClientHandler S) (r : Response) : h.sent <+: (h.sendAll peer r).sent := by
    unfold sendAll
    split
    · exact List.prefix_append _ _
    · exact List.prefix_refl _
  obtain ⟨-, hsent, -⟩ := @request_spec _ peer maxLineBytes h line
  rw [← hsent, handleLine_eq_request]
  split <;> exact hsendAll _ _

/-- Responses are only added. -/
theorem prefix_sent_drain (h : ClientHandler S) :
    h.sent <+: (h.drain peer maxLineBytes).sent := by
  fun_induction drain peer maxLineBytes h with
  | case1 h hcut => exact List.prefix_refl _
  | case2 h line rest hcut next hclosed =>
      exact prefix_sent_handleLine { h with buffer := rest } line
  | case3 h line rest hcut next hnext ih =>
      exact (prefix_sent_handleLine { h with buffer := rest } line).trans ih

/-- An input that may end, or break off. -/
theorem sent_handle (hsends : ∀ n, peer.sends n = true) (hqueues : ∀ n, peer.queues n = true)
    (v : Server S) (input : List Received)
    (hlines : ∀ line ∈ (splitLines newline (input.flatMap Received.bytes)).1,
      line.length ≤ maxLineBytes)
    (hrest : (splitLines newline (input.flatMap Received.bytes)).2.length ≤ maxLineBytes) :
    ((handle peer maxLineBytes { server := v } input).closed = false →
        After peer v (input.flatMap Received.bytes)
          (handle peer maxLineBytes { server := v } input)) ∧
      (handle peer maxLineBytes { server := v } input).sent <+:
        (Exchange.serve peer { server := v }
          (splitLines newline (input.flatMap Received.bytes)).1).sent := by
  induction input using List.reverseRecOn with
  | nil => exact ⟨fun _ ↦ rfl, List.prefix_refl _⟩
  | append_singleton input r ih =>
      rw [List.flatMap_append, List.flatMap_singleton] at hlines hrest ⊢
      have hpast : ∀ line ∈ (splitLines newline (input.flatMap Received.bytes)).1,
          line.length ≤ maxLineBytes := by
        intro line hline
        apply hlines line
        rw [splitLines_append]
        exact List.mem_append_left _ hline
      obtain ⟨hafter, hsent⟩ := ih hpast (length_splitLines_snd_le hlines hrest)
      rw [handle_concat]
      cases hclosed : (handle peer maxLineBytes { server := v } input).closed with
      | true =>
          rw [if_pos rfl, splitLines_append]
          exact ⟨by simp [hclosed], hsent.trans (prefix_sent_serve peer _ _ _)⟩
      | false =>
          rw [if_neg (by simp)]
          have hbefore := hafter hclosed
          cases hr : r.isOpen with
          | true =>
              have hnow := after_receive hsends hqueues hbefore hr hlines hrest
              refine ⟨fun _ ↦ hnow, ?_⟩
              rw [hnow]
          | false =>
              cases r with
              | chunk | interrupted => simp [Received.isOpen] at hr
              | endOfInput | failed =>
                  refine ⟨by simp [receive], ?_⟩
                  rw [Received.bytes, List.append_nil]
                  exact hsent

end ClientHandler

/-- The bytes on the wire are the beginning of what the abstract handler sends. -/
theorem Conversation.Follows.wire_begins {peer : Peer S} {maxLineBytes : ℕ} {v : Server S}
    {input : List Received} {c : Conversation S} (h : Follows peer maxLineBytes v input c) :
    let done := ClientHandler.handle { peer with sends := fun _ ↦ true } maxLineBytes
      { server := v } input
    c.wire <+: done.sent.flatten ∧
      (c.stage = .receiving → done.closed = false ∧ c.wire = done.sent.flatten) := by
  intro done
  have hdone : c.settle { peer with sends := fun _ ↦ true } maxLineBytes = done :=
    h.handled (fun _ ↦ true) fun _ _ ↦ rfl
  have hstaged := h.staged
  rw [← hdone]
  obtain ⟨handler, stage, wire⟩ := c
  cases stage with
  | receiving =>
      obtain ⟨hopen, rfl⟩ : handler.closed = false ∧ wire = handler.sent.flatten := hstaged
      exact ⟨List.prefix_refl _, fun _ ↦ ⟨hopen, rfl⟩⟩
  | returned =>
      obtain ⟨-, rfl⟩ : handler.closed = true ∧ wire = handler.sent.flatten := hstaged
      exact ⟨List.prefix_refl _, by simp⟩
  | sending response left last | broken response left last =>
      obtain ⟨hopen, -, part, hencode, hwire⟩ : handler.closed = false ∧ left ≠ [] ∧
        ∃ part, response.encode = part ++ left ∧ wire = handler.sent.flatten ++ part := hstaged
      refine ⟨?_, by simp⟩
      -- the response is sent as a whole, and others may follow
      have hsent : handler.sent ++ [response.encode] <+:
          (settle { peer with sends := fun _ ↦ true } maxLineBytes
            ⟨handler, .sending response left last, wire⟩).sent := by
        cases last with
        | true => simp [settle, ClientHandler.sendAll]
        | false =>
            simp only [settle, ClientHandler.sendAll, hopen, if_true, Bool.false_eq_true, if_false]
            exact @ClientHandler.prefix_sent_drain _ _ _
              { handler with sent := handler.sent ++ [response.encode], closed := false }
      obtain ⟨more, hmore⟩ := hsent
      refine ⟨left ++ more.flatten, ?_⟩
      change _ = (settle { peer with sends := fun _ ↦ true } maxLineBytes
        ⟨handler, .sending response left last, wire⟩).sent.flatten
      rw [← hmore, hwire]
      simp [hencode]

namespace Response

/-- Whoever reads plain responses from the beginning of a stream reads those it consists of. -/
theorem prefix_of_stream {rs rs' : List Response} {text part : Bytes} (hrs : ∀ r ∈ rs, r.Plain)
    (hrs' : ∀ r ∈ rs', r.Plain) (htext : text <+: rs.flatMap encode)
    (hread : text = rs'.flatMap encode ++ part) : rs' <+: rs := by
  obtain ⟨more, hmore⟩ := htext
  subst hread
  rw [List.append_assoc] at hmore
  generalize part ++ more = rest at hmore
  induction rs' generalizing rs with
  | nil => exact List.nil_prefix
  | cons r' rs' ih =>
      cases rs with
      | nil => simp [encode_ne_nil] at hmore
      | cons r rs =>
          rw [List.flatMap_cons, List.flatMap_cons, List.append_assoc] at hmore
          obtain ⟨hsame, htail⟩ := @PrefixFree.rest _ _ _ prefixFree_encode
            ⟨r', hrs' r' (by simp)⟩ ⟨r, hrs r (by simp)⟩ _ _ hmore
          obtain rfl := congrArg Subtype.val hsame
          rw [List.prefix_cons_inj]
          exact ih (fun r hr ↦ hrs r (List.mem_cons_of_mem _ hr))
            (fun r hr ↦ hrs' r (List.mem_cons_of_mem _ hr)) htail

end Response

/-- A client of a server without a key limit, among other clients, whose lines are not too
long and whose commands are all queued.  Whatever the network does to the requests and to
the responses, the client has read the beginning of one answer to each of its lines, in
their order, and all of it whenever the server waits for more; each is the answer on the map
that all commands before it have left, or the failure of its own records.  There is one way
only to read it. -/
theorem client_reads_answers (log : AppendOnlyFile) (disk : Disk)
    (others : ℕ → List Action) (env : ℕ → Environment) (maxLineBytes : ℕ)
    (events : List CallReturn) (c : Conversation S)
    (hrun : run (Conversation.step (.among others env) maxLineBytes)
      (.start ⟨{}, log, disk⟩) events = some c)
    (hlines : ∀ line ∈ (splitLines newline
      ((Conversation.received events).flatMap Received.bytes)).1, line.length ≤ maxLineBytes)
    (hrest : (splitLines newline
      ((Conversation.received events).flatMap Received.bytes)).2.length ≤ maxLineBytes) :
    let lines := (splitLines newline ((Conversation.received events).flatMap Received.bytes)).1
    ∃ answers : List Response, answers.length = lines.length ∧
      (∀ i line, lines[i]? = some line →
        ∃ r, answers[i]? = some r ∧
          MayAnswer (⟨{}, log, disk⟩ : Server S) others env (lines.take i) line r) ∧
      c.wire <+: answers.flatMap Response.encode ∧
      (c.stage = .receiving → c.wire = answers.flatMap Response.encode) ∧
      ∀ rs part, (∀ r ∈ answers ++ rs, r.Plain) → c.wire = rs.flatMap Response.encode ++ part →
        rs <+: answers := by
  intro lines
  let x : Exchange S := { server := ⟨{}, log, disk⟩ }
  let answers := lines.mapIdx fun i line ↦
    ((x.serve (.among others env) (lines.take i)).answer (.among others env) line).1
  have hideal : (x.serve (.among others env) lines).sent.flatten =
      answers.flatMap Response.encode := by
    rw [Exchange.sent_serve, List.flatMap_def]
    simp only [answers, TtlMap.map_mapIdx]
    rfl
  obtain ⟨hbegins, hreceiving⟩ := (Conversation.follows_run hrun).wire_begins
  obtain ⟨hafter, hsent⟩ := @ClientHandler.sent_handle S (.among others env) maxLineBytes
    (fun _ ↦ rfl) (fun _ ↦ rfl) ⟨{}, log, disk⟩ (Conversation.received events) hlines hrest
  have hwire : c.wire <+: answers.flatMap Response.encode := by
    obtain ⟨more, hmore⟩ := hsent
    rw [← hideal, ← hmore, List.flatten_append]
    exact hbegins.trans (List.prefix_append _ _)
  refine ⟨answers, by simp [answers], ?_, hwire, ?_, ?_⟩
  · intro i line hline
    exact ⟨_, by rw [List.getElem?_mapIdx, hline, Option.map_some], mayAnswer_serve log disk _ _⟩
  · intro hstage
    obtain ⟨hopen, hall⟩ := hreceiving hstage
    have hdone := congrArg (fun h : ClientHandler S ↦ h.sent.flatten) (hafter hopen)
    exact hall.trans (hdone.trans hideal)
  · intro rs part hplain hread
    exact Response.prefix_of_stream (fun r hr ↦ hplain r (List.mem_append_left _ hr))
      (fun r hr ↦ hplain r (List.mem_append_right _ hr)) hwire hread

/-- Another client sets the key in between. -/
def otherSets : ℕ → List Action
  | 1 => [.command ⟨.set, [ascii "b", ascii "2"]⟩ (.at ⟨0, epoch_nonneg⟩)]
  | _ => []

/-- The client takes the first response in two pieces and is in the middle of the second. -/
def patientClient : List CallReturn :=
  [.received firstChunk, .sent (.took 3), .sent .interrupted, .sent (.took 2),
    .received secondChunk, .sent (.took 5)]

theorem client_reads_answers_patientClient :
    ∃ c : Conversation oneShard,
      run (Conversation.step (.among otherSets fun _ ↦ .at ⟨0, epoch_nonneg⟩) 8)
          (.start ⟨{}, { enabled := false }, {}⟩) patientClient = some c ∧
        c.wire = ascii "+OK\r\n$1\r\n2" ∧
        ∃ answers : List Response, answers.length = 2 ∧ c.wire <+: answers.flatMap Response.encode ∧
          ∃ r, answers[1]? = some r ∧
            MayAnswer (⟨{}, { enabled := false }, {}⟩ : Server oneShard) otherSets
              (fun _ ↦ .at ⟨0, epoch_nonneg⟩) [ascii "SET b 1"] (ascii "GET b") r := by
  have hsplit : splitLines newline
      ((Conversation.received patientClient).flatMap Received.bytes) =
        ([ascii "SET b 1", ascii "GET b"], ascii "PI") := by decide +kernel
  have hrun : (run (Conversation.step (.among otherSets fun _ ↦ .at ⟨0, epoch_nonneg⟩) 8)
      (.start (⟨{}, { enabled := false }, {}⟩ : Server oneShard)) patientClient).map
        Conversation.wire = some (ascii "+OK\r\n$1\r\n2") := by decide +kernel
  obtain ⟨c, hc, hwire⟩ := Option.map_eq_some_iff.mp hrun
  have hreads := client_reads_answers { enabled := false } {} otherSets
    (fun _ ↦ .at ⟨0, epoch_nonneg⟩) 8 patientClient c hc (by rw [hsplit]; decide)
    (by rw [hsplit]; decide)
  rw [hsplit] at hreads
  obtain ⟨answers, hlength, hanswers, hbegins, -⟩ := hreads
  exact ⟨c, hc, hwire, answers, hlength, hbegins, hanswers 1 (ascii "GET b") rfl⟩

end ByteCacheDB
