import Belcoin.Lib.Bytes
import Belcoin.Transaction

/-!
One end of what carries the messages: a `TcpConnection`.

A message is pickled, compressed and put behind its length. The socket takes and gives
bytes in pieces of any size, so an end keeps what has not been taken and what is not yet a
whole message.

`processParseMessage_frame` and `processParseMessage_part` are about the frames that `send`
makes, `Writes` says what an end that sends leaves as it was. `connection_returns` is about
any bytes at all.
-/

namespace Belcoin.SyncObj

open ByteString

/-! ### Frames -/

/-- `struct.pack('i', n)` raises where a C `int` ends. -/
def packInt (n : Nat) : Option Bytes :=
  if n < 2 ^ 31 then some (littleEndian 4 n) else none

/-- `struct.unpack('i', bytes)[0]` -/
def unpackInt (bytes : Bytes) : Int :=
  if ofLittleEndian bytes < 2 ^ 31 then ofLittleEndian bytes else ofLittleEndian bytes - 2 ^ 32

/-- `zlib.compress(pickle.dumps(message), 3)` and `pickle.loads(zlib.decompress(data))`,
which raises on what is no such thing. A message that is `None` is `none`. -/
structure Format (M : Type) where
  dumps : Option M → Bytes
  loads : Bytes → Option (Option M)
  loads_dumps : ∀ message, loads (dumps message) = some message
  loads_nil : loads [] = none

/-! ### One end -/

inductive ConnectionState where
  | disconnected
  | connecting
  | connected
  deriving DecidableEq, Repr

structure TcpConnection (M : Type) where
  state : ConnectionState
  /-- There is a socket, and the poller reports what happens to it. -/
  socket : Bool
  readBuffer : Bytes
  writeBuffer : Bytes
  /-- Whether the poller reports that the socket takes bytes. -/
  watched : Bool
  /-- All that has been sent, and what the socket has taken of it. -/
  sent : List M
  written : Bytes
  /-- All that the socket has given, and what has been handed up of it. -/
  taken : Bytes
  handed : List M
  deriving DecidableEq, Repr

/-- What `socket.send` does. -/
inductive Sending where
  | took (n : Nat)
  | blocked
  | failed
  deriving DecidableEq, Repr

/-- What `socket.recv` gives, and whether `SO_ERROR` is set after it. -/
inductive Receiving where
  | got (incoming : Bytes) (soError : Bool)
  | blocked
  | failed
  deriving DecidableEq, Repr

/-- What a callback does to the connection. -/
inductive Call (M : Type) where
  | send (message : M) (sendings : List Sending)
  | disconnect
  deriving DecidableEq, Repr

/-- What the poller reports, and what happens while it is handled. -/
structure PollEvent (M : Type) where
  read : Bool
  write : Bool
  error : Bool
  soError : Bool
  /-- Nothing has been read for longer than `timeout`. -/
  expired : Bool
  sendings : List Sending
  receivings : List Receiving
  onConnected : List (Call M)
  /-- What the `n`th message that is handed up is answered with. -/
  onMessageReceived : Nat → List (Call M)

/-- The bytes that the socket gives. -/
def Receiving.incoming : Receiving → Bytes
  | .got incoming _ => incoming
  | _ => []

namespace TcpConnection

variable {M : Type}

/-- A connection that has been accepted, or one that `connect` has begun. -/
def opened (state : ConnectionState) : TcpConnection M :=
  ⟨state, true, [], [], true, [], [], [], []⟩

def disconnect (c : TcpConnection M) : TcpConnection M :=
  { c with
    state := .disconnected
    socket := false
    readBuffer := []
    writeBuffer := []
    watched := false }

/-- `__processSend`, and whether it goes on. -/
def processSend (c : TcpConnection M) (sending : Sending) : TcpConnection M × Bool :=
  if c.writeBuffer = [] then (c, false)
  else match sending with
    | .took n =>
        if n = 0 then (c, false)
        else ({ c with
          writeBuffer := c.writeBuffer.drop n
          written := c.written ++ c.writeBuffer.take n }, true)
    | .blocked => (c, false)
    | .failed => (c.disconnect, false)

def trySendBuffer (c : TcpConnection M) : List Sending → TcpConnection M
  | [] => c
  | sending :: sendings =>
      let (c, more) := c.processSend sending
      if more then c.trySendBuffer sendings else c

/-- `__processRead`, and whether it goes on. -/
def processRead (c : TcpConnection M) : Receiving → TcpConnection M × Bool
  | .got incoming soError =>
      if soError then (c.disconnect, false)
      else if incoming = [] then (c.disconnect, false)
      else ({ c with
        readBuffer := c.readBuffer ++ incoming
        taken := c.taken ++ incoming }, true)
  | .blocked => (c, false)
  | .failed => (c.disconnect, false)

def tryReadBuffer (c : TcpConnection M) : List Receiving → TcpConnection M
  | [] => c
  | receiving :: receivings =>
      let (c, more) := c.processRead receiving
      if more then c.tryReadBuffer receivings else c

variable (format : Format M)

/-- `send` raises when a frame is too long. -/
def send (message : M) (sendings : List Sending) (c : TcpConnection M) :
    Option (TcpConnection M) := do
  let data := format.dumps (some message)
  let head ← packInt data.length
  some (trySendBuffer { c with
    writeBuffer := c.writeBuffer ++ (head ++ data)
    sent := c.sent ++ [message] } sendings)

/-- `__processParseMessage`: the next message, if all of it is here. -/
def processParseMessage (c : TcpConnection M) : Option M × TcpConnection M :=
  if c.readBuffer.length < 4 then (none, c)
  else
    let l := unpackInt (c.readBuffer.take 4)
    if (c.readBuffer.length : Int) - 4 < l then (none, c)
    else match format.loads (slice c.readBuffer 4 (4 + l)) with
      | none => (none, c.disconnect)
      | some message => (message, { c with readBuffer := sliceFrom c.readBuffer (4 + l) })

/-- A node calls `send` on a connection that it holds for connected. -/
def call (c : TcpConnection M) : Call M → Option (TcpConnection M)
  | .send message sendings => if c.socket then c.send format message sendings else some c
  | .disconnect => some c.disconnect

/-- The loop that hands up messages. There is no end of it but by what it returns, so
`fuel` has to be enough. -/
def parseMessages (calls : Nat → List (Call M)) : Nat → TcpConnection M → Option (TcpConnection M)
  | 0, _ => none
  | fuel + 1, c =>
      match c.processParseMessage format with
      | (none, c) => some c
      | (some message, c) => do
          let c := { c with handed := c.handed ++ [message] }
          let c ← (calls c.handed.length).foldlM (call format) c
          if c.state = .disconnected then some c else parseMessages calls fuel c

/-- What `__processConnection` does about `WRITE`. -/
def flush (event : PollEvent M) (c : TcpConnection M) : TcpConnection M :=
  if event.write then { c.trySendBuffer event.sendings with
    watched := (c.trySendBuffer event.sendings).socket &&
      (c.trySendBuffer event.sendings).writeBuffer ≠ [] }
  else c

/-- What it does about `READ`. -/
def receive (event : PollEvent M) (c : TcpConnection M) : Option (TcpConnection M) :=
  if event.read then
    let c := c.tryReadBuffer event.receivings
    if c.state = .disconnected then some c
    else parseMessages format event.onMessageReceived (c.readBuffer.length + 1) c
  else some c

/-- `__processConnection` -/
def processConnection (c : TcpConnection M) (event : PollEvent M) : Option (TcpConnection M) :=
  if c.socket = false then some c
  else if event.error || event.expired then some c.disconnect
  else if (event.read || event.write) && event.soError then some c.disconnect
  else if (event.read || event.write) && c.state = .connecting then do
    let c ← event.onConnected.foldlM (call format) c
    some { c with state := .connected }
  else if event.write && (c.flush event).state = .disconnected then some (c.flush event)
  else (c.flush event).receive format event

end TcpConnection

/-! ### Frames of messages -/

namespace Format

variable {M : Type} (format : Format M)

/-- What `send` puts into the buffer. -/
def frame (message : M) : Bytes :=
  littleEndian 4 (format.dumps (some message)).length ++ format.dumps (some message)

def frames (messages : List M) : Bytes :=
  messages.flatMap format.frame

theorem frames_concat (messages : List M) (message : M) :
    format.frames (messages ++ [message]) = format.frames messages ++ format.frame message := by
  simp [frames]

/-- A message that `send` takes. -/
def Fits (message : M) : Prop :=
  (format.dumps (some message)).length < 2 ^ 31

end Format

/-- A call that does not raise. -/
def Call.Fits {M : Type} (format : Format M) : Call M → Prop
  | .send message _ => format.Fits message
  | .disconnect => True

theorem unpackInt_pack {n : Nat} (small : n < 2 ^ 31) : unpackInt (littleEndian 4 n) = n := by
  rw [unpackInt, ofLittleEndian_littleEndian (by omega), if_pos small]

namespace TcpConnection

variable {M : Type} {format : Format M} {c c' : TcpConnection M} {message : M}

theorem send_eq {sendings : List Sending} (sends : c.send format message sendings = some c') :
    format.Fits message ∧ c' = trySendBuffer { c with
      writeBuffer := c.writeBuffer ++ format.frame message
      sent := c.sent ++ [message] } sendings := by
  by_cases fits : (format.dumps (some message)).length < 2 ^ 31
  · rw [send, packInt, if_pos fits] at sends
    exact ⟨fits, (Option.some.inj sends).symm⟩
  · rw [send, packInt, if_neg fits] at sends
    cases sends

/-- A whole message is taken out of the buffer. -/
theorem processParseMessage_frame (fits : format.Fits message) {rest : Bytes}
    (buffer : c.readBuffer = format.frame message ++ rest) :
    c.processParseMessage format = (some message, { c with readBuffer := rest }) := by
  obtain ⟨data, pickled⟩ : ∃ data, data = format.dumps (some message) := ⟨_, rfl⟩
  rw [Format.Fits, ← pickled] at fits
  rw [Format.frame, List.append_assoc, ← pickled] at buffer
  have loads : format.loads data = some (some message) := pickled ▸ format.loads_dumps _
  have head : c.readBuffer.take 4 = littleEndian 4 data.length := by
    rw [buffer, List.take_left' (length_littleEndian _ _)]
  have length : c.readBuffer.length = 4 + (data.length + rest.length) := by
    rw [buffer, List.length_append, length_littleEndian, List.length_append]
  have middle : slice c.readBuffer 4 (4 + data.length) = data := by
    have := slice_middle (littleEndian 4 data.length) data rest
    rw [length_littleEndian, ← buffer] at this
    exact_mod_cast this
  have after : sliceFrom c.readBuffer (4 + data.length) = rest := by
    have := sliceFrom_append (littleEndian 4 data.length ++ data) rest
    rw [List.length_append, length_littleEndian, List.append_assoc, ← buffer] at this
    exact_mod_cast this
  rw [processParseMessage, if_neg (by omega), head, unpackInt_pack fits]
  simp only [middle, after, loads]
  rw [if_neg (by omega)]

/-- A part of one waits. -/
theorem processParseMessage_part (fits : format.Fits message)
    (part : c.readBuffer <+: format.frame message)
    (short : c.readBuffer.length < (format.frame message).length) :
    c.processParseMessage format = (none, c) := by
  rw [processParseMessage]
  split
  · rfl
  · rename_i longer
    rw [Format.frame, List.length_append, length_littleEndian] at short
    have head : c.readBuffer.take 4 = littleEndian 4 (format.dumps (some message)).length := by
      rw [List.prefix_iff_eq_take.mp part, List.take_take, min_eq_left (by omega), Format.frame,
        List.take_left' (length_littleEndian _ _)]
    rw [head, unpackInt_pack fits, if_pos (by omega)]

end TcpConnection

/-! ### What each step leaves -/

namespace TcpConnection

variable {M : Type} {format : Format M} {c c' c'' : TcpConnection M} {messages : List M}

/-- What has been sent stays so. -/
structure Grows (c c' : TcpConnection M) : Prop where
  sent : c.sent <+: c'.sent
  written : c.written <+: c'.written

/-- What sends takes nothing from the socket. -/
structure Writes (c c' : TcpConnection M) : Prop extends Grows c c' where
  taken : c'.taken = c.taken
  buffer : c'.readBuffer = c.readBuffer ∨ c'.readBuffer = []
  closes : c.socket = true ∨ c.state = .disconnected → c'.socket = true ∨ c'.state = .disconnected

theorem Grows.trans (first : Grows c c') (second : Grows c' c'') : Grows c c'' :=
  ⟨first.sent.trans second.sent, first.written.trans second.written⟩

theorem Writes.refl (c : TcpConnection M) : Writes c c :=
  ⟨⟨List.prefix_rfl, List.prefix_rfl⟩, rfl, .inl rfl, id⟩

theorem Writes.trans (first : Writes c c') (second : Writes c' c'') : Writes c c'' where
  toGrows := first.toGrows.trans second.toGrows
  taken := second.taken.trans first.taken
  buffer := by
    rcases second.buffer with same | empty
    · rw [same]
      exact first.buffer
    · exact .inr empty
  closes := second.closes ∘ first.closes

theorem writes_disconnect (c : TcpConnection M) : Writes c c.disconnect :=
  ⟨⟨List.prefix_rfl, List.prefix_rfl⟩, rfl, .inr rfl, fun _ => .inr rfl⟩

theorem writes_processSend (c : TcpConnection M) (sending : Sending) :
    Writes c (c.processSend sending).1 := by
  rw [TcpConnection.processSend.eq_def]
  split
  · exact .refl c
  cases sending with
  | took n =>
      dsimp only
      split
      · exact .refl c
      · exact ⟨⟨List.prefix_rfl, List.prefix_append _ _⟩, rfl, .inl rfl, id⟩
  | blocked => exact .refl c
  | failed => exact writes_disconnect c

theorem trySendBuffer_cons (c : TcpConnection M) (sending : Sending) (sendings : List Sending) :
    c.trySendBuffer (sending :: sendings) = if (c.processSend sending).2 then
      (c.processSend sending).1.trySendBuffer sendings else (c.processSend sending).1 := rfl

theorem writes_trySendBuffer (c : TcpConnection M) (sendings : List Sending) :
    Writes c (c.trySendBuffer sendings) := by
  induction sendings generalizing c with
  | nil => exact .refl c
  | cons sending sendings ih =>
      rw [trySendBuffer_cons]
      split
      · exact (writes_processSend c sending).trans (ih _)
      · exact writes_processSend c sending

theorem writes_call {call : Call M} (calls : c.call format call = some c') : Writes c c' := by
  cases call with
  | send message sendings =>
      rw [TcpConnection.call] at calls
      split at calls
      · obtain ⟨_, rfl⟩ := send_eq calls
        have wrote := writes_trySendBuffer { c with
          writeBuffer := c.writeBuffer ++ format.frame message
          sent := c.sent ++ [message] } sendings
        exact { wrote with sent := (List.prefix_append _ _).trans wrote.sent }
      · cases calls
        exact .refl c
  | disconnect =>
      cases calls
      exact writes_disconnect c

theorem writes_calls {calls : List (Call M)}
    (run : calls.foldlM (TcpConnection.call format) c = some c') : Writes c c' := by
  induction calls generalizing c with
  | nil =>
      cases run
      exact .refl _
  | cons call calls ih =>
      rw [List.foldlM_cons] at run
      obtain ⟨_, first, rest⟩ := Option.bind_eq_some_iff.mp run
      exact (writes_call first).trans (ih rest)

theorem writes_flush (c : TcpConnection M) (event : PollEvent M) : Writes c (c.flush event) := by
  rw [TcpConnection.flush]
  split
  · exact { writes_trySendBuffer c event.sendings with }
  · exact .refl c

/-! ### Any bytes -/

/-- What a message that is parsed leaves is shorter. -/
theorem processParseMessage_shorter {message : M}
    (parsed : c.processParseMessage format = (some message, c')) :
    c'.readBuffer.length < c.readBuffer.length := by
  rw [processParseMessage] at parsed
  split at parsed
  · cases parsed
  dsimp only at parsed
  split at parsed
  · cases parsed
  split at parsed
  · cases parsed
  · rename_i loads
    cases parsed
    refine length_sliceFrom_lt 4 fun empty => ?_
    rw [empty, format.loads_nil] at loads
    cases loads

theorem call_returns {call : Call M} (fits : call.Fits format) (c : TcpConnection M) :
    ∃ c', c.call format call = some c' := by
  cases call with
  | send message sendings =>
      rw [TcpConnection.call]
      split
      · have small : (format.dumps (some message)).length < 2 ^ 31 := fits
        rw [TcpConnection.send, packInt, if_pos small]
        exact ⟨_, rfl⟩
      · exact ⟨_, rfl⟩
  | disconnect => exact ⟨_, rfl⟩

theorem calls_returns {calls : List (Call M)} (fits : ∀ call ∈ calls, call.Fits format)
    (c : TcpConnection M) : ∃ c', calls.foldlM (TcpConnection.call format) c = some c' := by
  induction calls generalizing c with
  | nil => exact ⟨c, rfl⟩
  | cons call calls ih =>
      obtain ⟨c₁, called⟩ := call_returns (fits call (by simp)) c
      obtain ⟨c₂, rest⟩ := ih (fun other mem => fits other (by simp [mem])) c₁
      exact ⟨c₂, by rw [List.foldlM_cons, called]; exact rest⟩

/-- The loop ends: each message that it hands up takes bytes out of the buffer, and nothing
that it hands it up to puts any in. -/
theorem parseMessages_returns {calls : Nat → List (Call M)}
    (fits : ∀ n, ∀ call ∈ calls n, call.Fits format) {fuel : Nat}
    (enough : c.readBuffer.length < fuel) :
    ∃ c', TcpConnection.parseMessages format calls fuel c = some c' := by
  induction fuel generalizing c with
  | zero => omega
  | succ fuel ih =>
      rw [TcpConnection.parseMessages]
      split
      · exact ⟨_, rfl⟩
      · rename_i message c₁ parsed
        have shorter := processParseMessage_shorter parsed
        obtain ⟨c₂, called⟩ := calls_returns (fits (c₁.handed ++ [message]).length)
          { c₁ with handed := c₁.handed ++ [message] }
        have wrote := writes_calls called
        have less : c₂.readBuffer.length ≤ c₁.readBuffer.length := by
          rcases wrote.buffer with same | empty
          · exact (congrArg List.length same).le
          · simp [empty]
        simp only [called, Option.bind_eq_bind, Option.bind_some]
        split
        · exact ⟨_, rfl⟩
        · exact ih (by omega)

theorem receive_returns {event : PollEvent M}
    (fits : ∀ n, ∀ call ∈ event.onMessageReceived n, call.Fits format) (c : TcpConnection M) :
    ∃ c', c.receive format event = some c' := by
  rw [TcpConnection.receive]
  split
  · dsimp only
    split
    · exact ⟨_, rfl⟩
    · exact parseMessages_returns fits (Nat.lt_succ_self _)
  · exact ⟨_, rfl⟩

end TcpConnection

/-! ### Every event -/

/-- A mark, and the byte behind it. -/
def byteFormat : Format UInt8 where
  dumps
    | none => [0]
    | some byte => [1, byte]
  loads
    | [_] => some none
    | [_, byte] => some (some byte)
    | _ => none
  loads_dumps
    | none => rfl
    | some _ => rfl
  loads_nil := rfl

/-- Nothing happens. -/
def quiet : PollEvent UInt8 := ⟨false, false, false, false, false, [], [], [], fun _ => []⟩

section Events

variable {M : Type} {format : Format M}

/-- **Every event is handled** to its end, whatever bytes the other end has sent. A length
below zero counts from the end of the buffer, and even that leaves less in it. -/
theorem connection_returns {event : PollEvent M}
    (connects : ∀ call ∈ event.onConnected, call.Fits format)
    (answers : ∀ n, ∀ call ∈ event.onMessageReceived n, call.Fits format) (c : TcpConnection M) :
    (c.processConnection format event).isSome := by
  rw [Option.isSome_iff_exists, TcpConnection.processConnection]
  split
  · exact ⟨_, rfl⟩
  split
  · exact ⟨_, rfl⟩
  split
  · exact ⟨_, rfl⟩
  split
  · obtain ⟨c₁, called⟩ := TcpConnection.calls_returns connects c
    rw [called]
    exact ⟨_, rfl⟩
  split
  · exact ⟨_, rfl⟩
  · exact TcpConnection.receive_returns answers _

/-- The bytes of a length of minus five: the message ends one byte before the buffer does. -/
def stray : PollEvent UInt8 :=
  { quiet with
    read := true
    receivings := [.got [251, 255, 255, 255, 1, 7, 2] false, .blocked]
    onMessageReceived := fun _ => [.send 7 []] }

theorem connection_returns_byte :
    ((TcpConnection.opened .connected).processConnection byteFormat stray).isSome :=
  connection_returns (fun _ mem => by cases mem)
    (fun _ _ mem => List.mem_singleton.mp mem ▸ (by decide : 2 < 2 ^ 31)) (.opened .connected)

end Events

end Belcoin.SyncObj
