import Belcoin.Lib.Machine
import Belcoin.SyncObj.TcpConnection

/-!
Both ends of a connection.

Of TCP it is assumed that what an end has been given is a start of what the other end's
socket has taken (`Connection.Steps`). `Sound` is what holds of an end between two events,
whatever its peer has sent by then, and `InOrder` of both ends. From it `connection_in_order`
and `connection_prompt`: what is handed up is what was sent, in order, as far as all its
bytes have come.
-/

namespace Belcoin.SyncObj

/-! ### Both ends -/

/-- By end. -/
abbrev Connection (M : Type) := Bool → TcpConnection M

inductive Turn (M : Type) where
  | poll (i : Bool) (event : PollEvent M)
  | call (i : Bool) (call : Call M)

namespace Connection

variable {M : Type} (format : Format M)

/-- An end is told of room to write while it is watched for it, and is given what the socket
of the other end has taken. -/
def Steps (c : Connection M) : Turn M → Connection M → Prop
  | .poll i event, c' => (event.write → (c i).watched) ∧
      (c i).taken ++ event.receivings.flatMap Receiving.incoming <+: (c !i).written ∧
      ∃ s, (c i).processConnection format event = some s ∧ c' = Function.update c i s
  | .call i call, c' => ∃ s, (c i).call format call = some s ∧ c' = Function.update c i s

/-- One end has called `connect`, the other has been accepted. -/
def machine : Machine (Connection M) (Turn M) where
  start c := c = fun i => .opened (bif i then .connecting else .connected)
  step := Steps format

end Connection

namespace TcpConnection

variable {M : Type} {format : Format M} {c c' : TcpConnection M} {messages : List M}

/-! ### The books of an end -/

/-- An end whose peer has sent `messages`: what it has sent is with the socket or waits for
it, and what it has been given is handed up or waits for its rest. -/
structure Sound (format : Format M) (messages : List M) (c : TcpConnection M) : Prop where
  fits : ∀ message ∈ c.sent, format.Fits message
  wrote : c.written <+: format.frames c.sent
  writes : c.socket = true → format.frames c.sent = c.written ++ c.writeBuffer
  hands : c.handed <+: messages
  reads : c.socket = true → format.frames c.handed ++ c.readBuffer = c.taken
  closed : c.socket = false → c.readBuffer = [] ∧ c.writeBuffer = []
  gone : c.state = .disconnected → c.socket = false

theorem Sound.later {more : List M} (sound : Sound format messages c) (later : messages <+: more) :
    Sound format more c :=
  { sound with hands := sound.hands.trans later }

theorem Sound.disconnect (sound : Sound format messages c) :
    Sound format messages c.disconnect where
  fits := sound.fits
  wrote := sound.wrote
  writes closed := by cases closed
  hands := sound.hands
  reads closed := by cases closed
  closed _ := ⟨rfl, rfl⟩
  gone _ := rfl

theorem Sound.processSend (sound : Sound format messages c) (sending : Sending) :
    Sound format messages (c.processSend sending).1 := by
  rw [TcpConnection.processSend.eq_def]
  split
  · exact sound
  rename_i waits
  cases sending with
  | took n =>
      dsimp only
      split
      · exact sound
      have opens : c.socket = true := by_contra fun closed =>
        waits (sound.closed (Bool.eq_false_of_not_eq_true closed)).2
      have writes : format.frames c.sent =
          c.written ++ c.writeBuffer.take n ++ c.writeBuffer.drop n := by
        rw [sound.writes opens, List.append_assoc, List.take_append_drop]
      exact { sound with
        wrote := ⟨_, writes.symm⟩
        writes := fun _ => writes
        closed := fun closed => by cases opens.symm.trans closed }
  | blocked => exact sound
  | failed => exact sound.disconnect

theorem Sound.trySendBuffer (sound : Sound format messages c) (sendings : List Sending) :
    Sound format messages (c.trySendBuffer sendings) := by
  induction sendings generalizing c with
  | nil => exact sound
  | cons sending sendings ih =>
      rw [trySendBuffer_cons]
      split
      · exact ih (sound.processSend sending)
      · exact sound.processSend sending

theorem Sound.send (sound : Sound format messages c) {message : M} {sendings : List Sending}
    (opens : c.socket = true) (sends : c.send format message sendings = some c') :
    Sound format messages c' := by
  obtain ⟨fits, rfl⟩ := send_eq sends
  have writes : format.frames (c.sent ++ [message]) =
      c.written ++ (c.writeBuffer ++ format.frame message) := by
    rw [Format.frames_concat, sound.writes opens, List.append_assoc]
  have queued : Sound format messages { c with
      writeBuffer := c.writeBuffer ++ format.frame message
      sent := c.sent ++ [message] } :=
    { sound with
      fits := fun other mem => by
        rcases List.mem_append.mp mem with old | new
        · exact sound.fits other old
        · exact List.mem_singleton.mp new ▸ fits
      wrote := ⟨_, writes.symm⟩
      writes := fun _ => writes
      closed := fun closed => by cases opens.symm.trans closed }
  exact queued.trySendBuffer sendings

theorem Sound.call (sound : Sound format messages c) {call : Call M}
    (calls : c.call format call = some c') : Sound format messages c' := by
  cases call with
  | send message sendings =>
      rw [TcpConnection.call] at calls
      split at calls
      · rename_i opens
        exact sound.send opens calls
      · cases calls
        exact sound
  | disconnect =>
      cases calls
      exact sound.disconnect

theorem Sound.calls (sound : Sound format messages c) {calls : List (Call M)}
    (run : calls.foldlM (TcpConnection.call format) c = some c') : Sound format messages c' := by
  induction calls generalizing c with
  | nil =>
      cases run
      exact sound
  | cons call calls ih =>
      rw [List.foldlM_cons] at run
      obtain ⟨_, first, rest⟩ := Option.bind_eq_some_iff.mp run
      exact ih (sound.call first) rest

theorem Sound.flush (sound : Sound format messages c) (event : PollEvent M) :
    Sound format messages (c.flush event) := by
  rw [TcpConnection.flush]
  split
  · exact { sound.trySendBuffer event.sendings with }
  · exact sound

/-- What the socket gives is kept until it is handed up. -/
theorem Sound.processRead (sound : Sound format messages c) (opens : c.socket = true)
    (receiving : Receiving) : Sound format messages (c.processRead receiving).1 ∧
      Grows c (c.processRead receiving).1 ∧
      ((c.processRead receiving).1.taken = c.taken ∨
        (c.processRead receiving).1.taken = c.taken ++ receiving.incoming) ∧
      ((c.processRead receiving).2 = true → (c.processRead receiving).1.socket = true ∧
        (c.processRead receiving).1.taken = c.taken ++ receiving.incoming) := by
  have ends : Sound format messages c.disconnect ∧ Grows c c.disconnect ∧
      (c.disconnect.taken = c.taken ∨ c.disconnect.taken = c.taken ++ receiving.incoming) ∧
      (false = true → c.disconnect.socket = true ∧
        c.disconnect.taken = c.taken ++ receiving.incoming) :=
    ⟨sound.disconnect, (writes_disconnect c).toGrows, .inl rfl, fun stops => by cases stops⟩
  cases receiving with
  | got incoming soError =>
      rw [TcpConnection.processRead]
      split
      · exact ends
      split
      · exact ends
      · refine ⟨{ sound with
          reads := fun _ => ?_
          closed := fun closed => ?_ }, ⟨List.prefix_rfl, List.prefix_rfl⟩, .inr rfl,
          fun _ => ⟨opens, rfl⟩⟩
        · rw [← sound.reads opens, List.append_assoc]
        · cases opens.symm.trans closed
  | blocked =>
      exact ⟨sound, (Writes.refl c).toGrows, .inl rfl, fun stops => by cases stops⟩
  | failed => exact ends

theorem tryReadBuffer_cons (c : TcpConnection M) (receiving : Receiving)
    (receivings : List Receiving) :
    c.tryReadBuffer (receiving :: receivings) = if (c.processRead receiving).2 then
      (c.processRead receiving).1.tryReadBuffer receivings else (c.processRead receiving).1 := rfl

theorem Sound.tryReadBuffer (sound : Sound format messages c) (opens : c.socket = true)
    (receivings : List Receiving) : Sound format messages (c.tryReadBuffer receivings) ∧
      Grows c (c.tryReadBuffer receivings) ∧ (c.tryReadBuffer receivings).taken <+:
        c.taken ++ receivings.flatMap Receiving.incoming := by
  induction receivings generalizing c with
  | nil => exact ⟨sound, (Writes.refl c).toGrows, List.prefix_append _ _⟩
  | cons receiving receivings ih =>
      obtain ⟨sound', grows, takes, goes⟩ := sound.processRead opens receiving
      rw [tryReadBuffer_cons, List.flatMap_cons, ← List.append_assoc]
      split
      · rename_i more
        obtain ⟨opens', taken⟩ := goes more
        obtain ⟨sound'', grows', taken'⟩ := ih sound' opens'
        exact ⟨sound'', grows.trans grows', taken ▸ taken'⟩
      · refine ⟨sound', grows, ?_⟩
        rcases takes with same | more
        · rw [same, List.append_assoc]
          exact List.prefix_append _ _
        · rw [more]
          exact List.prefix_append _ _

/-! ### Parsing -/

/-- No message is in the buffer whole. -/
def Drained (format : Format M) (c : TcpConnection M) : Prop :=
  (c.processParseMessage format).1 = none

theorem parse_empty (empty : c.readBuffer = []) : c.processParseMessage format = (none, c) := by
  rw [processParseMessage, if_pos (by simp [empty])]

theorem drained_empty (empty : c.readBuffer = []) : c.Drained format := by
  rw [Drained, parse_empty empty]

theorem Drained.congr (drained : c.Drained format) (same : c'.readBuffer = c.readBuffer) :
    c'.Drained format := by
  rw [Drained, ← drained, processParseMessage, processParseMessage, same]
  split
  · rfl
  · dsimp only
    split
    · rfl
    · split <;> rfl

/-- What sends leaves what is not whole. -/
theorem Drained.writes (drained : c.Drained format) (wrote : Writes c c') : c'.Drained format := by
  rcases wrote.buffer with same | empty
  · exact drained.congr same
  · exact drained_empty empty

/-- The next message, of those that the peer has sent, is parsed if all of it is here. -/
theorem Sound.parse (sound : Sound format messages c)
    (sized : ∀ message ∈ messages, format.Fits message)
    (taken : c.taken <+: format.frames messages) :
    c.processParseMessage format = (none, c) ∨ ∃ message rest, c.processParseMessage format =
      (some message, { c with readBuffer := rest }) ∧ c.socket = true ∧
        c.handed ++ [message] <+: messages ∧ format.frame message ++ rest = c.readBuffer := by
  rcases Bool.eq_false_or_eq_true c.socket with opens | closed
  · obtain ⟨left, rfl⟩ := sound.hands
    have ahead : c.readBuffer <+: format.frames left := by
      rw [← sound.reads opens, Format.frames, Format.frames, List.flatMap_append] at taken
      exact (List.prefix_append_right_inj _).mp taken
    cases left with
    | nil => exact .inl (parse_empty (List.prefix_nil.mp ahead))
    | cons message left =>
        have fits := sized message (by simp)
        rw [Format.frames, List.flatMap_cons, ← Format.frames] at ahead
        rcases Nat.lt_or_ge c.readBuffer.length (format.frame message).length with short | whole
        · exact .inl (processParseMessage_part fits
            (List.prefix_of_prefix_length_le ahead (List.prefix_append _ _) short.le) short)
        · obtain ⟨rest, buffer⟩ :=
            List.prefix_of_prefix_length_le (List.prefix_append _ _) ahead whole
          exact .inr ⟨message, rest, processParseMessage_frame fits buffer.symm, opens,
            ⟨left, by simp⟩, buffer⟩
  · exact .inl (parse_empty (sound.closed closed).1)

/-- **The loop** hands up what the peer has sent, and leaves no message that is whole. -/
theorem Sound.parseMessages (sized : ∀ message ∈ messages, format.Fits message)
    {calls : Nat → List (Call M)} {fuel : Nat} (sound : Sound format messages c)
    (taken : c.taken <+: format.frames messages)
    (parses : TcpConnection.parseMessages format calls fuel c = some c') :
    Sound format messages c' ∧ Grows c c' ∧ c'.Drained format := by
  induction fuel generalizing c with
  | zero => cases parses
  | succ fuel ih =>
      rw [TcpConnection.parseMessages] at parses
      rcases sound.parse sized taken with drained | ⟨message, rest, parsed, opens, next, buffer⟩
      · rw [drained] at parses
        cases parses
        exact ⟨sound, (Writes.refl _).toGrows, congrArg Prod.fst drained⟩
      · rw [parsed] at parses
        obtain ⟨c₁, called, loops⟩ := Option.bind_eq_some_iff.mp parses
        have handed : Sound format messages { c with
            readBuffer := rest
            handed := c.handed ++ [message] } :=
          { sound with
            hands := next
            reads := fun _ => by
              rw [Format.frames_concat, List.append_assoc, buffer]
              exact sound.reads opens
            closed := fun closed => by cases opens.symm.trans closed }
        have sound' := handed.calls called
        have wrote := writes_calls called
        have grows : Grows c c₁ := ⟨wrote.sent, wrote.written⟩
        split at loops
        · rename_i gone
          cases loops
          exact ⟨sound', grows, drained_empty (sound'.closed (sound'.gone gone)).1⟩
        · obtain ⟨sound'', grows', drained⟩ := ih sound' (wrote.taken ▸ taken) loops
          exact ⟨sound'', grows.trans grows', drained⟩

theorem Sound.receive (sized : ∀ message ∈ messages, format.Fits message) {event : PollEvent M}
    (sound : Sound format messages c) (opens : c.socket = true) (drained : c.Drained format)
    (incoming : c.taken ++ event.receivings.flatMap Receiving.incoming <+: format.frames messages)
    (receives : c.receive format event = some c') :
    Sound format messages c' ∧ Grows c c' ∧ c'.Drained format := by
  rw [TcpConnection.receive] at receives
  split at receives
  · obtain ⟨sound', grows, taken⟩ := sound.tryReadBuffer opens event.receivings
    dsimp only at receives
    split at receives
    · rename_i gone
      cases receives
      exact ⟨sound', grows, drained_empty (sound'.closed (sound'.gone gone)).1⟩
    · obtain ⟨sound'', grows', drained'⟩ :=
        sound'.parseMessages sized (taken.trans incoming) receives
      exact ⟨sound'', grows.trans grows', drained'⟩
  · cases receives
    exact ⟨sound, (Writes.refl _).toGrows, drained⟩

/-- **Every event** keeps the books of an end. -/
theorem Sound.poll (sized : ∀ message ∈ messages, format.Fits message) {event : PollEvent M}
    (sound : Sound format messages c) (drained : c.Drained format)
    (incoming : c.taken ++ event.receivings.flatMap Receiving.incoming <+: format.frames messages)
    (polls : c.processConnection format event = some c') :
    Sound format messages c' ∧ Grows c c' ∧ c'.Drained format := by
  have ends : ∀ {c₁}, Sound format messages c₁ → Writes c c₁ →
      Sound format messages c₁ ∧ Grows c c₁ ∧ c₁.Drained format := fun sound wrote =>
    ⟨sound, wrote.toGrows, drained.writes wrote⟩
  have flushed := sound.flush event
  have wrote := writes_flush c event
  rw [processConnection] at polls
  split at polls
  · cases polls
    exact ends sound (.refl _)
  rename_i opens
  split at polls
  · cases polls
    exact ends sound.disconnect (writes_disconnect c)
  split at polls
  · cases polls
    exact ends sound.disconnect (writes_disconnect c)
  split at polls
  · obtain ⟨c₁, called, same⟩ := Option.bind_eq_some_iff.mp polls
    have sound' := sound.calls called
    have wrote' := writes_calls called
    cases same
    exact ⟨{ sound' with gone := fun gone => by cases gone }, ⟨wrote'.sent, wrote'.written⟩,
      (drained.writes wrote').congr rfl⟩
  split at polls
  · cases polls
    exact ends flushed wrote
  · rename_i stays
    have opens' : (c.flush event).socket = true := by
      rw [TcpConnection.flush] at stays ⊢
      split
      · rename_i writes
        rw [if_pos writes] at stays
        have open_or := (writes_trySendBuffer c event.sendings).closes
          (.inl (Bool.eq_true_of_not_eq_false opens))
        refine open_or.resolve_right fun gone => stays ?_
        simpa [writes] using gone
      · exact Bool.eq_true_of_not_eq_false opens
    obtain ⟨sound', grows, drained'⟩ := flushed.receive sized opens' (drained.writes wrote)
      (wrote.taken ▸ incoming) polls
    exact ⟨sound', wrote.toGrows.trans grows, drained'⟩

end TcpConnection

/-! ### Runs -/

namespace Connection

open TcpConnection

variable {M : Type} {format : Format M} {c c' : Connection M}

/-- Either end is in order with the other, and has handed up what is whole. -/
def InOrder (format : Format M) (c : Connection M) : Prop :=
  ∀ i, Sound format (c !i).sent (c i) ∧ (c i).Drained format

/-- At one end something happens, and what it has sent stays so. -/
theorem InOrder.update (order : InOrder format c) {i : Bool} {s : TcpConnection M}
    (sound : Sound format (c !i).sent s) (grows : Grows (c i) s) (drained : s.Drained format) :
    InOrder format (Function.update c i s) := by
  have other : Function.update c i s (!i) = c !i := Function.update_of_ne (by simp) _ _
  intro j
  by_cases same : j = i
  · subst same
    rw [other, Function.update_self]
    exact ⟨sound, drained⟩
  · obtain rfl : j = !i := Bool.eq_not_of_ne same
    rw [other, Bool.not_not, Function.update_self]
    have held := order !i
    rw [Bool.not_not] at held
    exact ⟨held.1.later grows.sent, held.2⟩

theorem InOrder.step (order : InOrder format c) {turn : Turn M} (steps : Steps format c turn c') :
    InOrder format c' := by
  cases turn with
  | poll i event =>
      obtain ⟨_, incoming, s, polls, rfl⟩ := steps
      obtain ⟨sound, drained⟩ := order i
      obtain ⟨peer, _⟩ := order !i
      obtain ⟨sound', grows, drained'⟩ :=
        sound.poll peer.fits drained (incoming.trans peer.wrote) polls
      exact order.update sound' grows drained'
  | call i call =>
      obtain ⟨s, calls, rfl⟩ := steps
      obtain ⟨sound, drained⟩ := order i
      have wrote := writes_call calls
      exact order.update (sound.call calls) wrote.toGrows (drained.writes wrote)

theorem inOrder_of_reachable (runs : (machine format).Reachable c) : InOrder format c := by
  refine runs.invariant (I := InOrder format) ?_ fun _ _ _ _ order steps => order.step steps
  rintro _ rfl i
  refine ⟨{
    fits := fun _ mem => by cases mem
    wrote := List.prefix_rfl
    writes := fun _ => rfl
    hands := List.prefix_rfl
    reads := fun _ => rfl
    closed := fun closed => by cases closed
    gone := fun gone => by cases i <;> cases gone }, drained_empty rfl⟩

theorem reachable_poll (runs : (machine format).Reachable c) (i : Bool) (event : PollEvent M)
    {s : TcpConnection M} (told : event.write → (c i).watched)
    (incoming : (c i).taken ++ event.receivings.flatMap Receiving.incoming <+: (c !i).written)
    (polls : (c i).processConnection format event = some s) :
    (machine format).Reachable (Function.update c i s) :=
  runs.step (a := .poll i event) ⟨told, incoming, s, polls, rfl⟩

theorem reachable_call (runs : (machine format).Reachable c) (i : Bool) (call : Call M)
    {s : TcpConnection M} (calls : (c i).call format call = some s) :
    (machine format).Reachable (Function.update c i s) :=
  runs.step (a := .call i call) ⟨s, calls, rfl⟩

end Connection

section Runs

open Connection

/-! ### Two ends and a byte -/

/-- The byte has come in two pieces, cut inside its length. -/
def byteOver : Connection UInt8
  | true => ⟨.connected, true, [], [], true, [], [], [2, 0, 0, 0, 1, 7], [7]⟩
  | false => ⟨.connected, true, [], [], false, [7], [2, 0, 0, 0, 1, 7], [], []⟩

theorem byteOver_reachable : (Connection.machine byteFormat).Reachable byteOver := by
  have opened := Machine.Reachable.start (M := Connection.machine byteFormat) rfl
  have accepted := reachable_poll opened true { quiet with write := true }
    (fun _ => rfl) (by decide) rfl
  have sent := reachable_call accepted false (.send 7 [.took 3, .blocked]) rfl
  have half := reachable_poll sent true
    { quiet with
      read := true
      receivings := [.got [2, 0] false, .blocked] }
    (fun writes => by cases writes) (by decide) rfl
  have flushed := reachable_poll half false
    { quiet with
      write := true
      sendings := [.took 3] }
    (fun _ => rfl) (by decide) rfl
  have come := reachable_poll flushed true
    { quiet with
      read := true
      receivings := [.got [0, 0] false, .got [1, 7] false, .blocked] }
    (fun writes => by cases writes) (by decide) rfl
  convert come using 1
  funext i
  cases i <;> rfl

/-! ### What is handed up -/

variable {M : Type} {format : Format M} {c : Connection M}

/-- **What an end hands up** is what the other has sent, in order: nothing is lost between
two messages, and none is handed up twice. -/
theorem connection_in_order (runs : (machine format).Reachable c) (i : Bool) :
    (c i).handed <+: (c !i).sent :=
  (inOrder_of_reachable runs i).1.hands

theorem connection_in_order_byte : (byteOver true).handed <+: (byteOver false).sent :=
  connection_in_order byteOver_reachable true

/-- **No message waits** for what comes after it: those whose bytes an open end has been given
have been handed up. -/
theorem connection_prompt (runs : (machine format).Reachable c) {i : Bool}
    (opens : (c i).socket = true) {messages : List M} (sent : messages <+: (c !i).sent)
    (taken : format.frames messages <+: (c i).taken) : messages <+: (c i).handed := by
  obtain ⟨sound, drained⟩ := inOrder_of_reachable runs i
  obtain ⟨peer, _⟩ := inOrder_of_reachable runs !i
  rcases List.prefix_or_prefix_of_prefix sent sound.hands with done | ⟨left, rfl⟩
  · exact done
  cases left with
  | nil => simp
  | cons message left =>
      have fits := peer.fits message (sent.subset (by simp))
      rw [← sound.reads opens, Format.frames, List.flatMap_append, ← Format.frames] at taken
      obtain ⟨rest, buffer⟩ := (List.prefix_append_right_inj _).mp taken
      rw [List.flatMap_cons, List.append_assoc] at buffer
      have parsed := TcpConnection.processParseMessage_frame fits buffer.symm
      rw [TcpConnection.Drained, parsed] at drained
      cases drained

theorem connection_prompt_byte : [7] <+: (byteOver true).handed :=
  connection_prompt byteOver_reachable (i := true) rfl List.prefix_rfl List.prefix_rfl

end Runs

end Belcoin.SyncObj
