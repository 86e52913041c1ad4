import SearchServer.Net.Buffer
import SearchServer.Net.Channel

/-!
# Connections

`TcpConnection` (`net/TcpConnection.cc`), with the poller of its loop. What a system call returns is
an argument of the function that makes it, and so is what the message callback leaves in the input
buffer. The calls of the close callback are counted; the system that the connection is part of takes
them from there. A function returns `none` when an assertion fails.

Each function has a lemma that says what it does to a connection that is open, or to one that is
closed and waits for no events (`Open`, `Quiet`).
-/

namespace SearchServer

inductive StateE where
  | kConnecting
  | kConnected
  | kDisconnecting
  | kDisconnected
deriving DecidableEq

structure TcpConnection where
  state : StateE
  channel : Channel
  poller : EPoller
  inputBuffer : Buffer
  outputBuffer : Buffer
  /-- `_socket->shutdownWrite()` was called. -/
  writeShut : Bool
  /-- The calls of `_closeCallback` that nothing was done about yet. -/
  closeCallbacks : ℕ

/-- The bytes that `readFd` reads, none at the end of the stream, or an error. -/
inductive ReadResult where
  | bytes (data : Bytes)
  | error

/-- How many bytes `write` takes, or an error. -/
inductive WriteResult where
  | wrote (n : ℕ)
  | error
deriving DecidableEq

namespace TcpConnection

/-- The constructor. -/
def init (poller : EPoller) (ptr fd : ℕ) : TcpConnection :=
  ⟨.kConnecting, .init ptr fd, poller, .init, .init, false, 0⟩

def setState (conn : TcpConnection) (s : StateE) : TcpConnection := { conn with state := s }

/-- `Channel::update`. -/
def update (conn : TcpConnection) (channel : Channel) : Option TcpConnection :=
  (conn.poller.updateChannel channel).map fun (poller, channel) =>
    { conn with poller := poller, channel := channel }

def connectEstablished (conn : TcpConnection) : Option TcpConnection :=
  if conn.state = .kConnecting then
    (conn.setState .kConnected).update conn.channel.enableReading
  else none

/-- What `write` takes of the message. Nothing is written when bytes are waiting to be written. -/
def nwrote (conn : TcpConnection) (result : WriteResult) : ℕ :=
  if !conn.channel.isWriting ∧ conn.outputBuffer.readableBytes = 0 then
    match result with
    | .wrote n => n
    | .error => 0
  else 0

/-- `sendInLoop`. A `write` takes no more bytes than it is given. -/
def sendInLoop (conn : TcpConnection) (message : Bytes) (result : WriteResult) :
    Option TcpConnection :=
  let n := conn.nwrote result
  if message.length < n then none
  else if n < message.length then do
    let buf ← conn.outputBuffer.append (message.drop n)
    let conn := { conn with outputBuffer := buf }
    if conn.channel.isWriting then some conn else conn.update conn.channel.enableWriting
  else some conn

def handleClose (conn : TcpConnection) : Option TcpConnection :=
  if conn.state = .kConnected ∨ conn.state = .kDisconnecting then
    ((conn.setState .kDisconnected).update conn.channel.disableAll).map fun conn =>
      { conn with closeCallbacks := conn.closeCallbacks + 1 }
  else none

/-- The part of `shutdown` in the thread that calls it. -/
def shutdown (conn : TcpConnection) : TcpConnection :=
  if conn.state = .kConnected then conn.setState .kDisconnecting else conn

def shutdownInLoop (conn : TcpConnection) : TcpConnection :=
  if conn.channel.isWriting then conn else { conn with writeShut := true }

/-- The part of `forceClose` in the thread that calls it. -/
def forceClose (conn : TcpConnection) : TcpConnection :=
  if conn.state = .kConnected ∨ conn.state = .kDisconnecting then conn.setState .kDisconnecting
  else conn

def forceCloseInLoop (conn : TcpConnection) : Option TcpConnection :=
  if conn.state = .kConnected ∨ conn.state = .kDisconnecting then conn.handleClose else some conn

/-- `handleError`, which only logs. -/
def handleError (conn : TcpConnection) : Option TcpConnection := some conn

def handleRead (messageCallback : Buffer → Option Buffer) (conn : TcpConnection)
    (result : ReadResult) : Option TcpConnection :=
  match result with
  | .bytes [] => conn.handleClose
  | .bytes data => do
    let buf ← conn.inputBuffer.readFd data
    let buf ← messageCallback buf
    return { conn with inputBuffer := buf }
  | .error => conn.handleError

/-- The end of `handleWrite`, when everything is written. -/
def writeDone (conn : TcpConnection) : TcpConnection :=
  if conn.state = .kDisconnecting then { conn with writeShut := true } else conn

/-- `handleWrite`. -/
def handleWrite (conn : TcpConnection) (result : WriteResult) : Option TcpConnection :=
  if conn.channel.isWriting then
    match result with
    | .wrote (n + 1) => do
      let buf ← conn.outputBuffer.retrieve (n + 1)
      let conn := { conn with outputBuffer := buf }
      if buf.readableBytes = 0 then (conn.update conn.channel.disableWriting).map writeDone
      else some conn
    | _ => some conn
  else some conn

/-- Call a handler if the condition holds. -/
def callIf (cond : Bool) (handler : TcpConnection → Option TcpConnection) (conn : TcpConnection) :
    Option TcpConnection :=
  if cond then handler conn else some conn

/-- `Channel::handleEvent`. -/
def handleEvent (messageCallback : Buffer → Option Buffer) (conn : TcpConnection)
    (revents : BitVec 32) (readResult : ReadResult) (writeResult : WriteResult) :
    Option TcpConnection := do
  let conn ← conn.callIf (revents &&& POLLHUP ≠ 0 ∧ revents &&& POLLIN = 0) handleClose
  let conn ← conn.callIf (revents &&& (POLLERR ||| POLLNVAL) ≠ 0) handleError
  let conn ← conn.callIf (revents &&& (POLLIN ||| POLLPRI ||| POLLRDHUP) ≠ 0)
    (handleRead messageCallback · readResult)
  conn.callIf (revents &&& POLLOUT ≠ 0) (handleWrite · writeResult)

def connectDestroyed (conn : TcpConnection) : Option TcpConnection := do
  let conn ← if conn.state = .kConnected then
      (conn.setState .kDisconnected).update conn.channel.disableAll
    else some conn
  let (poller, channel) ← conn.poller.removeChannel conn.channel
  return { conn with poller := poller, channel := channel }

/-! ## The phases of a connection -/

/-- The connection is not established yet. -/
structure Fresh (conn : TcpConnection) : Prop where
  state : conn.state = .kConnecting
  events : conn.channel.events = kNoneEvent
  closeCallbacks : conn.closeCallbacks = 0

/-- The connection is open: its channel is registered, and waits for something to read. -/
structure Open (conn : TcpConnection) : Prop where
  state : conn.state = .kConnected ∨ conn.state = .kDisconnecting
  index : conn.channel.index = .kAdded
  reading : conn.channel.events &&& kReadEvent = kReadEvent
  closeCallbacks : conn.closeCallbacks = 0

def Closed (conn : TcpConnection) : Prop := conn.state = .kDisconnected

/-- The channel has no events and is not registered. -/
structure Quiet (conn : TcpConnection) : Prop where
  events : conn.channel.events = kNoneEvent
  unregistered : conn.channel.fd ∉ conn.poller.registered

/-- Only the buffers of the connection change. -/
structure SameChannel (conn conn' : TcpConnection) : Prop where
  state : conn'.state = conn.state
  channel : conn'.channel = conn.channel
  poller : conn'.poller = conn.poller
  closeCallbacks : conn'.closeCallbacks = conn.closeCallbacks

theorem SameChannel.refl (conn : TcpConnection) : SameChannel conn conn := ⟨rfl, rfl, rfl, rfl⟩

variable {conn conn' : TcpConnection} {channel : Channel}

theorem Fresh.of_sameChannel (hs : SameChannel conn conn') (h : Fresh conn) : Fresh conn' :=
  ⟨hs.state ▸ h.state, hs.channel ▸ h.events, hs.closeCallbacks ▸ h.closeCallbacks⟩

theorem Open.of_sameChannel (hs : SameChannel conn conn') (h : Open conn) : Open conn' :=
  ⟨hs.state ▸ h.state, hs.channel ▸ h.index, hs.channel ▸ h.reading,
    hs.closeCallbacks ▸ h.closeCallbacks⟩

theorem Closed.of_sameChannel (hs : SameChannel conn conn') (h : Closed conn) : Closed conn' :=
  hs.state.trans h

theorem Quiet.of_sameChannel (hs : SameChannel conn conn') (h : Quiet conn) : Quiet conn' :=
  ⟨hs.channel ▸ h.events, hs.channel ▸ hs.poller ▸ h.unregistered⟩

theorem isWriting_of_events (h : conn.channel.events = kNoneEvent) :
    conn.channel.isWriting = false := by
  rw [Channel.isWriting, h]
  rfl

/-! ## Updates of the channel -/

theorem update_eq_some (h : conn.update channel = some conn') :
    conn.poller.updateChannel channel = some (conn'.poller, conn'.channel) ∧
      conn'.state = conn.state ∧ conn'.closeCallbacks = conn.closeCallbacks := by
  obtain ⟨⟨poller, channel'⟩, hup, rfl⟩ := Option.map_eq_some_iff.mp h
  exact ⟨hup, rfl, rfl⟩

/-- After an update with events that include reading, the connection is open. -/
theorem update_open (h : conn.update channel = some conn')
    (hstate : conn.state = .kConnected ∨ conn.state = .kDisconnecting)
    (hcalls : conn.closeCallbacks = 0) (hread : channel.events &&& kReadEvent = kReadEvent) :
    Open conn' := by
  obtain ⟨hup, hs, hc⟩ := update_eq_some h
  have hsome : channel.isNoneEvent = false := by
    rw [Channel.isNoneEvent, decide_eq_false_iff_not]
    intro h0
    rw [h0] at hread
    exact absurd hread (by decide)
  have heq := EPoller.updateChannel_of_events hsome hup
  exact ⟨hs ▸ hstate, by rw [heq], by rw [heq]; exact hread, hc.trans hcalls⟩

theorem connectEstablished_fresh (hf : Fresh conn) (h : conn.connectEstablished = some conn') :
    Open conn' := by
  rw [connectEstablished, if_pos hf.state] at h
  have hread : conn.channel.enableReading.events &&& kReadEvent = kReadEvent := by
    show (conn.channel.events ||| kReadEvent) &&& kReadEvent = kReadEvent
    rw [hf.events]
    decide
  exact update_open h (Or.inl rfl) hf.closeCallbacks hread

theorem connectEstablished_state (h : conn.connectEstablished = some conn') :
    conn.state = .kConnecting := (Option.ite_none_right_eq_some.mp h).1

/-! ## Closing -/

theorem handleClose_state (h : conn.handleClose = some conn') :
    conn.state = .kConnected ∨ conn.state = .kDisconnecting :=
  (Option.ite_none_right_eq_some.mp h).1

/-- **Closing.** Afterwards the channel has no events and is not registered. -/
theorem handleClose_open (ho : Open conn) (h : conn.handleClose = some conn') :
    Closed conn' ∧ Quiet conn' := by
  obtain ⟨conn₁, hup, rfl⟩ := Option.map_eq_some_iff.mp (Option.ite_none_right_eq_some.mp h).2
  obtain ⟨hpoller, hs, -⟩ := update_eq_some hup
  obtain ⟨heq, hreg⟩ := EPoller.updateChannel_of_isNoneEvent (c := conn.channel.disableAll)
    ho.index rfl hpoller
  refine ⟨hs, ?_, ?_⟩
  · show conn₁.channel.events = _
    rw [heq]
    rfl
  · show conn₁.channel.fd ∉ conn₁.poller.registered
    rw [heq]
    exact hreg

theorem connectDestroyed_of_closed (hc : Closed conn) :
    conn.connectDestroyed = (conn.poller.removeChannel conn.channel).map fun p =>
      { conn with poller := p.1, channel := p.2 } := by
  have hne : ¬ conn.state = .kConnected := fun h => by
    rw [hc] at h
    cases h
  rw [connectDestroyed, if_neg hne]
  show (conn.poller.removeChannel conn.channel).bind _ = _
  cases conn.poller.removeChannel conn.channel with
  | none => rfl
  | some p => rfl

theorem connectDestroyed_closed (hc : Closed conn) (h : conn.connectDestroyed = some conn') :
    Closed conn' := by
  rw [connectDestroyed_of_closed hc] at h
  obtain ⟨p, -, rfl⟩ := Option.map_eq_some_iff.mp h
  exact hc

theorem connectDestroyed_quiet (hc : Closed conn) (hq : Quiet conn)
    (h : conn.connectDestroyed = some conn') : Quiet conn' := by
  rw [connectDestroyed_of_closed hc] at h
  obtain ⟨⟨poller, channel⟩, hrem, rfl⟩ := Option.map_eq_some_iff.mp h
  obtain ⟨rfl, hreg⟩ := EPoller.removeChannel_eq hq.unregistered hrem
  exact ⟨hq.events, hreg⟩

/-! ## Sending -/

/-- What `sendInLoop` does: nothing more when the message was written whole, or else keep the rest
and wait until it can be written. -/
theorem sendInLoop_cases {message : Bytes} {result : WriteResult}
    (h : conn.sendInLoop message result = some conn') :
    (conn.nwrote result = message.length ∧ conn' = conn) ∨
      (conn.nwrote result < message.length ∧ ∃ buf,
        (conn.channel.isWriting = true ∧ conn' = { conn with outputBuffer := buf }) ∨
          (conn.channel.isWriting = false ∧
            { conn with outputBuffer := buf }.update conn.channel.enableWriting = some conn')) := by
  obtain ⟨hle, h⟩ := Option.ite_none_left_eq_some.mp h
  by_cases hlt : conn.nwrote result < message.length
  · rw [if_pos hlt] at h
    obtain ⟨buf, -, h⟩ := Option.bind_eq_some_iff.mp h
    refine Or.inr ⟨hlt, buf, ?_⟩
    cases hw : conn.channel.isWriting with
    | true => exact Or.inl ⟨rfl, (Option.some.inj ((if_pos hw).symm.trans h)).symm⟩
    | false => exact Or.inr ⟨rfl, (if_neg (by simp [hw])).symm.trans h⟩
  · rw [if_neg hlt] at h
    exact Or.inl ⟨by omega, (Option.some.inj h).symm⟩

theorem sendInLoop_state {message : Bytes} {result : WriteResult}
    (h : conn.sendInLoop message result = some conn') :
    conn'.state = conn.state ∧ conn'.closeCallbacks = conn.closeCallbacks := by
  rcases sendInLoop_cases h with ⟨-, rfl⟩ | ⟨-, buf, ⟨-, rfl⟩ | ⟨-, hup⟩⟩
  · exact ⟨rfl, rfl⟩
  · exact ⟨rfl, rfl⟩
  · exact (update_eq_some hup).2

/-- Sending to an open connection leaves it open. -/
theorem sendInLoop_open (ho : Open conn) {message : Bytes} {result : WriteResult}
    (h : conn.sendInLoop message result = some conn') : Open conn' := by
  rcases sendInLoop_cases h with ⟨-, rfl⟩ | ⟨-, buf, ⟨-, rfl⟩ | ⟨-, hup⟩⟩
  · exact ho
  · exact Open.of_sameChannel (show SameChannel conn _ from ⟨rfl, rfl, rfl, rfl⟩) ho
  · have hread : conn.channel.enableWriting.events &&& kReadEvent = kReadEvent := by
      show (conn.channel.events ||| kWriteEvent) &&& kReadEvent = kReadEvent
      rw [BitVec.and_comm, BitVec.and_or_distrib_left, BitVec.and_comm kReadEvent, ho.reading]
      decide
    exact update_open hup ho.state ho.closeCallbacks hread

/-- **Sending after the close.** The channel stays quiet exactly when the message was written
whole. -/
theorem sendInLoop_quiet (hq : Quiet conn) {message : Bytes} {result : WriteResult}
    (h : conn.sendInLoop message result = some conn') :
    Quiet conn' ↔ conn.nwrote result = message.length := by
  have hwriting := isWriting_of_events hq.events
  rcases sendInLoop_cases h with ⟨hall, rfl⟩ | ⟨hlt, buf, ⟨hw, -⟩ | ⟨-, hup⟩⟩
  · exact iff_of_true hq hall
  · rw [hwriting] at hw
    cases hw
  · have hevents : conn.channel.enableWriting.events = kWriteEvent := by
      show conn.channel.events ||| kWriteEvent = kWriteEvent
      rw [hq.events]
      decide
    have hsome : conn.channel.enableWriting.isNoneEvent = false := by
      rw [Channel.isNoneEvent, hevents]
      decide
    have heq := EPoller.updateChannel_of_events hsome (update_eq_some hup).1
    refine iff_of_false (fun hq' => ?_) (by omega)
    have h0 := hq'.events
    rw [heq] at h0
    exact absurd (hevents.symm.trans h0) (by decide)

/-- When nothing waits for writing, a message is written whole when it is empty, or when `write`
takes all of it. -/
theorem nwrote_eq_length_iff (hq : Quiet conn) {message : Bytes} {result : WriteResult}
    (hle : conn.nwrote result ≤ message.length) :
    conn.nwrote result = message.length ↔
      message = [] ∨ (conn.outputBuffer.readableBytes = 0 ∧ result = .wrote message.length) := by
  have hwriting := isWriting_of_events hq.events
  unfold nwrote at hle ⊢
  rw [hwriting] at hle ⊢
  by_cases hempty : conn.outputBuffer.readableBytes = 0
  · rw [if_pos ⟨rfl, hempty⟩] at hle ⊢
    cases result with
    | wrote n =>
      simp only [hempty, true_and, WriteResult.wrote.injEq, ← List.length_eq_zero_iff] at hle ⊢
      omega
    | error => simp [eq_comm]
  · have hno : ¬ ((!false) = true ∧ conn.outputBuffer.readableBytes = 0) := fun h => hempty h.2
    rw [if_neg hno]
    simp [hempty, eq_comm]

/-! ## Events -/

theorem handleRead_cases {messageCallback : Buffer → Option Buffer} {result : ReadResult}
    (h : conn.handleRead messageCallback result = some conn') :
    conn.handleClose = some conn' ∨ SameChannel conn conn' := by
  unfold handleRead at h
  split at h
  · exact Or.inl h
  · obtain ⟨buf, -, h⟩ := Option.bind_eq_some_iff.mp h
    obtain ⟨buf', -, h⟩ := Option.bind_eq_some_iff.mp h
    exact Or.inr (Option.some.inj h ▸ ⟨rfl, rfl, rfl, rfl⟩)
  · exact Or.inr (Option.some.inj h ▸ SameChannel.refl conn)

theorem handleWrite_cases {result : WriteResult} (h : conn.handleWrite result = some conn') :
    SameChannel conn conn' ∨ (conn.channel.isWriting = true ∧ ∃ buf conn₁,
      { conn with outputBuffer := buf }.update conn.channel.disableWriting = some conn₁ ∧
        conn' = conn₁.writeDone) := by
  unfold handleWrite at h
  by_cases hw : conn.channel.isWriting = true
  · rw [if_pos hw] at h
    split at h
    · obtain ⟨buf, -, h⟩ := Option.bind_eq_some_iff.mp h
      by_cases hempty : buf.readableBytes = 0
      · obtain ⟨conn₁, hup, rfl⟩ := Option.map_eq_some_iff.mp ((if_pos hempty).symm.trans h)
        exact Or.inr ⟨hw, buf, conn₁, hup, rfl⟩
      · obtain rfl := Option.some.inj ((if_neg hempty).symm.trans h)
        exact Or.inl ⟨rfl, rfl, rfl, rfl⟩
    · exact Or.inl (Option.some.inj h ▸ SameChannel.refl conn)
  · rw [if_neg hw] at h
    exact Or.inl (Option.some.inj h ▸ SameChannel.refl conn)

theorem writeDone_sameChannel (conn : TcpConnection) : SameChannel conn conn.writeDone := by
  unfold writeDone
  split_ifs
  · exact ⟨rfl, rfl, rfl, rfl⟩
  · exact SameChannel.refl conn

theorem handleWrite_open (ho : Open conn) {result : WriteResult}
    (h : conn.handleWrite result = some conn') : Open conn' := by
  rcases handleWrite_cases h with hsame | ⟨-, buf, conn₁, hup, rfl⟩
  · exact ho.of_sameChannel hsame
  · have hread : conn.channel.disableWriting.events &&& kReadEvent = kReadEvent := by
      show (conn.channel.events &&& ~~~kWriteEvent) &&& kReadEvent = kReadEvent
      rw [BitVec.and_assoc, BitVec.and_comm (~~~kWriteEvent), ← BitVec.and_assoc, ho.reading]
      decide
    have hopen := update_open hup ho.state ho.closeCallbacks hread
    exact hopen.of_sameChannel (writeDone_sameChannel conn₁)

/-- A channel without events waits for nothing to write. -/
theorem handleWrite_of_events (he : conn.channel.events = kNoneEvent) {result : WriteResult}
    (h : conn.handleWrite result = some conn') : conn' = conn := by
  have hw : ¬ conn.channel.isWriting = true := by simp [isWriting_of_events he]
  unfold handleWrite at h
  rw [if_neg hw] at h
  exact (Option.some.inj h).symm

theorem handleWrite_state {result : WriteResult} (h : conn.handleWrite result = some conn') :
    conn'.state = conn.state := by
  rcases handleWrite_cases h with hsame | ⟨-, buf, conn₁, hup, rfl⟩
  · exact hsame.state
  · exact (writeDone_sameChannel conn₁).state.trans (update_eq_some hup).2.1

theorem callIf_cases {cond : Bool} {handler : TcpConnection → Option TcpConnection}
    (h : conn.callIf cond handler = some conn') : conn' = conn ∨ handler conn = some conn' := by
  unfold callIf at h
  split_ifs at h
  · exact Or.inr h
  · exact Or.inl (Option.some.inj h).symm

section HandleEvent

variable {messageCallback : Buffer → Option Buffer} {revents : BitVec 32}
  {readResult : ReadResult} {writeResult : WriteResult}

theorem handleEvent_cases
    (h : conn.handleEvent messageCallback revents readResult writeResult = some conn') :
    ∃ conn₁ conn₂, (conn₁ = conn ∨ conn.handleClose = some conn₁) ∧
      (conn₂ = conn₁ ∨ conn₁.handleRead messageCallback readResult = some conn₂) ∧
      (conn' = conn₂ ∨ conn₂.handleWrite writeResult = some conn') := by
  obtain ⟨conn₁, h₁, hrest⟩ := Option.bind_eq_some_iff.mp h
  obtain ⟨conn₁', herror, hrest'⟩ := Option.bind_eq_some_iff.mp hrest
  obtain ⟨conn₂, h₂, h₃⟩ := Option.bind_eq_some_iff.mp hrest'
  have heq : conn₁' = conn₁ := by
    rcases callIf_cases herror with heq | hlogged
    · exact heq
    · exact (Option.some.inj hlogged).symm
  rw [heq] at h₂
  exact ⟨conn₁, conn₂, callIf_cases h₁, callIf_cases h₂, callIf_cases h₃⟩

theorem not_handleClose_of_closed (hc : Closed conn) : conn.handleClose ≠ some conn' := by
  intro h
  rcases handleClose_state h with hs | hs <;> rw [hc] at hs <;> cases hs

/-- An event that cannot close the connection leaves its channel as it is, up to the writing at its
end. -/
theorem handleEvent_of_not_close (hno : ∀ c, conn.handleClose ≠ some c)
    (h : conn.handleEvent messageCallback revents readResult writeResult = some conn') :
    ∃ conn₂, SameChannel conn conn₂ ∧
      (conn' = conn₂ ∨ conn₂.handleWrite writeResult = some conn') := by
  obtain ⟨conn₁, conn₂, rfl | h₁, h₂, h₃⟩ := handleEvent_cases h
  · refine ⟨conn₂, ?_, h₃⟩
    rcases h₂ with rfl | h₂
    · exact SameChannel.refl _
    · exact (handleRead_cases h₂).resolve_left (hno _)
  · exact absurd h₁ (hno _)

/-- On a closed connection an event changes at most the buffers and the events. -/
theorem handleEvent_closed (hc : Closed conn)
    (h : conn.handleEvent messageCallback revents readResult writeResult = some conn') :
    Closed conn' ∧ (Quiet conn → Quiet conn') := by
  obtain ⟨conn₂, hsame, h₃⟩ := handleEvent_of_not_close (fun _ => not_handleClose_of_closed hc) h
  have hc₂ := hc.of_sameChannel hsame
  rcases h₃ with rfl | h₃
  · exact ⟨hc₂, Quiet.of_sameChannel hsame⟩
  · refine ⟨(handleWrite_state h₃).trans hc₂, fun hq => ?_⟩
    have hq₂ := hq.of_sameChannel hsame
    rw [handleWrite_of_events hq₂.events h₃]
    exact hq₂

theorem handleEvent_fresh (hf : Fresh conn)
    (h : conn.handleEvent messageCallback revents readResult writeResult = some conn') :
    Fresh conn' := by
  have hno : ∀ c, conn.handleClose ≠ some c := fun c hclose => by
    rcases handleClose_state hclose with hs | hs <;> rw [hf.state] at hs <;> cases hs
  obtain ⟨conn₂, hsame, h₃⟩ := handleEvent_of_not_close hno h
  have hf₂ := hf.of_sameChannel hsame
  rcases h₃ with rfl | h₃
  · exact hf₂
  · rw [handleWrite_of_events hf₂.events h₃]
    exact hf₂

/-- **An event on an open connection** leaves it open, or closes it. -/
theorem handleEvent_open (ho : Open conn)
    (h : conn.handleEvent messageCallback revents readResult writeResult = some conn') :
    Open conn' ∨ (Closed conn' ∧ Quiet conn') := by
  obtain ⟨conn₁, conn₂, h₁, h₂, h₃⟩ := handleEvent_cases h
  -- The connection is open or closed before each of the three callbacks.
  have hfirst : Open conn₁ ∨ (Closed conn₁ ∧ Quiet conn₁) := by
    rcases h₁ with rfl | h₁
    · exact Or.inl ho
    · exact Or.inr (handleClose_open ho h₁)
  have hsecond : Open conn₂ ∨ (Closed conn₂ ∧ Quiet conn₂) := by
    rcases h₂ with rfl | h₂
    · exact hfirst
    · rcases hfirst with ho₁ | ⟨hc₁, hq₁⟩
      · rcases handleRead_cases h₂ with hclose | hsame
        · exact Or.inr (handleClose_open ho₁ hclose)
        · exact Or.inl (ho₁.of_sameChannel hsame)
      · have hsame := (handleRead_cases h₂).resolve_left (not_handleClose_of_closed hc₁)
        exact Or.inr ⟨hc₁.of_sameChannel hsame, hq₁.of_sameChannel hsame⟩
  rcases h₃ with rfl | h₃
  · exact hsecond
  · rcases hsecond with ho₂ | ⟨hc₂, hq₂⟩
    · exact Or.inl (handleWrite_open ho₂ h₃)
    · rw [handleWrite_of_events hq₂.events h₃]
      exact Or.inr ⟨hc₂, hq₂⟩

end HandleEvent

end TcpConnection

end SearchServer
