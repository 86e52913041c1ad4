import SearchServer.Lib.Runs
import SearchServer.Net.TcpConnection

/-!
# The output of a connection

`sendInLoop` writes a message to the socket at once if nothing waits to be written, and puts what
was not taken into the output buffer. `handleWrite` writes from the buffer when the socket is ready.
Both may be given any count by the kernel, or an error.

A run starts when the connection is established and has any callbacks of the channel but the one
that closes, any `sendInLoop`, and the calls of `shutdown` and `forceClose` in any thread with the
functors they queue. It records the bytes taken by the kernel and the messages.

**Theorem (`output_in_order`).** The bytes taken by the kernel and the readable bytes of the buffer
are the messages in the order of `sendInLoop`. The channel waits for writing exactly when the buffer
is not empty, and the buffer is empty when `shutdownWrite` is called.
-/

namespace SearchServer

namespace TcpConnection

variable {conn conn' : TcpConnection} {channel : Channel}

theorem update_buffers (h : conn.update channel = some conn') :
    conn'.outputBuffer = conn.outputBuffer ∧ conn'.writeShut = conn.writeShut ∧
      conn'.channel.isWriting = channel.isWriting := by
  obtain ⟨⟨poller, channel'⟩, hup, rfl⟩ := Option.map_eq_some_iff.mp h
  refine ⟨rfl, rfl, ?_⟩
  rw [Channel.isWriting, EPoller.updateChannel_events hup]
  rfl

theorem isWriting_enableWriting (channel : Channel) : channel.enableWriting.isWriting = true := by
  have hbit : (channel.events ||| kWriteEvent) &&& kWriteEvent = kWriteEvent := by
    ext i hi
    rw [BitVec.getElem_and, BitVec.getElem_or]
    cases channel.events[i] <;> cases kWriteEvent[i] <;> rfl
  rw [Channel.isWriting, Channel.enableWriting]
  simp only [hbit]
  decide

theorem isWriting_disableWriting (channel : Channel) :
    channel.disableWriting.isWriting = false := by
  have hbit : channel.events &&& ~~~kWriteEvent &&& kWriteEvent = 0 := by
    rw [BitVec.and_assoc]
    simp
  rw [Channel.isWriting, Channel.disableWriting]
  simp [hbit]

theorem isWriting_enableReading (channel : Channel) :
    channel.enableReading.isWriting = channel.isWriting := by
  have hbit : (channel.events ||| kReadEvent) &&& kWriteEvent = channel.events &&& kWriteEvent := by
    rw [BitVec.and_comm, BitVec.and_or_distrib_left, BitVec.and_comm kWriteEvent kReadEvent,
      show kReadEvent &&& kWriteEvent = 0 by decide, BitVec.and_comm]
    simp
  rw [Channel.isWriting, Channel.isWriting, Channel.enableReading]
  simp only [hbit]

/-! ## The callbacks and the buffer -/

/-- The channel waits for writing exactly when there is something to write. -/
def WritesPending (conn : TcpConnection) : Prop :=
  conn.channel.isWriting = true ↔ conn.outputBuffer.readable ≠ []

/-- The part of the message that the kernel takes at once. -/
def sentDirectly (conn : TcpConnection) (message : Bytes) (result : WriteResult) : Bytes :=
  message.take (conn.nwrote result)

/-- The part of the buffer that the kernel takes. -/
def sentFromBuffer (conn : TcpConnection) (result : WriteResult) : Bytes :=
  if conn.channel.isWriting then
    match result with
    | .wrote n => conn.outputBuffer.readable.take n
    | .error => []
  else []

theorem readable_eq_nil_iff (b : Buffer) : b.readableBytes = 0 ↔ b.readable = [] := by
  rw [← Buffer.length_readable, List.length_eq_zero_iff]

/-- Something is written directly only past an empty buffer. -/
theorem readable_of_nwrote {result : WriteResult}
    (hn : conn.nwrote result ≠ 0) : conn.outputBuffer.readable = [] := by
  unfold nwrote at hn
  split_ifs at hn with hfree
  · exact (readable_eq_nil_iff _).mp hfree.2
  · exact absurd rfl hn

theorem sendInLoop_output (h : WritesPending conn) {message : Bytes} {result : WriteResult}
    (hsend : conn.sendInLoop message result = some conn') :
    WritesPending conn' ∧ conn'.writeShut = conn.writeShut ∧
      conn.sentDirectly message result ++ conn'.outputBuffer.readable =
        conn.outputBuffer.readable ++ message := by
  unfold sentDirectly
  -- The bytes taken come before the buffered ones, and then the buffer is empty.
  have hswap : message.take (conn.nwrote result) ++ conn.outputBuffer.readable =
      conn.outputBuffer.readable ++ message.take (conn.nwrote result) := by
    by_cases hn : conn.nwrote result = 0
    · rw [hn, List.take_zero, List.nil_append, List.append_nil]
    · rw [readable_of_nwrote hn, List.append_nil, List.nil_append]
  unfold sendInLoop at hsend
  obtain ⟨hle, hsend⟩ := Option.ite_none_left_eq_some.mp hsend
  by_cases hlt : conn.nwrote result < message.length
  · rw [if_pos hlt] at hsend
    obtain ⟨buf, hbuf, hread⟩ := conn.outputBuffer.append_readable
      (message.drop (conn.nwrote result))
    rw [hbuf] at hsend
    have hne : buf.readable ≠ [] := by
      intro hnil
      rw [hread, List.append_eq_nil_iff, List.drop_eq_nil_iff] at hnil
      omega
    have hout : message.take (conn.nwrote result) ++ buf.readable =
        conn.outputBuffer.readable ++ message := by
      rw [hread, ← List.append_assoc, hswap, List.append_assoc, List.take_append_drop]
    change (if conn.channel.isWriting = true then some { conn with outputBuffer := buf }
      else update { conn with outputBuffer := buf } conn.channel.enableWriting) = some conn' at hsend
    by_cases hw : conn.channel.isWriting = true
    · rw [if_pos hw] at hsend
      obtain rfl := Option.some.inj hsend
      exact ⟨iff_of_true hw hne, rfl, hout⟩
    · rw [if_neg hw] at hsend
      obtain ⟨hbuf', hshut, hw'⟩ := update_buffers hsend
      rw [isWriting_enableWriting] at hw'
      refine ⟨?_, hshut, by rwa [hbuf']⟩
      rw [WritesPending, hbuf']
      exact iff_of_true hw' hne
  · rw [if_neg hlt] at hsend
    obtain rfl := Option.some.inj hsend
    refine ⟨h, rfl, ?_⟩
    rw [hswap, List.take_of_length_le (by omega)]

theorem handleWrite_output (h : WritesPending conn) {result : WriteResult}
    (hwrite : conn.handleWrite result = some conn') :
    WritesPending conn' ∧
      (conn'.writeShut = true → conn.writeShut = true ∨ conn'.outputBuffer.readable = []) ∧
      conn.sentFromBuffer result ++ conn'.outputBuffer.readable = conn.outputBuffer.readable := by
  unfold handleWrite at hwrite
  unfold sentFromBuffer
  by_cases hw : conn.channel.isWriting = true
  · rw [if_pos hw] at hwrite ⊢
    match result with
    | .error =>
      obtain rfl := Option.some.inj hwrite
      exact ⟨h, Or.inl, rfl⟩
    | .wrote 0 =>
      obtain rfl := Option.some.inj hwrite
      exact ⟨h, Or.inl, rfl⟩
    | .wrote (n + 1) =>
      obtain ⟨buf, hbuf, hwrite⟩ := Option.bind_eq_some_iff.mp hwrite
      have hle : n + 1 ≤ conn.outputBuffer.readable.length := by
        rw [Buffer.length_readable]
        exact (Option.ite_none_right_eq_some.mp hbuf).1
      obtain ⟨buf', hbuf', hread⟩ := Buffer.readable_retrieve hle
      obtain rfl : buf' = buf := Option.some.inj (hbuf'.symm.trans hbuf)
      have hout : conn.outputBuffer.readable.take (n + 1) ++ buf'.readable =
          conn.outputBuffer.readable := by
        rw [hread, List.take_append_drop]
      by_cases hempty : buf'.readableBytes = 0
      · obtain ⟨conn₁, hup, rfl⟩ := Option.map_eq_some_iff.mp ((if_pos hempty).symm.trans hwrite)
        obtain ⟨hbuf₁, -, hw₁⟩ := update_buffers hup
        rw [isWriting_disableWriting] at hw₁
        have hnil : conn₁.outputBuffer.readable = [] := by
          rw [hbuf₁]
          exact (readable_eq_nil_iff _).mp hempty
        have hsame : conn₁.writeDone.outputBuffer = conn₁.outputBuffer ∧
            conn₁.writeDone.channel = conn₁.channel := by
          unfold writeDone
          split_ifs <;> exact ⟨rfl, rfl⟩
        rw [WritesPending, hsame.1, hsame.2]
        refine ⟨?_, fun _ => Or.inr hnil, by rwa [hbuf₁]⟩
        simp [hw₁, hnil]
      · obtain rfl := Option.some.inj ((if_neg hempty).symm.trans hwrite)
        refine ⟨iff_of_true hw ?_, Or.inl, hout⟩
        intro hnil
        exact hempty ((readable_eq_nil_iff _).mpr hnil)
  · rw [if_neg hw] at hwrite ⊢
    obtain rfl := Option.some.inj hwrite
    exact ⟨h, Or.inl, rfl⟩

end TcpConnection

/-! ## Runs of a connection -/

/-- A connection with the bytes taken by the kernel and the messages sent. -/
structure OutputStream where
  conn : TcpConnection
  accepted : Bytes
  messages : List Bytes

namespace OutputStream

inductive Action where
  | sendInLoop (message : Bytes) (result : WriteResult)
  | handleWrite (result : WriteResult)
  /-- A read that does not find the end of the stream. -/
  | handleRead (result : ReadResult)
  | handleError
  | shutdown
  | shutdownInLoop
  | forceClose

/-- Forget the call of `shutdownWrite` in the step before. -/
def clear (s : OutputStream) : TcpConnection := { s.conn with writeShut := false }

/-- One callback or call. Afterwards `writeShut` says whether it called `shutdownWrite`. -/
def step (messageCallback : Buffer → Option Buffer) (s : OutputStream) :
    Action → Option OutputStream
  | .sendInLoop message result => (s.clear.sendInLoop message result).map fun conn =>
      ⟨conn, s.accepted ++ s.conn.sentDirectly message result, s.messages ++ [message]⟩
  | .handleWrite result => (s.clear.handleWrite result).map fun conn =>
      ⟨conn, s.accepted ++ s.conn.sentFromBuffer result, s.messages⟩
  | .handleRead result =>
    match result with
    | .bytes [] => none
    | result => (s.clear.handleRead messageCallback result).map fun conn =>
        ⟨conn, s.accepted, s.messages⟩
  | .handleError => s.clear.handleError.map fun conn => ⟨conn, s.accepted, s.messages⟩
  | .shutdown => some ⟨s.clear.shutdown, s.accepted, s.messages⟩
  | .shutdownInLoop => some ⟨s.clear.shutdownInLoop, s.accepted, s.messages⟩
  | .forceClose => some ⟨s.clear.forceClose, s.accepted, s.messages⟩

/-- What is to be kept. -/
structure InOrder (s : OutputStream) : Prop where
  bytes : s.accepted ++ s.conn.outputBuffer.readable = s.messages.flatten
  writing : s.conn.WritesPending
  shut : s.conn.writeShut = true → s.conn.outputBuffer.readable = []

/-- A step that leaves the output and the channel alone. -/
theorem InOrder.of_same {s t : OutputStream} (h : s.InOrder) (haccepted : t.accepted = s.accepted)
    (hmessages : t.messages = s.messages) (hbuf : t.conn.outputBuffer = s.conn.outputBuffer)
    (hchannel : t.conn.channel = s.conn.channel) (hshut : t.conn.writeShut = false) :
    t.InOrder where
  bytes := by rw [haccepted, hmessages, hbuf, h.bytes]
  writing := by
    rw [TcpConnection.WritesPending, hbuf, hchannel]
    exact h.writing
  shut := fun hshut' => absurd (hshut.symm.trans hshut') Bool.false_ne_true

theorem inOrder_step {messageCallback : Buffer → Option Buffer} {s t : OutputStream} {a : Action}
    (h : s.InOrder) (hstep : step messageCallback s a = some t) : t.InOrder := by
  cases a with
  | sendInLoop message result =>
    obtain ⟨conn, hsend, rfl⟩ := Option.map_eq_some_iff.mp hstep
    have hclear : s.clear.WritesPending := h.writing
    obtain ⟨hwriting, hshut, hout⟩ := TcpConnection.sendInLoop_output hclear hsend
    refine ⟨?_, hwriting, fun hshut' => absurd (hshut.symm.trans hshut') Bool.false_ne_true⟩
    show s.accepted ++ s.clear.sentDirectly message result ++ conn.outputBuffer.readable =
      (s.messages ++ [message]).flatten
    rw [List.append_assoc, hout, ← List.append_assoc, List.flatten_append, ← h.bytes]
    simp [clear]
  | handleWrite result =>
    obtain ⟨conn, hwrite, rfl⟩ := Option.map_eq_some_iff.mp hstep
    have hclear : s.clear.WritesPending := h.writing
    obtain ⟨hwriting, hshut, hout⟩ := TcpConnection.handleWrite_output hclear hwrite
    refine ⟨?_, hwriting, fun hshut' => (hshut hshut').resolve_left (by simp [clear])⟩
    show s.accepted ++ s.clear.sentFromBuffer result ++ conn.outputBuffer.readable =
      s.messages.flatten
    rw [List.append_assoc, hout]
    exact h.bytes
  | handleRead result =>
    match result with
    | .bytes [] => cases hstep
    | .bytes (b :: data) =>
      obtain ⟨conn, hread, rfl⟩ := Option.map_eq_some_iff.mp hstep
      obtain ⟨_, -, hread⟩ := Option.bind_eq_some_iff.mp hread
      obtain ⟨_, -, hread⟩ := Option.bind_eq_some_iff.mp hread
      obtain rfl := Option.some.inj hread
      exact h.of_same rfl rfl rfl rfl rfl
    | .error =>
      obtain rfl := Option.some.inj hstep
      exact h.of_same rfl rfl rfl rfl rfl
  | handleError =>
    obtain rfl := Option.some.inj hstep
    exact h.of_same rfl rfl rfl rfl rfl
  | shutdown =>
    obtain rfl := Option.some.inj hstep
    unfold TcpConnection.shutdown
    split_ifs
    · exact h.of_same rfl rfl rfl rfl rfl
    · exact h.of_same rfl rfl rfl rfl rfl
  | shutdownInLoop =>
    obtain rfl := Option.some.inj hstep
    unfold TcpConnection.shutdownInLoop
    by_cases hw : s.clear.channel.isWriting = true
    · rw [if_pos hw]
      exact h.of_same rfl rfl rfl rfl rfl
    · rw [if_neg hw]
      refine ⟨h.bytes, h.writing, fun _ => ?_⟩
      by_contra hne
      exact hw (h.writing.mpr hne)
  | forceClose =>
    obtain rfl := Option.some.inj hstep
    unfold TcpConnection.forceClose
    split_ifs
    · exact h.of_same rfl rfl rfl rfl rfl
    · exact h.of_same rfl rfl rfl rfl rfl

/-- The state of a connection that has just been established. -/
theorem inOrder_established {poller : EPoller} {ptr fd : ℕ} {conn : TcpConnection}
    (h : (TcpConnection.init poller ptr fd).connectEstablished = some conn) :
    InOrder ⟨conn, [], []⟩ := by
  have hup := (Option.ite_none_right_eq_some.mp h).2
  obtain ⟨hbuf, hshut, hw⟩ := TcpConnection.update_buffers hup
  have hnil : conn.outputBuffer.readable = [] := by
    rw [hbuf]
    exact Buffer.readable_init
  have hquiet : conn.channel.isWriting = false := by
    rw [hw, TcpConnection.isWriting_enableReading]
    exact TcpConnection.isWriting_of_events rfl
  refine ⟨hnil, ?_, fun _ => hnil⟩
  show conn.channel.isWriting = true ↔ conn.outputBuffer.readable ≠ []
  simp [hnil, hquiet]

/-- **The output stream.** In a run of an established connection, the bytes taken by the kernel and
the bytes of the output buffer are the messages in the order of `sendInLoop`; the channel waits for
writing exactly when the buffer is not empty; and when `shutdownWrite` has just been called, the
buffer is empty. -/
theorem output_in_order {messageCallback : Buffer → Option Buffer} {poller : EPoller} {ptr fd : ℕ}
    {conn : TcpConnection} (hconn : (TcpConnection.init poller ptr fd).connectEstablished = some conn)
    {tr : List (OutputStream × Action)} {t : OutputStream}
    (hrun : Run (step messageCallback) ⟨conn, [], []⟩ tr t) :
    t.accepted ++ t.conn.outputBuffer.readable = t.messages.flatten ∧
      (t.conn.channel.isWriting = true ↔ t.conn.outputBuffer.readable ≠ []) ∧
      (t.conn.writeShut = true → t.conn.outputBuffer.readable = []) := by
  obtain ⟨-, hbytes, hwriting, hshut⟩ := hrun.invariant (fun _ _ _ h hst => inOrder_step h hst)
    (inOrder_established hconn)
  exact ⟨hbytes, hwriting, hshut⟩

/-- Two messages are sent with a short write and a full buffer, and flushed after `shutdown`. -/
def shortWrites : List Action :=
  [.sendInLoop (lit "hello") (.wrote 2), .sendInLoop (lit "world") .error, .shutdown,
    .shutdownInLoop, .handleWrite (.wrote 4), .handleWrite .error, .handleWrite (.wrote 4)]

theorem output_in_order_shortWrites :
    ∃ conn t, (TcpConnection.init ⟨∅, ∅⟩ 1 7).connectEstablished = some conn ∧
      exec (step some) ⟨conn, [], []⟩ shortWrites = some t ∧ t.conn.writeShut = true ∧
      t.conn.outputBuffer.readable = [] ∧ t.accepted = lit "helloworld" := by
  obtain ⟨conn, hconn⟩ : ∃ conn, (TcpConnection.init ⟨∅, ∅⟩ 1 7).connectEstablished = some conn :=
    ⟨_, rfl⟩
  have hlast : (((TcpConnection.init ⟨∅, ∅⟩ 1 7).connectEstablished.bind fun conn =>
      exec (step some) ⟨conn, [], []⟩ shortWrites).map fun t => (t.conn.writeShut, t.messages)) =
      some (true, [lit "hello", lit "world"]) := by decide +kernel
  rw [hconn, Option.bind_some] at hlast
  obtain ⟨t, ht, hstate⟩ := Option.map_eq_some_iff.mp hlast
  obtain ⟨hshut, hmessages⟩ := Prod.mk.inj hstate
  obtain ⟨hbytes, -, hempty⟩ := output_in_order hconn (run_trace ht)
  rw [hempty hshut, hmessages, List.append_nil] at hbytes
  exact ⟨conn, t, hconn, ht, hshut, hempty hshut, hbytes⟩

end OutputStream

end SearchServer
