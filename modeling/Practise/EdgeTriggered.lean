import Practise.LibeventProgress

/-!
The client of echo/libevent2 with the server of echo/epoll, and the kernel
between them. The server registers its clients with EPOLLET: `epoll_wait` reports
a socket once after data has arrived on it, and reports what holds at that moment.
The message is small, so that the socket always has room and every write takes
something.

For each report the server reads all there is and writes one chunk of its queue.
This need not drain the queue, but it keeps an echoing client busy, which sends
the chunk back. What ends the exchange is a report that comes late: its data has
been read with the data before it, and the one chunk they made has been written.
-/
namespace Practise.EdgeTriggered
open Machine RelayRing LibeventEcho
open EchoServer (Control EpollEvent Label SessionMap)

/-- One client's socket on the server, as far as `epoll_wait` and `read` see it:
how many bytes are in its receive buffer, and whether it is still to be reported.
`read` returns so many bytes, or EAGAIN. -/
structure Kernel (Socket : Type) where
  arrived : Socket → Nat
  ready : Socket → Bool
  registered : Socket
  arrive : Socket → Nat → Option Socket
  epollWait : Socket → Option (EpollEvent × Socket)
  read : Socket → Option Nat → Option Socket

/-- As epoll(7) and read(2) have it for EPOLLIN, EPOLLOUT and EPOLLET, if there is
always room to write: the socket is reported once when it is registered and once
after data has arrived, with what holds at that moment. -/
structure Kernel.Documented {Socket : Type} (kernel : Kernel Socket) (fd : EchoServer.Fd) :
    Prop where
  registered : kernel.arrived kernel.registered = 0 ∧ kernel.ready kernel.registered = true
  arrive : ∀ socket count next, kernel.arrive socket count = some next → 0 < count ∧
    kernel.arrived next = kernel.arrived socket + count ∧ kernel.ready next = true
  epollWait : ∀ socket event next, kernel.epollWait socket = some (event, next) →
    kernel.ready socket = true ∧ event.fd = fd ∧ event.epollout = true ∧
      event.epollin = decide (0 < kernel.arrived socket) ∧
      kernel.arrived next = kernel.arrived socket ∧ kernel.ready next = false
  read : ∀ socket count next, kernel.read socket (some count) = some next →
    count ≤ kernel.arrived socket ∧ kernel.arrived next = kernel.arrived socket - count ∧
      kernel.ready next = kernel.ready socket
  again : ∀ socket next, kernel.read socket none = some next → kernel.arrived socket = 0 ∧
    kernel.arrived next = kernel.arrived socket ∧ kernel.ready next = kernel.ready socket

/-- The first `arrived` bytes on the way to the server are in the receive buffer. -/
structure Connection (Bev Socket : Type) where
  ring : Ring UInt8 (Client Bev) EchoServer.Server
  socket : Socket

inductive Act where
  | client (label : ClientLabel)
  | arrive (count : Nat)
  | poll
  | call (label : Label)

/-- Nobody hangs up. -/
def ordinary : ClientLabel → Bool
  | .event .connected => true
  | .event _ => false
  | .received _ => true
  | .sent _ => true

section Step
variable {Bev Socket : Type} (lib : Libevent Bev) (kernel : Kernel Socket)
  (listenfd fd : EchoServer.Fd) (message : Bytes)

/-- The socket after a call of the server, where no call fails. -/
def answer (socket : Socket) : Label → Option Socket
  | .read other (.data received) none _ =>
      if other = fd then kernel.read socket (some received.bytes.length) else none
  | .read other (.data received) (some nwrite) _ =>
      if other = fd ∧ 0 ≤ nwrite then kernel.read socket (some received.bytes.length) else none
  | .read other (.failed .again) none _ => if other = fd then kernel.read socket none else none
  | .write other nwrite => if other = fd ∧ 0 < nwrite then some socket else none
  | _ => none

def edgeStep : Step (Connection Bev Socket) Act UInt8
  | connection, .client label =>
      if ordinary label then
        (ringStep (clientRelay lib message) (epollRelay listenfd fd) connection.ring
          (.left label)).map fun moved => ({ connection with ring := moved.1 }, moved.2)
      else none
  | connection, .arrive count =>
      if kernel.arrived connection.socket + count ≤ connection.ring.toRight.length then
        (kernel.arrive connection.socket count).map fun socket =>
          ({ connection with socket := socket }, [])
      else none
  | connection, .poll =>
      (kernel.epollWait connection.socket).bind fun reported =>
        (ringStep (clientRelay lib message) (epollRelay listenfd fd) connection.ring
          (.right (.event reported.1))).map fun moved => (⟨moved.1, reported.2⟩, moved.2)
  | connection, .call label =>
      (answer kernel fd connection.socket label).bind fun socket =>
        (ringStep (clientRelay lib message) (epollRelay listenfd fd) connection.ring
          (.right label)).map fun moved => (⟨moved.1, socket⟩, moved.2)

def connect (readbuf : Bytes) : Connection Bev Socket where
  ring := startRing lib (EchoServer.registerClient fd (EchoServer.start listenfd readbuf))
  socket := kernel.registered

end Step

/-! What the server does between two acts of the kernel. -/

/-- The EPOLLOUT branch, up to the write itself. -/
def decided (event : EpollEvent) (sessionMap : SessionMap) : Control :=
  match sessionMap event.fd with
  | none => .wait
  | some [] => .emptyFront event
  | some (_ :: _) => .write event

theorem epollout_decided (event : EpollEvent) (asked : event.epollout = true)
    (server : EchoServer.Server) :
    (EchoServer.epolloutBranch event server).control = decided event server.sessionMap := by
  rw [EchoServer.epolloutBranch, if_pos asked, decided]
  cases server.sessionMap event.fd with
  | none => rfl
  | some queue =>
      cases queue with
      | nil => rfl
      | cons outData rest => rfl

theorem push_nonempty (sessionMap : SessionMap) (fd : EchoServer.Fd) (data : Bytes) :
    ∃ outData rest, EchoServer.push sessionMap fd data fd = some (outData :: rest) := by
  obtain ⟨outData, rest, split⟩ := List.exists_cons_of_ne_nil
    (List.append_ne_nil_of_right_ne_nil ((sessionMap fd).getD []) (List.cons_ne_nil data []))
  exact ⟨outData, rest, by rw [EchoServer.push, Function.update_self, split]⟩

section Server
variable (listenfd fd : EchoServer.Fd) (server next : EchoServer.Server)
  (calls : List EchoServer.Call)

theorem server_reported (other : fd ≠ listenfd) (event : EpollEvent) (own : event.fd = fd)
    (asked : event.epollout = true)
    (taken : EchoServer.step listenfd server (.event event) = some (next, calls)) :
    server.control = .wait ∧ calls = [] ∧ next.sessionMap = server.sessionMap ∧
      next.control = if event.epollin then .read event else decided event server.sessionMap := by
  cases control : server.control with
  | wait =>
      simp only [EchoServer.step, control, Option.some.injEq, Prod.mk.injEq] at taken
      obtain ⟨rfl, rfl⟩ := taken
      refine ⟨rfl, rfl, EchoServer.begin_session_map .., ?_⟩
      cases data : event.epollin with
      | true => simp [EchoServer.beginEvent, data, own, other]
      | false => simp [EchoServer.beginEvent, data, ← epollout_decided event asked server]
  | accept | read | write | emptyFront | aborted =>
      simp [EchoServer.step, control] at taken

theorem server_stopped (below : UInt8) (asked : ∀ event, server.control = .read event →
      event.epollout = true)
    (taken : EchoServer.step listenfd server (.read fd (.failed .again) none below) =
      some (next, calls)) :
    ∃ event, server.control = .read event ∧ event.fd = fd ∧ calls = [] ∧
      next.sessionMap = server.sessionMap ∧ next.control = decided event server.sessionMap := by
  cases control : server.control with
  | read event =>
      simp only [EchoServer.step, control] at taken
      split at taken
      · next same =>
        obtain ⟨rfl, rfl⟩ := Prod.mk.inj (Option.some.inj taken)
        exact ⟨event, rfl, same.symm, rfl, EchoServer.epollout_session_map ..,
          epollout_decided event (asked event control) _⟩
      · exact absurd taken (by simp)
  | wait | accept | write | emptyFront | aborted => simp [EchoServer.step, control] at taken

theorem server_read (received : EchoServer.Received) (nwrite : Option Int) (below : UInt8)
    (taken : EchoServer.step listenfd server (.read fd (.data received) nwrite below) =
      some (next, calls)) :
    ∃ event, server.control = .read event ∧ event.fd = fd ∧ next.control = .read event ∧
      EchoServer.bytesIn fd calls = received.bytes ∧
      ∃ outData rest, next.sessionMap fd = some (outData :: rest) := by
  have moves := EchoServer.step_moves listenfd server next _ calls taken
  have effect := EchoServer.step_effect listenfd server next _ calls taken
  generalize server.control = before at moves
  generalize next.control = after at moves
  generalize next.sessionMap = sessionMap at moves effect
  cases moves with
  | stops event _ _ _ _ ending => exact absurd ending (by simp)
  | repeats event =>
      refine ⟨event, rfl, rfl, rfl, ?_⟩
      cases effect with
      | stopped _ _ _ ending => exact absurd ending (by simp)
      | direct => exact ⟨by simp [EchoServer.bytesIn], push_nonempty ..⟩
      | queued => exact ⟨by simp [EchoServer.bytesIn], push_nonempty ..⟩

theorem server_wrote (nwrite : Int) (positive : 0 < nwrite)
    (bounded : EchoServer.ChunksWithin 1024 server.sessionMap)
    (taken : EchoServer.step listenfd server (.write fd nwrite) = some (next, calls)) :
    ∃ event, server.control = .write event ∧ event.fd = fd ∧ next.control = .wait ∧
      EchoServer.bytesIn fd calls = [] ∧ 0 < (EchoServer.bytesOut fd calls).length := by
  have moves := EchoServer.step_moves listenfd server next _ calls taken
  have effect := EchoServer.step_effect listenfd server next _ calls taken
  have whole := EchoServer.step_not_aborted listenfd server next _ calls bounded taken
  generalize server.control = before at moves
  generalize next.control = after at moves whole
  generalize next.sessionMap = sessionMap at moves effect
  cases moves with
  | wrote event =>
      refine ⟨event, rfl, rfl, rfl, ?_⟩
      cases effect with
      | shortened _ outData _ _ _ _ upper | popped _ outData _ _ _ _ upper
      | overran _ outData _ _ _ upper =>
          simp [EchoServer.bytesIn, EchoServer.bytesOut]
          omega
  | aborts event => exact absurd rfl (whole event)

end Server

/-! What one act does. -/

section Answers
variable {Socket : Type} (kernel : Kernel Socket) (fd : EchoServer.Fd) (socket next : Socket)
  (label : Label)

theorem answer_cases (answered : answer kernel fd socket label = some next) :
    (∃ received nwrite below, label = .read fd (.data received) nwrite below ∧
      kernel.read socket (some received.bytes.length) = some next) ∨
    (∃ below, label = .read fd (.failed .again) none below ∧ kernel.read socket none = some next) ∨
    ∃ nwrite, label = .write fd nwrite ∧ 0 < nwrite ∧ next = socket := by
  unfold answer at answered
  split at answered
  · next other received below =>
    obtain ⟨rfl, read⟩ := Option.ite_none_right_eq_some.mp answered
    exact Or.inl ⟨received, none, below, rfl, read⟩
  · next other received nwrite below =>
    obtain ⟨⟨rfl, -⟩, read⟩ := Option.ite_none_right_eq_some.mp answered
    exact Or.inl ⟨received, some nwrite, below, rfl, read⟩
  · next other below =>
    obtain ⟨rfl, again⟩ := Option.ite_none_right_eq_some.mp answered
    exact Or.inr (Or.inl ⟨below, rfl, again⟩)
  · next other nwrite =>
    obtain ⟨⟨rfl, positive⟩, same⟩ := Option.ite_none_right_eq_some.mp answered
    exact Or.inr (Or.inr ⟨nwrite, rfl, positive, (Option.some.inj same).symm⟩)
  · exact absurd answered (by simp)

theorem answer_healthy (answered : answer kernel fd socket label = some next) :
    label.writeFails = false ∧ label.readFails = false := by
  unfold answer at answered
  split at answered
  · exact ⟨rfl, rfl⟩
  · obtain ⟨⟨-, positive⟩, -⟩ := Option.ite_none_right_eq_some.mp answered
    simp only [Label.writeFails, Label.readFails, decide_eq_false_iff_not, and_true]
    omega
  · exact ⟨rfl, rfl⟩
  · obtain ⟨⟨-, positive⟩, -⟩ := Option.ite_none_right_eq_some.mp answered
    simp only [Label.writeFails, Label.readFails, decide_eq_false_iff_not, and_true]
    omega
  · exact absurd answered (by simp)

end Answers

section Acts
variable {Bev Socket : Type} (lib : Libevent Bev) (kernel : Kernel Socket)
  (listenfd fd : EchoServer.Fd) (message : Bytes)

def queued (connection : Connection Bev Socket) : Bytes :=
  EchoServer.pending connection.ring.right.sessionMap fd

/-- A step of the server that takes `read` bytes in and gives `written` bytes out. -/
structure ServerActs (connection next : Connection Bev Socket) (back : Bytes) (read written : Nat) :
    Prop where
  turn : ∃ label : Label, (label.writeFails = false ∧ label.readFails = false) ∧
    ringStep (clientRelay lib message) (epollRelay listenfd fd) connection.ring (.right label) =
      some (next.ring, back)
  back : back = []
  left : next.ring.left = connection.ring.left
  channel : connection.ring.toRight.length = read + next.ring.toRight.length
  held : (queued fd next).length + written = (queued fd connection).length + read

theorem server_acts (connection next : Connection Bev Socket) (label : Label) (back : Bytes)
    (within : EchoServer.ChunksWithin 1024 connection.ring.right.sessionMap)
    (healthy : label.writeFails = false ∧ label.readFails = false)
    (turn : ringStep (clientRelay lib message) (epollRelay listenfd fd) connection.ring
      (.right label) = some (next.ring, back)) :
    ∃ calls, EchoServer.step listenfd connection.ring.right label =
        some (next.ring.right, calls) ∧
      ServerActs lib listenfd fd message connection next back (EchoServer.bytesIn fd calls).length
        (EchoServer.bytesOut fd calls).length := by
  obtain ⟨calls, moved, none, left, channel, -⟩ := (right_turn_iff ..).mp turn
  refine ⟨calls, moved, ⟨label, healthy, turn⟩, none, left, ?_, ?_⟩
  · rw [channel, List.length_append]
    rfl
  · have passes := EchoServer.effect_conserves _ _ label calls within healthy.1 healthy.2
      (EchoServer.step_effect listenfd _ _ label calls moved) fd
    have lengths := congrArg List.length passes
    rw [List.length_append, List.length_append] at lengths
    rw [queued, queued]
    omega

/-- The acts of a connection, with what is known of the server at each of them. -/
inductive Happens (connection next : Connection Bev Socket) (back : Bytes) : Act → Prop where
  | client (label : ClientLabel) (calm : ordinary label = true)
      (turn : ringStep (clientRelay lib message) (epollRelay listenfd fd) connection.ring
        (.left label) = some (next.ring, back))
      (arrived : kernel.arrived next.socket = kernel.arrived connection.socket)
      (ready : kernel.ready next.socket = kernel.ready connection.socket) :
      Happens connection next back (.client label)
  | arrives (count : Nat) (more : 0 < count)
      (enough : kernel.arrived connection.socket + count ≤ connection.ring.toRight.length)
      (none : back = []) (ring : next.ring = connection.ring)
      (arrived : kernel.arrived next.socket = kernel.arrived connection.socket + count)
      (ready : kernel.ready next.socket = true) : Happens connection next back (.arrive count)
  | reports (event : EpollEvent) (own : event.fd = fd) (asked : event.epollout = true)
      (acts : ServerActs lib listenfd fd message connection next back 0 0)
      (was : kernel.ready connection.socket = true) (waits : connection.ring.right.control = .wait)
      (same : next.ring.right.sessionMap = connection.ring.right.sessionMap)
      (goes : next.ring.right.control =
        if 0 < kernel.arrived connection.socket then .read event
        else decided event connection.ring.right.sessionMap)
      (arrived : kernel.arrived next.socket = kernel.arrived connection.socket)
      (ready : kernel.ready next.socket = false) :
      Happens connection next back .poll
  | reads (label : Label) (event : EpollEvent) (read written : Nat)
      (acts : ServerActs lib listenfd fd message connection next back read written)
      (some : 0 < read) (there : read ≤ kernel.arrived connection.socket)
      (reading : connection.ring.right.control = .read event)
      (goes : next.ring.right.control = .read event)
      (entry : ∃ outData rest, next.ring.right.sessionMap fd = .some (outData :: rest))
      (arrived : kernel.arrived next.socket = kernel.arrived connection.socket - read)
      (ready : kernel.ready next.socket = kernel.ready connection.socket) :
      Happens connection next back (.call label)
  | stops (label : Label) (event : EpollEvent)
      (acts : ServerActs lib listenfd fd message connection next back 0 0)
      (reading : connection.ring.right.control = .read event)
      (none : kernel.arrived connection.socket = 0)
      (same : next.ring.right.sessionMap = connection.ring.right.sessionMap)
      (goes : next.ring.right.control = decided event connection.ring.right.sessionMap)
      (arrived : kernel.arrived next.socket = kernel.arrived connection.socket)
      (ready : kernel.ready next.socket = kernel.ready connection.socket) :
      Happens connection next back (.call label)
  | writes (label : Label) (event : EpollEvent) (written : Nat)
      (acts : ServerActs lib listenfd fd message connection next back 0 written)
      (some : 0 < written)
      (writing : connection.ring.right.control = .write event)
      (goes : next.ring.right.control = .wait)
      (arrived : kernel.arrived next.socket = kernel.arrived connection.socket)
      (ready : kernel.ready next.socket = kernel.ready connection.socket) :
      Happens connection next back (.call label)

section Kernel
variable (sockets : kernel.Documented fd)
include sockets

theorem step_happens (other : fd ≠ listenfd) (connection next : Connection Bev Socket) (act : Act)
    (back : Bytes)
    (within : EchoServer.ChunksWithin 1024 connection.ring.right.sessionMap)
    (asked : ∀ event, connection.ring.right.control = .read event → event.epollout = true)
    (taken : edgeStep lib kernel listenfd fd message connection act = some (next, back)) :
    Happens lib kernel listenfd fd message connection next back act := by
  cases act with
  | client label =>
      simp only [edgeStep] at taken
      split at taken
      · next calm =>
        obtain ⟨⟨ring, _⟩, turn, same⟩ := Option.map_eq_some_iff.mp taken
        obtain ⟨rfl, rfl⟩ := Prod.mk.inj same
        exact .client label calm turn rfl rfl
      · exact absurd taken (by simp)
  | arrive count =>
      simp only [edgeStep] at taken
      split at taken
      · next enough =>
        obtain ⟨socket, arrives, same⟩ := Option.map_eq_some_iff.mp taken
        obtain ⟨rfl, rfl⟩ := Prod.mk.inj same
        obtain ⟨more, arrived, ready⟩ := sockets.arrive _ count socket arrives
        exact .arrives count more enough rfl rfl arrived ready
      · exact absurd taken (by simp)
  | poll =>
      obtain ⟨⟨event, socket⟩, reports, moved⟩ := Option.bind_eq_some_iff.mp taken
      obtain ⟨⟨ring, _⟩, turn, same⟩ := Option.map_eq_some_iff.mp moved
      obtain ⟨rfl, rfl⟩ := Prod.mk.inj same
      obtain ⟨was, own, writable, readable, arrived, ready⟩ :=
        sockets.epollWait _ event socket reports
      obtain ⟨calls, moved, acts⟩ := server_acts lib listenfd fd message connection
        ⟨ring, socket⟩ _ _ within ⟨rfl, rfl⟩ turn
      obtain ⟨waits, rfl, kept, goes⟩ :=
        server_reported listenfd fd _ _ calls other event own writable moved
      simp only [readable, decide_eq_true_eq] at goes
      exact .reports event own writable acts was waits kept goes arrived ready
  | call label =>
      obtain ⟨socket, answered, moved⟩ := Option.bind_eq_some_iff.mp taken
      obtain ⟨⟨ring, _⟩, turn, same⟩ := Option.map_eq_some_iff.mp moved
      obtain ⟨rfl, rfl⟩ := Prod.mk.inj same
      obtain ⟨calls, moved, acts⟩ := server_acts lib listenfd fd message connection
        ⟨ring, socket⟩ _ _ within (answer_healthy kernel fd _ _ label answered) turn
      rcases answer_cases kernel fd _ _ label answered with
        ⟨received, nwrite, below, rfl, read⟩ | ⟨below, rfl, again⟩ | ⟨nwrite, rfl, positive, rfl⟩
      · obtain ⟨event, reading, -, goes, taken, entry⟩ :=
          server_read listenfd fd _ _ calls received nwrite below moved
        obtain ⟨there, arrived, ready⟩ := sockets.read _ _ _ read
        rw [taken] at acts
        exact .reads _ event _ _ acts received.positive there reading goes entry arrived ready
      · obtain ⟨event, reading, -, rfl, kept, goes⟩ :=
          server_stopped listenfd fd _ _ calls below asked moved
        obtain ⟨none, arrived, ready⟩ := sockets.again _ _ again
        exact .stops _ event acts reading none kept goes arrived ready
      · obtain ⟨event, writing, -, goes, nothing, some⟩ :=
          server_wrote listenfd fd _ _ calls nwrite positive within moved
        rw [nothing] at acts
        exact .writes _ event _ acts some writing goes rfl rfl

end Kernel

/-! What holds at any time. -/

/-- No byte is lost on the way. Data that has arrived will be read, and while the
server waits without a report to come, some byte of the message is not queued. -/
structure Alive (connection : Connection Bev Socket) (returned : Bytes) : Prop where
  within : EchoServer.ChunksWithin 1024 connection.ring.right.sessionMap
  conserves : Conserves lib message (epollRelay listenfd fd) connection.ring returned
  unaborted : connection.ring.left.aborted = false
  drained : lib.input connection.ring.left.bev = []
  enough : kernel.arrived connection.socket ≤ connection.ring.toRight.length
  serving : ∀ event, connection.ring.right.control ≠ .accept event ∧
    connection.ring.right.control ≠ .aborted event
  reading : ∀ event, connection.ring.right.control = .read event →
    event.fd = fd ∧ event.epollout = true
  front : ∀ event, connection.ring.right.control = .write event → event.fd = fd ∧
    ∃ outData rest, connection.ring.right.sessionMap fd = some (outData :: rest)
  unread : (∀ event, connection.ring.right.control ≠ .read event) →
    0 < kernel.arrived connection.socket → kernel.ready connection.socket = true
  outside : message ≠ [] → connection.ring.right.control = .wait →
    kernel.ready connection.socket = false → connection.ring.left.connected = true →
      (queued fd connection).length < message.length

theorem decided_cases (event : EpollEvent) (own : event.fd = fd) (sessionMap : SessionMap) :
    (decided event sessionMap = .wait ∧ sessionMap fd = none) ∨
    (decided event sessionMap = .emptyFront event ∧ sessionMap fd = some []) ∨
    (decided event sessionMap = .write event ∧
      ∃ outData rest, sessionMap fd = some (outData :: rest)) := by
  rw [decided, own]
  cases sessionMap fd with
  | none => exact Or.inl ⟨rfl, rfl⟩
  | some queue =>
      cases queue with
      | nil => exact Or.inr (Or.inl ⟨rfl, rfl⟩)
      | cons outData rest => exact Or.inr (Or.inr ⟨rfl, outData, rest, rfl⟩)

theorem queued_absent (connection : Connection Bev Socket)
    (absent : connection.ring.right.sessionMap fd = none) : queued fd connection = [] := by
  rw [queued, EchoServer.pending, absent]
  rfl

variable {lib kernel listenfd fd message}

theorem alive_content (connection : Connection Bev Socket) (returned : Bytes)
    (alive : Alive lib kernel listenfd fd message connection returned) :
    connection.ring.toLeft.length + (queued fd connection).length +
        connection.ring.toRight.length + (held lib connection.ring.left.bev).length =
      if connection.ring.left.connected then message.length else 0 := by
  have parts : (content (clientRelay lib message) (epollRelay listenfd fd) connection.ring).length =
      connection.ring.toLeft.length + (queued fd connection).length +
        connection.ring.toRight.length + (held lib connection.ring.left.bev).length := by
    simp only [content, List.length_append]
    rfl
  cases connected : connection.ring.left.connected with
  | false => rw [← parts, (alive.conserves.before connected).1]; rfl
  | true =>
      rw [← parts, (circulates_perm message returned _ (alive.conserves.after connected)).length_eq]
      rfl

section Documented
variable (documented : lib.Documented)
include documented

theorem client_alive (connection next : Connection Bev Socket) (returned back : Bytes)
    (label : ClientLabel) (alive : Alive lib kernel listenfd fd message connection returned)
    (calm : ordinary label = true)
    (turn : ringStep (clientRelay lib message) (epollRelay listenfd fd) connection.ring
      (.left label) = some (next.ring, back))
    (arrived : kernel.arrived next.socket = kernel.arrived connection.socket)
    (ready : kernel.ready next.socket = kernel.ready connection.socket) :
    Alive lib kernel listenfd fd message next (returned ++ back) := by
  obtain ⟨outputs, moved, -, right, -, toRight⟩ := (left_turn_iff ..).mp turn
  have both := turn_conserves lib documented message (epollRelay listenfd fd)
    (epoll_lawful listenfd fd) connection.ring next.ring (.left label) returned back alive.within
    (fun _ impossible => absurd impossible (by simp)) alive.conserves turn
  have running := client_running lib documented message connection.ring.left next.ring.left label
    outputs (fun what same => by
      subst same
      cases what with
      | connected => rfl
      | eof | error | timeout => exact absurd calm (by simp [ordinary]))
    alive.unaborted alive.drained moved
  have queue : queued fd next = queued fd connection := by rw [queued, queued, right]
  constructor
  · exact both.1
  · exact both.2
  · exact running.1
  · exact running.2
  · rw [arrived, toRight, List.length_append]
    exact Nat.le_add_right_of_le alive.enough
  · rw [right]
    exact alive.serving
  · rw [right]
    exact alive.reading
  · rw [right]
    exact alive.front
  · rw [right, arrived, ready]
    exact alive.unread
  · rw [right, ready, queue]
    intro nonempty waits unready _
    cases connected : connection.ring.left.connected with
    | true => exact alive.outside nonempty waits unready connected
    | false =>
        -- The message has just been put into the client's buffer.
        have before := alive_content connection returned alive
        rw [connected] at before
        have positive := List.length_pos_of_ne_nil nonempty
        simp only [Bool.false_eq_true, ↓reduceIte] at before
        omega

theorem server_alive (connection next : Connection Bev Socket) (returned back : Bytes)
    (read written : Nat) (alive : Alive lib kernel listenfd fd message connection returned)
    (acts : ServerActs lib listenfd fd message connection next back read written) :
    EchoServer.ChunksWithin 1024 next.ring.right.sessionMap ∧
      Conserves lib message (epollRelay listenfd fd) next.ring (returned ++ back) ∧
      next.ring.left.aborted = false ∧ lib.input next.ring.left.bev = [] := by
  obtain ⟨label, healthy, turn⟩ := acts.turn
  have both := turn_conserves lib documented message (epollRelay listenfd fd)
    (epoll_lawful listenfd fd) connection.ring next.ring (.right label) returned back alive.within
    (fun _ same => Turn.right.inj same ▸ healthy) alive.conserves turn
  refine ⟨both.1, both.2, ?_, ?_⟩
  · rw [acts.left]
    exact alive.unaborted
  · rw [acts.left]
    exact alive.drained

theorem decided_alive (connection next : Connection Bev Socket) (returned back : Bytes)
    (event : EpollEvent) (own : event.fd = fd)
    (alive : Alive lib kernel listenfd fd message connection returned)
    (acts : ServerActs lib listenfd fd message connection next back 0 0)
    (same : next.ring.right.sessionMap = connection.ring.right.sessionMap)
    (goes : next.ring.right.control = decided event connection.ring.right.sessionMap)
    (none : kernel.arrived connection.socket = 0)
    (arrived : kernel.arrived next.socket = kernel.arrived connection.socket) :
    Alive lib kernel listenfd fd message next (returned ++ back) := by
  obtain ⟨within, conserves, unaborted, drained⟩ :=
    server_alive documented connection next returned back 0 0 alive acts
  rw [← same] at goes
  rcases decided_cases fd event own next.ring.right.sessionMap with
    ⟨decision, absent⟩ | ⟨decision, empty⟩ | ⟨decision, front⟩
  all_goals
    rw [decision] at goes
    refine ⟨within, conserves, unaborted, drained, by omega, by simp [goes], by simp [goes], ?_,
      by omega, ?_⟩
  · simp [goes]
  · rw [queued_absent fd next absent]
    exact fun nonempty _ _ _ => List.length_pos_of_ne_nil nonempty
  · simp [goes]
  · simp [goes]
  · exact fun other writes => ⟨Control.write.inj (goes.symm.trans writes) ▸ own, front⟩
  · simp [goes]

variable (sockets : kernel.Documented fd)
include sockets

theorem start_alive (readbuf : Bytes) :
    Alive lib kernel listenfd fd message (connect lib kernel listenfd fd readbuf) [] where
  within := EchoServer.start_chunks_within 1024 listenfd readbuf
  conserves := start_conserves lib documented message (epollRelay listenfd fd) _ rfl
  unaborted := rfl
  drained := documented.new.1
  enough := sockets.registered.1.le
  serving := fun _ => ⟨by simp [connect, startRing, EchoServer.registerClient, EchoServer.start],
    by simp [connect, startRing, EchoServer.registerClient, EchoServer.start]⟩
  reading := fun _ reads =>
    absurd reads (by simp [connect, startRing, EchoServer.registerClient, EchoServer.start])
  front := fun _ writes =>
    absurd writes (by simp [connect, startRing, EchoServer.registerClient, EchoServer.start])
  unread := fun _ _ => sockets.registered.2
  outside := fun _ _ unready => absurd unready (by simp [connect, sockets.registered.2])

theorem alive_step (other : fd ≠ listenfd) (connection next : Connection Bev Socket)
    (returned back : Bytes) (act : Act)
    (alive : Alive lib kernel listenfd fd message connection returned)
    (taken : edgeStep lib kernel listenfd fd message connection act = some (next, back)) :
    Alive lib kernel listenfd fd message next (returned ++ back) := by
  cases step_happens lib kernel listenfd fd message sockets other connection next act back
      alive.within (fun event reads => (alive.reading event reads).2) taken with
  | client label calm turn arrived ready =>
      exact client_alive documented connection next returned back label alive calm turn arrived
        ready
  | arrives count more enough none ring arrived ready =>
      rw [none, List.append_nil]
      exact {
        within := ring ▸ alive.within
        conserves := ring ▸ alive.conserves
        unaborted := ring ▸ alive.unaborted
        drained := ring ▸ alive.drained
        enough := by rw [arrived, ring]; exact enough
        serving := ring ▸ alive.serving
        reading := ring ▸ alive.reading
        front := ring ▸ alive.front
        unread := fun _ _ => ready
        outside := fun _ _ unready => absurd (ready.symm.trans unready) (by simp) }
  | reports event own asked acts was waits same goes arrived ready =>
      by_cases data : 0 < kernel.arrived connection.socket
      · obtain ⟨within, conserves, unaborted, drained⟩ :=
          server_alive documented connection next returned back 0 0 alive acts
        rw [if_pos data] at goes
        have channel := acts.channel
        have enough := alive.enough
        refine ⟨within, conserves, unaborted, drained, by omega, by simp [goes], ?_, by simp [goes],
          fun away => absurd goes (away _), by simp [goes]⟩
        intro event reads
        rw [← Control.read.inj (goes.symm.trans reads)]
        exact ⟨own, asked⟩
      · rw [if_neg data] at goes
        exact decided_alive documented connection next returned back event own alive acts same goes
          (Nat.eq_zero_of_not_pos data) arrived
  | reads label event read written acts some there reading goes entry arrived ready =>
      obtain ⟨within, conserves, unaborted, drained⟩ :=
        server_alive documented connection next returned back read written alive acts
      have channel := acts.channel
      have enough := alive.enough
      refine ⟨within, conserves, unaborted, drained, by omega, by simp [goes], ?_, by simp [goes],
        fun away => absurd goes (away event), by simp [goes]⟩
      intro again reads
      rw [← Control.read.inj (goes.symm.trans reads)]
      exact alive.reading event reading
  | stops label event acts reading none same goes arrived ready =>
      exact decided_alive documented connection next returned back event
        (alive.reading event reading).1 alive acts same goes none arrived
  | writes label event written acts some writing goes arrived ready =>
      obtain ⟨within, conserves, unaborted, drained⟩ :=
        server_alive documented connection next returned back 0 written alive acts
      have channel := acts.channel
      have enough := alive.enough
      refine ⟨within, conserves, unaborted, drained, by omega, by simp [goes], by simp [goes],
        by simp [goes], ?_, ?_⟩
      · rw [arrived, ready]
        exact fun _ => alive.unread (by simp [writing])
      · -- The chunk that was written is outside now.
        intro _ _ _ connected
        have whole := alive_content connection returned alive
        rw [acts.left] at connected
        rw [if_pos connected] at whole
        have held := acts.held
        omega

theorem run_alive (other : fd ≠ listenfd) (readbuf : Bytes) (acts : List Act)
    (connection : Connection Bev Socket) (returned : Bytes)
    (taken : run (edgeStep lib kernel listenfd fd message) (connect lib kernel listenfd fd readbuf)
      acts = some (connection, returned)) :
    Alive lib kernel listenfd fd message connection returned := by
  refine run_invariant (edgeStep lib kernel listenfd fd message) _ (fun _ _ => True)
    (Alive lib kernel listenfd fd message) (start_alive documented sockets readbuf) ?_ acts
    (every_step_of_labels _ _ _ acts fun _ _ => trivial) acts (List.prefix_refl _) connection
    returned taken
  intro connection returned act next back alive _ taken
  exact alive_step documented sockets other connection next returned back act alive taken

end Documented

end Acts

end Practise.EdgeTriggered
