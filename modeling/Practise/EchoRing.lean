import Practise.EchoAccounting
import Practise.LibeventEcho

/-! The client of echo/libevent2 with a server that echoes. Together they form a
ring in which the client's message goes round. Both the server of echo/libevent2
and that of echo/epoll listen on the client's port; of the second one this is
true only as long as no write fails and no connection breaks. -/
namespace Practise.LibeventEcho
open Machine RelayRing

/-! The client and any server that passes bytes on. -/
section AnyServer
variable {Bev State Label Output : Type} (lib : Libevent Bev) (documented : lib.Documented)
  (message : Bytes) (server : Relay UInt8 State Label Output)

def startRing (state : State) : Ring UInt8 (Client Bev) State where
  left := { bev := lib.socketNew, connected := false, aborted := false }
  right := state
  toLeft := []
  toRight := []

/-- Before the connection there is nothing on the way, and afterwards the
message is, in its order round the ring. -/
structure Conserves (ring : Ring UInt8 (Client Bev) State) (returned : Bytes) : Prop where
  before : ring.left.connected = false →
    content (clientRelay lib message) server ring = [] ∧ returned = []
  after : ring.left.connected = true →
    Circulates message returned (content (clientRelay lib message) server ring)

section Documented
include documented

theorem start_conserves (state : State) (nothing : server.held state = []) :
    Conserves lib message server (startRing lib state) [] where
  before := fun _ => ⟨by
    simp [content, startRing, nothing, clientRelay, held, documented.new], rfl⟩
  after := fun connected => absurd connected (by simp [startRing])

theorem report_sows (ring next : Ring UInt8 (Client Bev) State)
    (empty : content (clientRelay lib message) server ring = [])
    (reported : next.left = eventCb lib message ring.left .connected)
    (right : next.right = ring.right) (toLeft : ring.toLeft = next.toLeft)
    (toRight : next.toRight = ring.toRight) :
    content (clientRelay lib message) server next = message ∧
      distance (clientRelay lib message) server next = 3 * message.length := by
  simp only [content, List.append_eq_nil_iff] at empty
  obtain ⟨⟨⟨noneLeft, noneHeld⟩, noneRight⟩, noneClient⟩ := empty
  have held : (clientRelay lib message).held next.left = message := by
    obtain ⟨output, input⟩ := List.append_eq_nil_iff.mp noneClient
    have written := documented.write ring.left.bev message
    simp [clientRelay, LibeventEcho.held, reported, eventCb, written, output, input]
  constructor
  · rw [content, held, right, ← toLeft, toRight, noneLeft, noneRight, noneHeld]
    rfl
  · rw [distance, held, right, toRight, noneRight, noneHeld]
    simp

theorem client_turn_cases (ring next : Ring UInt8 (Client Bev) State) (label : ClientLabel)
    (back : Bytes)
    (empty : ring.left.connected = false → content (clientRelay lib message) server ring = [])
    (taken : ringStep (clientRelay lib message) server ring (.left label) = some (next, back)) :
    (ring.left.connected = false ∧ next.left.connected = true ∧ label.transfers = false ∧
      back = [] ∧ content (clientRelay lib message) server next = message ∧
      distance (clientRelay lib message) server next = 3 * message.length) ∨
    (next.left.connected = ring.left.connected ∧
      (∃ rest, content (clientRelay lib message) server ring = back ++ rest ∧
        content (clientRelay lib message) server next = rest ++ back) ∧
      distance (clientRelay lib message) server next + label.transfers.toNat ≤
        distance (clientRelay lib message) server ring + 4 * back.length) := by
  obtain ⟨outputs, moved, same, right, split, sent⟩ := (left_turn_iff ..).mp taken
  rcases client_passes lib documented message ring.left next.left label outputs moved with
    ⟨fresh, still, rfl, after⟩ | ⟨stays, passes, moves⟩
  · have none : back = [] := same
    rw [none] at split
    obtain ⟨inside, far⟩ := report_sows lib documented message server ring next (empty fresh) after
      right split (sent.trans (List.append_nil _))
    exact Or.inl ⟨fresh, by rw [after]; rfl, still, none, inside, far⟩
  · have steady : ∀ outputs,
        (clientRelay lib message).step ring.left label = some (next.left, outputs) →
          (clientRelay lib message).PassesOn ring.left outputs next.left := by
      intro others again
      obtain rfl := (Prod.mk.inj (Option.some.inj (again.symm.trans moved))).2
      exact passes
    refine Or.inr ⟨stays, left_turn_content _ _ ring next label back taken steady, ?_⟩
    obtain ⟨others, again, walked⟩ := left_turn_distance _ _ ring next label back taken steady
    obtain rfl := (Prod.mk.inj (Option.some.inj (again.symm.trans moved))).2
    cases transfers : label.transfers with
    | false =>
        simp only [Bool.toNat_false]
        omega
    | true =>
        have some := moves transfers
        simp only [Bool.toNat_true]
        omega

variable {good : State → Prop} {admitted : Label → Prop} {moves : Label → Bool}

theorem turn_conserves (lawful : server.Lawful good admitted moves)
    (ring next : Ring UInt8 (Client Bev) State) (turn : Turn ClientLabel Label)
    (returned back : Bytes)
    (fine : good ring.right) (allowed : ∀ label, turn = .right label → admitted label)
    (conserves : Conserves lib message server ring returned)
    (taken : ringStep (clientRelay lib message) server ring turn = some (next, back)) :
    good next.right ∧ Conserves lib message server next (returned ++ back) := by
  cases turn with
  | left label =>
      have same := ((left_turn_iff ..).mp taken).choose_spec.2.2.1
      refine ⟨same ▸ fine, ?_⟩
      rcases client_turn_cases lib documented message server ring next label back
          (fun fresh => (conserves.before fresh).1) taken with
        ⟨fresh, open_, -, rfl, inside, -⟩ | ⟨stays, ⟨rest, before, after⟩, -⟩
      · obtain ⟨-, rfl⟩ := conserves.before fresh
        refine ⟨fun closed => absurd (open_.symm.trans closed) (by simp), fun _ => ?_⟩
        rw [inside]
        exact circulates_start message
      · refine ⟨fun closed => ?_, fun connected => ?_⟩
        · obtain ⟨empty, rfl⟩ := conserves.before (stays ▸ closed)
          obtain ⟨rfl, rfl⟩ := List.append_eq_nil_iff.mp (before.symm.trans empty)
          exact ⟨after, rfl⟩
        · exact circulates_turn message returned _ back rest _
            (conserves.after (stays ▸ connected)) before after
  | right label =>
      obtain ⟨outputs, moved, -, same, -⟩ := (right_turn_iff ..).mp taken
      have may := allowed label rfl
      obtain ⟨rfl, inside⟩ := right_turn_content _ _ ring next label back taken
        fun outputs moved => lawful.passes _ label _ outputs fine may moved
      refine ⟨lawful.kept _ label _ outputs fine may moved, ?_⟩
      rw [List.append_nil]
      refine ⟨fun closed => ?_, fun connected => ?_⟩
      · rw [inside]
        exact conserves.before (same ▸ closed)
      · rw [inside]
        exact conserves.after (same ▸ connected)

theorem ring_conserves (lawful : server.Lawful good admitted moves) (state : State)
    (fine : good state) (nothing : server.held state = []) (turns : List (Turn ClientLabel Label))
    (allowed : ∀ label, .right label ∈ turns → admitted label) :
    EveryPoint (ringStep (clientRelay lib message) server) (startRing lib state)
      (fun ring returned => good ring.right ∧ Conserves lib message server ring returned)
      turns := by
  refine run_invariant _ _ (fun _ turn => ∀ label, turn = .right label → admitted label) _
    ⟨fine, start_conserves lib documented message server state nothing⟩ ?_ turns
    (every_step_of_labels _ _ _ turns fun turn member label (same : turn = .right label) =>
      allowed label (same ▸ member))
  intro ring returned turn next back both may taken
  exact turn_conserves lib documented message server lawful ring next turn returned back both.1 may
    both.2 taken

def turnMoves (moves : Label → Bool) : Turn ClientLabel Label → Bool
  | .left label => label.transfers
  | .right label => moves label

/-- Every other turn but the report of the connection keeps the count: a byte
that moves comes closer, and only what comes back is far away again. -/
theorem turn_nearer (lawful : server.Lawful good admitted moves)
    (ring next : Ring UInt8 (Client Bev) State) (turn : Turn ClientLabel Label)
    (returned back : Bytes)
    (fine : good ring.right) (allowed : ∀ label, turn = .right label → admitted label)
    (conserves : Conserves lib message server ring returned)
    (taken : ringStep (clientRelay lib message) server ring turn = some (next, back)) :
    (ring.left.connected = false ∧ next.left.connected = true ∧ turnMoves moves turn = false ∧
      distance (clientRelay lib message) server next = 3 * message.length) ∨
    (next.left.connected = ring.left.connected ∧ (ring.left.connected = false → back = []) ∧
      distance (clientRelay lib message) server next + (turnMoves moves turn).toNat ≤
        distance (clientRelay lib message) server ring + 4 * back.length) := by
  cases turn with
  | left label =>
      rcases client_turn_cases lib documented message server ring next label back
          (fun fresh => (conserves.before fresh).1) taken with
        ⟨fresh, open_, still, -, -, far⟩ | ⟨stays, ⟨rest, before, -⟩, nearer⟩
      · exact Or.inl ⟨fresh, open_, still, far⟩
      · refine Or.inr ⟨stays, fun fresh => ?_, nearer⟩
        rw [(conserves.before fresh).1] at before
        exact (List.append_eq_nil_iff.mp before.symm).1
  | right label =>
      obtain ⟨-, -, rfl, same, -⟩ := (right_turn_iff ..).mp taken
      obtain ⟨outputs, moved, nearer⟩ := right_turn_distance _ _ ring next label [] taken
        fun outputs moved => lawful.passes _ label _ outputs fine (allowed label rfl) moved
      refine Or.inr ⟨congrArg Client.connected same, fun _ => rfl, ?_⟩
      cases transfers : moves label with
      | false =>
          simp only [turnMoves, transfers, Bool.toNat_false]
          omega
      | true =>
          have some := lawful.moving _ label _ outputs moved transfers
          simp only [turnMoves, transfers, Bool.toNat_true]
          omega

/-- Each transfer brings a byte closer to the client, and each byte that has
come back has four transfers before it. -/
theorem transfers_bounded (lawful : server.Lawful good admitted moves) (state : State)
    (fine : good state) (nothing : server.held state = []) (turns : List (Turn ClientLabel Label))
    (allowed : ∀ label, .right label ∈ turns → admitted label)
    (final : Ring UInt8 (Client Bev) State) (returned : Bytes)
    (taken : run (ringStep (clientRelay lib message) server) (startRing lib state) turns =
      some (final, returned)) :
    (final.left.connected = false → turns.countP (turnMoves moves) = 0 ∧
        distance (clientRelay lib message) server final = 0) ∧
      turns.countP (turnMoves moves) + distance (clientRelay lib message) server final ≤
        3 * message.length + 4 * returned.length := by
  induction turns using List.reverseRecOn generalizing final returned with
  | nil =>
      simp only [run, Option.some.injEq, Prod.mk.injEq] at taken
      obtain ⟨rfl, rfl⟩ := taken
      simp [distance, startRing, clientRelay, nothing, held, documented.new]
  | append_singleton past turn ih =>
      obtain ⟨ring, first, back, head, moved, rfl⟩ := (run_snoc ..).mp taken
      have earlier : ∀ label, .right label ∈ past → admitted label :=
        fun label member => allowed label (List.mem_append_left _ member)
      obtain ⟨good, conserves⟩ := ring_conserves lib documented message server lawful state fine
        nothing past earlier past (List.prefix_refl _) ring first head
      obtain ⟨closed, bound⟩ := ih earlier ring first head
      have counted : (past ++ [turn]).countP (turnMoves moves) =
          past.countP (turnMoves moves) + (turnMoves moves turn).toNat := by
        rw [List.countP_append, List.countP_singleton]
        cases turnMoves moves turn <;> rfl
      rw [counted, List.length_append]
      rcases turn_nearer lib documented message server lawful ring final turn first back good
          (fun label same => allowed label (by simp [same])) conserves moved with
        ⟨fresh, open_, still, far⟩ | ⟨stays, quiet, nearer⟩
      · have none := closed fresh
        refine ⟨fun shut => absurd (open_.symm.trans shut) (by simp), ?_⟩
        simp only [still, Bool.toNat_false]
        omega
      · refine ⟨fun shut => ?_, by omega⟩
        rw [stays] at shut
        have none := closed shut
        rw [quiet shut, List.length_nil] at nearer
        omega

end Documented

/-- What is expected of an echo: once connected, the bytes on the way are those
of the message, and they come back in its order, again and again. -/
structure Echoes (ring : Ring UInt8 (Client Bev) State) (returned : Bytes) : Prop where
  idle : ring.left.connected = false →
    content (clientRelay lib message) server ring = [] ∧ returned = []
  whole : ring.left.connected = true →
    (content (clientRelay lib message) server ring).Perm message
  periodic : message ≠ [] → ∀ index < returned.length,
    returned[index]? = message[index % message.length]?

theorem conserves_echoes (ring : Ring UInt8 (Client Bev) State) (returned : Bytes)
    (conserves : Conserves lib message server ring returned) :
    Echoes lib message server ring returned where
  idle := conserves.before
  whole := fun connected => circulates_perm message returned _ (conserves.after connected)
  periodic := fun some index came => by
    cases connected : ring.left.connected with
    | false =>
        rw [(conserves.before connected).2] at came
        exact absurd came (Nat.not_lt_zero _)
    | true =>
        exact circulates_periodic message returned _ (conserves.after connected) some index came

end AnyServer

/-! Both programs of echo/libevent2 together. -/

def noConnections {Bev : Type} : Server Bev := fun _ => none

section Together
variable {Bev : Type} (lib : Libevent Bev) (documented : lib.Documented) (message : Bytes) (fd : Fd)
  (turns : List (Turn ClientLabel ServerLabel))
include documented

/-- One client of the server, among any others: no byte of its message is lost,
doubled or overtaken, however the transfers are cut and interleaved. -/
theorem libevent_echoes :
    EveryPoint (ringStep (clientRelay lib message) (serverRelay lib fd))
      (startRing lib noConnections) (Echoes lib message (serverRelay lib fd)) turns := by
  intro past reached ring returned taken
  have both := ring_conserves lib documented message (serverRelay lib fd)
    (server_lawful lib documented fd) noConnections trivial rfl turns (fun _ _ => trivial) past
    reached ring returned taken
  exact conserves_echoes lib message (serverRelay lib fd) ring returned both.2

/-- However long the server has been at it, the client has got back a quarter of
the transfers in bytes, less three for each byte of the message. -/
theorem libevent_bytes_return (ring : Ring UInt8 (Client Bev) (Server Bev)) (returned : Bytes)
    (taken : run (ringStep (clientRelay lib message) (serverRelay lib fd))
      (startRing lib noConnections) turns = some (ring, returned)) :
    turns.countP (turnMoves (ServerLabel.transfersOn fd)) ≤
      3 * message.length + 4 * returned.length := by
  have bound := (transfers_bounded lib documented message (serverRelay lib fd)
    (server_lawful lib documented fd) noConnections trivial rfl turns (fun _ _ => trivial) ring
    returned taken).2
  omega

end Together

/-- The client's message is sent whole, read and sent back in two pieces, the
first of which has come back. -/
def messageReturning : List (Turn ClientLabel ServerLabel) :=
  [.left (.event .connected), .right (.accept 5), .left (.sent MSG_SIZE),
    .right (.received 5 MSG), .right (.sent 5 1000), .left (.received (MSG.take 1000)),
    .right (.sent 5 24)]

theorem message_returning_run :
    ∃ ring, run (ringStep (clientRelay listBuffers MSG) (serverRelay listBuffers 5))
      (startRing listBuffers noConnections) messageReturning = some (ring, MSG.take 1000) := by
  have returned : (run (ringStep (clientRelay listBuffers MSG) (serverRelay listBuffers 5))
      (startRing listBuffers noConnections) messageReturning).map Prod.snd =
        some (MSG.take 1000) := by decide +kernel
  obtain ⟨⟨ring, _⟩, taken, rfl⟩ := Option.map_eq_some_iff.mp returned
  exact ⟨ring, taken⟩

theorem message_returning_whole :
    ∃ ring, run (ringStep (clientRelay listBuffers MSG) (serverRelay listBuffers 5))
        (startRing listBuffers noConnections) messageReturning = some (ring, MSG.take 1000) ∧
      Echoes listBuffers MSG (serverRelay listBuffers 5) ring (MSG.take 1000) := by
  obtain ⟨ring, taken⟩ := message_returning_run
  exact ⟨ring, taken, libevent_echoes listBuffers list_buffers_documented MSG 5 messageReturning
    messageReturning (List.prefix_refl _) ring _ taken⟩

theorem message_returning_bounded :
    ∃ ring, run (ringStep (clientRelay listBuffers MSG) (serverRelay listBuffers 5))
        (startRing listBuffers noConnections) messageReturning = some (ring, MSG.take 1000) ∧
      messageReturning.countP (turnMoves (ServerLabel.transfersOn 5)) ≤
        3 * MSG.length + 4 * (MSG.take 1000).length := by
  obtain ⟨ring, taken⟩ := message_returning_run
  exact ⟨ring, taken, libevent_bytes_return listBuffers list_buffers_documented MSG 5
    messageReturning ring _ taken⟩

/-! The client with the server of echo/epoll. -/

def epollRelay (listenfd fd : EchoServer.Fd) :
    Relay UInt8 EchoServer.Server EchoServer.Label EchoServer.Call where
  step := EchoServer.step listenfd
  taken := EchoServer.bytesIn fd
  given := EchoServer.bytesOut fd
  held := fun server => EchoServer.pending server.sessionMap fd

def epollMoves (fd : EchoServer.Fd) : EchoServer.Label → Bool
  | .read other (.data _) _ _ => decide (other = fd)
  | .write other nwrite => decide (other = fd) && decide (0 < nwrite)
  | _ => false

theorem epoll_call_moves (fd : EchoServer.Fd) (before after : EchoServer.SessionMap)
    (label : EchoServer.Label) (calls : List EchoServer.Call) (moves : epollMoves fd label = true)
    (effect : EchoServer.Effect before label after calls) :
    0 < (EchoServer.bytesIn fd calls).length + (EchoServer.bytesOut fd calls).length := by
  cases effect with
  | event | accept | dropped => exact absurd moves (by simp [epollMoves])
  | stopped _ _ _ ending =>
      rcases ending with rfl | rfl | rfl <;> exact absurd moves (by simp [epollMoves])
  | direct other received | queued other received =>
      have same : other = fd := by simpa [epollMoves] using moves
      have positive := received.positive
      simp [EchoServer.bytesIn, EchoServer.bytesOut, same]
      omega
  | shortened other outData _ nwrite _ _ upper | popped other outData _ nwrite _ _ upper
  | overran other outData _ nwrite _ upper =>
      obtain ⟨same, positive⟩ : other = fd ∧ 0 < nwrite := by simpa [epollMoves] using moves
      simp [EchoServer.bytesIn, EchoServer.bytesOut, same]
      omega

theorem epoll_lawful (listenfd fd : EchoServer.Fd) :
    (epollRelay listenfd fd).Lawful
      (fun server => EchoServer.ChunksWithin 1024 server.sessionMap)
      (fun label => label.writeFails = false ∧ label.readFails = false) (epollMoves fd) where
  kept := fun server label next calls within healthy taken =>
    EchoServer.effect_chunks_within 1024 _ _ label calls within le_rfl
      (fun overfills => absurd (EchoServer.overfills_fails label overfills) (by simp [healthy.1]))
      (EchoServer.step_effect listenfd server next label calls taken)
  passes := fun server label next calls within healthy taken =>
    EchoServer.effect_conserves _ _ label calls within healthy.1 healthy.2
      (EchoServer.step_effect listenfd server next label calls taken) fd
  moving := fun server label next calls taken moves =>
    epoll_call_moves fd _ _ label calls moves
      (EchoServer.step_effect listenfd server next label calls taken)

/-- One client of the epoll server, among any others, as long as no call of the
server fails: the message goes round whole, and its bytes come back at the same
rate as from the other server. -/
theorem epoll_echoes {Bev : Type} (lib : Libevent Bev) (documented : lib.Documented)
    (listenfd fd : EchoServer.Fd) (readbuf message : Bytes)
    (turns : List (Turn ClientLabel EchoServer.Label))
    (healthy : ∀ label, .right label ∈ turns → label.writeFails = false ∧ label.readFails = false)
    (ring : Ring UInt8 (Client Bev) EchoServer.Server) (returned : Bytes)
    (taken : run (ringStep (clientRelay lib message) (epollRelay listenfd fd))
      (startRing lib (EchoServer.start listenfd readbuf)) turns = some (ring, returned)) :
    Echoes lib message (epollRelay listenfd fd) ring returned ∧
      turns.countP (turnMoves (epollMoves fd)) ≤ 3 * message.length + 4 * returned.length := by
  have fine := EchoServer.start_chunks_within 1024 listenfd readbuf
  have both := ring_conserves lib documented message (epollRelay listenfd fd)
    (epoll_lawful listenfd fd) (EchoServer.start listenfd readbuf) fine rfl turns healthy turns
    (List.prefix_refl _) ring returned taken
  have bound := (transfers_bounded lib documented message (epollRelay listenfd fd)
    (epoll_lawful listenfd fd) (EchoServer.start listenfd readbuf) fine rfl turns healthy ring
    returned taken).2
  refine ⟨conserves_echoes lib message (epollRelay listenfd fd) ring returned both.2, ?_⟩
  omega

/-- Three bytes: one is written at once and comes back, two are queued and
written later. -/
def queuedEcho : List (Turn ClientLabel EchoServer.Label) :=
  [.left (.event .connected), .left (.sent 3), .right (EchoServer.clientEvent 5 true false),
    .right (.read 5 (EchoServer.readReturns [1, 2, 3]) (some 1) 0), .left (.received [1]),
    .right (.read 5 (.failed .again) none 0), .right (EchoServer.clientEvent 5 false true),
    .right (.write 5 2), .left (.received [2])]

theorem queued_echo_returns :
    ∃ ring returned, run (ringStep (clientRelay listBuffers [1, 2, 3]) (epollRelay 3 5))
        (startRing listBuffers (EchoServer.start 3 [])) queuedEcho = some (ring, returned) ∧
      Echoes listBuffers [1, 2, 3] (epollRelay 3 5) ring returned :=
  ⟨_, _, rfl, (epoll_echoes listBuffers list_buffers_documented 3 5 [] [1, 2, 3] queuedEcho (by
    intro label member
    simp only [queuedEcho, List.mem_cons, List.not_mem_nil, or_false, reduceCtorEq, false_or,
      Turn.right.injEq] at member
    rcases member with rfl | rfl | rfl | rfl | rfl <;> decide) _ _ rfl).1⟩

end Practise.LibeventEcho
