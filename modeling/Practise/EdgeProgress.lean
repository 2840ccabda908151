import Practise.EdgeTriggered

/-!
The exchange of the libevent client with the edge-triggered server goes on until
`front()` is called on an empty queue: some act is possible until then, and a
potential bounds the acts by the bytes that have come back. A message of two bytes
is enough to bring the server there.
-/
namespace Practise.EdgeTriggered
open Machine RelayRing LibeventEcho
open EchoServer (Control EpollEvent Label SessionMap)

/-! The calls that the server waits for can be answered. -/
section Server
variable (listenfd fd : EchoServer.Fd) (server : EchoServer.Server) (event : EpollEvent)
  (own : event.fd = fd)
include own

theorem direct_read_taken (reading : server.control = .read event)
    (absent : server.sessionMap fd = none) (received : EchoServer.Received) (half : Nat)
    (same : received.bytes.length / 2 = half) :
    ∃ next, EchoServer.step listenfd server (.read fd (.data received) (some half) 0) =
        some (next, [.received fd received.bytes, .written fd (received.bytes.take half) half]) ∧
      next.control = .read event ∧
      next.sessionMap = EchoServer.push server.sessionMap fd (received.bytes.drop half) := by
  have takes : EchoServer.writeResult (received.bytes.take half) half = true := by
    rw [EchoServer.write_result_iff, List.length_take_of_le (same ▸ Nat.div_le_self _ _)]
    omega
  have rest : (0 :: received.bytes).drop ((half : Int) + 1).toNat = received.bytes.drop half := rfl
  refine ⟨{ EchoServer.storeRead received server with
    sessionMap := EchoServer.push server.sessionMap fd (received.bytes.drop half) }, ?_, reading,
    rfl⟩
  simp only [EchoServer.step, reading, own, ↓reduceIte, EchoServer.readPass,
    EchoServer.echo_data_stored, absent, same, takes, Option.map_some, rest]

theorem queued_read_taken (reading : server.control = .read event) (queue : List Bytes)
    (present : server.sessionMap fd = some queue) (received : EchoServer.Received) :
    ∃ next, EchoServer.step listenfd server (.read fd (.data received) none 0) =
      some (next, [.received fd received.bytes]) := by
  refine ⟨{ EchoServer.storeRead received server with
    sessionMap := EchoServer.push server.sessionMap fd received.bytes }, ?_⟩
  simp only [EchoServer.step, reading, own, ↓reduceIte, EchoServer.readPass,
    EchoServer.echo_data_stored, present, Option.map_some]

theorem again_taken (reading : server.control = .read event) :
    ∃ next, EchoServer.step listenfd server (.read fd (.failed .again) none 0) =
      some (next, []) := by
  refine ⟨EchoServer.epolloutBranch event { server with nread := -1 }, ?_⟩
  simp only [EchoServer.step, reading, own, ↓reduceIte, EchoServer.readPass]

theorem write_taken (writing : server.control = .write event) (outData : Bytes)
    (rest : List Bytes) (front : server.sessionMap fd = some (outData :: rest))
    (small : outData.length ≤ 1024) :
    ∃ next, EchoServer.step listenfd server (.write fd outData.length) =
        some (next, [.written fd outData outData.length]) ∧ next.control = .wait ∧
      next.sessionMap fd = some rest := by
  have takes : EchoServer.writeResult outData outData.length = true := by
    rw [EchoServer.write_result_iff]
    omega
  have fits : ¬ (1024 : Int) < outData.length := by omega
  have whole : ¬ EchoServer.sizeT outData.length < outData.length := by
    rw [EchoServer.size_t_of_nonneg _ (Int.natCast_nonneg _) (by omega), Int.toNat_natCast]
    exact Nat.lt_irrefl _
  refine ⟨EchoServer.writeFront event outData rest outData.length server, ?_, ?_, ?_⟩
  · simp only [EchoServer.step, writing, own, ↓reduceIte, front, takes]
  · rw [EchoServer.writeFront, if_neg fits]
  · rw [EchoServer.writeFront, if_neg fits]
    simp only [if_neg whole, own]
    exact Function.update_self ..

end Server

/-- The kernel does not hold anything back for ever. -/
structure Kernel.Prompt {Socket : Type} (kernel : Kernel Socket) : Prop where
  arrives : ∀ socket sent, 0 < sent → ∃ count ≤ sent, (kernel.arrive socket count).isSome
  reports : ∀ socket, kernel.ready socket = true → (kernel.epollWait socket).isSome
  reads : ∀ socket, 0 < kernel.arrived socket →
    ∃ count, 0 < count ∧ count ≤ 1024 ∧ (kernel.read socket (some count)).isSome
  again : ∀ socket, kernel.arrived socket = 0 → (kernel.read socket none).isSome

/-! The acts of the kernel and of the server, with what they leave. -/
section Taken
variable {Bev Socket : Type} (lib : Libevent Bev) (kernel : Kernel Socket)
  (listenfd fd : EchoServer.Fd) (message : Bytes) (connection : Connection Bev Socket)

theorem arrive_taken (count : Nat) (possible : (kernel.arrive connection.socket count).isSome)
    (enough : kernel.arrived connection.socket + count ≤ connection.ring.toRight.length) :
    ∃ socket, kernel.arrive connection.socket count = some socket ∧
      edgeStep lib kernel listenfd fd message connection (.arrive count) =
        some (⟨connection.ring, socket⟩, []) := by
  obtain ⟨socket, arrives⟩ := Option.isSome_iff_exists.mp possible
  refine ⟨socket, arrives, ?_⟩
  rw [edgeStep, if_pos enough, arrives, Option.map_some]

theorem poll_taken (possible : (kernel.epollWait connection.socket).isSome)
    (waits : connection.ring.right.control = .wait) :
    ∃ event socket next, kernel.epollWait connection.socket = some (event, socket) ∧
      EchoServer.step listenfd connection.ring.right (.event event) = some (next, []) ∧
      edgeStep lib kernel listenfd fd message connection .poll =
        some (⟨{ connection.ring with right := next }, socket⟩, []) := by
  obtain ⟨⟨event, socket⟩, reports⟩ := Option.isSome_iff_exists.mp possible
  have moved : EchoServer.step listenfd connection.ring.right (.event event) =
      some (EchoServer.beginEvent listenfd event connection.ring.right, []) := by
    simp only [EchoServer.step, waits]
  have turn : ringStep (clientRelay lib message) (epollRelay listenfd fd) connection.ring
      (.right (.event event)) = some ({ connection.ring with
        right := EchoServer.beginEvent listenfd event connection.ring.right }, []) :=
    (right_turn_iff ..).mpr ⟨[], moved, rfl, rfl, rfl, (List.append_nil _).symm⟩
  refine ⟨event, socket, _, reports, moved, ?_⟩
  rw [edgeStep, reports, Option.bind_some, turn, Option.map_some]

theorem call_taken (label : Label) (socket : Socket) (next : EchoServer.Server)
    (calls : List EchoServer.Call)
    (answered : answer kernel fd connection.socket label = some socket)
    (moved : EchoServer.step listenfd connection.ring.right label = some (next, calls))
    (there : EchoServer.bytesIn fd calls <+: connection.ring.toRight) :
    ∃ ring, edgeStep lib kernel listenfd fd message connection (.call label) =
        some (⟨ring, socket⟩, []) ∧
      ring.right = next := by
  obtain ⟨rest, split⟩ := there
  have turn : ringStep (clientRelay lib message) (epollRelay listenfd fd) connection.ring
      (.right label) = some (⟨connection.ring.left, next,
        connection.ring.toLeft ++ EchoServer.bytesOut fd calls, rest⟩, []) :=
    (right_turn_iff ..).mpr ⟨calls, moved, rfl, rfl, split.symm, rfl⟩
  refine ⟨⟨connection.ring.left, next, connection.ring.toLeft ++ EchoServer.bytesOut fd calls,
    rest⟩, ?_, rfl⟩
  rw [edgeStep, answered, Option.bind_some, turn, Option.map_some]

end Taken

section Acts
variable {Bev Socket : Type} {lib : Libevent Bev} {kernel : Kernel Socket}
  {listenfd fd : EchoServer.Fd} {message : Bytes}

/-! Some act is always possible. -/

theorem call_possible (connection : Connection Bev Socket) (label : Label)
    (next : EchoServer.Server) (calls : List EchoServer.Call)
    (answered : (answer kernel fd connection.socket label).isSome)
    (moved : EchoServer.step listenfd connection.ring.right label = some (next, calls))
    (there : EchoServer.bytesIn fd calls <+: connection.ring.toRight) :
    (edgeStep lib kernel listenfd fd message connection (.call label)).isSome := by
  obtain ⟨socket, answered⟩ := Option.isSome_iff_exists.mp answered
  obtain ⟨ring, taken, -⟩ := call_taken lib kernel listenfd fd message connection label socket next
    calls answered moved there
  rw [taken]
  rfl

section Possible
variable (prompt : kernel.Prompt) (connection : Connection Bev Socket) (returned : Bytes)
  (alive : Alive lib kernel listenfd fd message connection returned)
include alive

theorem write_possible (event : EpollEvent)
    (writing : connection.ring.right.control = .write event) :
    ∃ label, (edgeStep lib kernel listenfd fd message connection (.call label)).isSome := by
  obtain ⟨own, outData, rest, front⟩ := alive.front event writing
  obtain ⟨next, moved, -, -⟩ := write_taken listenfd fd connection.ring.right event own writing
    outData rest front (alive.within fd _ front outData List.mem_cons_self).2
  have positive := (alive.within fd _ front outData List.mem_cons_self).1
  exact ⟨_, call_possible connection _ next _ (by simp [answer, positive]) moved List.nil_prefix⟩

theorem client_possible (willing : lib.Prompt) (connected : connection.ring.left.connected = true)
    (some : connection.ring.toLeft ≠ [] ∨ lib.output connection.ring.left.bev ≠ []) :
    ∃ label, (edgeStep lib kernel listenfd fd message connection (.client label)).isSome := by
  rcases some with back | output
  · obtain ⟨data, possible⟩ := client_receives lib willing message (epollRelay listenfd fd)
      connection.ring connected alive.unaborted back
    exact ⟨.received data, by simpa [edgeStep, ordinary] using possible⟩
  · obtain ⟨count, possible⟩ := client_sends lib willing message (epollRelay listenfd fd)
      connection.ring connected alive.unaborted output
    exact ⟨.sent count, by simpa [edgeStep, ordinary] using possible⟩

include prompt

theorem read_possible (sockets : kernel.Documented fd) (event : EpollEvent)
    (reading : connection.ring.right.control = .read event) :
    ∃ label, (edgeStep lib kernel listenfd fd message connection (.call label)).isSome := by
  obtain ⟨own, -⟩ := alive.reading event reading
  by_cases data : 0 < kernel.arrived connection.socket
  · obtain ⟨count, positive, few, possible⟩ := prompt.reads connection.socket data
    obtain ⟨socket, reads⟩ := Option.isSome_iff_exists.mp possible
    obtain ⟨most, -, -⟩ := sockets.read _ count socket reads
    have size : (connection.ring.toRight.take count).length = count :=
      List.length_take_of_le (most.trans alive.enough)
    let received : EchoServer.Received :=
      ⟨connection.ring.toRight.take count, by omega, by omega⟩
    have there : received.bytes <+: connection.ring.toRight := List.take_prefix _ _
    have length : received.bytes.length = count := size
    cases entry : connection.ring.right.sessionMap fd with
    | none =>
        obtain ⟨next, moved, -⟩ := direct_read_taken listenfd fd connection.ring.right event own
          reading entry received (count / 2) (by rw [length])
        have nonneg : 0 ≤ ((count / 2 : Nat) : Int) := Int.natCast_nonneg _
        refine ⟨_, call_possible connection _ next _ ?_ moved ?_⟩
        · rw [answer, if_pos ⟨rfl, nonneg⟩, length, reads]
          rfl
        · simpa [EchoServer.bytesIn] using there
    | some queue =>
        obtain ⟨next, moved⟩ := queued_read_taken listenfd fd connection.ring.right event own
          reading queue entry received
        refine ⟨_, call_possible connection _ next _ (by simp [answer, length, reads]) moved ?_⟩
        simpa [EchoServer.bytesIn] using there
  · obtain ⟨next, moved⟩ := again_taken listenfd fd connection.ring.right event own reading
    have again := prompt.again connection.socket (Nat.eq_zero_of_not_pos data)
    exact ⟨_, call_possible connection _ next [] (by simpa [answer] using again) moved
      List.nil_prefix⟩

theorem wait_possible (willing : lib.Prompt) (nonempty : message ≠ [])
    (waits : connection.ring.right.control = .wait) :
    ∃ act, (edgeStep lib kernel listenfd fd message connection act).isSome := by
  have whole := alive_content connection returned alive
  have enough := alive.enough
  cases ready : kernel.ready connection.socket with
  | true =>
      obtain ⟨event, socket, next, -, -, taken⟩ := poll_taken lib kernel listenfd fd message
        connection (prompt.reports connection.socket ready) waits
      exact ⟨.poll, by rw [taken]; rfl⟩
  | false =>
      cases connected : connection.ring.left.connected with
      | false =>
          refine ⟨.client (.event .connected), ?_⟩
          simp [edgeStep, ordinary, ringStep, clientRelay, clientStep, connected, alive.unaborted,
            received]
      | true =>
          have outside := alive.outside nonempty waits ready connected
          have unread := mt (alive.unread (by simp [waits])) (by simp [ready])
          rw [if_pos connected] at whole
          by_cases more : kernel.arrived connection.socket < connection.ring.toRight.length
          · obtain ⟨count, few, possible⟩ := prompt.arrives connection.socket
              (connection.ring.toRight.length - kernel.arrived connection.socket) (by omega)
            obtain ⟨socket, -, taken⟩ := arrive_taken lib kernel listenfd fd message connection
              count possible (by omega)
            exact ⟨.arrive count, by rw [taken]; rfl⟩
          -- Nothing is on its way to the server, so it is with the client.
          have some : connection.ring.toLeft ≠ [] ∨ lib.output connection.ring.left.bev ≠ [] := by
            by_contra neither
            rw [not_or, not_not, not_not] at neither
            rw [held, neither.1, neither.2, alive.drained, List.length_nil] at whole
            simp only [List.append_nil, List.length_nil] at whole
            omega
          obtain ⟨label, possible⟩ := client_possible connection returned alive willing
            connected some
          exact ⟨.client label, possible⟩

end Possible

theorem act_possible (sockets : kernel.Documented fd) (prompt : kernel.Prompt)
    (willing : lib.Prompt) (nonempty : message ≠ []) (connection : Connection Bev Socket)
    (returned : Bytes) (alive : Alive lib kernel listenfd fd message connection returned) :
    (∃ event, connection.ring.right.control = .emptyFront event) ∨
      ∃ act, (edgeStep lib kernel listenfd fd message connection act).isSome := by
  cases control : connection.ring.right.control with
  | wait =>
      exact Or.inr (wait_possible prompt connection returned alive willing nonempty control)
  | accept event => exact absurd control (alive.serving event).1
  | read event =>
      obtain ⟨label, possible⟩ :=
        read_possible prompt connection returned alive sockets event control
      exact Or.inr ⟨_, possible⟩
  | write event =>
      obtain ⟨label, possible⟩ := write_possible connection returned alive event control
      exact Or.inr ⟨_, possible⟩
  | emptyFront event => exact Or.inl ⟨event, rfl⟩
  | aborted event => exact absurd control (alive.serving event).2

/-! Only so many acts are possible before a byte comes back. -/

variable (lib kernel listenfd fd message)

def stage : Control → Nat
  | .read _ => 1
  | _ => 0

/-- Each act uses some of it up, and only a byte that comes back adds to it: a byte
that moves, data that arrives, a report, and the read that finds nothing. -/
def potential (connection : Connection Bev Socket) : Nat :=
  4 * distance (clientRelay lib message) (epollRelay listenfd fd) connection.ring +
    3 * (connection.ring.toRight.length - kernel.arrived connection.socket) +
    2 * (kernel.ready connection.socket).toNat + stage connection.ring.right.control

variable {lib kernel listenfd fd message}

theorem potential_parts (connection : Connection Bev Socket) :
    potential lib kernel listenfd fd message connection =
      4 * (3 * (held lib connection.ring.left.bev).length + 2 * connection.ring.toRight.length +
        (queued fd connection).length) +
      3 * (connection.ring.toRight.length - kernel.arrived connection.socket) +
      2 * (kernel.ready connection.socket).toNat + stage connection.ring.right.control := rfl

theorem decided_stage (event : EpollEvent) (sessionMap : SessionMap) :
    stage (decided event sessionMap) = 0 := by
  rcases decided_cases event.fd event rfl sessionMap with ⟨same, -⟩ | ⟨same, -⟩ | ⟨same, -⟩
  all_goals
    rw [same]
    rfl

section Documented
variable (documented : lib.Documented)
include documented

theorem client_potential (connection next : Connection Bev Socket) (returned back : Bytes)
    (label : ClientLabel) (alive : Alive lib kernel listenfd fd message connection returned)
    (calm : ordinary label = true)
    (turn : ringStep (clientRelay lib message) (epollRelay listenfd fd) connection.ring
      (.left label) = some (next.ring, back))
    (arrived : kernel.arrived next.socket = kernel.arrived connection.socket)
    (ready : kernel.ready next.socket = kernel.ready connection.socket) :
    (connection.ring.left.connected = false ∧ next.ring.left.connected = true ∧
      potential lib kernel listenfd fd message next =
        potential lib kernel listenfd fd message connection + 12 * message.length) ∨
    (next.ring.left.connected = connection.ring.left.connected ∧
      potential lib kernel listenfd fd message next + 1 ≤
        potential lib kernel listenfd fd message connection + 13 * back.length) := by
  obtain ⟨outputs, moved, same, right, -, channel⟩ := (left_turn_iff ..).mp turn
  have enough := alive.enough
  have queue : queued fd next = queued fd connection := by rw [queued, queued, right]
  have length := congrArg List.length channel
  rw [List.length_append] at length
  rw [potential_parts, potential_parts, arrived, ready, right, queue, length]
  rcases client_step_cases lib message _ _ label outputs moved with
    ⟨what, rfl, fresh, rfl, after⟩ | ⟨transfer, bev, -, moves, rfl, after⟩
  · cases what with
    | eof | error | timeout => exact absurd calm (by simp [ordinary])
    | connected =>
        refine Or.inl ⟨fresh rfl, by rw [after]; rfl, ?_⟩
        have put : (held lib next.ring.left.bev).length =
            (held lib connection.ring.left.bev).length + message.length := by
          rw [after]
          simp only [eventCb, held, documented.write, List.length_append]
          omega
        have given : ((clientRelay lib message).given []).length = 0 := rfl
        omega
  · have passed := moved_passes lib documented connection.ring.left.bev bev transfer moves
    have whole := congrArg List.length passed.whole
    rw [List.length_append, List.length_append] at whole
    have took : back.length = (received [transfer]).length := congrArg List.length same
    have gave : ((clientRelay lib message).given [transfer]).length = (sent [transfer]).length :=
      rfl
    have some := passed.moves
    refine Or.inr ⟨by rw [after], ?_⟩
    rw [after]
    simp only
    omega

variable (sockets : kernel.Documented fd)
include sockets

theorem act_potential (other : fd ≠ listenfd) (connection next : Connection Bev Socket)
    (returned back : Bytes) (act : Act)
    (alive : Alive lib kernel listenfd fd message connection returned)
    (taken : edgeStep lib kernel listenfd fd message connection act = some (next, back)) :
    (connection.ring.left.connected = false ∧ next.ring.left.connected = true ∧
      potential lib kernel listenfd fd message next =
        potential lib kernel listenfd fd message connection + 12 * message.length) ∨
    (next.ring.left.connected = connection.ring.left.connected ∧
      potential lib kernel listenfd fd message next + 1 ≤
        potential lib kernel listenfd fd message connection + 13 * back.length) := by
  have enough := alive.enough
  cases step_happens lib kernel listenfd fd message sockets other connection next act back
      alive.within (fun event reads => (alive.reading event reads).2) taken with
  | client label calm turn arrived ready =>
      exact client_potential documented connection next returned back label alive calm turn arrived
        ready
  | arrives count more enough none ring arrived ready =>
      refine Or.inr ⟨by rw [ring], ?_⟩
      have queue : queued fd next = queued fd connection := by rw [queued, queued, ring]
      rw [potential_parts, potential_parts, arrived, ready, ring, queue, Bool.toNat_true]
      omega
  | reports event own asked acts was waits same goes arrived ready =>
      refine Or.inr ⟨by rw [acts.left], ?_⟩
      have queue := acts.held
      have channel := acts.channel
      have begun : stage next.ring.right.control ≤ 1 := by
        rw [goes]
        split
        · exact Nat.le_refl 1
        · rw [decided_stage]
          exact Nat.zero_le 1
      rw [potential_parts, potential_parts, arrived, ready, acts.left, was, Bool.toNat_true,
        Bool.toNat_false]
      omega
  | reads label event read written acts some there reading goes entry arrived ready =>
      refine Or.inr ⟨by rw [acts.left], ?_⟩
      have queue := acts.held
      have channel := acts.channel
      rw [potential_parts, potential_parts, arrived, ready, acts.left, reading, goes]
      omega
  | stops label event acts reading none same goes arrived ready =>
      refine Or.inr ⟨by rw [acts.left], ?_⟩
      have queue := acts.held
      have channel := acts.channel
      have begun : stage (Control.read event) = 1 := rfl
      rw [potential_parts, potential_parts, arrived, ready, acts.left, reading, goes,
        decided_stage, begun]
      omega
  | writes label event written acts some writing goes arrived ready =>
      refine Or.inr ⟨by rw [acts.left], ?_⟩
      have queue := acts.held
      have channel := acts.channel
      have begun : stage (Control.write event) = stage Control.wait := rfl
      rw [potential_parts, potential_parts, arrived, ready, acts.left, writing, goes, begun]
      omega

theorem acts_bounded (other : fd ≠ listenfd) (readbuf : Bytes) (acts : List Act)
    (connection : Connection Bev Socket) (returned : Bytes)
    (taken : run (edgeStep lib kernel listenfd fd message) (connect lib kernel listenfd fd readbuf)
      acts = some (connection, returned)) :
    acts.length + potential lib kernel listenfd fd message connection ≤
      2 + 13 * returned.length +
        if connection.ring.left.connected then 12 * message.length + 1 else 0 := by
  induction acts using List.reverseRecOn generalizing connection returned with
  | nil =>
      obtain ⟨rfl, rfl⟩ := Prod.mk.inj (Option.some.inj taken)
      simp [potential_parts, connect, startRing, held, documented.new, sockets.registered, queued,
        EchoServer.pending, EchoServer.registerClient, EchoServer.start, stage]
  | append_singleton past act ih =>
      obtain ⟨middle, before, back, reached, moved, rfl⟩ := (run_snoc ..).mp taken
      have alive := run_alive documented sockets other readbuf past middle before reached
      have earlier := ih middle before reached
      rw [List.length_append, List.length_append, List.length_singleton]
      rcases act_potential documented sockets other middle connection before back act alive
        moved with ⟨fresh, open_, more⟩ | ⟨same, less⟩
      · simp only [fresh, Bool.false_eq_true, ↓reduceIte] at earlier
        simp only [open_, ↓reduceIte]
        omega
      · rw [same]
        omega

/-- The client and the edge-triggered server do not starve each other, whatever the
kernel delivers when. An exchange that has not come to `front()` of an empty queue
can always go on, and it cannot go on for long without a byte that comes back. -/
theorem edge_triggered_goes_on (willing : lib.Prompt) (prompt : kernel.Prompt)
    (other : fd ≠ listenfd) (nonempty : message ≠ [])
    (readbuf : Bytes) (acts : List Act) (connection : Connection Bev Socket) (returned : Bytes)
    (taken : run (edgeStep lib kernel listenfd fd message) (connect lib kernel listenfd fd readbuf)
      acts = some (connection, returned)) :
    acts.length ≤ 12 * message.length + 13 * returned.length + 3 ∧
      ((∃ event, connection.ring.right.control = .emptyFront event) ∨
        ∃ act, (edgeStep lib kernel listenfd fd message connection act).isSome) := by
  have alive := run_alive documented sockets other readbuf acts connection returned taken
  refine ⟨?_, act_possible sockets prompt willing nonempty connection returned alive⟩
  have bound := acts_bounded documented sockets other readbuf acts connection returned taken
  split at bound
  · omega
  · omega

end Documented

end Acts

/-! A socket that counts its bytes, of which `read` returns as many as it can. -/

structure Counted where
  arrived : Nat
  ready : Bool

def counted (fd : EchoServer.Fd) : Kernel Counted where
  arrived := Counted.arrived
  ready := Counted.ready
  registered := ⟨0, true⟩
  arrive := fun socket count =>
    if 0 < count then some ⟨socket.arrived + count, true⟩ else none
  epollWait := fun socket =>
    if socket.ready then
      some (⟨decide (0 < socket.arrived), true, false, fd⟩, { socket with ready := false })
    else none
  read := fun socket result =>
    if result = (if socket.arrived = 0 then none else some (min 1024 socket.arrived)) then
      some { socket with arrived := socket.arrived - result.getD 0 }
    else none

theorem counted_documented (fd : EchoServer.Fd) : (counted fd).Documented fd where
  registered := ⟨rfl, rfl⟩
  arrive := fun socket count next arrives => by
    obtain ⟨more, rfl⟩ := by simpa [counted] using arrives
    exact ⟨more, rfl, rfl⟩
  epollWait := fun socket event next reports => by
    obtain ⟨ready, rfl, rfl⟩ := by simpa [counted] using reports
    exact ⟨ready, rfl, rfl, rfl, rfl, rfl⟩
  read := fun socket count next reads => by
    obtain ⟨⟨some, rfl⟩, rfl⟩ := by simpa [counted] using reads
    exact ⟨Nat.min_le_right _ _, rfl, rfl⟩
  again := fun socket next again => by
    obtain ⟨none, rfl⟩ := by simpa [counted] using again
    exact ⟨none, rfl, rfl⟩

theorem counted_prompt (fd : EchoServer.Fd) : (counted fd).Prompt where
  arrives := fun socket sent some => ⟨sent, le_rfl, by simp [counted, some]⟩
  reports := fun socket ready => by
    have ready : socket.ready = true := ready
    simp [counted, ready]
  reads := fun socket some => by
    have some : 0 < socket.arrived := some
    exact ⟨min 1024 socket.arrived, by omega, by omega, by simp [counted, some.ne']⟩
  again := fun socket none => by
    have none : socket.arrived = 0 := none
    simp [counted, none]

def wholeMessage : List Act :=
  [.client (.event .connected), .client (.sent 2), .arrive 2, .poll,
    .call (.read 5 (EchoServer.readReturns [1, 2]) (some 1) 0),
    .call (.read 5 (.failed .again) none 0), .call (.write 5 1), .client (.received [1, 2])]

theorem whole_message_goes_on :
    ∃ connection, run (edgeStep listBuffers (counted 5) 3 5 [1, 2])
        (connect listBuffers (counted 5) 3 5 []) wholeMessage = some (connection, [1, 2]) ∧
      ∃ act, (edgeStep listBuffers (counted 5) 3 5 [1, 2] connection act).isSome := by
  have taken : ∃ connection, run (edgeStep listBuffers (counted 5) 3 5 [1, 2])
      (connect listBuffers (counted 5) 3 5 []) wholeMessage = some (connection, [1, 2]) ∧
        connection.ring.right.control = .wait := ⟨_, rfl, rfl⟩
  obtain ⟨connection, taken, waits⟩ := taken
  refine ⟨connection, taken, ?_⟩
  rcases (edge_triggered_goes_on list_buffers_documented (counted_documented 5) list_buffers_prompt
      (counted_prompt 5) (by decide) (by simp) [] wholeMessage connection [1, 2] taken).2 with
    ⟨event, undefined⟩ | possible
  · exact absurd (waits.symm.trans undefined) (by simp)
  · exact possible

/-! When the exchange can end. -/

/-- Two bytes that are read at once: one of them is written, and then the other. -/
theorem pair_echoed (listenfd fd : EchoServer.Fd) (server : EchoServer.Server)
    (event : EpollEvent) (own : event.fd = fd) (asked : event.epollout = true)
    (reading : server.control = .read event) (absent : server.sessionMap fd = none)
    (one two : UInt8) (both : EchoServer.Received) (pair : both.bytes = [one, two]) :
    ∃ holds writes waits,
      EchoServer.step listenfd server (.read fd (.data both) (some 1) 0) =
        some (holds, [.received fd both.bytes, .written fd (both.bytes.take 1) 1]) ∧
      EchoServer.step listenfd holds (.read fd (.failed .again) none 0) = some (writes, []) ∧
      EchoServer.step listenfd writes (.write fd 1) = some (waits, [.written fd [two] 1]) ∧
      waits.control = .wait ∧ waits.sessionMap fd = some [] := by
  have half : both.bytes.length / 2 = 1 := by simp [pair]
  obtain ⟨holds, read, still, pushed⟩ := direct_read_taken listenfd fd server event own reading
    absent both 1 half
  have entry : holds.sessionMap fd = some [[two]] := by
    rw [pushed, EchoServer.push, Function.update_self, absent, pair]
    rfl
  obtain ⟨writes, again⟩ := again_taken listenfd fd holds event own still
  obtain ⟨same, found, -, -, kept, goes⟩ := server_stopped listenfd fd holds writes [] 0
    (fun other found => Control.read.inj (still.symm.trans found) ▸ asked) again
  obtain rfl := Control.read.inj (still.symm.trans found)
  have writing : writes.control = .write event := by
    rw [goes, decided]
    simp only [own, entry]
  obtain ⟨waits, wrote, idle, emptied⟩ := write_taken listenfd fd writes event own writing [two] []
    (kept ▸ entry) (by simp)
  exact ⟨holds, writes, waits, read, again, wrote, idle, emptied⟩

/-- TCP can deliver a message in any pieces, and `read` can return all of them. -/
structure Kernel.AnyPieces {Socket : Type} (kernel : Kernel Socket) : Prop where
  arrives : ∀ socket count, 0 < count → (kernel.arrive socket count).isSome
  reads : ∀ socket, 0 < kernel.arrived socket → kernel.arrived socket ≤ 1024 →
    (kernel.read socket (some (kernel.arrived socket))).isSome

section Late
variable {Bev Socket : Type} (lib : Libevent Bev) (kernel : Kernel Socket)
  (listenfd fd : EchoServer.Fd) (message readbuf : Bytes)

def Reached (connection : Connection Bev Socket) : Prop :=
  ∃ acts, run (edgeStep lib kernel listenfd fd message) (connect lib kernel listenfd fd readbuf)
    acts = some (connection, [])

variable {lib kernel listenfd fd message readbuf}

theorem reached_act (connection next : Connection Bev Socket) (act : Act)
    (reached : Reached lib kernel listenfd fd message readbuf connection)
    (taken : edgeStep lib kernel listenfd fd message connection act = some (next, [])) :
    Reached lib kernel listenfd fd message readbuf next := by
  obtain ⟨acts, past⟩ := reached
  exact ⟨acts ++ [act], (run_snoc ..).mpr ⟨connection, [], [], past, taken, rfl⟩⟩

section Client
variable (documented : lib.Documented) (willing : lib.Prompt)
include documented willing

/-- The client sends its buffer in the pieces that the library makes of it. -/
theorem output_sent (size : Nat) (ring : Ring UInt8 (Client Bev) EchoServer.Server)
    (socket : Socket) (connected : ring.left.connected = true)
    (unaborted : ring.left.aborted = false)
    (length : (lib.output ring.left.bev).length = size)
    (reached : Reached lib kernel listenfd fd message readbuf ⟨ring, socket⟩) :
    ∃ left, Reached lib kernel listenfd fd message readbuf
      ⟨⟨left, ring.right, ring.toLeft, ring.toRight ++ lib.output ring.left.bev⟩, socket⟩ := by
  induction size using Nat.strong_induction_on generalizing ring with
  | _ size ih =>
      by_cases none : lib.output ring.left.bev = []
      · exact ⟨ring.left, by rw [none, List.append_nil]; exact reached⟩
      · obtain ⟨count, possible⟩ := willing.writes ring.left.bev none
        obtain ⟨bev, drains⟩ := Option.isSome_iff_exists.mp possible
        obtain ⟨positive, most, -, output⟩ := documented.drain _ count bev drains
        let next : Ring UInt8 (Client Bev) EchoServer.Server :=
          ⟨{ ring.left with bev := bev }, ring.right, ring.toLeft,
            ring.toRight ++ (lib.output ring.left.bev).take count⟩
        have sends : edgeStep lib kernel listenfd fd message ⟨ring, socket⟩
            (.client (.sent count)) = some (⟨next, socket⟩, []) := by
          simp [edgeStep, ordinary, ringStep, clientRelay, clientStep, connected, unaborted, send,
            drains, received, sent, next]
        have fewer : (lib.output bev).length < size := by
          rw [output, List.length_drop]
          omega
        obtain ⟨left, sent⟩ := ih _ fewer next connected unaborted rfl
          (reached_act _ _ _ reached sends)
        refine ⟨left, ?_⟩
        have whole : next.toRight ++ lib.output bev = ring.toRight ++ lib.output ring.left.bev := by
          simp only [next, output, List.append_assoc, List.take_append_drop]
        rw [← whole]
        exact sent

variable (kernel listenfd fd message readbuf) in
theorem message_sent :
    ∃ left, Reached lib kernel listenfd fd message readbuf
      ⟨⟨left, (connect lib kernel listenfd fd readbuf).ring.right, [], message⟩,
        kernel.registered⟩ := by
  let ring : Ring UInt8 (Client Bev) EchoServer.Server :=
    ⟨⟨lib.write lib.socketNew message, true, false⟩,
      (connect lib kernel listenfd fd readbuf).ring.right, [], []⟩
  have connects : edgeStep lib kernel listenfd fd message (connect lib kernel listenfd fd readbuf)
      (.client (.event .connected)) = some (⟨ring, kernel.registered⟩, []) := by
    simp [edgeStep, ordinary, ringStep, clientRelay, clientStep, connect, startRing, eventCb,
      received, sent, ring]
  have output : lib.output ring.left.bev = message := by
    rw [(documented.write lib.socketNew message).2, documented.new.2, List.nil_append]
  have reached := output_sent documented willing _ ring kernel.registered rfl rfl rfl
    (reached_act _ _ _ ⟨[], rfl⟩ connects)
  rw [output] at reached
  exact reached

end Client

section Kernel
variable (sockets : kernel.Documented fd) (prompt : kernel.Prompt) (pieces : kernel.AnyPieces)
include sockets prompt pieces

/-- A socket that got the second byte after `epoll_wait` has returned is to be
reported once more, when everything has been read and written. -/
theorem pair_served (ring : Ring UInt8 (Client Bev) EchoServer.Server) (socket : Socket)
    (event : EpollEvent) (own : event.fd = fd) (asked : event.epollout = true)
    (reading : ring.right.control = .read event) (absent : ring.right.sessionMap fd = none)
    (one two : UInt8) (rest : Bytes) (channel : ring.toRight = one :: two :: rest)
    (arrived : kernel.arrived socket = 2)
    (reached : Reached lib kernel listenfd fd message readbuf ⟨ring, socket⟩) :
    ∃ next, Reached lib kernel listenfd fd message readbuf next ∧
      next.ring.right.control = .wait ∧ next.ring.right.sessionMap fd = some [] ∧
      kernel.arrived next.socket = 0 ∧ kernel.ready next.socket = kernel.ready socket := by
  let both : EchoServer.Received := ⟨[one, two], Nat.two_pos, by simp⟩
  obtain ⟨holds, writes, waits, read, again, wrote, idle, empty⟩ :=
    pair_echoed listenfd fd ring.right event own asked reading absent one two both rfl
  obtain ⟨emptied, reads⟩ := Option.isSome_iff_exists.mp
    (pieces.reads socket (by omega) (by omega))
  rw [arrived] at reads
  obtain ⟨-, none, ready⟩ := sockets.read _ _ _ reads
  obtain ⟨first, taken, right⟩ := call_taken lib kernel listenfd fd message ⟨ring, socket⟩ _
    emptied holds _ (by simpa [answer, both] using reads) read
    (by simp [EchoServer.bytesIn, both, channel])
  have reached := reached_act _ _ _ reached taken
  obtain ⟨stopped, nothing⟩ := Option.isSome_iff_exists.mp (prompt.again emptied (by omega))
  obtain ⟨-, still, kept⟩ := sockets.again _ _ nothing
  obtain ⟨second, taken, right⟩ := call_taken lib kernel listenfd fd message ⟨first, emptied⟩ _
    stopped writes [] (by simpa [answer] using nothing) (right ▸ again) List.nil_prefix
  have reached := reached_act _ _ _ reached taken
  obtain ⟨third, taken, right⟩ := call_taken lib kernel listenfd fd message ⟨second, stopped⟩ _
    stopped waits [.written fd [two] 1] (by simp [answer]) (right ▸ wrote) List.nil_prefix
  have last : kernel.arrived stopped = 0 := by omega
  refine ⟨_, reached_act _ _ _ reached taken, ?_, ?_, last, kept.trans ready⟩
  · rw [right]
    exact idle
  · rw [right]
    exact empty

/-- Two bytes that arrive in two pieces, the second one after `epoll_wait` has
returned: both are read at once, and the second report finds nothing. -/
theorem late_report_empties (documented : lib.Documented) (willing : lib.Prompt)
    (other : fd ≠ listenfd) (one two : UInt8) (rest : Bytes) :
    ∃ connection event,
      Reached lib kernel listenfd fd (one :: two :: rest) readbuf connection ∧
        connection.ring.right.control = .emptyFront event := by
  let message := one :: two :: rest
  obtain ⟨left, reached⟩ := message_sent kernel listenfd fd message readbuf documented willing
  let sent : Ring UInt8 (Client Bev) EchoServer.Server :=
    ⟨left, (connect lib kernel listenfd fd readbuf).ring.right, [], message⟩
  have empty := sockets.registered.1
  obtain ⟨socket, arrives, taken⟩ := arrive_taken lib kernel listenfd fd message
    ⟨sent, kernel.registered⟩ 1 (pieces.arrives _ 1 Nat.one_pos) (by simp [empty, sent, message])
  have reached := reached_act _ _ _ reached taken
  obtain ⟨-, one_, ready⟩ := sockets.arrive _ _ _ arrives
  rw [empty] at one_
  obtain ⟨event, reported, reads, reports, moved, taken⟩ := poll_taken lib kernel listenfd fd
    message ⟨sent, socket⟩ (prompt.reports socket ready) rfl
  have reached := reached_act _ _ _ reached taken
  obtain ⟨-, own, asked, readable, same, -⟩ := sockets.epollWait _ _ _ reports
  obtain ⟨-, -, kept, goes⟩ := server_reported listenfd fd _ _ _ other event own asked moved
  have reading : reads.control = .read event := by
    rw [goes, readable, one_]
    rfl
  -- The second byte arrives after the report of the first one.
  obtain ⟨late, arrives, taken⟩ := arrive_taken lib kernel listenfd fd message
    ⟨{ sent with right := reads }, reported⟩ 1 (pieces.arrives _ 1 Nat.one_pos)
    (by simp [same, one_, sent, message])
  have reached := reached_act _ _ _ reached taken
  obtain ⟨-, two_, ready⟩ := sockets.arrive _ _ _ arrives
  rw [same, one_] at two_
  obtain ⟨next, reached, waits, entry, none, still⟩ := pair_served sockets prompt pieces _ late
    event own asked reading (kept ▸ rfl) one two rest rfl two_ reached
  obtain ⟨last, final, ends, reports, moved, taken⟩ := poll_taken lib kernel listenfd fd message
    next (prompt.reports _ (still.trans ready)) waits
  obtain ⟨-, own, asked, readable, -, -⟩ := sockets.epollWait _ _ _ reports
  obtain ⟨-, -, -, goes⟩ := server_reported listenfd fd _ _ _ other last own asked moved
  refine ⟨_, last, reached_act _ _ _ reached taken, ?_⟩
  rw [readable, none] at goes
  rw [show ends.control = _ from goes]
  simp [decided, own, entry]

end Kernel

end Late

section Single
variable {Bev Socket : Type} {lib : Libevent Bev} {kernel : Kernel Socket}
  {listenfd fd : EchoServer.Fd} {message : Bytes}

/-- With one byte only, a report without data can come before the first data has
been read, and not after it. -/
structure Single (kernel : Kernel Socket) (fd : EchoServer.Fd)
    (connection : Connection Bev Socket) : Prop where
  defined : ∀ event, connection.ring.right.control ≠ .emptyFront event
  early : kernel.ready connection.socket = true → kernel.arrived connection.socket = 0 →
    connection.ring.right.sessionMap fd = none
  reading : ∀ event, connection.ring.right.control = .read event →
    kernel.ready connection.socket = false ∧
    (0 < kernel.arrived connection.socket ∨ 0 < (queued fd connection).length)
  writing : ∀ event, connection.ring.right.control = .write event →
    kernel.ready connection.socket = false

theorem start_single (readbuf : Bytes) :
    Single kernel fd (connect lib kernel listenfd fd readbuf) where
  defined := by simp [connect, startRing, EchoServer.registerClient, EchoServer.start]
  early := fun _ _ => rfl
  reading := by simp [connect, startRing, EchoServer.registerClient, EchoServer.start]
  writing := by simp [connect, startRing, EchoServer.registerClient, EchoServer.start]

theorem entry_queued (connection : Connection Bev Socket)
    (within : EchoServer.ChunksWithin 1024 connection.ring.right.sessionMap)
    (entry : ∃ outData rest, connection.ring.right.sessionMap fd = some (outData :: rest)) :
    0 < (queued fd connection).length := by
  obtain ⟨outData, rest, front⟩ := entry
  have positive := (within fd _ front outData List.mem_cons_self).1
  rw [queued, EchoServer.pending_front _ fd outData rest front, List.length_append]
  omega

theorem single_step (documented : lib.Documented) (sockets : kernel.Documented fd)
    (other : fd ≠ listenfd) (few : message.length ≤ 1)
    (connection next : Connection Bev Socket) (returned back : Bytes) (act : Act)
    (alive : Alive lib kernel listenfd fd message connection returned)
    (single : Single kernel fd connection)
    (taken : edgeStep lib kernel listenfd fd message connection act = some (next, back)) :
    Single kernel fd next := by
  have whole := alive_content connection returned alive
  have most : (if connection.ring.left.connected = true then message.length else 0) ≤ 1 := by
    split
    · exact few
    · exact Nat.zero_le 1
  cases step_happens lib kernel listenfd fd message sockets other connection next act back
      alive.within (fun event reads => (alive.reading event reads).2) taken with
  | client label calm turn arrived ready =>
      obtain ⟨outputs, moved, -, right, -⟩ := (left_turn_iff ..).mp turn
      have queue : queued fd next = queued fd connection := by rw [queued, queued, right]
      constructor
      · rw [right]
        exact single.defined
      · rw [right, ready, arrived]
        exact single.early
      · rw [right, ready, arrived, queue]
        exact single.reading
      · rw [right, ready]
        exact single.writing
  | arrives count more enough none ring arrived ready =>
      -- The byte is in no other place.
      refine ⟨ring ▸ single.defined, by omega, fun event reads => ?_, fun event writes => ?_⟩
      · rw [ring] at reads
        have there := (single.reading event reads).2
        omega
      · rw [ring] at writes
        have there := entry_queued connection alive.within (alive.front event writes).2
        omega
  | reports event own asked acts was waits same goes arrived ready =>
      by_cases data : 0 < kernel.arrived connection.socket
      · rw [if_pos data] at goes
        refine ⟨by simp [goes], by simp [ready], fun _ _ => ⟨ready, Or.inl ?_⟩, by simp [goes]⟩
        omega
      · rw [if_neg data] at goes
        have absent := single.early was (Nat.eq_zero_of_not_pos data)
        have decision : decided event connection.ring.right.sessionMap = .wait := by
          rw [decided]
          simp only [own, absent]
        rw [decision] at goes
        exact ⟨by simp [goes], by simp [ready], by simp [goes], by simp [goes]⟩
  | reads label event read written acts some there reading goes entry arrived ready =>
      have unready := (single.reading event reading).1
      have within :=
        (server_alive documented connection next returned back read written alive acts).1
      refine ⟨by simp [goes], by simp [ready, unready], fun _ _ => ?_, by simp [goes]⟩
      exact ⟨ready.trans unready, Or.inr (entry_queued next within entry)⟩
  | stops label event acts reading none same goes arrived ready =>
      obtain ⟨unready, there⟩ := single.reading event reading
      rcases decided_cases fd event (alive.reading event reading).1
          connection.ring.right.sessionMap with
        ⟨-, absent⟩ | ⟨-, empty⟩ | ⟨decision, -⟩
      · rw [queued_absent fd connection absent] at there
        exact absurd there (by simp [none])
      · rw [queued, EchoServer.pending, empty] at there
        exact absurd there (by simp [none])
      · rw [decision] at goes
        refine ⟨by simp [goes], by simp [ready, unready], by simp [goes], fun _ _ => ?_⟩
        exact ready.trans unready
  | writes label event written acts some writing goes arrived ready =>
      have unready := single.writing event writing
      exact ⟨by simp [goes], by simp [ready, unready], by simp [goes], by simp [goes]⟩

end Single

/-- The server can be brought to `front()` of an empty queue, by a client that only
sends back what it gets and without any call that fails, exactly if the message
has two bytes that can arrive apart. -/
theorem empty_front_reachable_iff {Bev Socket : Type} (lib : Libevent Bev)
    (documented : lib.Documented) (willing : lib.Prompt) (kernel : Kernel Socket)
    (listenfd fd : EchoServer.Fd) (sockets : kernel.Documented fd) (prompt : kernel.Prompt)
    (pieces : kernel.AnyPieces) (other : fd ≠ listenfd) (readbuf message : Bytes) :
    (∃ acts connection returned event,
      run (edgeStep lib kernel listenfd fd message) (connect lib kernel listenfd fd readbuf) acts =
        some (connection, returned) ∧ connection.ring.right.control = .emptyFront event) ↔
      2 ≤ message.length := by
  constructor
  · rintro ⟨acts, connection, returned, event, taken, undefined⟩
    by_contra short
    have few : message.length ≤ 1 := by omega
    have both : Alive lib kernel listenfd fd message connection returned ∧
        Single kernel fd connection := by
      refine run_invariant (edgeStep lib kernel listenfd fd message) _ (fun _ _ => True)
        (fun connection returned => Alive lib kernel listenfd fd message connection returned ∧
          Single kernel fd connection)
        ⟨start_alive documented sockets readbuf, start_single readbuf⟩ ?_ acts
        (every_step_of_labels _ _ _ acts fun _ _ => trivial) acts (List.prefix_refl _) connection
        returned taken
      intro connection returned act next back kept _ moved
      exact ⟨alive_step documented sockets other connection next returned back act kept.1 moved,
        single_step documented sockets other few connection next returned back act kept.1 kept.2
          moved⟩
    exact both.2.defined event undefined
  · intro long
    match message, long with
    | one :: two :: rest, _ =>
        obtain ⟨connection, event, ⟨acts, taken⟩, undefined⟩ := late_report_empties sockets prompt
          pieces documented willing other one two rest
        exact ⟨acts, connection, [], event, taken, undefined⟩

theorem counted_any_pieces (fd : EchoServer.Fd) : (counted fd).AnyPieces where
  arrives := fun socket count some => by simp [counted, some]
  reads := fun socket some few => by
    have some : 0 < socket.arrived := some
    have few : socket.arrived ≤ 1024 := few
    simp [counted, some.ne', few]

/-- The message of echo_client.cpp has 1024 bytes. -/
theorem client_message_empties :
    ∃ acts connection returned event,
      run (edgeStep listBuffers (counted 5) 3 5 MSG) (connect listBuffers (counted 5) 3 5 [])
        acts = some (connection, returned) ∧ connection.ring.right.control = .emptyFront event :=
  (empty_front_reachable_iff listBuffers list_buffers_documented list_buffers_prompt (counted 5) 3 5
    (counted_documented 5) (counted_prompt 5) (counted_any_pieces 5) (by decide) [] MSG).mpr (by
      rw [MSG, List.length_replicate, MSG_SIZE]
      omega)

end Practise.EdgeTriggered
