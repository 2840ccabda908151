import Practise.Machine
import Practise.TftpServer

/-! The epoll loop of `main` in tftp/tftp_server.c. For a new session it stores
the session's descriptor in `ev.data.fd` but passes `serverfd` to `epoll_ctl`
once more, so the call fails and the process exits: the loop goes on exactly
as long as no request opens a file. -/
namespace Practise.TftpServer
open Clib Machine

/-- `undefined`: a scan of the request has run off the end of `in_buf`. -/
inductive Status where
  | running
  | exited
  | undefined
  deriving DecidableEq

structure Interest where
  fd : Fd
  data : Fd
  deriving DecidableEq

/-- `sessions` are those that `handle_new_connection` has returned so far,
which `main` itself does not keep. -/
structure Main where
  status : Status
  globals : Globals
  inBuf : InBuf
  interest : List Interest
  sessions : List Session

/-- A datagram that arrives on `serverfd`, with its sender; `sock` is what
`socket` returns if a session is created for it. -/
structure Datagram where
  bytes : Bytes
  addr : Address
  sock : Fd

def epollCtlAdd (interest : List Interest) (fd data : Fd) : Option (List Interest) :=
  if fd ∈ interest.map Interest.fd then none else some (⟨fd, data⟩ :: interest)

def Main.watch (process : Main) (fd data : Fd) : Main :=
  match epollCtlAdd process.interest fd data with
  | none => { process with status := .exited }
  | some interest => { process with interest := interest }

def startMain (serverfd : Fd) (inBuf : InBuf) : Main :=
  Main.watch
    { status := .running, globals := { file := none, opened := 0 }, inBuf := inBuf,
      interest := [], sessions := [] }
    serverfd serverfd

def receiveRequest (fileSystem : FileSystem) (serverfd : Fd) (process : Main)
    (datagram : Datagram) : Main × List Sent :=
  let process := { process with inBuf := process.inBuf.receive datagram.bytes }
  match handleNewConnection fileSystem datagram.sock datagram.addr process.inBuf
      process.globals with
  | none => ({ process with status := .undefined }, [])
  | some (globals, none) => ({ process with globals := globals }, [])
  | some (globals, some (session, sent)) =>
      -- The source passes serverfd here, not the descriptor it has just stored.
      (Main.watch { process with globals := globals, sessions := session :: process.sessions }
        serverfd session.sockFd, [sent])

/-- The body of the loop over `events`, for an event that carries `data`. -/
def handleEvent (fileSystem : FileSystem) (serverfd : Fd) (process : Main) (data : Fd)
    (datagram : Datagram) : Main × List Sent :=
  if data = serverfd then receiveRequest fileSystem serverfd process datagram
  else (process, [])

/-- A datagram wakes the loop if `serverfd` is watched. A process that has
ended receives nothing. -/
def mainStep (fileSystem : FileSystem) (serverfd : Fd) : Step Main Datagram Sent :=
  fun process datagram =>
    some (match process.status with
      | .running =>
          match process.interest.find? (fun entry => entry.fd = serverfd) with
          | some entry => handleEvent fileSystem serverfd process entry.data datagram
          | none => (process, [])
      | .exited | .undefined => (process, []))

/-- The process goes on, and watches `serverfd` and the sockets of its
sessions and nothing else. -/
def WatchesSessions (serverfd : Fd) (process : Main) : Prop :=
  process.status = .running ∧
    ∀ fd, fd ∈ process.interest.map Interest.fd ↔
      fd = serverfd ∨ fd ∈ process.sessions.map Session.sockFd

def OpensNothing (fileSystem : FileSystem) (inBuf : InBuf) (datagram : Datagram) : Prop :=
  (inBuf.receive datagram.bytes).opcode = RRQ →
    ∃ names, parseRRQ (inBuf.receive datagram.bytes) = some names ∧ fileSystem names.1 = none

structure Idle (serverfd : Fd) (process : Main) : Prop where
  running : process.status = .running
  interest : process.interest = [⟨serverfd, serverfd⟩]
  sessions : process.sessions = []

theorem start_idle (serverfd : Fd) (inBuf : InBuf) : Idle serverfd (startMain serverfd inBuf) :=
  ⟨rfl, rfl, rfl⟩

theorem idle_watches (serverfd : Fd) (process : Main) (idle : Idle serverfd process) :
    WatchesSessions serverfd process := by
  refine ⟨idle.running, fun fd => ?_⟩
  simp [idle.interest, idle.sessions]

theorem idle_step (fileSystem : FileSystem) (serverfd : Fd) (process : Main)
    (datagram : Datagram) (idle : Idle serverfd process) :
    mainStep fileSystem serverfd process datagram =
      some (receiveRequest fileSystem serverfd process datagram) := by
  simp [mainStep, handleEvent, idle.running, idle.interest]

theorem watch_again (process : Main) (fd data : Fd)
    (watched : fd ∈ process.interest.map Interest.fd) :
    process.watch fd data = { process with status := .exited } := by
  simp only [Main.watch, epollCtlAdd, if_pos watched]

theorem handle_closed (fileSystem : FileSystem) (sock : Fd) (addr : Address) (inBuf : InBuf)
    (globals : Globals) (names : Bytes × Bytes) (parsed : parseRRQ inBuf = some names)
    (absent : fileSystem names.1 = none) :
    handleRRQ fileSystem sock addr inBuf globals = some ({ globals with file := none }, none) := by
  simp [handleRRQ, parsed, fopen, absent]

theorem handle_opened (fileSystem : FileSystem) (sock : Fd) (addr : Address) (inBuf : InBuf)
    (globals : Globals) (names : Bytes × Bytes) (content : Bytes)
    (parsed : parseRRQ inBuf = some names) (found : fileSystem names.1 = some content) :
    ∃ after session sent,
      handleRRQ fileSystem sock addr inBuf globals = some (after, some (session, sent)) := by
  simp [handleRRQ, parsed, fopen, found]

theorem opens_nothing_idle (fileSystem : FileSystem) (serverfd : Fd) (process : Main)
    (datagram : Datagram) (idle : Idle serverfd process)
    (nothing : OpensNothing fileSystem process.inBuf datagram) :
    Idle serverfd (receiveRequest fileSystem serverfd process datagram).1 := by
  unfold receiveRequest handleNewConnection
  by_cases request : (process.inBuf.receive datagram.bytes).opcode = RRQ
  · obtain ⟨names, parsed, absent⟩ := nothing request
    simp only [if_pos request, handle_closed fileSystem _ _ _ _ names parsed absent]
    exact ⟨idle.running, idle.interest, idle.sessions⟩
  · simp only [if_neg request]
    exact ⟨idle.running, idle.interest, idle.sessions⟩

/-- Any other read request ends the process, or its scan leaves the buffer. -/
theorem opening_stops (fileSystem : FileSystem) (serverfd : Fd) (process : Main)
    (datagram : Datagram) (idle : Idle serverfd process)
    (opens : ¬ OpensNothing fileSystem process.inBuf datagram) :
    (receiveRequest fileSystem serverfd process datagram).1.status ≠ .running := by
  obtain ⟨request, unnamed⟩ := Classical.not_imp.mp opens
  unfold receiveRequest handleNewConnection
  simp only [if_pos request]
  cases parsed : parseRRQ (process.inBuf.receive datagram.bytes) with
  | none => simp [handleRRQ, parsed]
  | some names =>
      cases found : fileSystem names.1 with
      | none => exact absurd ⟨names, parsed, found⟩ unnamed
      | some content =>
          obtain ⟨after, session, sent, handled⟩ := handle_opened fileSystem datagram.sock
            datagram.addr _ process.globals names content parsed found
          simp only [handled]
          rw [watch_again _ _ _ (by simp [idle.interest])]
          simp

/-- The loop survives a sequence of datagrams, and after each of them watches
`serverfd` and every session, exactly when none of them opens a file. -/
theorem main_loop_exact (fileSystem : FileSystem) (serverfd : Fd) (inBuf : InBuf)
    (datagrams : List Datagram) :
    (run (mainStep fileSystem serverfd) (startMain serverfd inBuf) datagrams).isSome ∧
    (EveryPoint (mainStep fileSystem serverfd) (startMain serverfd inBuf)
        (fun process _ => WatchesSessions serverfd process) datagrams ↔
      EveryStep (mainStep fileSystem serverfd) (startMain serverfd inBuf)
        (fun process datagram => OpensNothing fileSystem process.inBuf datagram) datagrams) := by
  obtain ⟨final, sent, taken⟩ := run_total (mainStep fileSystem serverfd) (fun _ _ => rfl)
    (startMain serverfd inBuf) datagrams
  have reached : (run (mainStep fileSystem serverfd) (startMain serverfd inBuf)
      datagrams).isSome := by
    rw [taken, Option.isSome_some]
  refine ⟨reached, every_point_iff (mainStep fileSystem serverfd) (startMain serverfd inBuf)
    (fun _ => True) _ (fun process _ => Idle serverfd process) _ (start_idle serverfd inBuf)
    (fun process _ => idle_watches serverfd process) ?_ ?_ datagrams (fun _ _ => trivial)
    reached⟩
  · intro process past datagram next sent idle _ nothing moved
    rw [idle_step fileSystem serverfd process datagram idle] at moved
    have kept := opens_nothing_idle fileSystem serverfd process datagram idle nothing
    rw [Option.some.inj moved] at kept
    exact kept
  · intro process past datagram next sent idle _ opens moved watches
    rw [idle_step fileSystem serverfd process datagram idle] at moved
    have stopped := opening_stops fileSystem serverfd process datagram idle opens
    rw [Option.some.inj moved] at stopped
    exact stopped watches.1

theorem request_exits (fileSystem : FileSystem) (serverfd : Fd) (process : Main)
    (request : ReadRequest) (addr : Address) (sock : Fd) (content : Bytes)
    (idle : Idle serverfd process) (found : fileSystem request.name = some content) :
    ∃ after sent,
      mainStep fileSystem serverfd process ⟨request.datagram, addr, sock⟩ =
        some (after, [sent]) ∧
      after.status = .exited ∧ after.sessions.map Session.sockFd = [sock] ∧
      after.interest.map Interest.fd = [serverfd] := by
  have handled := handle_request fileSystem sock addr process.inBuf request process.globals
  rw [found] at handled
  rw [idle_step fileSystem serverfd process _ idle]
  simp only [receiveRequest, handled]
  rw [watch_again _ _ _ (by simp [idle.interest])]
  exact ⟨_, _, rfl, rfl, by simp [idle.sessions, createNewSession], by simp [idle.interest]⟩

theorem first_transfer_exits :
    ∃ process sent,
      run (mainStep (fun _ => some [7]) 3) (startMain 3 .zeroed)
          [⟨(octetRequest 97 (by decide)).datagram, [127], 5⟩] = some (process, sent) ∧
      process.status = .exited ∧ process.sessions.map Session.sockFd = [5] ∧
      process.interest.map Interest.fd = [3] ∧ ¬ WatchesSessions 3 process := by
  obtain ⟨process, sent, taken, exited, sessions, interest⟩ := request_exits (fun _ => some [7])
    3 (startMain 3 .zeroed) (octetRequest 97 (by decide)) [127] 5 [7] (start_idle 3 .zeroed) rfl
  refine ⟨process, _, (run_cons ..).mpr ⟨process, [sent], [], taken, rfl, rfl⟩, exited, sessions,
    interest, fun watches => ?_⟩
  rw [WatchesSessions, exited] at watches
  exact nomatch watches.1

end Practise.TftpServer
