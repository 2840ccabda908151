import Mathlib.Logic.Function.Basic
import Practise.Machine

/-!
The event loop of echo/epoll/echo_server.cpp. A state stands in front of a
system call; a label carries the answer of that call. The loop over
`events[i]` keeps nothing between two events except `readbuf`, `nread`, `ev`
and `session_map`, so the batches of `epoll_wait` are given event by event.
One label covers one pass of the read loop: the `read` and, when the client
has no entry, the `write` of the first half. A call of `front()` on an empty
queue and a failed `assert` are states of their own without successors.
-/
namespace Practise.EchoServer
open Machine

abbrev Fd := Int
abbrev Bytes := List UInt8
abbrev SessionMap := Fd → Option (List Bytes)

/-- What a positive `read(fd, readbuf, 1024)` stores. -/
structure Received where
  bytes : Bytes
  positive : 0 < bytes.length
  bounded : bytes.length ≤ 1024

inductive Errno where
  | again
  | wouldBlock
  | other (code : Int)
  deriving DecidableEq

inductive ReadResult where
  | data (received : Received)
  | eof
  | failed (errno : Errno)

structure EpollEvent where
  epollin : Bool
  epollout : Bool
  epollet : Bool
  fd : Fd
  deriving DecidableEq

inductive Control where
  | wait
  | accept (event : EpollEvent)
  | read (event : EpollEvent)
  | write (event : EpollEvent)
  | emptyFront (event : EpollEvent)
  | aborted (event : EpollEvent)
  deriving DecidableEq

structure Server where
  control : Control
  readbuf : Bytes
  nread : Int
  ev : EpollEvent
  interest : List (Fd × EpollEvent)
  sessionMap : SessionMap

/-- `below` is the byte in front of `readbuf` on the stack. It is read only
when a failed write turns `readbuf+nwrite` into `readbuf-1`. -/
inductive Label where
  | event (polled : EpollEvent)
  | accept (clientfd : Int) (nonblock : Bool)
  | read (fd : Fd) (result : ReadResult) (nwrite : Option Int) (below : UInt8)
  | write (fd : Fd) (nwrite : Int)

def Label.fd (listenfd : Fd) : Label → Fd
  | .event polled => polled.fd
  | .accept _ _ => listenfd
  | .read fd _ _ _ => fd
  | .write fd _ => fd

def Label.isEvent : Label → Bool
  | .event _ => true
  | _ => false

inductive Call where
  | received (fd : Fd) (bytes : Bytes)
  | written (fd : Fd) (given : Bytes) (nwrite : Int)
  deriving DecidableEq

/-- The results `write` may return for `given`: -1, or a count up to its size. -/
def writeResult (given : Bytes) (nwrite : Int) : Bool :=
  decide (-1 ≤ nwrite) && decide (nwrite ≤ given.length)

/-- The usual conversion of an `int` operand to a 64-bit `size_t`. -/
def sizeT (value : Int) : Nat := (value % 18446744073709551616).toNat

def push (sessionMap : SessionMap) (fd : Fd) (data : Bytes) : SessionMap :=
  Function.update sessionMap fd (some ((sessionMap fd).getD [] ++ [data]))

def erase (sessionMap : SessionMap) (fd : Fd) : SessionMap :=
  Function.update sessionMap fd none

/-- `std::string(readbuf + offset, count)` for an offset of at least -1. -/
def bufferString (below : UInt8) (readbuf : Bytes) (offset count : Int) : Bytes :=
  ((below :: readbuf).drop (offset + 1).toNat).take count.toNat

-- Lines 161 to 171, up to the write itself.
def epolloutBranch (event : EpollEvent) (server : Server) : Server :=
  if event.epollout then
    match server.sessionMap event.fd with
    | none => { server with control := .wait }
    | some [] => { server with control := .emptyFront event }
    | some (_ :: _) => { server with control := .write event }
  else { server with control := .wait }

def beginEvent (listenfd : Fd) (event : EpollEvent) (server : Server) : Server :=
  if event.epollin then
    if event.fd = listenfd then { server with control := .accept event }
    else { server with control := .read event }
  else epolloutBranch event server

-- Lines 110 to 112; the result of epoll_ctl is not looked at.
def registerClient (clientfd : Fd) (server : Server) : Server :=
  let ev : EpollEvent := { epollin := true, epollout := true, epollet := true, fd := clientfd }
  { server with
    ev := ev
    interest := if clientfd ∈ server.interest.map Prod.fst then server.interest
      else (clientfd, ev) :: server.interest }

def acceptClient (event : EpollEvent) (clientfd : Int) (nonblock : Bool)
    (server : Server) : Server :=
  if 0 < clientfd then
    if nonblock then epolloutBranch event (registerClient clientfd server)
    else { server with control := .wait }
  else epolloutBranch event server

def storeRead (received : Received) (server : Server) : Server :=
  { server with
    readbuf := received.bytes ++ server.readbuf.drop received.bytes.length
    nread := received.bytes.length }

/-- Lines 141 to 156: half of the data is written at once if the client has no
entry, and what was not written is queued. -/
def echoData (fd : Fd) (nwrite : Option Int) (below : UInt8) (server : Server) :
    Option (Server × List Call) :=
  match server.sessionMap fd, nwrite with
  | none, some nwrite =>
      let given := server.readbuf.take (server.nread / 2).toNat
      if writeResult given nwrite then
        let rest := bufferString below server.readbuf nwrite (server.nread - nwrite)
        let sessionMap := if nwrite ≠ server.nread then push server.sessionMap fd rest
          else server.sessionMap
        some ({ server with sessionMap := sessionMap }, [.written fd given nwrite])
      else none
  | some _, none =>
      some ({ server with
        sessionMap := push server.sessionMap fd (server.readbuf.take server.nread.toNat) }, [])
  | _, _ => none

/-- One pass of the read loop. A failure other than EAGAIN erases the entry
but does not leave the loop. -/
def readPass (event : EpollEvent) (result : ReadResult) (nwrite : Option Int)
    (below : UInt8) (server : Server) : Option (Server × List Call) :=
  match result, nwrite with
  | .failed .again, none | .failed .wouldBlock, none =>
      some (epolloutBranch event { server with nread := -1 }, [])
  | .failed (.other _), none =>
      some ({ server with nread := -1, sessionMap := erase server.sessionMap event.fd }, [])
  | .eof, none => some (epolloutBranch event { server with nread := 0 }, [])
  | .data received, nwrite =>
      (echoData event.fd nwrite below (storeRead received server)).map fun done =>
        (done.1, .received event.fd received.bytes :: done.2)
  | _, some _ => none

/-- Lines 171 to 182. The loop around them is left on both branches. -/
def writeFront (event : EpollEvent) (outData : Bytes) (rest : List Bytes) (nwrite : Int)
    (server : Server) : Server :=
  if 1024 < nwrite then { server with control := .aborted event }
  else
    let queue := if sizeT nwrite < outData.length then outData.drop (sizeT nwrite) :: rest
      else rest
    { server with
      control := .wait, sessionMap := Function.update server.sessionMap event.fd (some queue) }

def step (listenfd : Fd) : Step Server Label Call := fun server label =>
  match server.control, label with
  | .wait, .event event => some (beginEvent listenfd event server, [])
  | .accept event, .accept clientfd nonblock =>
      some (acceptClient event clientfd nonblock server, [])
  | .read event, .read fd result nwrite below =>
      if fd = event.fd then readPass event result nwrite below server else none
  | .write event, .write fd nwrite =>
      if fd = event.fd then
        match server.sessionMap fd with
        | some (outData :: rest) =>
            if writeResult outData nwrite then
              some (writeFront event outData rest nwrite server, [.written fd outData nwrite])
            else none
        | _ => none
      else none
  | _, _ => none

def start (listenfd : Fd) (readbuf : Bytes) : Server where
  control := .wait
  readbuf := readbuf
  nread := 0
  ev := { epollin := true, epollout := false, epollet := false, fd := listenfd }
  interest := [(listenfd, { epollin := true, epollout := false, epollet := false, fd := listenfd })]
  sessionMap := fun _ => none

def bytesIn (fd : Fd) (calls : List Call) : Bytes :=
  calls.flatMap fun
    | .received other bytes => if other = fd then bytes else []
    | .written _ _ _ => []

def bytesOut (fd : Fd) (calls : List Call) : Bytes :=
  calls.flatMap fun
    | .received _ _ => []
    | .written other given nwrite => if other = fd then given.take nwrite.toNat else []

/-- The write calls on one client: what each was given and what it returned. -/
def writesOn (fd : Fd) (calls : List Call) : List (Bytes × Int) :=
  calls.filterMap fun
    | .received _ _ => none
    | .written other given nwrite => if other = fd then some (given, nwrite) else none

def pending (sessionMap : SessionMap) (fd : Fd) : Bytes :=
  ((sessionMap fd).getD []).flatten

/-! What one step does to `session_map` and which calls it makes. The cases
are complete, so invariants are proved from them without unfolding the loop. -/
inductive Effect (before : SessionMap) : Label → SessionMap → List Call → Prop where
  | event (polled : EpollEvent) : Effect before (.event polled) before []
  | accept (clientfd : Int) (nonblock : Bool) :
      Effect before (.accept clientfd nonblock) before []
  | stopped (fd : Fd) (result : ReadResult) (below : UInt8)
      (ending : result = .eof ∨ result = .failed .again ∨ result = .failed .wouldBlock) :
      Effect before (.read fd result none below) before []
  | dropped (fd : Fd) (code : Int) (below : UInt8) :
      Effect before (.read fd (.failed (.other code)) none below) (erase before fd) []
  | direct (fd : Fd) (received : Received) (nwrite : Int) (below : UInt8)
      (absent : before fd = none) (lower : -1 ≤ nwrite)
      (upper : nwrite ≤ (received.bytes.length / 2 : Nat)) :
      Effect before (.read fd (.data received) (some nwrite) below)
        (push before fd ((below :: received.bytes).drop (nwrite + 1).toNat))
        [.received fd received.bytes,
          .written fd (received.bytes.take (received.bytes.length / 2)) nwrite]
  | queued (fd : Fd) (received : Received) (below : UInt8) (queue : List Bytes)
      (present : before fd = some queue) :
      Effect before (.read fd (.data received) none below) (push before fd received.bytes)
        [.received fd received.bytes]
  | shortened (fd : Fd) (outData : Bytes) (rest : List Bytes) (nwrite : Int)
      (front : before fd = some (outData :: rest)) (lower : -1 ≤ nwrite)
      (upper : nwrite ≤ outData.length) (small : nwrite ≤ 1024)
      (short : sizeT nwrite < outData.length) :
      Effect before (.write fd nwrite)
        (Function.update before fd (some (outData.drop (sizeT nwrite) :: rest)))
        [.written fd outData nwrite]
  | popped (fd : Fd) (outData : Bytes) (rest : List Bytes) (nwrite : Int)
      (front : before fd = some (outData :: rest)) (lower : -1 ≤ nwrite)
      (upper : nwrite ≤ outData.length) (small : nwrite ≤ 1024)
      (whole : ¬ sizeT nwrite < outData.length) :
      Effect before (.write fd nwrite) (Function.update before fd (some rest))
        [.written fd outData nwrite]
  | overran (fd : Fd) (outData : Bytes) (rest : List Bytes) (nwrite : Int)
      (front : before fd = some (outData :: rest))
      (upper : nwrite ≤ outData.length) (large : 1024 < nwrite) :
      Effect before (.write fd nwrite) before [.written fd outData nwrite]

@[simp] theorem epollout_session_map (event : EpollEvent) (server : Server) :
    (epolloutBranch event server).sessionMap = server.sessionMap := by
  unfold epolloutBranch
  split
  · split <;> rfl
  · rfl

@[simp] theorem begin_session_map (listenfd : Fd) (event : EpollEvent) (server : Server) :
    (beginEvent listenfd event server).sessionMap = server.sessionMap := by
  unfold beginEvent
  split
  · split <;> rfl
  · exact epollout_session_map event server

@[simp] theorem accept_session_map (event : EpollEvent) (clientfd : Int) (nonblock : Bool)
    (server : Server) :
    (acceptClient event clientfd nonblock server).sessionMap = server.sessionMap := by
  unfold acceptClient
  split
  · split
    · exact epollout_session_map event (registerClient clientfd server)
    · rfl
  · exact epollout_session_map event server

theorem write_result_iff (given : Bytes) (nwrite : Int) :
    writeResult given nwrite = true ↔ -1 ≤ nwrite ∧ nwrite ≤ given.length := by
  simp [writeResult]

/-- The tail of `readbuf` from `nwrite` on is the unsent part of the data just
read, whatever older bytes follow it in the buffer. -/
theorem buffer_string_unsent (below : UInt8) (bytes stale : Bytes) (nwrite : Int)
    (lower : -1 ≤ nwrite) :
    bufferString below (bytes ++ stale) nwrite (bytes.length - nwrite) =
      (below :: bytes).drop (nwrite + 1).toNat := by
  have count : ((bytes.length : Int) - nwrite).toNat =
      (below :: bytes).length - (nwrite + 1).toNat := by
    rw [List.length_cons]
    omega
  rw [bufferString, count, ← List.cons_append, ← List.drop_take, List.take_left']
  rfl

/-- A pass of the read loop sees only the data just read and the entry of its
own client: not what earlier reads left in the buffer. -/
theorem echo_data_stored (fd : Fd) (received : Received) (nwrite : Option Int)
    (below : UInt8) (server : Server) :
    echoData fd nwrite below (storeRead received server) =
      match server.sessionMap fd, nwrite with
      | none, some nwrite =>
          let given := received.bytes.take (received.bytes.length / 2)
          if writeResult given nwrite then
            some ({ storeRead received server with
              sessionMap := push server.sessionMap fd
                ((below :: received.bytes).drop (nwrite + 1).toNat) },
              [.written fd given nwrite])
          else none
      | some _, none =>
          some ({ storeRead received server with
            sessionMap := push server.sessionMap fd received.bytes }, [])
      | _, _ => none := by
  have half : ((storeRead received server).nread / 2).toNat = received.bytes.length / 2 := by
    simp only [storeRead]
    omega
  have given : (storeRead received server).readbuf.take (received.bytes.length / 2) =
      received.bytes.take (received.bytes.length / 2) :=
    List.take_append_of_le_length (Nat.div_le_self _ _)
  have kept : (storeRead received server).sessionMap = server.sessionMap := rfl
  cases entry : server.sessionMap fd with
  | none =>
      cases nwrite with
      | none => simp [echoData, kept, entry]
      | some nwrite =>
          simp only [echoData, kept, entry, half, given]
          split
          · next possible =>
            obtain ⟨lower, upper⟩ := (write_result_iff ..).mp possible
            rw [List.length_take_of_le (Nat.div_le_self _ _)] at upper
            -- At most half was written, so the comparison with nread never holds.
            have positive := received.positive
            have partly : nwrite ≠ (storeRead received server).nread := by
              simp only [storeRead]
              omega
            rw [if_pos partly]
            simp only [storeRead, buffer_string_unsent below received.bytes _ nwrite lower]
          · rfl
  | some queue =>
      cases nwrite with
      | some nwrite => simp [echoData, kept, entry]
      | none => simp [echoData, storeRead, entry]

theorem echo_data_effect (fd : Fd) (received : Received) (nwrite : Option Int)
    (below : UInt8) (server next : Server) (calls : List Call)
    (done : echoData fd nwrite below (storeRead received server) = some (next, calls)) :
    Effect server.sessionMap (.read fd (.data received) nwrite below) next.sessionMap
      (.received fd received.bytes :: calls) := by
  rw [echo_data_stored] at done
  cases entry : server.sessionMap fd with
  | none =>
      cases nwrite with
      | none => simp [entry] at done
      | some nwrite =>
          simp only [entry, Option.ite_none_right_eq_some, Option.some.injEq,
            Prod.mk.injEq] at done
          obtain ⟨possible, rfl, rfl⟩ := done
          obtain ⟨lower, upper⟩ := (write_result_iff ..).mp possible
          rw [List.length_take_of_le (Nat.div_le_self _ _)] at upper
          exact .direct fd received nwrite below entry lower upper
  | some queue =>
      cases nwrite with
      | some nwrite => simp [entry] at done
      | none =>
          simp only [entry, Option.some.injEq, Prod.mk.injEq] at done
          obtain ⟨rfl, rfl⟩ := done
          exact .queued fd received below queue entry

theorem read_pass_effect (event : EpollEvent) (result : ReadResult) (nwrite : Option Int)
    (below : UInt8) (server next : Server) (calls : List Call)
    (done : readPass event result nwrite below server = some (next, calls)) :
    Effect server.sessionMap (.read event.fd result nwrite below) next.sessionMap calls := by
  cases result with
  | data received =>
      simp only [readPass, Option.map_eq_some_iff, Prod.exists, Prod.mk.injEq] at done
      obtain ⟨middle, later, echoed, rfl, rfl⟩ := done
      exact echo_data_effect event.fd received nwrite below server middle later echoed
  | eof =>
      cases nwrite with
      | some nwrite => simp [readPass] at done
      | none =>
          simp only [readPass, Option.some.injEq, Prod.mk.injEq] at done
          obtain ⟨rfl, rfl⟩ := done
          simpa using Effect.stopped event.fd .eof below (.inl rfl)
  | failed errno =>
      cases nwrite with
      | some nwrite => cases errno <;> simp [readPass] at done
      | none =>
          cases errno <;>
            simp only [readPass, Option.some.injEq, Prod.mk.injEq] at done <;>
            obtain ⟨rfl, rfl⟩ := done
          · simpa using Effect.stopped event.fd (.failed .again) below (.inr (.inl rfl))
          · simpa using Effect.stopped event.fd (.failed .wouldBlock) below (.inr (.inr rfl))
          · exact .dropped event.fd _ below

theorem write_front_effect (event : EpollEvent) (outData : Bytes) (rest : List Bytes)
    (nwrite : Int) (server : Server) (front : server.sessionMap event.fd = some (outData :: rest))
    (possible : writeResult outData nwrite = true) :
    Effect server.sessionMap (.write event.fd nwrite)
      (writeFront event outData rest nwrite server).sessionMap
      [.written event.fd outData nwrite] := by
  obtain ⟨lower, upper⟩ := (write_result_iff ..).mp possible
  unfold writeFront
  by_cases large : 1024 < nwrite
  · simp only [large, ↓reduceIte]
    exact .overran event.fd outData rest nwrite front upper large
  · have small : nwrite ≤ 1024 := by omega
    by_cases short : sizeT nwrite < outData.length
    · simp only [large, short, ↓reduceIte]
      exact .shortened event.fd outData rest nwrite front lower upper small short
    · simp only [large, short, ↓reduceIte]
      exact .popped event.fd outData rest nwrite front lower upper small short

theorem step_effect (listenfd : Fd) (server next : Server) (label : Label) (calls : List Call)
    (taken : step listenfd server label = some (next, calls)) :
    Effect server.sessionMap label next.sessionMap calls := by
  unfold step at taken
  split at taken
  · simp only [Option.some.injEq, Prod.mk.injEq] at taken
    obtain ⟨rfl, rfl⟩ := taken
    simpa using Effect.event _
  · simp only [Option.some.injEq, Prod.mk.injEq] at taken
    obtain ⟨rfl, rfl⟩ := taken
    simpa using Effect.accept _ _
  · split at taken
    · next same =>
      subst same
      exact read_pass_effect _ _ _ _ server next calls taken
    · simp at taken
  · split at taken
    · next same =>
      subst same
      split at taken
      · next outData rest front =>
        split at taken
        · next possible =>
          simp only [Option.some.injEq, Prod.mk.injEq] at taken
          obtain ⟨rfl, rfl⟩ := taken
          exact write_front_effect _ outData rest _ server front possible
        · simp at taken
      · simp at taken
    · simp at taken
  · simp at taken

/-! Where one step leaves the loop. `Decides` is the EPOLLOUT test, which
every way out of the read loop and of the accept branch ends in. -/
inductive Decides (event : EpollEvent) (sessionMap : SessionMap) : Control → Prop where
  | unasked (silent : event.epollout = false) : Decides event sessionMap .wait
  | absent (missing : sessionMap event.fd = none) : Decides event sessionMap .wait
  | empty (drained : sessionMap event.fd = some []) :
      Decides event sessionMap (.emptyFront event)
  | front (asked : event.epollout = true) (outData : Bytes) (rest : List Bytes)
      (entry : sessionMap event.fd = some (outData :: rest)) :
      Decides event sessionMap (.write event)

inductive Moves (listenfd : Fd) : Control → Label → SessionMap → Control → Prop where
  | listener (event : EpollEvent) (sessionMap : SessionMap) (own : event.fd = listenfd) :
      Moves listenfd .wait (.event event) sessionMap (.accept event)
  | client (event : EpollEvent) (sessionMap : SessionMap) (other : event.fd ≠ listenfd) :
      Moves listenfd .wait (.event event) sessionMap (.read event)
  | writable (event : EpollEvent) (sessionMap : SessionMap) (after : Control)
      (decides : Decides event sessionMap after) :
      Moves listenfd .wait (.event event) sessionMap after
  | accepted (event : EpollEvent) (clientfd : Int) (nonblock : Bool)
      (sessionMap : SessionMap) (after : Control) (decides : Decides event sessionMap after) :
      Moves listenfd (.accept event) (.accept clientfd nonblock) sessionMap after
  | blocking (event : EpollEvent) (clientfd : Int) (sessionMap : SessionMap) :
      Moves listenfd (.accept event) (.accept clientfd false) sessionMap .wait
  | stops (event : EpollEvent) (result : ReadResult) (below : UInt8)
      (sessionMap : SessionMap) (after : Control)
      (ending : result = .eof ∨ result = .failed .again ∨ result = .failed .wouldBlock)
      (decides : Decides event sessionMap after) :
      Moves listenfd (.read event) (.read event.fd result none below) sessionMap after
  | repeats (event : EpollEvent) (result : ReadResult) (nwrite : Option Int) (below : UInt8)
      (sessionMap : SessionMap)
      (going : (∃ received, result = .data received) ∨ ∃ code, result = .failed (.other code)) :
      Moves listenfd (.read event) (.read event.fd result nwrite below) sessionMap (.read event)
  | wrote (event : EpollEvent) (nwrite : Int) (sessionMap : SessionMap) (small : nwrite ≤ 1024) :
      Moves listenfd (.write event) (.write event.fd nwrite) sessionMap .wait
  | aborts (event : EpollEvent) (nwrite : Int) (sessionMap : SessionMap) (large : 1024 < nwrite) :
      Moves listenfd (.write event) (.write event.fd nwrite) sessionMap (.aborted event)

theorem epollout_decides (event : EpollEvent) (server : Server) :
    Decides event server.sessionMap (epolloutBranch event server).control := by
  unfold epolloutBranch
  split
  · next asked =>
    split
    · next missing => exact .absent missing
    · next drained => exact .empty drained
    · next outData rest entry => exact .front asked outData rest entry
  · next silent => exact .unasked (by simpa using silent)

theorem begin_moves (listenfd : Fd) (event : EpollEvent) (server : Server) :
    Moves listenfd .wait (.event event) server.sessionMap
      (beginEvent listenfd event server).control := by
  unfold beginEvent
  split
  · split
    · next own => exact .listener event _ own
    · next other => exact .client event _ other
  · exact .writable event _ _ (epollout_decides event server)

theorem accept_moves (listenfd : Fd) (event : EpollEvent) (clientfd : Int) (nonblock : Bool)
    (server : Server) :
    Moves listenfd (.accept event) (.accept clientfd nonblock) server.sessionMap
      (acceptClient event clientfd nonblock server).control := by
  unfold acceptClient
  split
  · cases nonblock with
    | true =>
        exact .accepted event clientfd true _ _
          (epollout_decides event (registerClient clientfd server))
    | false => exact .blocking event clientfd _
  · exact .accepted event clientfd nonblock _ _ (epollout_decides event server)

theorem echo_data_control (fd : Fd) (nwrite : Option Int) (below : UInt8)
    (server next : Server) (calls : List Call)
    (done : echoData fd nwrite below server = some (next, calls)) :
    next.control = server.control := by
  unfold echoData at done
  split at done
  · simp only [Option.ite_none_right_eq_some, Option.some.injEq, Prod.mk.injEq] at done
    rw [← done.2.1]
  · simp only [Option.some.injEq, Prod.mk.injEq] at done
    rw [← done.1]
  · simp at done

theorem read_pass_moves (listenfd : Fd) (event : EpollEvent) (result : ReadResult)
    (nwrite : Option Int) (below : UInt8) (server next : Server) (calls : List Call)
    (reading : server.control = .read event)
    (done : readPass event result nwrite below server = some (next, calls)) :
    Moves listenfd (.read event) (.read event.fd result nwrite below) next.sessionMap
      next.control := by
  cases result with
  | data received =>
      simp only [readPass, Option.map_eq_some_iff, Prod.exists, Prod.mk.injEq] at done
      obtain ⟨middle, later, echoed, rfl, -⟩ := done
      rw [echo_data_control _ _ _ _ middle later echoed, storeRead, reading]
      exact .repeats event _ nwrite below _ (.inl ⟨received, rfl⟩)
  | eof =>
      cases nwrite with
      | some nwrite => simp [readPass] at done
      | none =>
          simp only [readPass, Option.some.injEq, Prod.mk.injEq] at done
          rw [← done.1, epollout_session_map]
          exact .stops event _ below _ _ (.inl rfl) (epollout_decides event _)
  | failed errno =>
      cases nwrite with
      | some nwrite => cases errno <;> simp [readPass] at done
      | none =>
          cases errno <;>
            simp only [readPass, Option.some.injEq, Prod.mk.injEq] at done <;>
            rw [← done.1]
          · rw [epollout_session_map]
            exact .stops event _ below _ _ (.inr (.inl rfl)) (epollout_decides event _)
          · rw [epollout_session_map]
            exact .stops event _ below _ _ (.inr (.inr rfl)) (epollout_decides event _)
          · rw [reading]
            exact .repeats event _ none below _ (.inr ⟨_, rfl⟩)

theorem step_moves (listenfd : Fd) (server next : Server) (label : Label) (calls : List Call)
    (taken : step listenfd server label = some (next, calls)) :
    Moves listenfd server.control label next.sessionMap next.control := by
  unfold step at taken
  split at taken
  · next event control =>
    simp only [Option.some.injEq, Prod.mk.injEq] at taken
    rw [control, ← taken.1, begin_session_map]
    exact begin_moves listenfd event server
  · next event clientfd nonblock control =>
    simp only [Option.some.injEq, Prod.mk.injEq] at taken
    rw [control, ← taken.1, accept_session_map]
    exact accept_moves listenfd event clientfd nonblock server
  · next event fd result nwrite below control =>
    split at taken
    · next same =>
      subst same
      rw [control]
      exact read_pass_moves listenfd event result nwrite below server next calls control taken
    · simp at taken
  · next event fd nwrite control =>
    split at taken
    · next same =>
      subst same
      rw [control]
      split at taken
      · split at taken
        · simp only [Option.some.injEq, Prod.mk.injEq] at taken
          rw [← taken.1, writeFront]
          split
          · next large => exact .aborts event nwrite _ large
          · next small => exact .wrote event nwrite _ (by omega)
        · simp at taken
      · simp at taken
    · simp at taken
  · simp at taken

end Practise.EchoServer
