import Practise.RelayRing
import Mathlib.Logic.Function.Basic

/-!
The echo server and the echo client of echo/libevent2. libevent itself is a
parameter, of which no more is known than its event2/bufferevent.h says: a
bufferevent fills its input buffer and drains its output buffer by itself, in
pieces of any size, and calls the read callback when data has arrived. TCP is a
channel that keeps the order of its bytes. A client connects, sends its message
once, and from then on both sides send back whatever they get.
-/
namespace Practise.LibeventEcho
open Machine RelayRing

abbrev Bytes := List UInt8
abbrev Fd := Int

/-- What libevent does to a bufferevent, in calls of the program and by itself:
`fill` puts data of the descriptor into the input buffer, and `drain` gives the
descriptor so many bytes of the output buffer. -/
structure Libevent (Bev : Type) where
  input : Bev → Bytes
  output : Bev → Bytes
  socketNew : Bev
  write : Bev → Bytes → Bev
  -- `bufferevent_write_buffer` with the bufferevent's own input buffer
  writeInput : Bev → Bev
  fill : Bev → Bytes → Option Bev
  drain : Bev → Nat → Option Bev

/-- As the header documents it, with calls that do not fail. -/
structure Libevent.Documented {Bev : Type} (lib : Libevent Bev) : Prop where
  new : lib.input lib.socketNew = [] ∧ lib.output lib.socketNew = []
  -- "The data is appended to the output buffer"
  write : ∀ bev data, lib.input (lib.write bev data) = lib.input bev ∧
    lib.output (lib.write bev data) = lib.output bev ++ data
  -- "The evbuffer is being drained as a result."
  writeInput : ∀ bev, lib.input (lib.writeInput bev) = [] ∧
    lib.output (lib.writeInput bev) = lib.output bev ++ lib.input bev
  fill : ∀ bev data next, lib.fill bev data = some next → data ≠ [] ∧
    lib.input next = lib.input bev ++ data ∧ lib.output next = lib.output bev
  drain : ∀ bev count next, lib.drain bev count = some next →
    0 < count ∧ count ≤ (lib.output bev).length ∧ lib.input next = lib.input bev ∧
      lib.output next = (lib.output bev).drop count

inductive Transfer where
  | received (data : Bytes)
  | sent (data : Bytes)

section Library
variable {Bev : Type} (lib : Libevent Bev)

/-- Both programs have the same one. -/
def readCb (bev : Bev) : Bev := lib.writeInput bev

/-- New data in the input buffer triggers the read callback. -/
def receive (bev : Bev) (data : Bytes) : Option (Bev × Transfer) :=
  (lib.fill bev data).map fun filled => (readCb lib filled, .received data)

def send (bev : Bev) (count : Nat) : Option (Bev × Transfer) :=
  (lib.drain bev count).map fun drained => (drained, .sent ((lib.output bev).take count))

/-! The server: one bufferevent for each connection. -/

abbrev Server (Bev : Type) := Fd → Option Bev

inductive ServerLabel where
  | accept (fd : Fd)
  | received (fd : Fd) (data : Bytes)
  | sent (fd : Fd) (count : Nat)

/-- The server has no event callback. -/
def serverStep : Step (Server Bev) ServerLabel (Fd × Transfer)
  -- `listener_cb`, with a descriptor that is not in use.
  | server, .accept fd =>
      if server fd = none then some (Function.update server fd (some lib.socketNew), []) else none
  | server, .received fd data =>
      (server fd).bind fun bev => (receive lib bev data).map fun done =>
        (Function.update server fd (some done.1), [(fd, done.2)])
  | server, .sent fd count =>
      (server fd).bind fun bev => (send lib bev count).map fun done =>
        (Function.update server fd (some done.1), [(fd, done.2)])

/-! One client. -/

def MSG_SIZE : Nat := 1024

def MSG : Bytes := List.replicate MSG_SIZE 0

inductive BevEvent where
  | eof
  | error
  | timeout
  | connected

structure Client (Bev : Type) where
  bev : Bev
  connected : Bool
  aborted : Bool

/-- `event_cb`; the message is a parameter. -/
def eventCb (message : Bytes) (client : Client Bev) : BevEvent → Client Bev
  | .eof | .error => client
  | .connected => { client with bev := lib.write client.bev message, connected := true }
  | .timeout => { client with aborted := true }

inductive ClientLabel where
  | event (what : BevEvent)
  | received (data : Bytes)
  | sent (count : Nat)

/-- A connection is reported once, and nothing is transferred before. -/
def clientStep (message : Bytes) : Step (Client Bev) ClientLabel Transfer
  | client, .event .connected =>
      if client.connected || client.aborted then none
      else some (eventCb lib message client .connected, [])
  | client, .event what =>
      if client.aborted then none else some (eventCb lib message client what, [])
  | client, .received data =>
      if client.connected && !client.aborted then
        (receive lib client.bev data).map fun done => ({ client with bev := done.1 }, [done.2])
      else none
  | client, .sent count =>
      if client.connected && !client.aborted then
        (send lib client.bev count).map fun done => ({ client with bev := done.1 }, [done.2])
      else none

/-! Both of them as relays. -/

def received (transfers : List Transfer) : Bytes :=
  transfers.flatMap fun
    | .received data => data
    | .sent _ => []

def sent (transfers : List Transfer) : Bytes :=
  transfers.flatMap fun
    | .received _ => []
    | .sent data => data

def onConnection (fd : Fd) (transfers : List (Fd × Transfer)) : List Transfer :=
  transfers.filterMap fun transfer => if transfer.1 = fd then some transfer.2 else none

def held (bev : Bev) : Bytes := lib.output bev ++ lib.input bev

def clientRelay (message : Bytes) : Relay UInt8 (Client Bev) ClientLabel Transfer where
  step := clientStep lib message
  taken := received
  given := sent
  held := fun client => held lib client.bev

/-- The server as the client of one connection sees it. -/
def serverRelay (fd : Fd) : Relay UInt8 (Server Bev) ServerLabel (Fd × Transfer) where
  step := serverStep lib
  taken := fun transfers => received (onConnection fd transfers)
  given := fun transfers => sent (onConnection fd transfers)
  held := fun server => ((server fd).map (held lib)).getD []

/-! What a step of each party can be. -/

inductive Moved (bev : Bev) (transfer : Transfer) (next : Bev) : Prop where
  | received (data : Bytes) (done : receive lib bev data = some (next, transfer))
  | sent (count : Nat) (done : send lib bev count = some (next, transfer))

def ServerLabel.transfersOn (fd : Fd) : ServerLabel → Bool
  | .accept _ => false
  | .received other _ => decide (other = fd)
  | .sent other _ => decide (other = fd)

def ClientLabel.transfers : ClientLabel → Bool
  | .event _ => false
  | .received _ => true
  | .sent _ => true

theorem server_step_cases (server next : Server Bev) (label : ServerLabel)
    (outputs : List (Fd × Transfer)) (done : serverStep lib server label = some (next, outputs)) :
    (∃ fd, label = .accept fd ∧ server fd = none ∧ outputs = [] ∧
      next = Function.update server fd (some lib.socketNew)) ∨
    (∃ fd bev transfer after, (∀ other, label.transfersOn other = true ↔ fd = other) ∧
      server fd = some bev ∧ Moved lib bev transfer after ∧ outputs = [(fd, transfer)] ∧
      next = Function.update server fd (some after)) := by
  cases label with
  | accept fd =>
      simp only [serverStep] at done
      split at done
      · next unused =>
        obtain ⟨rfl, rfl⟩ := Prod.mk.inj (Option.some.inj done)
        exact Or.inl ⟨fd, rfl, unused, rfl, rfl⟩
      · exact absurd done (by simp)
  | received fd data =>
      simp only [serverStep, Option.bind_eq_some_iff, Option.map_eq_some_iff, Prod.exists,
        Prod.mk.injEq] at done
      obtain ⟨bev, found, after, transfer, received, rfl, rfl⟩ := done
      exact Or.inr ⟨fd, bev, transfer, after, fun _ => decide_eq_true_iff, found,
        .received data received, rfl, rfl⟩
  | sent fd count =>
      simp only [serverStep, Option.bind_eq_some_iff, Option.map_eq_some_iff, Prod.exists,
        Prod.mk.injEq] at done
      obtain ⟨bev, found, after, transfer, sent, rfl, rfl⟩ := done
      exact Or.inr ⟨fd, bev, transfer, after, fun _ => decide_eq_true_iff, found,
        .sent count sent, rfl, rfl⟩

theorem client_step_cases (message : Bytes) (client next : Client Bev) (label : ClientLabel)
    (outputs : List Transfer) (done : clientStep lib message client label = some (next, outputs)) :
    (∃ what, label = .event what ∧ (what = .connected → client.connected = false) ∧
      outputs = [] ∧ next = eventCb lib message client what) ∨
    (∃ transfer after, label.transfers = true ∧ Moved lib client.bev transfer after ∧
      outputs = [transfer] ∧ next = { client with bev := after }) := by
  cases label with
  | event what =>
      left
      cases what with
      | connected =>
          simp only [clientStep] at done
          split at done
          · exact absurd done (by simp)
          · next ready =>
            obtain ⟨rfl, rfl⟩ := Prod.mk.inj (Option.some.inj done)
            simp only [Bool.or_eq_true, not_or, Bool.not_eq_true] at ready
            exact ⟨.connected, rfl, fun _ => ready.1, rfl, rfl⟩
      | eof | error | timeout =>
          simp only [clientStep] at done
          split at done
          · exact absurd done (by simp)
          · obtain ⟨rfl, rfl⟩ := Prod.mk.inj (Option.some.inj done)
            exact ⟨_, rfl, by simp, rfl, rfl⟩
  | received data =>
      simp only [clientStep] at done
      split at done
      · simp only [Option.map_eq_some_iff, Prod.exists, Prod.mk.injEq] at done
        obtain ⟨after, transfer, received, rfl, rfl⟩ := done
        exact Or.inr ⟨transfer, after, rfl, .received data received, rfl, rfl⟩
      · exact absurd done (by simp)
  | sent count =>
      simp only [clientStep] at done
      split at done
      · simp only [Option.map_eq_some_iff, Prod.exists, Prod.mk.injEq] at done
        obtain ⟨after, transfer, sent, rfl, rfl⟩ := done
        exact Or.inr ⟨transfer, after, rfl, .sent count sent, rfl, rfl⟩
      · exact absurd done (by simp)

/-! What each party passes on in one step, and that a transfer moves a byte. -/

structure Passed (bev : Bev) (transfer : Transfer) (next : Bev) : Prop where
  whole : held lib bev ++ received [transfer] = sent [transfer] ++ held lib next
  moves : 0 < (received [transfer]).length + (sent [transfer]).length

/-- A transfer on one connection leaves the others alone. -/
theorem server_transfer (fd other : Fd) (server : Server Bev) (bev next : Bev)
    (transfer : Transfer) (found : server other = some bev)
    (passed : Passed lib bev transfer next) :
    (serverRelay lib fd).PassesOn server [(other, transfer)]
        (Function.update server other (some next)) ∧
      (other = fd → 0 < ((serverRelay lib fd).taken [(other, transfer)]).length +
        ((serverRelay lib fd).given [(other, transfer)]).length) := by
  by_cases same : other = fd
  · subst same
    constructor
    · simpa [Relay.PassesOn, serverRelay, onConnection, found] using passed.whole
    · simpa [serverRelay, onConnection] using passed.moves
  · refine ⟨?_, fun equal => absurd equal same⟩
    simp [Relay.PassesOn, serverRelay, onConnection, received, sent, same,
      Function.update_of_ne (Ne.symm same)]

section Documented
variable (documented : lib.Documented)
include documented

theorem read_cb_moves (bev : Bev) : lib.input (readCb lib bev) = [] ∧
    lib.output (readCb lib bev) = lib.output bev ++ lib.input bev :=
  documented.writeInput bev

theorem moved_passes (bev next : Bev) (transfer : Transfer) (moved : Moved lib bev transfer next) :
    Passed lib bev transfer next := by
  cases moved with
  | received data done =>
      obtain ⟨filled, fills, same⟩ := Option.map_eq_some_iff.mp done
      obtain ⟨rfl, rfl⟩ := Prod.mk.inj same
      obtain ⟨some, input, output⟩ := documented.fill bev data filled fills
      obtain ⟨drained, appended⟩ := read_cb_moves lib documented filled
      constructor
      · simp [received, sent, held, drained, appended, input, output]
      · simpa [received, sent] using List.length_pos_of_ne_nil some
  | sent count done =>
      obtain ⟨drained, drains, same⟩ := Option.map_eq_some_iff.mp done
      obtain ⟨rfl, rfl⟩ := Prod.mk.inj same
      obtain ⟨positive, most, input, output⟩ := documented.drain bev count drained drains
      constructor
      · simp [received, sent, held, input, output, ← List.append_assoc]
      · simp [received, sent]
        omega

theorem server_passes (fd : Fd) (server next : Server Bev) (label : ServerLabel)
    (outputs : List (Fd × Transfer)) (done : serverStep lib server label = some (next, outputs)) :
    (serverRelay lib fd).PassesOn server outputs next ∧
      (label.transfersOn fd = true →
        0 < ((serverRelay lib fd).taken outputs).length +
          ((serverRelay lib fd).given outputs).length) := by
  rcases server_step_cases lib server next label outputs done with
    ⟨other, rfl, unused, rfl, rfl⟩ | ⟨other, bev, transfer, after, concerns, found, moved, rfl, rfl⟩
  · refine ⟨?_, by simp [ServerLabel.transfersOn]⟩
    by_cases same : other = fd
    · subst same
      simp [Relay.PassesOn, serverRelay, unused, onConnection, received, sent, held,
        documented.new]
    · simp [Relay.PassesOn, serverRelay, onConnection, received, sent,
        Function.update_of_ne (Ne.symm same)]
  · obtain ⟨passes, moves⟩ := server_transfer lib fd other server bev after transfer found
      (moved_passes lib documented bev after transfer moved)
    exact ⟨passes, fun transfers => moves ((concerns fd).mp transfers)⟩

/-- A step of the client is the one report of the connection, or it passes on
what it takes, where only a connected client transfers. -/
theorem client_passes (message : Bytes) (client next : Client Bev) (label : ClientLabel)
    (outputs : List Transfer) (done : clientStep lib message client label = some (next, outputs)) :
    (client.connected = false ∧ label.transfers = false ∧ outputs = [] ∧
      next = eventCb lib message client .connected) ∨
    (next.connected = client.connected ∧ (clientRelay lib message).PassesOn client outputs next ∧
      (label.transfers = true → 0 < ((clientRelay lib message).taken outputs).length +
        ((clientRelay lib message).given outputs).length)) := by
  rcases client_step_cases lib message client next label outputs done with
    ⟨what, rfl, fresh, rfl, rfl⟩ | ⟨transfer, after, transfers, moved, rfl, rfl⟩
  · cases what with
    | connected => exact Or.inl ⟨fresh rfl, rfl, rfl, rfl⟩
    | eof | error | timeout =>
        refine Or.inr ⟨rfl, ?_, by simp [ClientLabel.transfers]⟩
        simp [Relay.PassesOn, clientRelay, received, sent, eventCb]
  · have passed := moved_passes lib documented client.bev after transfer moved
    exact Or.inr ⟨rfl, passed.whole, fun _ => passed.moves⟩

theorem server_lawful (fd : Fd) :
    (serverRelay lib fd).Lawful (fun _ => True) (fun _ => True) (ServerLabel.transfersOn fd) where
  kept := fun _ _ _ _ _ _ _ => trivial
  passes := fun server label next outputs _ _ done =>
    (server_passes lib documented fd server next label outputs done).1
  moving := fun server label next outputs done =>
    (server_passes lib documented fd server next label outputs done).2

end Documented

end Library

/-! A library with both buffers as lists, which transfers whatever it can. -/

structure Buffers where
  input : Bytes
  output : Bytes

def listBuffers : Libevent Buffers where
  input := Buffers.input
  output := Buffers.output
  socketNew := ⟨[], []⟩
  write := fun bev data => { bev with output := bev.output ++ data }
  writeInput := fun bev => ⟨[], bev.output ++ bev.input⟩
  fill := fun bev data =>
    if data = [] then none else some { bev with input := bev.input ++ data }
  drain := fun bev count =>
    if 0 < count ∧ count ≤ bev.output.length then some { bev with output := bev.output.drop count }
    else none

theorem list_buffers_documented : listBuffers.Documented where
  new := ⟨rfl, rfl⟩
  write := fun _ _ => ⟨rfl, rfl⟩
  writeInput := fun _ => ⟨rfl, rfl⟩
  fill := fun bev data next done => by
    obtain ⟨some, rfl⟩ := by simpa [listBuffers] using done
    exact ⟨some, rfl, rfl⟩
  drain := fun bev count next done => by
    obtain ⟨⟨positive, most⟩, rfl⟩ := by simpa [listBuffers] using done
    exact ⟨positive, most, rfl, rfl⟩

end Practise.LibeventEcho
