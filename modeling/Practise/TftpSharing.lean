import Practise.Machine
import Practise.TftpTransfer

/-! Several clients and one global file. A session names the file it was
created for, but `handle_ACK` reads the global one, whoever opened it. The
clients are kept apart by their own behaviour only: as long as nobody
acknowledges while another client's file is open, or after another client's
request has displaced its own, each client is served as if it were alone. -/
namespace Practise.TftpServer
open Clib Machine

/-- `sessions` and `displaced` only record the past: the sessions created so
far, and the clients whose open file a request of another client has replaced
since they last asked for one. No handler reads them. -/
structure Service where
  globals : Globals
  inBuf : InBuf
  sessions : List Session
  displaced : List Address

inductive Request where
  | rrq (addr : Address) (request : ReadRequest) (sock : Fd)
  | ack (addr : Address) (blockNumber : UInt16)

def Request.addr : Request → Address
  | .rrq addr _ _ => addr
  | .ack addr _ => addr

/-- `opened`: the file was opened and its first block sent. `answer`: what
`handle_req` put into `out_buf`, empty if it returned 0. -/
inductive Reply where
  | opened (addr : Address) (name : Bytes) (sent : Sent)
  | answer (addr : Address) (packet : Bytes)
  deriving DecidableEq

def Reply.concerns (addr : Address) : Reply → Bool
  | .opened other _ _ => decide (other = addr)
  | .answer other _ => decide (other = addr)

/-- The clients that the open file was opened for. -/
def Service.owners (service : Service) : List Address :=
  match service.globals.file with
  | none => []
  | some file =>
      (service.sessions.filter fun session => session.pFile = file.ident).map Session.cliAddr

def Service.asked (service : Service) (addr : Address) : Service :=
  { service with
    displaced := (service.displaced ++ service.owners).filter fun other => other ≠ addr }

def serve (fileSystem : FileSystem) : Step Service Request Reply := fun service request =>
  match request with
  | .rrq addr request sock =>
      let inBuf := service.inBuf.receive request.datagram
      let service := service.asked addr
      (handleNewConnection fileSystem sock addr inBuf service.globals).map fun done =>
        match done.2 with
        | none => ({ service with globals := done.1, inBuf := inBuf }, [])
        | some (session, sent) =>
            ({ service with
                globals := done.1, inBuf := inBuf, sessions := session :: service.sessions },
              [.opened addr request.name sent])
  | .ack addr blockNumber =>
      let inBuf := service.inBuf.receive (ackDatagram blockNumber.toNat)
      let done := handleReq inBuf service.globals
      some ({ service with globals := done.1, inBuf := inBuf }, [.answer addr done.2])

def startService (inBuf : InBuf) : Service where
  globals := { file := none, opened := 0 }
  inBuf := inBuf
  sessions := []
  displaced := []

def answersTo (addr : Address) (replies : List Reply) : List Bytes :=
  replies.filterMap fun
    | .opened _ _ _ => none
    | .answer other packet => if other = addr then some packet else none

/-- The name of the last file that was opened for a client. -/
def lastOpened (addr : Address) (replies : List Reply) : Option Bytes :=
  (replies.filterMap fun
    | .opened other name _ => if other = addr then some name else none
    | .answer _ _ => none).getLast?

/-- Every DATA packet in answer to a client carries bytes of the file that the
client itself last opened. -/
def OwnBytes (fileSystem : FileSystem) (replies : List Reply) : Prop :=
  ∀ past addr packet later, replies = past ++ .answer addr packet :: later → packet ≠ [] →
    ∃ name content offset, lastOpened addr past = some name ∧ fileSystem name = some content ∧
      payload packet = (content.drop offset).take 512

def OpenedFor (addr : Address) (file : Stream UInt8) (sessions : List Session) : Prop :=
  ∃ session ∈ sessions, session.pFile = file.ident ∧ session.cliAddr = addr

/-- The client of an acknowledgement has not been displaced, and no file is
open or one of its own. -/
def Undisturbed (service : Service) : Request → Prop
  | .rrq _ _ _ => True
  | .ack addr _ => addr ∉ service.displaced ∧
      ∀ file, service.globals.file = some file → OpenedFor addr file service.sessions

/-! What one request does: the four outcomes, and that the service takes the
step of each of them. -/

def Service.withFile (service : Service) (file : Option (Stream UInt8)) (inBuf : InBuf) :
    Service where
  globals := { file := file, opened := service.globals.opened }
  inBuf := inBuf
  sessions := service.sessions
  displaced := service.displaced

def Service.withSession (service : Service) (sock : Fd) (addr : Address) (content : Bytes)
    (inBuf : InBuf) : Service where
  globals :=
    { file := some ⟨service.globals.opened, content, (block 512 content 0).length⟩
      opened := service.globals.opened + 1 }
  inBuf := inBuf
  sessions := createNewSession sock service.globals.opened addr :: service.sessions
  displaced := service.displaced

def firstSent (sock : Fd) (addr : Address) (content : Bytes) : Sent where
  sockFd := sock
  packet := dataPacket 1 (block 512 content 0)
  addr := addr

def ackPacket (blockNumber : UInt16) (file : Stream UInt8) : Bytes :=
  dataPacket (blockNumber.toNat + 1) (ackData blockNumber.toNat file)

inductive Served (fileSystem : FileSystem) (before : Service) :
    Request → Service → List Reply → Prop where
  | missing (addr : Address) (request : ReadRequest) (sock : Fd) (inBuf : InBuf)
      (absent : fileSystem request.name = none) :
      Served fileSystem before (.rrq addr request sock)
        ((before.asked addr).withFile none inBuf) []
  | opens (addr : Address) (request : ReadRequest) (sock : Fd) (inBuf : InBuf) (content : Bytes)
      (found : fileSystem request.name = some content) :
      Served fileSystem before (.rrq addr request sock)
        ((before.asked addr).withSession sock addr content inBuf)
        [.opened addr request.name (firstSent sock addr content)]
  | closed (addr : Address) (blockNumber : UInt16) (inBuf : InBuf)
      (unopened : before.globals.file = none) :
      Served fileSystem before (.ack addr blockNumber) (before.withFile none inBuf)
        [.answer addr []]
  | reads (addr : Address) (blockNumber : UInt16) (inBuf : InBuf) (file : Stream UInt8)
      (current : before.globals.file = some file) :
      Served fileSystem before (.ack addr blockNumber)
        (before.withFile (fileAfterAck blockNumber.toNat file) inBuf)
        [.answer addr (ackPacket blockNumber file)]

section Serve
variable (fileSystem : FileSystem) (service : Service) (addr : Address)

theorem serve_missing (request : ReadRequest) (sock : Fd)
    (absent : fileSystem request.name = none) :
    serve fileSystem service (.rrq addr request sock) =
      some ((service.asked addr).withFile none (service.inBuf.receive request.datagram), []) := by
  simp only [serve, handle_request, absent]
  rfl

theorem serve_opens (request : ReadRequest) (sock : Fd) (content : Bytes)
    (found : fileSystem request.name = some content) :
    serve fileSystem service (.rrq addr request sock) =
      some ((service.asked addr).withSession sock addr content
          (service.inBuf.receive request.datagram),
        [.opened addr request.name (firstSent sock addr content)]) := by
  simp only [serve, handle_request, found]
  rfl

theorem serve_closed (blockNumber : UInt16) (unopened : service.globals.file = none) :
    serve fileSystem service (.ack addr blockNumber) =
      some (service.withFile none (service.inBuf.receive (ackDatagram blockNumber.toNat)),
        [.answer addr []]) := by
  simp only [serve, handle_ack service.inBuf blockNumber.toNat blockNumber.toNat_lt, unopened]
  rw [Service.withFile, ← unopened]

theorem serve_reads (blockNumber : UInt16) (file : Stream UInt8)
    (current : service.globals.file = some file) :
    serve fileSystem service (.ack addr blockNumber) =
      some (service.withFile (fileAfterAck blockNumber.toNat file)
          (service.inBuf.receive (ackDatagram blockNumber.toNat)),
        [.answer addr (ackPacket blockNumber file)]) := by
  simp only [serve, handle_ack service.inBuf blockNumber.toNat blockNumber.toNat_lt, current]
  rfl

end Serve

/-- Every request is served to the end. -/
theorem serve_total (fileSystem : FileSystem) (service : Service) (request : Request) :
    (serve fileSystem service request).isSome := by
  cases request with
  | rrq addr request sock =>
      cases found : fileSystem request.name with
      | none => rw [serve_missing fileSystem service addr request sock found, Option.isSome_some]
      | some content =>
          rw [serve_opens fileSystem service addr request sock content found, Option.isSome_some]
  | ack addr blockNumber => rfl

theorem serve_served (fileSystem : FileSystem) (before after : Service) (request : Request)
    (replies : List Reply) (taken : serve fileSystem before request = some (after, replies)) :
    Served fileSystem before request after replies := by
  cases request with
  | rrq addr request sock =>
      cases found : fileSystem request.name with
      | none =>
          rw [serve_missing fileSystem before addr request sock found] at taken
          cases taken
          exact .missing addr request sock _ found
      | some content =>
          rw [serve_opens fileSystem before addr request sock content found] at taken
          cases taken
          exact .opens addr request sock _ content found
  | ack addr blockNumber =>
      cases current : before.globals.file with
      | none =>
          rw [serve_closed fileSystem before addr blockNumber current] at taken
          cases taken
          exact .closed addr blockNumber _ current
      | some file =>
          rw [serve_reads fileSystem before addr blockNumber file current] at taken
          cases taken
          exact .reads addr blockNumber _ file current

theorem file_after_ack (blockNumber : Nat) (file after : Stream UInt8)
    (kept : fileAfterAck blockNumber file = some after) :
    after.ident = file.ident ∧ after.content = file.content := by
  simp only [fileAfterAck] at kept
  split at kept
  · simp at kept
  · simp only [Option.some.injEq] at kept
    subst kept
    exact ⟨rfl, rfl⟩

/-- Sessions are numbered by the file they were created for. -/
structure Registered (service : Service) : Prop where
  numbered : ∀ session ∈ service.sessions, session.pFile < service.globals.opened
  current : ∀ file, service.globals.file = some file → file.ident < service.globals.opened
  unique : ∀ one ∈ service.sessions, ∀ two ∈ service.sessions,
    one.pFile = two.pFile → one.cliAddr = two.cliAddr

theorem start_registered (inBuf : InBuf) : Registered (startService inBuf) :=
  ⟨by simp [startService], by simp [startService], by simp [startService]⟩

theorem asked_registered (service : Service) (registered : Registered service) (addr : Address) :
    Registered (service.asked addr) :=
  ⟨registered.numbered, registered.current, registered.unique⟩

theorem with_file_registered (service : Service) (registered : Registered service)
    (file : Option (Stream UInt8)) (inBuf : InBuf)
    (older : ∀ kept, file = some kept → kept.ident < service.globals.opened) :
    Registered (service.withFile file inBuf) :=
  ⟨registered.numbered, older, registered.unique⟩

theorem with_session_registered (service : Service) (registered : Registered service)
    (sock : Fd) (addr : Address) (content : Bytes) (inBuf : InBuf) :
    Registered (service.withSession sock addr content inBuf) := by
  refine ⟨fun session member => ?_, fun file same => ?_, fun one first two second same => ?_⟩
  · rcases List.mem_cons.mp member with rfl | old
    · exact Nat.lt_succ_self _
    · exact Nat.lt_succ_of_lt (registered.numbered session old)
  · cases same
    exact Nat.lt_succ_self _
  -- The new session has a number that no older one has.
  · rcases List.mem_cons.mp first with rfl | oldOne <;>
      rcases List.mem_cons.mp second with rfl | oldTwo
    · rfl
    · have := registered.numbered two oldTwo
      simp only [createNewSession] at same
      omega
    · have := registered.numbered one oldOne
      simp only [createNewSession] at same
      omega
    · exact registered.unique one oldOne two oldTwo same

theorem served_registered (fileSystem : FileSystem) (before after : Service) (request : Request)
    (replies : List Reply) (registered : Registered before)
    (served : Served fileSystem before request after replies) : Registered after := by
  cases served with
  | missing addr =>
      exact with_file_registered (before.asked addr) (asked_registered before registered addr)
        none _ (by simp)
  | closed => exact with_file_registered before registered none _ (by simp)
  | reads addr blockNumber inBuf file current =>
      refine with_file_registered before registered _ inBuf fun kept same => ?_
      rw [(file_after_ack _ file kept same).1]
      exact registered.current file current
  | opens addr request sock inBuf content =>
      exact with_session_registered (before.asked addr) (asked_registered before registered addr)
        sock addr content inBuf

theorem opened_for_unique (service : Service) (registered : Registered service)
    (file : Stream UInt8) (one two : Address) (first : OpenedFor one file service.sessions)
    (second : OpenedFor two file service.sessions) : one = two := by
  obtain ⟨left, leftIn, leftFile, rfl⟩ := first
  obtain ⟨right, rightIn, rightFile, rfl⟩ := second
  exact registered.unique left leftIn right rightIn (leftFile.trans rightFile.symm)

theorem opened_for_new (service : Service) (registered : Registered service) (sock : Fd)
    (addr other : Address) (content : Bytes) (position : Nat)
    (owner : OpenedFor other ⟨service.globals.opened, content, position⟩
      (createNewSession sock service.globals.opened addr :: service.sessions)) : addr = other := by
  obtain ⟨session, member, same, rfl⟩ := owner
  rcases List.mem_cons.mp member with rfl | old
  · rfl
  · have := registered.numbered session old
    simp only at same
    omega

theorem last_opened_answer (addr other : Address) (past : List Reply) (packet : Bytes) :
    lastOpened addr (past ++ [.answer other packet]) = lastOpened addr past := by
  simp [lastOpened, List.filterMap_append]

theorem last_opened_own (addr : Address) (past : List Reply) (name : Bytes) (sent : Sent) :
    lastOpened addr (past ++ [.opened addr name sent]) = some name := by
  simp [lastOpened, List.filterMap_append]

/-- The open file is the one that its client opened last. -/
def FileKnown (fileSystem : FileSystem) (service : Service) (past : List Reply) : Prop :=
  ∀ file addr, service.globals.file = some file → OpenedFor addr file service.sessions →
    ∃ name, lastOpened addr past = some name ∧ fileSystem name = some file.content

theorem served_file_known (fileSystem : FileSystem) (before after : Service) (request : Request)
    (past replies : List Reply) (registered : Registered before)
    (known : FileKnown fileSystem before past)
    (served : Served fileSystem before request after replies) :
    FileKnown fileSystem after (past ++ replies) := by
  intro file addr open_ owner
  cases served with
  | missing | closed => cases open_
  | reads other blockNumber inBuf old current =>
      obtain ⟨ident, content⟩ := file_after_ack _ old file open_
      obtain ⟨session, member, same, rfl⟩ := owner
      obtain ⟨name, last, found⟩ := known old session.cliAddr current
        ⟨session, member, same.trans ident, rfl⟩
      exact ⟨name, (last_opened_answer ..).trans last, by rw [found, content]⟩
  | opens other request sock inBuf content found =>
      cases open_
      obtain rfl := opened_for_new before registered sock other addr content _ owner
      exact ⟨request.name, last_opened_own .., found⟩

theorem own_bytes_snoc (fileSystem : FileSystem) (past : List Reply) (reply : Reply)
    (before : OwnBytes fileSystem past)
    (last : ∀ addr packet, reply = .answer addr packet → packet ≠ [] →
      ∃ name content offset, lastOpened addr past = some name ∧
        fileSystem name = some content ∧ payload packet = (content.drop offset).take 512) :
    OwnBytes fileSystem (past ++ [reply]) := by
  intro earlier addr packet later split
  rcases List.eq_nil_or_concat later with rfl | ⟨front, final, rfl⟩
  · obtain ⟨rfl, same⟩ := List.append_inj' split rfl
    exact last addr packet (by simpa using same)
  · rw [List.concat_eq_append, ← List.cons_append, ← List.append_assoc] at split
    obtain ⟨rfl, _⟩ := List.append_inj' split rfl
    exact before earlier addr packet front rfl

theorem served_own_bytes (fileSystem : FileSystem) (before after : Service) (request : Request)
    (past replies : List Reply) (known : FileKnown fileSystem before past)
    (own : OwnBytes fileSystem past) (alone : Undisturbed before request)
    (served : Served fileSystem before request after replies) :
    OwnBytes fileSystem (past ++ replies) := by
  cases served with
  | missing => simpa using own
  | opens => exact own_bytes_snoc fileSystem past _ own (by simp)
  | closed addr =>
      refine own_bytes_snoc fileSystem past _ own fun other packet same nonempty => ?_
      obtain ⟨-, rfl⟩ : addr = other ∧ [] = packet := by simpa using same
      exact absurd rfl nonempty
  | reads addr blockNumber inBuf file current =>
      -- The condition says whose file it is, and its owner opened it last.
      refine own_bytes_snoc fileSystem past _ own fun other packet same _ => ?_
      obtain ⟨rfl, rfl⟩ := Reply.answer.inj same
      obtain ⟨name, last, found⟩ := known file addr current (alone.2 file current)
      exact ⟨name, file.content, ackPosition blockNumber.toNat file, last, found,
        packet_payload _ _⟩

theorem run_own_bytes (fileSystem : FileSystem) (inBuf : InBuf) (requests : List Request)
    (allowed : EveryStep (serve fileSystem) (startService inBuf) Undisturbed requests) :
    EveryPoint (serve fileSystem) (startService inBuf)
      (fun _ replies => OwnBytes fileSystem replies) requests := by
  have along := run_invariant (serve fileSystem) (startService inBuf) Undisturbed
    (fun service past => Registered service ∧ FileKnown fileSystem service past ∧
      OwnBytes fileSystem past)
    ⟨start_registered inBuf, by simp [FileKnown, startService], by simp [OwnBytes]⟩
    (fun before past request after replies holds alone taken => by
      have served := serve_served fileSystem before after request replies taken
      exact ⟨served_registered fileSystem before after request replies holds.1 served,
        served_file_known fileSystem before after request past replies holds.1 holds.2.1 served,
        served_own_bytes fileSystem before after request past replies holds.2.1 holds.2.2
          alone served⟩)
    requests allowed
  exact fun past reached service replies taken => (along past reached service replies taken).2.2

/-! One client alone. Its file has another number there, because fewer files
have been opened, but the same content and position. -/

structure SameFile (left right : Stream UInt8) : Prop where
  content : right.content = left.content
  position : right.position = left.position

/-- Nothing is known of a client that has been displaced, until it asks again. -/
structure Mirrors (addr : Address) (full alone : Service) : Prop where
  registered : Registered full
  own : addr ∉ full.displaced → ∀ file, full.globals.file = some file →
    OpenedFor addr file full.sessions →
    ∃ mirror, alone.globals.file = some mirror ∧ SameFile file mirror
  foreign : addr ∉ full.displaced →
    (∀ file, full.globals.file = some file → ¬ OpenedFor addr file full.sessions) →
    alone.globals.file = none

theorem owners_mem (service : Service) (addr : Address) (file : Stream UInt8)
    (current : service.globals.file = some file)
    (mine : OpenedFor addr file service.sessions) : addr ∈ service.owners := by
  obtain ⟨session, member, same, rfl⟩ := mine
  simp only [Service.owners, current]
  exact List.mem_map_of_mem (List.mem_filter.mpr ⟨member, by simpa using same⟩)

/-- A client that a request of another one does not displace had no file open. -/
theorem asked_not_displaced (service : Service) (client addr : Address) (other : client ≠ addr)
    (kept : addr ∉ (service.asked client).displaced) :
    addr ∉ service.displaced ∧
      ∀ file, service.globals.file = some file → ¬ OpenedFor addr file service.sessions := by
  have neither : addr ∉ service.displaced ++ service.owners := fun member =>
    kept (List.mem_filter.mpr ⟨member, by simpa using other.symm⟩)
  refine ⟨fun member => neither (List.mem_append_left _ member), fun file current mine => ?_⟩
  exact neither (List.mem_append_right _ (owners_mem service addr file current mine))

theorem same_file_ack (blockNumber : Nat) (left right : Stream UInt8)
    (same : SameFile left right) :
    ackData blockNumber right = ackData blockNumber left ∧
      ackPosition blockNumber right = ackPosition blockNumber left := by
  have position : ackPosition blockNumber right = ackPosition blockNumber left := by
    simp only [ackPosition, same.position]
  exact ⟨by rw [ackData, position, same.content, ackData], position⟩

theorem same_file_after (blockNumber : Nat) (left right : Stream UInt8)
    (same : SameFile left right) :
    match fileAfterAck blockNumber left with
    | none => fileAfterAck blockNumber right = none
    | some after => ∃ mirror, fileAfterAck blockNumber right = some mirror ∧
        SameFile after mirror := by
  obtain ⟨data, position⟩ := same_file_ack blockNumber left right same
  simp only [fileAfterAck, data, position]
  by_cases short : (ackData blockNumber left).length < 512
  · simp [short]
  · simp only [short, ↓reduceIte]
    exact ⟨_, rfl, same.content, rfl⟩

theorem mirrors_matched (fileSystem : FileSystem) (full alone next : Service)
    (request : Request) (replies : List Reply) (mirrors : Mirrors request.addr full alone)
    (allowed : Undisturbed full request)
    (taken : serve fileSystem full request = some (next, replies)) :
    ∃ after, serve fileSystem alone request = some (after, replies) ∧
      Mirrors request.addr next after := by
  have served := serve_served fileSystem full next request replies taken
  have registered := served_registered fileSystem full next request replies mirrors.registered served
  cases served with
  | missing addr request sock inBuf absent =>
      exact ⟨_, serve_missing fileSystem alone addr request sock absent, registered,
        fun _ file open_ => (nomatch open_), fun _ _ => rfl⟩
  | opens addr request sock inBuf content found =>
      refine ⟨_, serve_opens fileSystem alone addr request sock content found, registered,
        fun _ file open_ _ => ?_, fun _ unowned => ?_⟩
      · cases open_
        exact ⟨_, rfl, rfl, rfl⟩
      · exact absurd ⟨_, List.mem_cons_self, rfl, rfl⟩ (unowned _ rfl)
  | closed addr blockNumber inBuf unopened =>
      have absent : alone.globals.file = none :=
        mirrors.foreign allowed.1 fun file open_ => by simp [unopened] at open_
      exact ⟨_, serve_closed fileSystem alone addr blockNumber absent, registered,
        fun _ file open_ => (nomatch open_), fun _ _ => rfl⟩
  | reads addr blockNumber inBuf file current =>
      obtain ⟨mirror, open_, same⟩ := mirrors.own allowed.1 file current (allowed.2 file current)
      obtain ⟨data, position⟩ := same_file_ack blockNumber.toNat file mirror same
      have packet : ackPacket blockNumber mirror = ackPacket blockNumber file := by
        rw [ackPacket, data, ackPacket]
      have after_same := same_file_after blockNumber.toNat file mirror same
      refine ⟨_, packet ▸ serve_reads fileSystem alone addr blockNumber mirror open_, registered,
        fun _ after kept _ => ?_, fun _ unowned => ?_⟩
      · rw [show fileAfterAck blockNumber.toNat file = some after from kept] at after_same
        exact after_same
      · cases kept : fileAfterAck blockNumber.toNat file with
        | none =>
            rw [kept] at after_same
            exact after_same
        | some after =>
            obtain ⟨session, member, ident, owner⟩ := allowed.2 file current
            exact absurd ⟨session, member,
              ident.trans (file_after_ack _ file after kept).1.symm, owner⟩ (unowned after kept)

/-- A request of another client displaces this one, or finds it without an
open file; an acknowledgement of another client finds that client's file open
or none. In neither case is a file left open that this client could own. -/
theorem mirrors_silent (fileSystem : FileSystem) (addr : Address) (full alone next : Service)
    (request : Request) (replies : List Reply) (mirrors : Mirrors addr full alone)
    (other : request.addr ≠ addr) (allowed : Undisturbed full request)
    (taken : serve fileSystem full request = some (next, replies)) :
    Mirrors addr next alone ∧ replies.filter (Reply.concerns addr) = [] := by
  have served := serve_served fileSystem full next request replies taken
  have registered := served_registered fileSystem full next request replies mirrors.registered served
  have quiet : replies.filter (Reply.concerns addr) = [] := by
    cases served with
    | missing => rfl
    | opens | closed | reads => simpa [Reply.concerns, Request.addr] using other
  suffices state : addr ∉ next.displaced → alone.globals.file = none ∧
      ∀ file, next.globals.file = some file → ¬ OpenedFor addr file next.sessions from
    ⟨⟨registered, fun kept file open_ mine => absurd mine ((state kept).2 file open_),
      fun kept _ => (state kept).1⟩, quiet⟩
  intro kept
  cases served with
  | missing client =>
      obtain ⟨before, unowned⟩ := asked_not_displaced full client addr other kept
      exact ⟨mirrors.foreign before unowned, fun file open_ => nomatch open_⟩
  | opens client request sock inBuf content =>
      obtain ⟨before, unowned⟩ := asked_not_displaced full client addr other kept
      refine ⟨mirrors.foreign before unowned, fun file open_ mine => ?_⟩
      cases open_
      exact other (opened_for_new full mirrors.registered sock client addr content _ mine)
  | closed client blockNumber inBuf unopened =>
      exact ⟨mirrors.foreign kept fun file open_ => by simp [unopened] at open_,
        fun file open_ => nomatch open_⟩
  | reads client blockNumber inBuf file current =>
      have unowned : ∀ file, full.globals.file = some file →
          ¬ OpenedFor addr file full.sessions := fun file open_ mine => other
        (opened_for_unique full mirrors.registered file _ _ (allowed.2 file open_) mine)
      refine ⟨mirrors.foreign kept unowned, ?_⟩
      rintro after still ⟨session, member, ident, mine⟩
      exact unowned file current
        ⟨session, member, ident.trans (file_after_ack _ file after still).1, mine⟩

theorem answers_concerned (addr : Address) (replies : List Reply) :
    answersTo addr (replies.filter (Reply.concerns addr)) = answersTo addr replies := by
  unfold answersTo
  rw [List.filterMap_filter]
  apply List.filterMap_congr
  intro reply _
  cases reply with
  | opened => simp
  | answer other packet =>
      by_cases same : other = addr <;> simp [Reply.concerns, same]

def projectAddr (addr : Address) (requests : List Request) : List Request :=
  requests.filter fun request => decide (request.addr = addr)

theorem service_projects (fileSystem : FileSystem) (inBuf : InBuf) (requests : List Request)
    (addr : Address)
    (allowed : EveryStep (serve fileSystem) (startService inBuf) Undisturbed requests)
    (service : Service) (replies : List Reply)
    (taken : run (serve fileSystem) (startService inBuf) requests = some (service, replies)) :
    ∃ alone answers,
      run (serve fileSystem) (startService inBuf) (projectAddr addr requests) =
        some (alone, answers) ∧
      answersTo addr answers = answersTo addr replies := by
  obtain ⟨alone, answers, followed, -, same⟩ := run_projected (serve fileSystem)
    (fun request => decide (request.addr = addr)) (Reply.concerns addr) Undisturbed
    (Mirrors addr)
    (fun full alone request next replies mirrors allowed own taken => by
      obtain rfl : request.addr = addr := by simpa using own
      obtain ⟨after, moved, related⟩ :=
        mirrors_matched fileSystem full alone next request replies mirrors allowed taken
      exact ⟨after, replies, moved, related, rfl⟩)
    (fun full alone request next replies mirrors allowed other taken =>
      mirrors_silent fileSystem addr full alone next request replies mirrors
        (by simpa using other) allowed taken)
    (startService inBuf) (startService inBuf)
    ⟨start_registered inBuf, by simp [startService], fun _ _ => rfl⟩
    requests allowed service replies taken
  refine ⟨alone, answers, followed, ?_⟩
  rw [← answers_concerned addr answers, same, answers_concerned]

/-- A client that has the server to itself is never disturbed. -/
theorem single_client_undisturbed (fileSystem : FileSystem) (service : Service) (addr : Address)
    (present : addr ∉ service.displaced)
    (owned : ∀ file, service.globals.file = some file → OpenedFor addr file service.sessions)
    (requests : List Request) (all : ∀ request ∈ requests, request.addr = addr) :
    EveryStep (serve fileSystem) service Undisturbed requests := by
  have along := run_invariant (serve fileSystem) service (fun _ request => request.addr = addr)
    (fun service _ => addr ∉ service.displaced ∧
      ∀ file, service.globals.file = some file → OpenedFor addr file service.sessions)
    ⟨present, owned⟩
    (fun before past request after replies holds own taken => by
      have removed : addr ∉ (before.asked addr).displaced := by simp [Service.asked]
      cases serve_served fileSystem before after request replies taken with
      | missing client =>
          obtain rfl : client = addr := own
          exact ⟨removed, fun file open_ => nomatch open_⟩
      | closed => exact ⟨holds.1, fun file open_ => nomatch open_⟩
      | opens client =>
          obtain rfl : client = addr := own
          refine ⟨removed, fun file open_ => ?_⟩
          cases open_
          exact ⟨_, List.mem_cons_self, rfl, rfl⟩
      | reads other blockNumber inBuf old current =>
          refine ⟨holds.1, fun file open_ => ?_⟩
          obtain ⟨session, member, same, mine⟩ := holds.2 old current
          exact ⟨session, member, same.trans (file_after_ack _ old file open_).1.symm, mine⟩)
    requests (every_step_of_labels _ _ _ requests all)
  intro past request reached state outputs taken
  have here := along past ((List.prefix_append past [request]).trans reached) state outputs taken
  have own := all request (reached.subset (by simp))
  cases request with
  | rrq => trivial
  | ack client =>
      obtain rfl : client = addr := own
      exact here

/-! The disturbance itself: a request between a client's own request and its
acknowledgement decides what the acknowledgement is answered with. -/

section Disturbance
variable (fileSystem : FileSystem) (inBuf : InBuf) (mine theirs : Address)
  (own foreign : ReadRequest) (sock other : Fd) (blockNumber : UInt16) (content : Bytes)

theorem answer_undisturbed (found : fileSystem own.name = some content) :
    ∃ service,
      run (serve fileSystem) (startService inBuf) [.rrq mine own sock, .ack mine blockNumber] =
        some (service, [.opened mine own.name (firstSent sock mine content),
          .answer mine (ackPacket blockNumber ⟨0, content, (block 512 content 0).length⟩)]) ∧
      service.globals.file =
        fileAfterAck blockNumber.toNat ⟨0, content, (block 512 content 0).length⟩ ∧
      service.displaced = [] :=
  ⟨_, (run_cons ..).mpr ⟨_, _, _, serve_opens _ _ _ _ _ content found,
    (run_cons ..).mpr ⟨_, _, _, serve_reads _ _ _ _ _ rfl, rfl, rfl⟩, rfl⟩, rfl, rfl⟩

theorem answer_from_foreign_file (taken : Bytes) (found : fileSystem own.name = some content)
    (opened : fileSystem foreign.name = some taken) :
    ∃ service,
      run (serve fileSystem) (startService inBuf)
          [.rrq mine own sock, .rrq theirs foreign other, .ack mine blockNumber] =
        some (service, [.opened mine own.name (firstSent sock mine content),
          .opened theirs foreign.name (firstSent other theirs taken),
          .answer mine (ackPacket blockNumber ⟨1, taken, (block 512 taken 0).length⟩)]) :=
  ⟨_, (run_cons ..).mpr ⟨_, _, _, serve_opens _ _ _ _ _ content found,
    (run_cons ..).mpr ⟨_, _, _, serve_opens _ _ _ _ _ taken opened,
      (run_cons ..).mpr ⟨_, _, _, serve_reads _ _ _ _ _ rfl, rfl, rfl⟩, rfl⟩, rfl⟩⟩

theorem answer_lost (found : fileSystem own.name = some content)
    (absent : fileSystem foreign.name = none) :
    ∃ service,
      run (serve fileSystem) (startService inBuf)
          [.rrq mine own sock, .rrq theirs foreign other, .ack mine blockNumber] =
        some (service, [.opened mine own.name (firstSent sock mine content), .answer mine []]) :=
  ⟨_, (run_cons ..).mpr ⟨_, _, _, serve_opens _ _ _ _ _ content found,
    (run_cons ..).mpr ⟨_, _, _, serve_missing _ _ _ _ _ absent,
      (run_cons ..).mpr ⟨_, _, _, serve_closed _ _ _ _ rfl, rfl, rfl⟩, rfl⟩, rfl⟩⟩

end Disturbance

/-- Two files of 513 bytes each, named "a" and "b". -/
def twoFiles : FileSystem := fun name =>
  if name = [97] then some (List.replicate 513 65)
  else if name = [98] then some (List.replicate 513 66)
  else none

def requestA : ReadRequest := octetRequest 97 (by decide)
def requestB : ReadRequest := octetRequest 98 (by decide)
def requestMissing : ReadRequest := octetRequest 99 (by decide)

theorem ack_of_first_block (ident position : Nat) (byte : UInt8) :
    ackPacket 1 ⟨ident, List.replicate 513 byte, position⟩ = dataPacket 2 [byte] ∧
      fileAfterAck 1 ⟨ident, List.replicate 513 byte, position⟩ = none := by
  have data : ackData 1 ⟨ident, List.replicate 513 byte, position⟩ = [byte] := by
    rw [ackData, ackPosition, if_pos (by decide), List.drop_replicate, List.take_replicate]
    rfl
  exact ⟨by rw [ackPacket, show (1 : UInt16).toNat = 1 from rfl, data]; rfl,
    by rw [fileAfterAck, data]; rfl⟩

end Practise.TftpServer
