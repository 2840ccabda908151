import Practise.Clib

/-!
The request handlers of tftp/tftp_server.c. The file system is a parameter:
`fopen` of a name succeeds exactly when the name has a content. All handlers
share one global `FILE *file`; a session keeps the pointer in `pFile`, but no
handler ever reads it there, so a session only remembers which file it was.
Output buffers are lists here, as long as the packet in them. What is printed
is left out, and so is `send_error`, which does nothing.
-/
namespace Practise.TftpServer
open Clib

abbrev Fd := Int
abbrev Bytes := List UInt8
abbrev Address := List UInt8
abbrev FileSystem := Bytes → Option Bytes

def RRQ : Nat := 1
def DATA : Nat := 3
def ACK : Nat := 4

structure Session where
  sockFd : Fd
  pFile : Nat
  cliAddr : Address
  cliAddrLen : Nat
  deriving DecidableEq

/-- The global `file` and the number of files opened so far. -/
structure Globals where
  file : Option (Stream UInt8)
  opened : Nat
  deriving DecidableEq

/-- A datagram handed to `sendto`. -/
structure Sent where
  sockFd : Fd
  packet : Bytes
  addr : Address
  deriving DecidableEq

/-- The request buffer of `main`, which every datagram is received into. -/
structure InBuf where
  bytes : Bytes
  size : bytes.length = 512

/-- `recvfrom` overwrites the front of the buffer and leaves the rest as it was. -/
def InBuf.receive (inBuf : InBuf) (datagram : Bytes) : InBuf where
  bytes := datagram.take 512 ++ inBuf.bytes.drop datagram.length
  size := by
    have := inBuf.size
    simp only [List.length_append, List.length_take, List.length_drop]
    omega

def InBuf.byte (inBuf : InBuf) (index : Nat) : UInt8 := inBuf.bytes.getD index 0

def InBuf.opcode (inBuf : InBuf) : Nat := hostShort (inBuf.byte 0) (inBuf.byte 1)

/-- `char buf[512] = {0}` after `fread` has stored its data. -/
def fillBuf (data : Bytes) : Bytes := data ++ List.replicate (512 - data.length) 0

def makeData (blockNumber : Int) (srcDataBuf : Bytes) (dataLen : Nat) : Bytes :=
  networkShort DATA ++ networkShort (toShort blockNumber) ++ srcDataBuf.take dataLen

def createNewSession (sock : Fd) (file : Nat) (addr : Address) : Session where
  sockFd := sock
  pFile := file
  cliAddr := addr
  cliAddrLen := addr.length

/-- The two scans of `handle_RRQ`: file name and mode behind the opcode. There
is no result if one of them runs off the end of the buffer. -/
def parseRRQ (inBuf : InBuf) : Option (Bytes × Bytes) :=
  (scanString (inBuf.bytes.drop 2)).bind fun name =>
    (scanString name.2).map fun mode => (name.1, mode.1)

def fopen (fileSystem : FileSystem) (name : Bytes) (globals : Globals) : Globals :=
  match fileSystem name with
  -- A failed open still overwrites the global, whoever was reading from it.
  | none => { globals with file := none }
  | some content =>
      { file := some { ident := globals.opened, content := content, position := 0 }
        opened := globals.opened + 1 }

/-- `sock` is the descriptor that `socket` returns if a session is created. -/
def handleRRQ (fileSystem : FileSystem) (sock : Fd) (addr : Address) (inBuf : InBuf)
    (globals : Globals) : Option (Globals × Option (Session × Sent)) :=
  (parseRRQ inBuf).map fun names =>
    let globals := fopen fileSystem names.1 globals
    match globals.file with
    | none => (globals, none)
    | some file =>
        let read := file.fread 512
        let packet := makeData 1 (fillBuf read.1) read.1.length
        let session := createNewSession sock file.ident addr
        ({ globals with file := some read.2 },
          some (session, { sockFd := session.sockFd, packet := packet, addr := session.cliAddr }))

/-- The case of a read request falls through into `handle_WRQ`, which does
nothing; every other opcode is only reported. -/
def handleNewConnection (fileSystem : FileSystem) (sock : Fd) (addr : Address) (inBuf : InBuf)
    (globals : Globals) : Option (Globals × Option (Session × Sent)) :=
  if inBuf.opcode = RRQ then handleRRQ fileSystem sock addr inBuf globals
  else some (globals, none)

/-- The packet is the front part of `out_buf` whose length is returned. -/
def handleACK (inBuf : InBuf) (globals : Globals) : Globals × Bytes :=
  match globals.file with
  | none => (globals, [])
  | some file =>
      -- The seek is made with the signed number and its result is not checked.
      let blockNumber := toShort (hostShort (inBuf.byte 2) (inBuf.byte 3))
      let read := (file.fseek (512 * blockNumber)).fread 512
      let file := if read.1.length < 512 then none else some read.2
      ({ globals with file := file }, makeData (blockNumber + 1) (fillBuf read.1) read.1.length)

/-- DATA and ERROR are only reported, like every other opcode but ACK. -/
def handleReq (inBuf : InBuf) (globals : Globals) : Globals × Bytes :=
  if inBuf.opcode = ACK then handleACK inBuf globals else (globals, [])

/-! Requests as a client encodes them. -/

structure ReadRequest where
  name : Bytes
  mode : Bytes
  nameClean : 0 ∉ name
  modeClean : 0 ∉ mode
  fits : name.length + mode.length + 4 ≤ 512

def ReadRequest.datagram (request : ReadRequest) : Bytes :=
  networkShort RRQ ++ request.name ++ 0 :: request.mode ++ [0]

def ackDatagram (blockNumber : Nat) : Bytes := networkShort ACK ++ networkShort blockNumber

/-- A DATA packet with its header fields. -/
def dataPacket (blockNumber : Int) (data : Bytes) : Bytes :=
  networkShort DATA ++ networkShort blockNumber ++ data

theorem make_data_fill (blockNumber : Int) (data : Bytes) :
    makeData blockNumber (fillBuf data) data.length = dataPacket blockNumber data := by
  simp [makeData, dataPacket, fillBuf, network_short_to_short]

theorem receive_append (inBuf : InBuf) (datagram : Bytes) (fits : datagram.length ≤ 512) :
    ∃ rest, (inBuf.receive datagram).bytes = datagram ++ rest :=
  ⟨inBuf.bytes.drop datagram.length, by simp [InBuf.receive, List.take_of_length_le fits]⟩

theorem receive_byte (inBuf : InBuf) (datagram : Bytes) (index : Nat)
    (fits : datagram.length ≤ 512) (inside : index < datagram.length) :
    (inBuf.receive datagram).byte index = datagram.getD index 0 := by
  obtain ⟨rest, bytes⟩ := receive_append inBuf datagram fits
  rw [InBuf.byte, bytes, List.getD_eq_getElem?_getD, List.getD_eq_getElem?_getD,
    List.getElem?_append_left inside]

theorem receive_opcode (inBuf : InBuf) (opcode : Nat) (body : Bytes)
    (fits : body.length + 2 ≤ 512) (small : opcode < 65536) :
    (inBuf.receive (networkShort opcode ++ body)).opcode = opcode := by
  have length : (networkShort opcode ++ body).length = body.length + 2 := by
    simp [networkShort]
  rw [InBuf.opcode, receive_byte _ _ 0 (by omega) (by omega),
    receive_byte _ _ 1 (by omega) (by omega)]
  simp only [networkShort, List.cons_append, List.getD_cons_zero, List.getD_cons_succ]
  rw [host_short_network, to_ushort_natural opcode small]

/-- A request is understood whatever older datagrams left in the buffer. -/
theorem receive_request (inBuf : InBuf) (request : ReadRequest) :
    (inBuf.receive request.datagram).opcode = RRQ ∧
      parseRRQ (inBuf.receive request.datagram) = some (request.name, request.mode) := by
  have fits := request.fits
  have length : request.datagram.length = request.name.length + request.mode.length + 4 := by
    simp [ReadRequest.datagram, networkShort]
    omega
  constructor
  · rw [ReadRequest.datagram, List.append_assoc, List.append_assoc]
    exact receive_opcode inBuf RRQ _ (by simp; omega) (by decide)
  · obtain ⟨rest, bytes⟩ := receive_append inBuf request.datagram (by omega)
    have behind : (inBuf.receive request.datagram).bytes.drop 2 =
        request.name ++ 0 :: (request.mode ++ 0 :: rest) := by
      rw [bytes]
      simp [ReadRequest.datagram, networkShort]
    rw [parseRRQ, behind, scan_string_exact _ _ request.nameClean]
    simp [scan_string_exact _ _ request.modeClean]

theorem receive_ack (inBuf : InBuf) (blockNumber : Nat) (small : blockNumber < 65536) :
    (inBuf.receive (ackDatagram blockNumber)).opcode = ACK ∧
      hostShort ((inBuf.receive (ackDatagram blockNumber)).byte 2)
        ((inBuf.receive (ackDatagram blockNumber)).byte 3) = blockNumber := by
  constructor
  · exact receive_opcode inBuf ACK _ (by simp [networkShort]) (by decide)
  · rw [receive_byte _ _ 2 (by simp [ackDatagram, networkShort]) (by simp [ackDatagram, networkShort]),
      receive_byte _ _ 3 (by simp [ackDatagram, networkShort]) (by simp [ackDatagram, networkShort])]
    simp only [ackDatagram, networkShort, List.cons_append, List.nil_append, List.getD_cons_zero,
      List.getD_cons_succ]
    rw [host_short_network, to_ushort_natural blockNumber small]

def InBuf.zeroed : InBuf := ⟨List.replicate 512 0, List.length_replicate⟩

/-- A request for the file with this one-letter name, in mode "octet". -/
def octetRequest (letter : UInt8) (visible : letter ≠ 0) : ReadRequest where
  name := [letter]
  mode := [111, 99, 116, 101, 116]
  nameClean := by simpa using visible.symm
  modeClean := by decide
  fits := by simp

/-! What the handlers do with these requests. The rest of the development
uses these two equations and never looks into the handlers again. -/

theorem handle_request (fileSystem : FileSystem) (sock : Fd) (addr : Address) (inBuf : InBuf)
    (request : ReadRequest) (globals : Globals) :
    handleNewConnection fileSystem sock addr (inBuf.receive request.datagram) globals =
      match fileSystem request.name with
      | none => some ({ globals with file := none }, none)
      | some content =>
          let first := block 512 content 0
          some ({ file := some { ident := globals.opened, content := content,
                                 position := first.length }
                  opened := globals.opened + 1 },
            some (createNewSession sock globals.opened addr,
              { sockFd := sock, packet := dataPacket 1 first, addr := addr })) := by
  obtain ⟨opcode, parsed⟩ := receive_request inBuf request
  rw [handleNewConnection, if_pos opcode, handleRRQ, parsed]
  cases found : fileSystem request.name with
  | none => simp [fopen, found]
  | some content =>
      have first : (content.drop 0).take 512 = block 512 content 0 := rfl
      simp only [fopen, found, Stream.fread, make_data_fill, createNewSession, first,
        Nat.zero_add, Option.map_some]

/-- Where an acknowledgement makes the handler read: the seek of a number from
32768 on is negative and fails. -/
def ackPosition (blockNumber : Nat) (file : Stream UInt8) : Nat :=
  if blockNumber < 32768 then 512 * blockNumber else file.position

def ackData (blockNumber : Nat) (file : Stream UInt8) : Bytes :=
  (file.content.drop (ackPosition blockNumber file)).take 512

def fileAfterAck (blockNumber : Nat) (file : Stream UInt8) : Option (Stream UInt8) :=
  let data := ackData blockNumber file
  if data.length < 512 then none
  else some { file with position := ackPosition blockNumber file + data.length }

theorem fseek_short (blockNumber : Nat) (small : blockNumber < 65536) (file : Stream UInt8) :
    file.fseek (512 * toShort blockNumber) =
      { file with position := ackPosition blockNumber file } := by
  by_cases low : blockNumber < 32768
  · rw [to_short_small blockNumber low, Stream.fseek, if_neg (by omega), ackPosition, if_pos low]
    congr 1
  · rw [to_short_large blockNumber (by omega) small, Stream.fseek, if_pos (by omega),
      ackPosition, if_neg low]

theorem data_packet_succ (blockNumber : Int) (data : Bytes) :
    dataPacket (toShort blockNumber + 1) data = dataPacket (blockNumber + 1) data := by
  simp only [dataPacket, networkShort, to_ushort_succ_short]

theorem handle_ack (inBuf : InBuf) (blockNumber : Nat) (small : blockNumber < 65536)
    (globals : Globals) :
    handleReq (inBuf.receive (ackDatagram blockNumber)) globals =
      match globals.file with
      | none => (globals, [])
      | some file =>
          ({ globals with file := fileAfterAck blockNumber file },
            dataPacket (blockNumber + 1) (ackData blockNumber file)) := by
  obtain ⟨opcode, number⟩ := receive_ack inBuf blockNumber small
  rw [handleReq, if_pos opcode, handleACK, number]
  cases globals.file with
  | none => rfl
  | some file =>
      simp only [fseek_short blockNumber small, Stream.fread, make_data_fill, data_packet_succ]
      rfl

end Practise.TftpServer
