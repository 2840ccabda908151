import Practise.TftpTransfer

/-!
The same handlers on the arrays that the source declares: 512 bytes for
`in_buf`, `file_name`, `mode`, `buf` and the `out_buf` of `handle_RRQ`, 600 for
the `out_buf` of `main`. Every access is checked, and the indices of `in_buf`
that deciding on a new connection reads are recorded. Without a fault the
handlers do what their models on lists do.
-/
namespace Practise.TftpServer
open Clib

def WRQ : Nat := 2

inductive Fault where
  | inBuf
  | fileName
  | mode
  | buf
  | outBuf
  deriving DecidableEq

/-- The end of a scan loop: where `pIndex` stands, the copied text, and the
indices of `in_buf` that were read. -/
structure Scan where
  cursor : Nat
  text : Buffer UInt8 512
  reads : List Nat

/-- One `while(*pIndex != '\0') *pFile++ = *pIndex++;`. The loop has no bound
of its own: it ends at a zero byte or leaves an array. -/
def copyString (inBuf : InBuf) (fault : Fault) (cursor target : Nat) (text : Buffer UInt8 512) :
    Except Fault Scan :=
  if _inside : cursor < 512 then
    let byte := inBuf.byte cursor
    if byte = 0 then .ok ⟨cursor, text, [cursor]⟩
    else
      (text.store fault target byte).bind fun text =>
        (copyString inBuf fault (cursor + 1) (target + 1) text).map fun scan =>
          { scan with reads := cursor :: scan.reads }
  else .error .inBuf
termination_by 512 - cursor

structure Parsed where
  fileName : Buffer UInt8 512
  mode : Buffer UInt8 512
  reads : List Nat

/-- Both loops of `handle_RRQ`; between them `pIndex` steps over the zero byte. -/
def parseNames (inBuf : InBuf) : Except Fault Parsed :=
  (copyString inBuf .fileName 2 0 (Buffer.filled 512 0)).bind fun name =>
    (copyString inBuf .mode (name.cursor + 1) 0 (Buffer.filled 512 0)).map fun mode =>
      ⟨name.text, mode.text, name.reads ++ mode.reads⟩

inductive Branch where
  | readRequest
  | writeRequest
  | unhandled
  deriving DecidableEq

/-- What a datagram is taken for: the branch, and in `handle_RRQ` the arrays
`file_name` and `mode` as they are when `fopen` is called. -/
structure Reading where
  branch : Branch
  names : Option (Buffer UInt8 512 × Buffer UInt8 512)
  reads : List Nat

def readConnection (inBuf : InBuf) : Except Fault Reading :=
  if inBuf.opcode = RRQ then
    (parseNames inBuf).map fun parsed =>
      ⟨.readRequest, some (parsed.fileName, parsed.mode), 0 :: 1 :: parsed.reads⟩
  else .ok ⟨if inBuf.opcode = WRQ then .writeRequest else .unhandled, none, [0, 1]⟩

/-- `make_data` with its three copies; the result is the array and the length. -/
def makeDataInto {capacity : Nat} (dstBuf : Buffer UInt8 capacity) (blockNumber : Int)
    (srcDataBuf : Buffer UInt8 512) (dataLen : Nat) :
    Except Fault (Buffer UInt8 capacity × Nat) :=
  (dstBuf.memcpy .outBuf 0 (networkShort DATA)).bind fun dstBuf =>
    (dstBuf.memcpy .outBuf 2 (networkShort (toShort blockNumber))).bind fun dstBuf =>
      (dstBuf.memcpy .outBuf 4 (srcDataBuf.items.take dataLen)).map fun dstBuf =>
        (dstBuf, 4 + dataLen)

/-- `handle_RRQ` from its call of `fopen` on. -/
def sendFirstBlock (fileSystem : FileSystem) (sock : Fd) (addr : Address)
    (fileName : Buffer UInt8 512) (globals : Globals) :
    Except Fault (Globals × Option (Session × Sent)) :=
  match fileName.cString with
  | none => .error .fileName
  | some name =>
      let globals := fopen fileSystem name globals
      match globals.file with
      | none => .ok (globals, none)
      | some file =>
          let read := file.fread 512
          ((Buffer.filled 512 0).memcpy .buf 0 read.1).bind fun buf =>
            (makeDataInto (Buffer.filled 512 0) 1 buf read.1.length).map fun made =>
              let session := createNewSession sock file.ident addr
              ({ globals with file := some read.2 },
                some (session, { sockFd := session.sockFd
                                 packet := made.1.items.take made.2
                                 addr := session.cliAddr }))

def handleNewConnectionChecked (fileSystem : FileSystem) (sock : Fd) (addr : Address)
    (inBuf : InBuf) (globals : Globals) : Except Fault (Globals × Option (Session × Sent)) :=
  (readConnection inBuf).bind fun reading =>
    match reading.names with
    | none => .ok (globals, none)
    | some names => sendFirstBlock fileSystem sock addr names.1 globals

def handleACKChecked (inBuf : InBuf) (outBuf : Buffer UInt8 600) (globals : Globals) :
    Except Fault (Globals × Buffer UInt8 600 × Nat) :=
  match globals.file with
  | none => .ok (globals, outBuf, 0)
  | some file =>
      let blockNumber := toShort (hostShort (inBuf.byte 2) (inBuf.byte 3))
      let read := (file.fseek (512 * blockNumber)).fread 512
      ((Buffer.filled 512 0).memcpy .buf 0 read.1).bind fun buf =>
        let file := if read.1.length < 512 then none else some read.2
        (makeDataInto outBuf (blockNumber + 1) buf read.1.length).map fun made =>
          ({ globals with file := file }, made.1, made.2)

def handleReqChecked (inBuf : InBuf) (outBuf : Buffer UInt8 600) (globals : Globals) :
    Except Fault (Globals × Buffer UInt8 600 × Nat) :=
  if inBuf.opcode = ACK then handleACKChecked inBuf outBuf globals else .ok (globals, outBuf, 0)

/-! The scan loops. -/

theorem byte_of_drop (inBuf : InBuf) (cursor : Nat) (byte : UInt8) (ahead : Bytes)
    (split : inBuf.bytes.drop cursor = byte :: ahead) :
    cursor < 512 ∧ inBuf.byte cursor = byte ∧ inBuf.bytes.drop (cursor + 1) = ahead := by
  have size := inBuf.size
  have length := congrArg List.length split
  rw [List.length_drop, List.length_cons] at length
  refine ⟨by omega, ?_, ?_⟩
  · have first : (inBuf.bytes.drop cursor)[0]? = some byte := by rw [split]; rfl
    rw [List.getElem?_drop, Nat.add_zero] at first
    rw [InBuf.byte, List.getD_eq_getElem?_getD, first, Option.getD_some]
  · rw [← List.drop_drop, split, List.drop_one, List.tail_cons]

theorem drop_behind_string (inBuf : InBuf) (cursor : Nat) (text rest : Bytes)
    (split : inBuf.bytes.drop cursor = text ++ 0 :: rest) :
    inBuf.bytes.drop (cursor + text.length + 1) = rest := by
  rw [Nat.add_assoc, ← List.drop_drop, split, ← List.drop_drop, List.drop_left, List.drop_one,
    List.tail_cons]

theorem copy_string_none (inBuf : InBuf) (fault : Fault) (cursor : Nat) (text : Buffer UInt8 512)
    (copied ahead : Bytes) (split : inBuf.bytes.drop cursor = ahead) (holds : text.Holds copied)
    (room : copied.length + 2 ≤ cursor) (open_ : scanString ahead = none) :
    copyString inBuf fault cursor copied.length text = .error .inBuf := by
  induction ahead generalizing cursor text copied with
  | nil =>
      have outside : ¬ cursor < 512 := by
        rw [List.drop_eq_nil_iff, inBuf.size] at split
        omega
      rw [copyString, dif_neg outside]
  | cons byte ahead ih =>
      obtain ⟨inside, here, behind⟩ := byte_of_drop inBuf cursor byte ahead split
      rw [scanString] at open_
      by_cases zero : byte = 0
      · rw [if_pos zero] at open_
        exact absurd open_ (by simp)
      · rw [if_neg zero, Option.map_eq_none_iff] at open_
        obtain ⟨after, stored, extended⟩ := store_next text fault copied byte holds (by omega)
        have rest := ih (cursor + 1) after (copied ++ [byte]) behind extended
          (by simp; omega) open_
        rw [List.length_append, List.length_singleton] at rest
        rw [copyString, dif_pos inside]
        simp only [here, zero, ↓reduceIte, stored, Except.bind, rest, Except.map]

theorem copy_string_found (inBuf : InBuf) (fault : Fault) (cursor : Nat) (text : Buffer UInt8 512)
    (copied found rest : Bytes) (split : inBuf.bytes.drop cursor = found ++ 0 :: rest)
    (clean : 0 ∉ found) (holds : text.Holds copied) (room : copied.length + 2 ≤ cursor) :
    ∃ after, after.Holds (copied ++ found) ∧
      copyString inBuf fault cursor copied.length text =
        .ok ⟨cursor + found.length, after, List.range' cursor (found.length + 1)⟩ := by
  induction found generalizing cursor text copied with
  | nil =>
      obtain ⟨inside, here, -⟩ := byte_of_drop inBuf cursor 0 rest split
      refine ⟨text, by rwa [List.append_nil], ?_⟩
      rw [copyString, dif_pos inside]
      simp only [here, ↓reduceIte]
      rfl
  | cons byte found ih =>
      obtain ⟨inside, here, behind⟩ := byte_of_drop inBuf cursor byte (found ++ 0 :: rest) split
      have visible : byte ≠ 0 := fun same => clean (by simp [same])
      have cleanTail : 0 ∉ found := fun member => clean (List.mem_cons_of_mem byte member)
      obtain ⟨next, stored, extended⟩ := store_next text fault copied byte holds (by omega)
      obtain ⟨after, whole, copies⟩ := ih (cursor + 1) next (copied ++ [byte]) behind cleanTail
        extended (by simp; omega)
      refine ⟨after, by rwa [List.append_assoc, List.singleton_append] at whole, ?_⟩
      rw [List.length_append, List.length_singleton] at copies
      rw [copyString, dif_pos inside]
      simp only [here, visible, ↓reduceIte, stored, Except.bind, copies, Except.map,
        List.length_cons, List.range'_succ, Nat.add_assoc, Nat.add_comm 1]

theorem parse_names_found (inBuf : InBuf) (name mode rest : Bytes)
    (split : inBuf.bytes.drop 2 = name ++ 0 :: (mode ++ 0 :: rest))
    (nameClean : 0 ∉ name) (modeClean : 0 ∉ mode) :
    ∃ parsed, parseNames inBuf = .ok parsed ∧ parsed.fileName.Holds name ∧
      parsed.mode.Holds mode ∧ parsed.reads = List.range' 2 (name.length + mode.length + 2) := by
  obtain ⟨fileName, nameHolds, first⟩ := copy_string_found inBuf .fileName 2 (Buffer.filled 512 0)
    [] name _ split nameClean filled_holds (Nat.le_refl _)
  have behind := drop_behind_string inBuf 2 name _ split
  obtain ⟨modeText, modeHolds, second⟩ := copy_string_found inBuf .mode (2 + name.length + 1)
    (Buffer.filled 512 0) [] mode rest behind modeClean filled_holds
    (by rw [List.length_nil]; omega)
  refine ⟨⟨fileName, modeText, List.range' 2 (name.length + 1) ++
    List.range' (2 + name.length + 1) (mode.length + 1)⟩, ?_, nameHolds, modeHolds, ?_⟩
  · rw [List.length_nil] at first second
    simp only [parseNames, first, Except.bind, second, Except.map]
  · have joined : name.length + 1 + (mode.length + 1) = name.length + mode.length + 2 := by omega
    rw [Nat.add_assoc 2, List.range'_append_1, joined]

theorem parse_names_none (inBuf : InBuf) (outside : parseRRQ inBuf = none) :
    parseNames inBuf = .error .inBuf := by
  rw [parseRRQ] at outside
  cases first : scanString (inBuf.bytes.drop 2) with
  | none =>
      have fault := copy_string_none inBuf .fileName 2 (Buffer.filled 512 0) [] _ rfl filled_holds
        (Nat.le_refl _) first
      rw [List.length_nil] at fault
      simp only [parseNames, fault, Except.bind]
  | some scanned =>
      obtain ⟨name, memory⟩ := scanned
      obtain ⟨split, clean⟩ := scan_string_found _ name memory first
      obtain ⟨fileName, -, copied⟩ := copy_string_found inBuf .fileName 2 (Buffer.filled 512 0)
        [] name _ split clean filled_holds (Nat.le_refl _)
      have behind := drop_behind_string inBuf 2 name memory split
      rw [first, Option.bind_some, Option.map_eq_none_iff] at outside
      have fault := copy_string_none inBuf .mode (2 + name.length + 1) (Buffer.filled 512 0) [] _
        behind filled_holds (by rw [List.length_nil]; omega) outside
      rw [List.length_nil] at copied fault
      simp only [parseNames, copied, Except.bind, fault, Except.map]

theorem parse_names_some (inBuf : InBuf) (name mode : Bytes)
    (read : parseRRQ inBuf = some (name, mode)) :
    ∃ parsed, parseNames inBuf = .ok parsed ∧ parsed.fileName.cString = some name ∧
      parsed.mode.cString = some mode := by
  obtain ⟨⟨first, memory⟩, scanned, later⟩ := Option.bind_eq_some_iff.mp read
  obtain ⟨⟨second, rest⟩, again, same⟩ := Option.map_eq_some_iff.mp later
  obtain ⟨rfl, rfl⟩ := Prod.mk.inj same
  obtain ⟨split, nameClean⟩ := scan_string_found _ first memory scanned
  obtain ⟨behind, modeClean⟩ := scan_string_found _ second rest again
  simp only at behind
  rw [behind] at split
  obtain ⟨parsed, parses, nameHolds, modeHolds, -⟩ :=
    parse_names_found inBuf first second rest split nameClean modeClean
  have size := inBuf.size
  have length := congrArg List.length split
  simp only [List.length_drop, List.length_append, List.length_cons] at length
  exact ⟨parsed, parses, holds_cString _ first nameHolds nameClean (by omega),
    holds_cString _ second modeHolds modeClean (by omega)⟩

/-! The packet in the output array. -/

theorem make_data_into {capacity : Nat} (dstBuf : Buffer UInt8 capacity) (blockNumber : Int)
    (srcDataBuf : Buffer UInt8 512) (data : Bytes) (starts : srcDataBuf.Starts data) :
    (4 + data.length ≤ capacity ∧ ∃ after,
        makeDataInto dstBuf blockNumber srcDataBuf data.length = .ok (after, 4 + data.length) ∧
        after.items.take (4 + data.length) = dataPacket blockNumber data) ∨
      (capacity < 4 + data.length ∧
        makeDataInto dstBuf blockNumber srcDataBuf data.length = .error .outBuf) := by
  have source : srcDataBuf.items.take data.length = data := starts
  have two : ∀ value, (networkShort value).length = 2 := fun _ => rfl
  rw [makeDataInto, source]
  rcases memcpy_behind dstBuf Fault.outBuf [] (networkShort DATA) 0 rfl rfl with
    ⟨_, first, opcode, starts⟩ | ⟨full, fault⟩
  · rcases memcpy_behind first Fault.outBuf _ (networkShort (toShort blockNumber)) 2 starts rfl with
      ⟨_, second, number, starts⟩ | ⟨full, fault⟩
    · rcases memcpy_behind second Fault.outBuf _ data 4 starts rfl with
        ⟨fits, third, body, starts⟩ | ⟨full, fault⟩
      · refine Or.inl ⟨fits, third, ?_, ?_⟩
        · simp only [opcode, number, body, Except.bind, Except.map]
        · have length : (dataPacket blockNumber data).length = 4 + data.length := by
            simp only [dataPacket, List.length_append, two]
          rw [network_short_to_short] at starts
          rw [← length]
          exact starts
      · refine Or.inr ⟨full, ?_⟩
        simp only [opcode, number, fault, Except.bind, Except.map]
    · refine Or.inr ⟨by rw [two] at full; omega, ?_⟩
      simp only [opcode, fault, Except.bind]
  · refine Or.inr ⟨by rw [two] at full; omega, ?_⟩
    simp only [fault, Except.bind]

theorem fread_into (data : Bytes) (most : data.length ≤ 512) :
    ∃ buf, (Buffer.filled 512 0).memcpy Fault.buf 0 data = .ok buf ∧ buf.Starts data := by
  rcases memcpy_behind (Buffer.filled 512 0) Fault.buf [] data 0 rfl rfl with
    ⟨_, buf, copied, starts⟩ | ⟨full, _⟩
  · exact ⟨buf, copied, starts⟩
  · omega

def FirstBlockOverflows (fileSystem : FileSystem) (inBuf : InBuf) : Prop :=
  inBuf.opcode = RRQ ∧ ∃ name mode content, parseRRQ inBuf = some (name, mode) ∧
    fileSystem name = some content ∧ 508 < content.length

theorem send_first_block (fileSystem : FileSystem) (sock : Fd) (addr : Address) (inBuf : InBuf)
    (globals : Globals) (fileName : Buffer UInt8 512) (name mode : Bytes)
    (parsed : parseRRQ inBuf = some (name, mode)) (text : fileName.cString = some name) :
    (∃ content, fileSystem name = some content ∧ 508 < content.length ∧
        sendFirstBlock fileSystem sock addr fileName globals = .error .outBuf) ∨
      ((∀ content, fileSystem name = some content → content.length ≤ 508) ∧
        ∃ result, sendFirstBlock fileSystem sock addr fileName globals = .ok result ∧
          handleRRQ fileSystem sock addr inBuf globals = some result) := by
  cases found : fileSystem name with
  | none =>
      refine Or.inr ⟨fun _ impossible => (nomatch impossible), ({ globals with file := none }, none),
        ?_, ?_⟩
      · simp only [sendFirstBlock, text, fopen, found]
      · simp only [handleRRQ, parsed, Option.map_some, fopen, found]
  | some content =>
      have most : (content.take 512).length ≤ 512 := List.length_take_le _ _
      obtain ⟨buf, stored, starts⟩ := fread_into (content.take 512) most
      rcases make_data_into (Buffer.filled 512 0) 1 buf (content.take 512) starts with
        ⟨fits, after, made, packet⟩ | ⟨full, fault⟩
      · refine Or.inr ⟨?_, (⟨some ⟨globals.opened, content, 0 + (content.take 512).length⟩,
            globals.opened + 1⟩, some (createNewSession sock globals.opened addr,
              ⟨sock, dataPacket 1 (content.take 512), addr⟩)), ?_, ?_⟩
        · intro other same
          cases same
          rw [List.length_take] at fits
          omega
        · simp only [sendFirstBlock, text, fopen, found, Stream.fread, List.drop_zero, stored,
            Except.bind, made, Except.map, packet, createNewSession]
        · simp only [handleRRQ, parsed, Option.map_some, fopen, found, Stream.fread, List.drop_zero,
            make_data_fill, createNewSession]
      · refine Or.inl ⟨content, rfl, ?_, ?_⟩
        · rw [List.length_take] at full
          omega
        · simp only [sendFirstBlock, text, fopen, found, Stream.fread, List.drop_zero, stored,
            Except.bind, fault, Except.map]

/-- The handler on arrays refines the one on lists. It fails only where that
one has no result, or where the first packet is too long for `out_buf`. -/
theorem checked_connection_cases (fileSystem : FileSystem) (sock : Fd) (addr : Address)
    (inBuf : InBuf) (globals : Globals) :
    (handleNewConnection fileSystem sock addr inBuf globals = none ∧
        ¬ FirstBlockOverflows fileSystem inBuf ∧
        handleNewConnectionChecked fileSystem sock addr inBuf globals = .error .inBuf) ∨
      (FirstBlockOverflows fileSystem inBuf ∧
        handleNewConnectionChecked fileSystem sock addr inBuf globals = .error .outBuf) ∨
      (¬ FirstBlockOverflows fileSystem inBuf ∧
        ∃ result, handleNewConnection fileSystem sock addr inBuf globals = some result ∧
          handleNewConnectionChecked fileSystem sock addr inBuf globals = .ok result) := by
  by_cases request : inBuf.opcode = RRQ
  · rw [handleNewConnectionChecked, readConnection, if_pos request, handleNewConnection,
      if_pos request]
    cases read : parseRRQ inBuf with
    | none =>
        refine Or.inl ⟨?_, ?_, ?_⟩
        · rw [handleRRQ, read, Option.map_none]
        · rintro ⟨-, name, mode, content, again, -⟩
          rw [read] at again
          exact absurd again (by simp)
        · simp only [parse_names_none inBuf read, Except.map, Except.bind]
    | some names =>
        obtain ⟨name, mode⟩ := names
        obtain ⟨parsed, parses, text, -⟩ := parse_names_some inBuf name mode read
        rcases send_first_block fileSystem sock addr inBuf globals parsed.fileName name mode read
          text with ⟨content, found, long, fault⟩ | ⟨short, result, sent, handled⟩
        · refine Or.inr (Or.inl ⟨⟨request, name, mode, content, read, found, long⟩, ?_⟩)
          simp only [parses, Except.map, Except.bind, fault]
        · refine Or.inr (Or.inr ⟨?_, result, handled, ?_⟩)
          · rintro ⟨-, other, _, content, again, found, long⟩
            rw [read] at again
            obtain ⟨rfl, rfl⟩ := Prod.mk.inj (Option.some.inj again)
            have := short content found
            omega
          · simp only [parses, Except.map, Except.bind, sent]
  · rw [handleNewConnectionChecked, readConnection, if_neg request, handleNewConnection,
      if_neg request]
    refine Or.inr (Or.inr ⟨fun overflows => request overflows.1, _, rfl, ?_⟩)
    simp only [Except.bind]

theorem checked_ack (inBuf : InBuf) (outBuf : Buffer UInt8 600) (globals : Globals) :
    ∃ after, handleACKChecked inBuf outBuf globals =
        .ok ((handleACK inBuf globals).1, after, (handleACK inBuf globals).2.length) ∧
      after.items.take (handleACK inBuf globals).2.length = (handleACK inBuf globals).2 := by
  unfold handleACKChecked handleACK
  cases globals.file with
  | none => exact ⟨outBuf, rfl, rfl⟩
  | some file =>
      dsimp only
      -- The block number and what is read are the same on both sides.
      generalize toShort (hostShort (inBuf.byte 2) (inBuf.byte 3)) = number
      obtain ⟨read, isRead⟩ : ∃ read, read = (file.fseek (512 * number)).fread 512 := ⟨_, rfl⟩
      have most : read.1.length ≤ 512 := by
        rw [isRead]
        exact List.length_take_le _ _
      have length : (dataPacket (number + 1) read.1).length = 4 + read.1.length := by
        simp only [dataPacket, networkShort, List.length_append, List.length_cons, List.length_nil]
      obtain ⟨buf, stored, starts⟩ := fread_into read.1 most
      rcases make_data_into outBuf (number + 1) buf read.1 starts with
        ⟨fits, after, made, packet⟩ | ⟨full, _⟩
      · refine ⟨after, ?_, ?_⟩
        · rw [← isRead, stored, make_data_fill, length]
          simp only [Except.bind, made, Except.map]
        · rw [← isRead, make_data_fill, length, packet]
      · omega

theorem checked_request (inBuf : InBuf) (outBuf : Buffer UInt8 600) (globals : Globals) :
    ∃ after, handleReqChecked inBuf outBuf globals =
        .ok ((handleReq inBuf globals).1, after, (handleReq inBuf globals).2.length) ∧
      after.items.take (handleReq inBuf globals).2.length = (handleReq inBuf globals).2 := by
  by_cases acknowledged : inBuf.opcode = ACK
  · rw [handleReqChecked, if_pos acknowledged, handleReq, if_pos acknowledged]
    exact checked_ack inBuf outBuf globals
  · rw [handleReqChecked, if_neg acknowledged, handleReq, if_neg acknowledged]
    exact ⟨outBuf, rfl, rfl⟩

/-- No packet leaves its array, exactly if no request is for a file of more
than 508 bytes: `handle_RRQ` has 512 bytes for 4 bytes of header and up to 512
of data. -/
theorem packets_fit_exact (fileSystem : FileSystem) (sock : Fd) (addr : Address) (inBuf : InBuf)
    (outBuf : Buffer UInt8 600) (globals : Globals) :
    (handleNewConnectionChecked fileSystem sock addr inBuf globals ≠ .error .outBuf ∧
        handleReqChecked inBuf outBuf globals ≠ .error .outBuf) ↔
      ¬ (inBuf.opcode = RRQ ∧ ∃ name mode content, parseRRQ inBuf = some (name, mode) ∧
        fileSystem name = some content ∧ 508 < content.length) := by
  change _ ↔ ¬ FirstBlockOverflows fileSystem inBuf
  have acknowledgements : handleReqChecked inBuf outBuf globals ≠ .error .outBuf := by
    obtain ⟨after, handled, -⟩ := checked_request inBuf outBuf globals
    rw [handled]
    exact fun impossible => (nomatch impossible)
  rcases checked_connection_cases fileSystem sock addr inBuf globals with
    ⟨-, fits, fault⟩ | ⟨overflows, fault⟩ | ⟨fits, result, -, handled⟩
  · rw [fault]
    exact ⟨fun _ => fits, fun _ => ⟨by decide, acknowledgements⟩⟩
  · exact ⟨fun ⟨inside, _⟩ => absurd fault inside, fun fits => absurd overflows fits⟩
  · rw [handled]
    exact ⟨fun _ => fits, fun _ => ⟨fun impossible => (nomatch impossible), acknowledgements⟩⟩

theorem packet_of_509_bytes_overflows :
    handleNewConnectionChecked (fun _ => some (List.replicate 509 7)) 4 [127]
      (InBuf.zeroed.receive (octetRequest 97 (by decide)).datagram) ⟨none, 0⟩ =
        .error .outBuf := by
  obtain ⟨opcode, parsed⟩ := receive_request InBuf.zeroed (octetRequest 97 (by decide))
  have long : 508 < (List.replicate 509 (7 : UInt8)).length := by
    rw [List.length_replicate]
    decide
  have overflows : FirstBlockOverflows (fun _ => some (List.replicate 509 7))
      (InBuf.zeroed.receive (octetRequest 97 (by decide)).datagram) :=
    ⟨opcode, _, _, _, parsed, rfl, long⟩
  rcases checked_connection_cases (fun _ => some (List.replicate 509 7)) 4 [127]
    (InBuf.zeroed.receive (octetRequest 97 (by decide)).datagram) ⟨none, 0⟩ with
    ⟨-, fits, -⟩ | ⟨-, fault⟩ | ⟨fits, -⟩
  · exact absurd overflows fits
  · exact fault
  · exact absurd overflows fits

/-! What is read of `in_buf`. -/

theorem read_connection_found (inBuf : InBuf) (name mode rest : Bytes)
    (nameClean : 0 ∉ name) (modeClean : 0 ∉ mode)
    (begins : inBuf.bytes = networkShort RRQ ++ name ++ 0 :: mode ++ 0 :: rest) :
    inBuf.opcode = RRQ ∧
      ∃ fileName modeText, fileName.Holds name ∧ modeText.Holds mode ∧
        readConnection inBuf = .ok ⟨.readRequest, some (fileName, modeText),
          List.range (name.length + mode.length + 4)⟩ := by
  have opcode : inBuf.opcode = RRQ := by
    rw [InBuf.opcode, InBuf.byte, InBuf.byte, begins]
    simp only [networkShort, List.cons_append, List.getD_cons_zero, List.getD_cons_succ]
    rw [host_short_network]
    rfl
  have behind : inBuf.bytes.drop 2 = name ++ 0 :: (mode ++ 0 :: rest) := by
    rw [begins]
    simp [networkShort]
  obtain ⟨parsed, parses, nameHolds, modeHolds, reads⟩ :=
    parse_names_found inBuf name mode rest behind nameClean modeClean
  refine ⟨opcode, parsed.fileName, parsed.mode, nameHolds, modeHolds, ?_⟩
  have all : List.range (name.length + mode.length + 4) =
      0 :: 1 :: List.range' 2 (name.length + mode.length + 2) := List.range_eq_range'.trans rfl
  rw [readConnection, if_pos opcode, parses, Except.map, reads, all]

/-- Parsing inverts the encoding of a read request, whatever follows it in
`in_buf`: both strings arrive whole, nothing is stored outside an array, and
nothing behind the last zero byte is read. -/
theorem read_request_parsed (inBuf : InBuf) (name mode rest : Bytes)
    (nameClean : 0 ∉ name) (modeClean : 0 ∉ mode)
    (begins : inBuf.bytes = [0, 1] ++ name ++ 0 :: mode ++ 0 :: rest) :
    ∃ reading fileName modeText, readConnection inBuf = .ok reading ∧
      reading.branch = .readRequest ∧ reading.names = some (fileName, modeText) ∧
      fileName.cString = some name ∧ modeText.cString = some mode ∧
      (∀ index ∈ reading.reads, index < name.length + mode.length + 4) ∧
      ∀ fileSystem sock addr globals,
        handleNewConnection fileSystem sock addr inBuf globals =
          handleRRQ fileSystem sock addr inBuf globals ∧
        handleNewConnectionChecked fileSystem sock addr inBuf globals =
          sendFirstBlock fileSystem sock addr fileName globals := by
  obtain ⟨opcode, fileName, modeText, nameHolds, modeHolds, reads⟩ :=
    read_connection_found inBuf name mode rest nameClean modeClean begins
  have fits : name.length + mode.length + 4 ≤ 512 := by
    have size := inBuf.size
    rw [begins] at size
    simp only [List.length_append, List.length_cons, List.length_nil] at size
    omega
  refine ⟨_, fileName, modeText, reads, rfl, rfl, ?_, ?_, ?_, ?_⟩
  · exact holds_cString fileName name nameHolds nameClean (by omega)
  · exact holds_cString modeText mode modeHolds modeClean (by omega)
  · intro index member
    exact List.mem_range.mp member
  · intro fileSystem sock addr globals
    constructor
    · rw [handleNewConnection, if_pos opcode]
    · rw [handleNewConnectionChecked, reads, Except.bind]

theorem octet_request_parsed :
    ∃ reading fileName modeText,
      readConnection ((InBuf.zeroed.receive [7, 7, 7, 7, 7, 7, 7, 7, 7, 7, 7, 7]).receive
        (octetRequest 97 (by decide)).datagram) = .ok reading ∧
      reading.names = some (fileName, modeText) ∧ fileName.cString = some [97] ∧
      modeText.cString = some [111, 99, 116, 101, 116] := by
  obtain ⟨rest, bytes⟩ := receive_append
    (InBuf.zeroed.receive [7, 7, 7, 7, 7, 7, 7, 7, 7, 7, 7, 7])
    (octetRequest 97 (by decide)).datagram (by decide)
  obtain ⟨reading, fileName, modeText, reads, -, names, name, mode, -, -⟩ :=
    read_request_parsed _ [97] [111, 99, 116, 101, 116] rest (by decide) (by decide) bytes
  exact ⟨reading, fileName, modeText, reads, names, name, mode⟩

def HoldsRequest (datagram : Bytes) : Prop :=
  ∃ name mode rest, 0 ∉ name ∧ 0 ∉ mode ∧
    datagram = networkShort RRQ ++ name ++ 0 :: mode ++ 0 :: rest

/-- Whatever older datagrams left in `in_buf`, the same branch is taken with
the same names, only bytes of the datagram are read, and no file is opened for
a datagram without a whole read request. -/
def DecidedByDatagram (datagram : Bytes) : Prop :=
  ∀ left right : InBuf, ∃ first second,
    readConnection (left.receive datagram) = .ok first ∧
    readConnection (right.receive datagram) = .ok second ∧
    first.branch = second.branch ∧ first.names = second.names ∧
    (∀ index ∈ first.reads, index < datagram.length) ∧
    (∀ index ∈ second.reads, index < datagram.length) ∧
    (¬ HoldsRequest datagram → first.names = none ∧ second.names = none)

theorem read_connection_always (inBuf : InBuf) (reading : Reading)
    (reads : readConnection inBuf = .ok reading) :
    1 ∈ reading.reads ∧ (inBuf.opcode = RRQ → reading.names ≠ none) := by
  rw [readConnection] at reads
  by_cases request : inBuf.opcode = RRQ
  · rw [if_pos request] at reads
    cases parses : parseNames inBuf with
    | error fault =>
        rw [parses] at reads
        exact nomatch reads
    | ok parsed =>
        rw [parses] at reads
        cases reads
        exact ⟨by simp, fun _ => Option.some_ne_none _⟩
  · rw [if_neg request] at reads
    cases reads
    exact ⟨by simp, fun impossible => absurd impossible request⟩

theorem receive_packet_opcode (inBuf : InBuf) (datagram : Bytes) (fits : datagram.length ≤ 512)
    (header : 2 ≤ datagram.length) :
    (inBuf.receive datagram).opcode = packetOpcode datagram := by
  rw [InBuf.opcode, receive_byte inBuf datagram 0 fits (by omega),
    receive_byte inBuf datagram 1 fits (by omega), packetOpcode]

theorem holds_request_decided (datagram : Bytes) (fits : datagram.length ≤ 512)
    (request : HoldsRequest datagram) : DecidedByDatagram datagram := by
  intro left right
  obtain ⟨name, mode, rest, nameClean, modeClean, whole⟩ := request
  have found : ∀ inBuf : InBuf, ∃ fileName modeText, fileName.Holds name ∧ modeText.Holds mode ∧
      readConnection (inBuf.receive datagram) = .ok ⟨.readRequest, some (fileName, modeText),
        List.range (name.length + mode.length + 4)⟩ := by
    intro inBuf
    obtain ⟨behind, bytes⟩ := receive_append inBuf datagram fits
    refine (read_connection_found _ name mode (rest ++ behind) nameClean modeClean ?_).2
    rw [bytes, whole]
    simp
  have inside : ∀ index ∈ List.range (name.length + mode.length + 4), index < datagram.length := by
    intro index member
    have below := List.mem_range.mp member
    rw [whole]
    simp only [networkShort, List.length_append, List.length_cons, List.length_nil]
    omega
  obtain ⟨fileName, modeText, nameHolds, modeHolds, first⟩ := found left
  obtain ⟨otherName, otherMode, otherNameHolds, otherModeHolds, second⟩ := found right
  refine ⟨_, _, first, second, rfl, ?_, inside, inside, ?_⟩
  · rw [holds_unique fileName otherName name nameHolds otherNameHolds,
      holds_unique modeText otherMode mode modeHolds otherModeHolds]
  · intro missing
    exact absurd ⟨name, mode, rest, nameClean, modeClean, whole⟩ missing

/-- What becomes of a datagram depends on the datagram alone, exactly if it has
an opcode and, being a read request, both its zero bytes. -/
theorem decided_by_datagram_exact (datagram : Bytes) (fits : datagram.length ≤ 512) :
    DecidedByDatagram datagram ↔
      2 ≤ datagram.length ∧ (packetOpcode datagram = RRQ → HoldsRequest datagram) := by
  constructor
  · intro decided
    obtain ⟨first, second, reads, -, -, -, inside, -, rejected⟩ :=
      decided InBuf.zeroed InBuf.zeroed
    obtain ⟨opcodeRead, named⟩ := read_connection_always _ first reads
    have header : 2 ≤ datagram.length := inside 1 opcodeRead
    refine ⟨header, fun request => ?_⟩
    by_contra missing
    rw [receive_packet_opcode InBuf.zeroed datagram fits header] at named
    exact named request (rejected missing).1
  · rintro ⟨header, whole⟩
    by_cases request : packetOpcode datagram = RRQ
    · exact holds_request_decided datagram fits (whole request)
    · intro left right
      have other : ∀ inBuf : InBuf, readConnection (inBuf.receive datagram) =
          .ok ⟨if packetOpcode datagram = WRQ then .writeRequest else .unhandled, none, [0, 1]⟩ := by
        intro inBuf
        rw [readConnection, receive_packet_opcode inBuf datagram fits header, if_neg request]
      have inside : ∀ index ∈ [0, 1], index < datagram.length := by
        intro index member
        simp only [List.mem_cons, List.not_mem_nil, or_false] at member
        omega
      exact ⟨_, _, other left, other right, rfl, rfl, inside, inside, fun _ => ⟨rfl, rfl⟩⟩

theorem octet_request_decided :
    DecidedByDatagram [0, 1, 97, 0, 111, 99, 116, 101, 116, 0, 9] :=
  (decided_by_datagram_exact [0, 1, 97, 0, 111, 99, 116, 101, 116, 0, 9] (by decide)).mpr
    ⟨by decide, fun _ => ⟨[97], [111, 99, 116, 101, 116], [9], by decide, by decide, by decide⟩⟩

/-- A read request "a" without zero bytes gets its name from what the datagram
before it left in `in_buf`. -/
theorem truncated_request_undecided :
    ¬ DecidedByDatagram [0, 1, 97] ∧
      parseRRQ (InBuf.zeroed.receive [0, 1, 97]) = some ([97], []) ∧
      parseRRQ ((InBuf.zeroed.receive [7, 7, 7, 98, 0, 99]).receive [0, 1, 97]) =
        some ([97, 98], [99]) := by
  refine ⟨fun decided => ?_, by decide +kernel, by decide +kernel⟩
  obtain ⟨first, second, reads, -, -, -, -, -, rejected⟩ := decided InBuf.zeroed InBuf.zeroed
  have missing : ¬ HoldsRequest [0, 1, 97] := by
    rintro ⟨name, mode, rest, -, -, whole⟩
    have length := congrArg List.length whole
    simp only [networkShort, List.length_append, List.length_cons, List.length_nil] at length
    omega
  exact (read_connection_always _ first reads).2 (by decide) (rejected missing).1

end Practise.TftpServer
