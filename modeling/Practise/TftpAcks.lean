import Mathlib.Data.List.Induction
import Practise.TftpTransfer

/-! One client that sends acknowledgements with any 16-bit numbers, in any
order, behind its read request. An acknowledgement below 32768 is answered with
the block it names. From 32768 on the seek fails, and the answer is the block
at the file position, which the earlier acknowledgements have left there. -/
namespace Practise.TftpServer
open Clib

structure Serving where
  inBuf : InBuf
  globals : Globals

def Serving.request (serving : Serving) (fileSystem : FileSystem) (sock : Fd) (addr : Address)
    (request : ReadRequest) : Option (Serving × Bytes) :=
  let inBuf := serving.inBuf.receive request.datagram
  (handleNewConnection fileSystem sock addr inBuf serving.globals).bind fun handled =>
    handled.2.map fun answered => (⟨inBuf, handled.1⟩, answered.2.packet)

def Serving.ack (serving : Serving) (number : UInt16) : Serving where
  inBuf := serving.inBuf.receive (ackDatagram number.toNat)
  globals := (handleReq (serving.inBuf.receive (ackDatagram number.toNat)) serving.globals).1

/-- The packet in `out_buf` after an acknowledgement; none is sent if it is empty. -/
def Serving.answer (serving : Serving) (number : UInt16) : Bytes :=
  (handleReq (serving.inBuf.receive (ackDatagram number.toNat)) serving.globals).2

def Serving.acks (serving : Serving) (numbers : List UInt16) : Serving :=
  numbers.foldl Serving.ack serving

theorem acks_snoc (serving : Serving) (past : List UInt16) (number : UInt16) :
    serving.acks (past ++ [number]) = (serving.acks past).ack number := by
  simp [Serving.acks]

/-! One acknowledgement. -/

theorem ack_closed (serving : Serving) (number : UInt16)
    (closed : serving.globals.file = none) :
    serving.answer number = [] ∧ (serving.ack number).globals.file = none := by
  have handled := handle_ack serving.inBuf number.toNat number.toNat_lt serving.globals
  rw [closed] at handled
  constructor
  · rw [Serving.answer, handled]
  · rw [Serving.ack, handled, closed]

theorem ack_open (serving : Serving) (number : UInt16) (file : Stream UInt8)
    (opened : serving.globals.file = some file) :
    serving.answer number = dataPacket (number.toNat + 1 : Nat) (ackData number.toNat file) ∧
      (serving.ack number).globals.file = fileAfterAck number.toNat file := by
  have handled := handle_ack serving.inBuf number.toNat number.toNat_lt serving.globals
  rw [opened] at handled
  constructor
  · rw [Serving.answer, handled]
    rfl
  · rw [Serving.ack, handled]

theorem answered_open (serving : Serving) (number : UInt16)
    (answered : serving.answer number ≠ []) : ∃ file, serving.globals.file = some file := by
  cases opened : serving.globals.file with
  | none => exact absurd (ack_closed serving number opened).1 answered
  | some file => exact ⟨file, rfl⟩

theorem short_answer_closes (serving : Serving) (number : UInt16)
    (answered : serving.answer number ≠ [])
    (short : (payload (serving.answer number)).length < 512) :
    (serving.ack number).globals.file = none := by
  obtain ⟨file, opened⟩ := answered_open serving number answered
  obtain ⟨answer, after⟩ := ack_open serving number file opened
  rw [answer, packet_payload] at short
  rw [after, fileAfterAck, if_pos short]

theorem full_answer_open (serving : Serving) (number : UInt16)
    (full : (payload (serving.answer number)).length = 512) :
    (∃ file, serving.globals.file = some file) ∧
      ∃ file, (serving.ack number).globals.file = some file := by
  have answered : serving.answer number ≠ [] := by
    intro empty
    rw [empty] at full
    exact absurd full (by decide)
  obtain ⟨file, opened⟩ := answered_open serving number answered
  obtain ⟨answer, after⟩ := ack_open serving number file opened
  rw [answer, packet_payload] at full
  exact ⟨⟨file, opened⟩, _, by rw [after, fileAfterAck, if_neg (by omega)]⟩

theorem acks_closed (serving : Serving) (numbers : List UInt16)
    (closed : serving.globals.file = none) : (serving.acks numbers).globals.file = none := by
  induction numbers generalizing serving with
  | nil => exact closed
  | cons number rest ih =>
      apply ih
      exact (ack_closed serving number closed).2

/-! Where the file position is. -/

/-- The block at the file position once the read request and then these
acknowledgements have been handled. -/
def nextBlock (numbers : List UInt16) : Nat :=
  numbers.foldl (fun next number => (if number.toNat < 32768 then number.toNat else next) + 1) 1

def readBlock (numbers : List UInt16) (number : UInt16) : Nat :=
  if number.toNat < 32768 then number.toNat else nextBlock numbers

theorem next_block_snoc (past : List UInt16) (number : UInt16) :
    nextBlock (past ++ [number]) = readBlock past number + 1 := by
  simp [nextBlock, readBlock]

/-- While the file is open, its position is the start of the next block, or
its end if the first block was short. -/
def Follows (content : Bytes) (numbers : List UInt16) (serving : Serving) : Prop :=
  ∀ file, serving.globals.file = some file →
    file.content = content ∧ file.position = min (512 * nextBlock numbers) content.length

theorem follows_data (content : Bytes) (past : List UInt16) (number : UInt16) (serving : Serving)
    (file : Stream UInt8) (follows : Follows content past serving)
    (opened : serving.globals.file = some file) :
    ackData number.toNat file = block 512 content (readBlock past number) := by
  obtain ⟨same, position⟩ := follows file opened
  rw [ackData, same, block, ackPosition, readBlock]
  by_cases low : number.toNat < 32768
  · rw [if_pos low, if_pos low]
  · rw [if_neg low, if_neg low, position]
    -- A position cut at the end reads as little as one behind it.
    rcases Nat.le_total (512 * nextBlock past) content.length with inside | outside
    · rw [Nat.min_eq_left inside]
    · rw [Nat.min_eq_right outside, List.drop_length, List.drop_of_length_le outside]

theorem ack_follows (content : Bytes) (past : List UInt16) (number : UInt16) (serving : Serving)
    (follows : Follows content past serving) :
    Follows content (past ++ [number]) (serving.ack number) := by
  intro file later
  cases opened : serving.globals.file with
  | none =>
      rw [(ack_closed serving number opened).2] at later
      exact absurd later (by simp)
  | some before =>
      have data := follows_data content past number serving before follows opened
      obtain ⟨same, position⟩ := follows before opened
      rw [(ack_open serving number before opened).2, fileAfterAck, data] at later
      by_cases short : (block 512 content (readBlock past number)).length < 512
      · simp [short] at later
      · simp only [short, ↓reduceIte, Option.some.injEq] at later
        subst later
        refine ⟨same, ?_⟩
        rw [block_length] at short
        simp only [ackPosition, position, block_length, next_block_snoc]
        -- A full block was read, so it did not start at the cut end.
        by_cases low : number.toNat < 32768
        · simp only [readBlock, low, ↓reduceIte] at short ⊢
          omega
        · simp only [readBlock, low, ↓reduceIte] at short ⊢
          omega

theorem acks_follow (content : Bytes) (start : Serving) (numbers : List UInt16)
    (begun : Follows content [] start) : Follows content numbers (start.acks numbers) := by
  induction numbers using List.reverseRecOn with
  | nil => exact begun
  | append_singleton past number ih =>
      rw [acks_snoc]
      exact ack_follows content past number _ ih

theorem request_starts (serving : Serving) (fileSystem : FileSystem) (sock : Fd) (addr : Address)
    (request : ReadRequest) (content : Bytes) (found : fileSystem request.name = some content) :
    ∃ start packet, serving.request fileSystem sock addr request = some (start, packet) ∧
      packet = dataPacket 1 (block 512 content 0) ∧ start.globals.file ≠ none ∧
      Follows content [] start := by
  have handled := handle_request fileSystem sock addr serving.inBuf request serving.globals
  rw [found] at handled
  refine ⟨⟨serving.inBuf.receive request.datagram,
    some ⟨serving.globals.opened, content, (block 512 content 0).length⟩,
    serving.globals.opened + 1⟩, _, ?_, rfl, ?_, ?_⟩
  · simp only [Serving.request, handled, Option.bind_some, Option.map_some]
  · exact Option.some_ne_none _
  · rintro file ⟨⟩
    exact ⟨rfl, block_length 512 content 0⟩

theorem acks_answer (content : Bytes) (start : Serving) (numbers : List UInt16) (number : UInt16)
    (begun : Follows content [] start)
    (opened : (start.acks numbers).globals.file ≠ none) :
    (start.acks numbers).answer number =
      dataPacket (number.toNat + 1 : Nat) (block 512 content (readBlock numbers number)) := by
  obtain ⟨file, opened⟩ := Option.ne_none_iff_exists'.mp opened
  rw [(ack_open _ number file opened).1,
    follows_data content numbers number _ file (acks_follow content start numbers begun) opened]

/-- While the file is open, an acknowledgement is answered with the block it
names exactly if its number is below 32768 or the block at the file position
happens to be the same. -/
theorem ack_addresses_block_exact (serving : Serving) (fileSystem : FileSystem) (sock : Fd)
    (addr : Address) (request : ReadRequest) (content : Bytes)
    (found : fileSystem request.name = some content) :
    ∃ start packet, serving.request fileSystem sock addr request = some (start, packet) ∧
      ∀ numbers number, (start.acks numbers).globals.file ≠ none →
        ∃ answer, answer = (start.acks numbers).answer number ∧
          ((packetOpcode answer = DATA ∧ packetNumber answer = (number.toNat + 1) % 65536 ∧
              payload answer = block 512 content number.toNat) ↔
            number.toNat < 32768 ∨
              block 512 content (nextBlock numbers) = block 512 content number.toNat) := by
  obtain ⟨start, packet, answered, -, -, begun⟩ :=
    request_starts serving fileSystem sock addr request content found
  refine ⟨start, packet, answered, ?_⟩
  intro numbers number opened
  refine ⟨_, rfl, ?_⟩
  rw [acks_answer content start numbers number begun opened,
    packet_opcode, packet_number_wraps, packet_payload, readBlock]
  by_cases low : number.toNat < 32768
  · simp [low]
  · simp [low]

theorem ack_one_addresses_second_block :
    ∃ start packet,
      Serving.request ⟨InBuf.zeroed, none, 0⟩ (fun _ => some (List.replicate 513 7)) 4 [127]
        (octetRequest 97 (by decide)) = some (start, packet) ∧
      payload (start.answer 1) = block 512 (List.replicate 513 7) 1 := by
  obtain ⟨start, packet, answered, -, opened, -⟩ := request_starts ⟨InBuf.zeroed, none, 0⟩
    (fun _ => some (List.replicate 513 7)) 4 [127] (octetRequest 97 (by decide)) _ rfl
  obtain ⟨same, first, again, exact⟩ := ack_addresses_block_exact ⟨InBuf.zeroed, none, 0⟩
    (fun _ => some (List.replicate 513 7)) 4 [127] (octetRequest 97 (by decide)) _ rfl
  obtain ⟨rfl, rfl⟩ := Prod.mk.inj (Option.some.inj (again.symm.trans answered))
  obtain ⟨answer, sent, holds⟩ := exact [] 1 opened
  rw [sent] at holds
  exact ⟨same, first, answered, (holds.mpr (Or.inl (by decide))).2.2⟩

theorem ack_32768_reads_second_block :
    ∃ start packet,
      Serving.request ⟨InBuf.zeroed, none, 0⟩ (fun _ => some (List.replicate 513 7)) 4 [127]
        (octetRequest 97 (by decide)) = some (start, packet) ∧
      start.globals.file ≠ none ∧ payload (start.answer 32768) = [7] ∧
      block 512 (List.replicate 513 (7 : UInt8)) 32768 = [] := by
  obtain ⟨start, packet, answered, -, opened, begun⟩ := request_starts ⟨InBuf.zeroed, none, 0⟩
    (fun _ => some (List.replicate 513 7)) 4 [127] (octetRequest 97 (by decide)) _ rfl
  have sent := acks_answer (List.replicate 513 7) start [] 32768 begun opened
  have read : readBlock [] 32768 = 1 := by decide
  rw [read, block_replicate] at sent
  refine ⟨start, packet, answered, opened, ?_, block_replicate 512 513 32768 7⟩
  exact (congrArg payload sent).trans (packet_payload _ _)

/-! Repeated acknowledgements. -/

theorem repeat_full (content : Bytes) (past : List UInt16) (number : UInt16) (serving : Serving)
    (follows : Follows content past serving) (low : number.toNat < 32768)
    (full : (payload (serving.answer number)).length = 512) :
    (serving.ack number).answer number = serving.answer number := by
  -- The file is still open, and the number alone decides what is read again.
  obtain ⟨⟨file, opened⟩, next, after⟩ := full_answer_open serving number full
  rw [(ack_open _ number next after).1, (ack_open serving number file opened).1,
    follows_data content past number serving file follows opened,
    follows_data content (past ++ [number]) number _ next
      (ack_follows content past number serving follows) after,
    readBlock, readBlock, if_pos low, if_pos low]

theorem repeat_short (serving : Serving) (number : UInt16) (answered : serving.answer number ≠ [])
    (notFull : (payload (serving.answer number)).length ≠ 512) :
    (payload (serving.answer number)).length < 512 ∧ (serving.ack number).globals.file = none ∧
      (serving.ack number).answer number = [] := by
  obtain ⟨file, opened⟩ := answered_open serving number answered
  have short : (payload (serving.answer number)).length < 512 := by
    rw [(ack_open serving number file opened).1, packet_payload] at notFull ⊢
    have most : (ackData number.toNat file).length ≤ 512 := List.length_take_le _ _
    omega
  have closed := short_answer_closes serving number answered short
  exact ⟨short, closed, (ack_closed _ number closed).1⟩

/-- Repeating an acknowledgement below 32768 repeats a full packet. A short
packet ends the transfer: the file is closed, and the repetition is not
answered. -/
theorem repeated_ack_answer (serving : Serving) (fileSystem : FileSystem) (sock : Fd)
    (addr : Address) (request : ReadRequest) (content : Bytes)
    (found : fileSystem request.name = some content) :
    ∃ start packet, serving.request fileSystem sock addr request = some (start, packet) ∧
      ∀ numbers number, number.toNat < 32768 →
        ∃ reached answer, reached = start.acks numbers ∧ answer = reached.answer number ∧
          (answer ≠ [] → (payload answer).length = 512 →
            (reached.ack number).answer number = answer) ∧
          (answer ≠ [] → (payload answer).length ≠ 512 →
            (payload answer).length < 512 ∧ (reached.ack number).globals.file = none ∧
              (reached.ack number).answer number = []) := by
  obtain ⟨start, packet, answered, -, -, begun⟩ :=
    request_starts serving fileSystem sock addr request content found
  refine ⟨start, packet, answered, ?_⟩
  intro numbers number low
  refine ⟨_, _, rfl, rfl, ?_, ?_⟩
  · intro _ full
    exact repeat_full content numbers number _ (acks_follow content start numbers begun) low full
  · exact repeat_short _ number

theorem full_block_repeated :
    ∃ start packet,
      Serving.request ⟨InBuf.zeroed, none, 0⟩ (fun _ => some (List.replicate 512 7)) 4 [127]
        (octetRequest 97 (by decide)) = some (start, packet) ∧
      start.answer 0 = dataPacket 1 (List.replicate 512 7) ∧
      (start.ack 0).answer 0 = start.answer 0 := by
  obtain ⟨start, packet, answered, -, opened, begun⟩ := request_starts ⟨InBuf.zeroed, none, 0⟩
    (fun _ => some (List.replicate 512 7)) 4 [127] (octetRequest 97 (by decide)) _ rfl
  obtain ⟨same, first, again, repeats⟩ := repeated_ack_answer ⟨InBuf.zeroed, none, 0⟩
    (fun _ => some (List.replicate 512 7)) 4 [127] (octetRequest 97 (by decide)) _ rfl
  obtain ⟨rfl, rfl⟩ := Prod.mk.inj (Option.some.inj (again.symm.trans answered))
  have sent : same.answer 0 = dataPacket 1 (List.replicate 512 7) :=
    (acks_answer (List.replicate 512 7) same [] 0 begun opened).trans
      (congrArg (dataPacket 1) (block_replicate 512 512 0 7))
  obtain ⟨reached, answer, isReached, isAnswer, repeated, -⟩ := repeats [] 0 (by decide)
  rw [isAnswer, isReached] at repeated
  refine ⟨same, first, answered, sent, repeated ?_ ?_⟩
  · intro empty
    exact data_packet_ne_nil 1 (List.replicate 512 7) (sent.symm.trans empty)
  · exact (congrArg (fun packet => (payload packet).length) sent).trans
      ((congrArg List.length (packet_payload 1 _)).trans List.length_replicate)

/-- The last packet of a file of 1025 bytes cannot be asked for again, and an
acknowledgement whose seek fails walks on through the file. -/
theorem last_block_not_repeated :
    ∃ start packet,
      Serving.request ⟨InBuf.zeroed, none, 0⟩ (fun _ => some (List.replicate 1025 7)) 4 [127]
        (octetRequest 97 (by decide)) = some (start, packet) ∧
      start.answer 2 = dataPacket 3 [7] ∧ (start.ack 2).answer 2 = [] ∧
      (payload (start.answer 32768)).length = 512 ∧
      payload ((start.ack 32768).answer 32768) = [7] := by
  obtain ⟨start, packet, answered, -, opened, begun⟩ := request_starts ⟨InBuf.zeroed, none, 0⟩
    (fun _ => some (List.replicate 1025 7)) 4 [127] (octetRequest 97 (by decide)) _ rfl
  have last : start.answer 2 = dataPacket 3 [7] :=
    (acks_answer (List.replicate 1025 7) start [] 2 begun opened).trans
      (congrArg (dataPacket 3) (block_replicate 512 1025 2 7))
  have quiet : (start.ack 2).answer 2 = [] := by
    refine (repeat_short start 2 ?_ ?_).2.2
    · rw [last]
      decide
    · rw [last]
      decide
  have read : readBlock [] 32768 = 1 ∧ readBlock [32768] 32768 = 2 := by decide
  have first : (payload (start.answer 32768)).length = 512 := by
    have sent := acks_answer (List.replicate 1025 7) start [] 32768 begun opened
    rw [read.1, block_replicate] at sent
    exact (congrArg (fun packet => (payload packet).length) sent).trans
      ((congrArg List.length (packet_payload _ _)).trans List.length_replicate)
  obtain ⟨next, after⟩ := (full_answer_open start 32768 first).2
  have second := acks_answer (List.replicate 1025 7) start [32768] 32768 begun
    (fun closed => absurd (after.symm.trans closed) (Option.some_ne_none next))
  rw [read.2, block_replicate] at second
  exact ⟨start, packet, answered, last, quiet, first,
    (congrArg payload second).trans (packet_payload _ _)⟩

/-! The end of a transfer. -/

/-- What is to hold behind a packet: if it is short, the file is closed from
here on and no acknowledgement with the packet's number is answered. -/
def EndsTransfer (serving : Serving) (packet : Bytes) (later : List UInt16) : Prop :=
  (payload packet).length < 512 →
    (∀ past, past <+: later → (serving.acks past).globals.file = none) ∧
    ∀ past number, past ++ [number] <+: later → number.toNat = packetNumber packet →
      (serving.acks past).answer number = []

theorem closed_ends (serving : Serving) (packet : Bytes) (later : List UInt16)
    (closed : serving.globals.file = none) : EndsTransfer serving packet later := by
  intro _
  constructor
  · intro past _
    exact acks_closed serving past closed
  · intro past number _ _
    exact (ack_closed _ number (acks_closed serving past closed)).1

theorem answer_ends (serving : Serving) (number : UInt16) (later : List UInt16)
    (answered : serving.answer number ≠ []) :
    EndsTransfer (serving.ack number) (serving.answer number) later := by
  intro short
  exact closed_ends _ _ later (short_answer_closes serving number answered short) short

/-- Along every run of one read request and any acknowledgements the short
block ends the transfer, exactly if it is not the first one: `handle_RRQ` does
not close the file. -/
theorem short_block_ends_exact (serving : Serving) (fileSystem : FileSystem) (sock : Fd)
    (addr : Address) (request : ReadRequest) (content : Bytes)
    (found : fileSystem request.name = some content) :
    ∃ start packet, serving.request fileSystem sock addr request = some (start, packet) ∧
      ∀ numbers,
        (EndsTransfer start packet numbers ∧
          ∀ past number later, numbers = past ++ number :: later →
            (start.acks past).answer number ≠ [] →
            EndsTransfer ((start.acks past).ack number) ((start.acks past).answer number) later) ↔
        512 ≤ content.length := by
  obtain ⟨start, packet, answered, first, opened, -⟩ :=
    request_starts serving fileSystem sock addr request content found
  refine ⟨start, packet, answered, fun numbers => ?_⟩
  have length : (payload packet).length = min 512 content.length := by
    rw [first, packet_payload, block_length]
    rfl
  constructor
  · rintro ⟨ends, -⟩
    by_contra small
    exact opened ((ends (by omega)).1 [] (List.nil_prefix))
  · intro large
    constructor
    · intro short
      omega
    · intro past number later _ sent
      exact answer_ends _ number later sent

/-- A file of 513 bytes ends with its second packet, which is short: afterwards
the file is closed, and neither a repeated nor a further acknowledgement counts. -/
theorem short_block_ends_second :
    ∃ start packet,
      Serving.request ⟨InBuf.zeroed, none, 0⟩ (fun _ => some (List.replicate 513 7)) 4 [127]
        (octetRequest 97 (by decide)) = some (start, packet) ∧
      start.answer 1 = dataPacket 2 [7] ∧
      EndsTransfer (start.ack 1) (start.answer 1) [2, 1] ∧
      (start.ack 1).globals.file = none := by
  obtain ⟨start, packet, answered, exact⟩ := short_block_ends_exact ⟨InBuf.zeroed, none, 0⟩
    (fun _ => some (List.replicate 513 7)) 4 [127] (octetRequest 97 (by decide)) _ rfl
  obtain ⟨again, other, same, -, opened, begun⟩ := request_starts ⟨InBuf.zeroed, none, 0⟩
    (fun _ => some (List.replicate 513 7)) 4 [127] (octetRequest 97 (by decide)) _ rfl
  obtain ⟨rfl, rfl⟩ := Prod.mk.inj (Option.some.inj (same.symm.trans answered))
  have large : 512 ≤ (List.replicate 513 (7 : UInt8)).length := by
    rw [List.length_replicate]
    decide
  have second : again.answer 1 = dataPacket 2 [7] := by
    have read := acks_answer (List.replicate 513 7) again [] 1 begun opened
    have last : block 512 (List.replicate 513 (7 : UInt8)) (readBlock [] 1) = [7] := by
      decide +kernel
    rw [last] at read
    exact read
  have ends : EndsTransfer (again.ack 1) (again.answer 1) [2, 1] :=
    ((exact [1, 2, 1]).mpr large).2 [] 1 [2, 1] rfl
      (fun none => absurd (second.symm.trans none) (by decide))
  have short : (payload (again.answer 1)).length < 512 := by
    rw [second]
    decide
  have closed : (again.ack 1).globals.file = none := (ends short).1 [] List.nil_prefix
  exact ⟨again, other, answered, second, ends, closed⟩

/-- A file of one byte is sent with one short packet, after which the file is
still open and the acknowledgement of that packet is answered. -/
theorem first_short_block_answered :
    ∃ start packet,
      Serving.request ⟨InBuf.zeroed, none, 0⟩ (fun _ => some [7]) 4 [127]
        (octetRequest 97 (by decide)) = some (start, packet) ∧
      packet = dataPacket 1 [7] ∧ packetNumber packet = 1 ∧ start.globals.file ≠ none ∧
      start.answer 1 = dataPacket 2 [] := by
  obtain ⟨start, packet, answered, first, opened, begun⟩ := request_starts ⟨InBuf.zeroed, none, 0⟩
    (fun _ => some [7]) 4 [127] (octetRequest 97 (by decide)) [7] rfl
  refine ⟨start, packet, answered, first, ?_, opened, ?_⟩
  · rw [first]
    decide
  · exact acks_answer [7] start [] 1 begun opened

end Practise.TftpServer
