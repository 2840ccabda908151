import Practise.TftpServer

/-! A lossless transfer in lock step. The client acknowledges each full DATA
packet with the 16-bit number it carries and stops at the first short one.
From block 32768 on the seek of the server fails, and the transfer rests on
the file position: it is where the acknowledged block ended. -/
namespace Practise.TftpServer
open Clib

def packetNumber (packet : Bytes) : Nat := hostShort (packet.getD 2 0) (packet.getD 3 0)

def packetOpcode (packet : Bytes) : Nat := hostShort (packet.getD 0 0) (packet.getD 1 0)

def payload (packet : Bytes) : Bytes := packet.drop 4

structure Transfer where
  packets : List Bytes
  finished : Bool
  deriving DecidableEq

/-- The packets the client receives, the given one first. `fuel` bounds the
acknowledgements. A server that does not answer leaves the transfer unfinished. -/
def lockStep : Nat → InBuf → Globals → Bytes → Transfer
  | 0, _, _, packet => ⟨[packet], decide ((payload packet).length < 512)⟩
  | fuel + 1, inBuf, globals, packet =>
      if (payload packet).length < 512 then ⟨[packet], true⟩
      else
        let inBuf := inBuf.receive (ackDatagram (packetNumber packet))
        let answer := handleReq inBuf globals
        if answer.2 = [] then ⟨[packet], false⟩
        else
          let rest := lockStep fuel inBuf answer.1 answer.2
          ⟨packet :: rest.packets, rest.finished⟩

theorem packet_number_wraps (blockNumber : Nat) (data : Bytes) :
    packetNumber (dataPacket blockNumber data) = blockNumber % 65536 := by
  have same : toUShort blockNumber = blockNumber % 65536 := by
    unfold toUShort
    omega
  simp only [packetNumber, dataPacket, networkShort, List.cons_append, List.nil_append,
    List.getD_cons_zero, List.getD_cons_succ]
  rw [host_short_network, same]

theorem packet_number (blockNumber : Nat) (small : blockNumber < 65536) (data : Bytes) :
    packetNumber (dataPacket blockNumber data) = blockNumber := by
  rw [packet_number_wraps, Nat.mod_eq_of_lt small]

theorem packet_opcode (blockNumber : Int) (data : Bytes) :
    packetOpcode (dataPacket blockNumber data) = DATA := by
  simp only [packetOpcode, dataPacket, networkShort, List.cons_append, List.nil_append,
    List.getD_cons_zero, List.getD_cons_succ]
  rw [host_short_network]
  rfl

theorem packet_payload (blockNumber : Int) (data : Bytes) :
    payload (dataPacket blockNumber data) = data := by
  simp [payload, dataPacket, networkShort]

theorem data_packet_ne_nil (blockNumber : Int) (data : Bytes) :
    dataPacket blockNumber data ≠ [] := by
  simp [dataPacket, networkShort]

def filePacket (content : Bytes) (index : Nat) : Bytes :=
  dataPacket (index + 1 : Nat) (block 512 content index)

theorem block_full_iff (content : Bytes) (index : Nat) :
    ¬ (block 512 content index).length < 512 ↔ index + 1 ≤ content.length / 512 := by
  rw [block_length]
  omega

/-- While the position is behind a block, the acknowledgement of the block is
answered with the block that its wrapped number names: the next one, on both
sides of the sign change, but behind block 65535 the first one. -/
theorem ack_next_block (content : Bytes) (ident index : Nat) (inside : index < 65536)
    (inBuf : InBuf) (globals : Globals)
    (placed : globals.file = some ⟨ident, content, 512 * (index + 1)⟩) :
    ∃ after, handleReq (inBuf.receive (ackDatagram ((index + 1) % 65536))) globals =
        (after, filePacket content ((index + 1) % 65536)) ∧
      (¬ (block 512 content ((index + 1) % 65536)).length < 512 →
        after.file = some ⟨ident, content, 512 * ((index + 1) % 65536 + 1)⟩) := by
  have position : ackPosition ((index + 1) % 65536)
      (⟨ident, content, 512 * (index + 1)⟩ : Stream UInt8) = 512 * ((index + 1) % 65536) := by
    unfold ackPosition
    split
    · rfl
    · change 512 * (index + 1) = 512 * ((index + 1) % 65536)
      omega
  have data : ackData ((index + 1) % 65536) ⟨ident, content, 512 * (index + 1)⟩ =
      block 512 content ((index + 1) % 65536) := by
    rw [ackData, position, block]
  have answer := handle_ack inBuf ((index + 1) % 65536) (Nat.mod_lt _ (by decide)) globals
  rw [placed] at answer
  simp only [data] at answer
  refine ⟨_, answer, fun full => ?_⟩
  have length : (block 512 content ((index + 1) % 65536)).length = 512 := by
    rw [block_length] at full ⊢
    omega
  simp only [fileAfterAck, data, position, length]
  rfl

theorem lock_step_full (content : Bytes) (fuel index ident : Nat) (inside : index < 65536)
    (inBuf : InBuf) (globals : Globals)
    (placed : globals.file = some ⟨ident, content, 512 * (index + 1)⟩)
    (full : ¬ (block 512 content index).length < 512) :
    ∃ later after rest, rest = lockStep fuel later after (filePacket content ((index + 1) % 65536)) ∧
      lockStep (fuel + 1) inBuf globals (filePacket content index) =
        ⟨filePacket content index :: rest.packets, rest.finished⟩ ∧
      (¬ (block 512 content ((index + 1) % 65536)).length < 512 →
        after.file = some ⟨ident, content, 512 * ((index + 1) % 65536 + 1)⟩) := by
  obtain ⟨after, answer, further⟩ := ack_next_block content ident index inside inBuf globals placed
  have carried : payload (filePacket content index) = block 512 content index := packet_payload _ _
  have numbered : packetNumber (filePacket content index) = (index + 1) % 65536 :=
    packet_number_wraps (index + 1) _
  have answered : filePacket content ((index + 1) % 65536) ≠ [] := data_packet_ne_nil _ _
  refine ⟨inBuf.receive (ackDatagram ((index + 1) % 65536)), after, _, rfl, ?_, further⟩
  rw [lockStep, carried, if_neg full, numbered]
  simp only [answer, answered, ↓reduceIte]

/-- From block `index` on, with the file positioned behind it if it was full,
all remaining blocks are delivered. -/
theorem lock_step_from (content : Bytes) (bound : content.length < 65536 * 512)
    (fuel index : Nat) (inBuf : InBuf) (globals : Globals)
    (inside : index ≤ content.length / 512) (enough : content.length / 512 - index ≤ fuel)
    (placed : index + 1 ≤ content.length / 512 →
      ∃ ident, globals.file = some ⟨ident, content, 512 * (index + 1)⟩) :
    lockStep fuel inBuf globals (filePacket content index) =
      ⟨(List.range' index (content.length / 512 + 1 - index)).map (filePacket content), true⟩ := by
  induction fuel generalizing index inBuf globals with
  | zero =>
      have short : (block 512 content index).length < 512 := by
        by_contra full
        have := (block_full_iff content index).mp full
        omega
      have one : content.length / 512 + 1 - index = 1 := by omega
      rw [one]
      simp [lockStep, filePacket, packet_payload, short]
  | succ fuel ih =>
      have carried : payload (filePacket content index) = block 512 content index :=
        packet_payload _ _
      by_cases short : (block 512 content index).length < 512
      · have ends : ¬ index + 1 ≤ content.length / 512 :=
          fun more => (block_full_iff content index).mpr more short
        have one : content.length / 512 + 1 - index = 1 := by omega
        rw [one]
        simp [lockStep, carried, short]
      · have more := (block_full_iff content index).mp short
        obtain ⟨ident, opened⟩ := placed more
        obtain ⟨later, after, rest, transfer, whole, further⟩ :=
          lock_step_full content fuel index ident (by omega) inBuf globals opened short
        -- The number of a full block has not wrapped.
        rw [Nat.mod_eq_of_lt (by omega : index + 1 < 65536)] at transfer further
        rw [ih (index + 1) later after more (by omega) fun next =>
          ⟨ident, further ((block_full_iff content (index + 1)).mpr next)⟩] at transfer
        have count : content.length / 512 + 1 - index =
            (content.length / 512 + 1 - (index + 1)) + 1 := by omega
        rw [whole, transfer, count, List.range'_succ, List.map_cons]

theorem lock_step_whole (content : Bytes) (bound : content.length < 65536 * 512)
    (fuel ident : Nat) (inBuf : InBuf) (globals : Globals)
    (enough : content.length / 512 ≤ fuel)
    (opened : globals.file = some ⟨ident, content, (block 512 content 0).length⟩) :
    lockStep fuel inBuf globals (filePacket content 0) =
      ⟨(List.range (content.length / 512 + 1)).map (filePacket content), true⟩ := by
  rw [List.range_eq_range']
  apply lock_step_from content bound fuel 0 inBuf globals (Nat.zero_le _) enough
  intro more
  have full : (block 512 content 0).length = 512 := by
    rw [block_length]
    omega
  exact ⟨ident, by rw [opened, full]⟩

/-- A file of fewer than 65535 full blocks arrives whole: one packet for each
block, in order, the last of them short and possibly empty. -/
theorem transfer_delivers_file (fileSystem : FileSystem) (sock : Fd) (addr : Address)
    (inBuf : InBuf) (globals : Globals) (request : ReadRequest) (content : Bytes)
    (found : fileSystem request.name = some content)
    (bound : content.length < 65535 * 512) (fuel : Nat)
    (enough : content.length / 512 ≤ fuel) :
    ∃ after session sent,
      handleNewConnection fileSystem sock addr (inBuf.receive request.datagram) globals =
        some (after, some (session, sent)) ∧
      sent.addr = addr ∧
      ∃ transfer, transfer = lockStep fuel (inBuf.receive request.datagram) after sent.packet ∧
        transfer.finished = true ∧
        transfer.packets.length = content.length / 512 + 1 ∧
        (∀ packet ∈ transfer.packets, packetOpcode packet = DATA) ∧
        transfer.packets.map packetNumber = List.range' 1 (content.length / 512 + 1) ∧
        (transfer.packets.map payload).flatten = content := by
  have opened := handle_request fileSystem sock addr inBuf request globals
  rw [found] at opened
  refine ⟨_, _, _, opened, rfl, _, rfl, ?_⟩
  have first : dataPacket 1 (block 512 content 0) = filePacket content 0 := rfl
  have delivered := lock_step_whole content (by omega) fuel globals.opened
    (inBuf.receive request.datagram)
    ⟨some ⟨globals.opened, content, (block 512 content 0).length⟩, globals.opened + 1⟩ enough rfl
  simp only [first, delivered]
  refine ⟨trivial, by simp, ?_, ?_, ?_⟩
  · intro packet member
    obtain ⟨index, _, rfl⟩ := List.mem_map.mp member
    exact packet_opcode _ _
  · rw [List.map_map, List.range'_eq_map_range]
    apply List.map_congr_left
    intro index member
    have inside := List.mem_range.mp member
    rw [Function.comp_apply, filePacket, packet_number _ (by omega), Nat.add_comm]
  · have payloads : payload ∘ filePacket content = block 512 content := by
      funext index
      exact packet_payload _ _
    rw [List.map_map, payloads]
    exact blocks_flatten 512 (by decide) content

theorem transfer_of_one_block :
    ∃ after session sent,
      handleNewConnection (fun _ => some (List.replicate 512 7)) 4 [127]
          (InBuf.zeroed.receive (octetRequest 97 (by decide)).datagram) ⟨none, 0⟩ =
        some (after, some (session, sent)) ∧
      ∃ transfer,
        transfer = lockStep 1 (InBuf.zeroed.receive (octetRequest 97 (by decide)).datagram)
          after sent.packet ∧
        transfer.finished = true ∧ transfer.packets.map packetNumber = [1, 2] ∧
        (transfer.packets.map payload).flatten = List.replicate 512 7 := by
  have length : (List.replicate 512 (7 : UInt8)).length = 512 := List.length_replicate
  obtain ⟨after, session, sent, opened, -, transfer, same, finished, -, -, numbers, payloads⟩ :=
    transfer_delivers_file (fun _ => some (List.replicate 512 7)) 4 [127] InBuf.zeroed ⟨none, 0⟩
      (octetRequest 97 (by decide)) (List.replicate 512 7) rfl (by omega) 1 (by omega)
  rw [length] at numbers
  exact ⟨after, session, sent, opened, transfer, same, finished, numbers, payloads⟩

/-- Block 65535 carries the number 0, whose acknowledgement seeks to the start
of the file: behind a full block 65535 comes block 0 again, for ever. -/
theorem lock_step_cycles (content : Bytes) (long : 65536 * 512 ≤ content.length)
    (fuel index ident : Nat) (inBuf : InBuf) (globals : Globals) (inside : index < 65536)
    (placed : globals.file = some ⟨ident, content, 512 * (index + 1)⟩) :
    (lockStep fuel inBuf globals (filePacket content index)).finished = false := by
  have full : ∀ index, index < 65536 → (block 512 content index).length = 512 := by
    intro index inside
    rw [block_length]
    omega
  induction fuel generalizing index inBuf globals with
  | zero => simp [lockStep, filePacket, packet_payload, full index inside]
  | succ fuel ih =>
      have below : (index + 1) % 65536 < 65536 := Nat.mod_lt _ (by decide)
      obtain ⟨later, after, rest, transfer, whole, further⟩ :=
        lock_step_full content fuel index ident inside inBuf globals placed
          (by rw [full index inside]; decide)
      rw [whole, transfer]
      exact ih _ later after below (further (by rw [full _ below]; decide))

/-- A transfer in lock step comes to its short packet, after one
acknowledgement for each full block, exactly for the files of fewer than 65536
full blocks. -/
theorem transfer_terminates_exact (fileSystem : FileSystem) (sock : Fd) (addr : Address)
    (inBuf : InBuf) (globals : Globals) (request : ReadRequest) (content : Bytes)
    (found : fileSystem request.name = some content) :
    ∃ after session sent,
      handleNewConnection fileSystem sock addr (inBuf.receive request.datagram) globals =
        some (after, some (session, sent)) ∧
      ((∃ fuel, ∃ transfer,
          transfer = lockStep fuel (inBuf.receive request.datagram) after sent.packet ∧
          transfer.finished = true ∧ transfer.packets.length = content.length / 512 + 1) ↔
        content.length < 65536 * 512) := by
  have opened := handle_request fileSystem sock addr inBuf request globals
  rw [found] at opened
  refine ⟨_, _, _, opened, ?_⟩
  have first : dataPacket 1 (block 512 content 0) = filePacket content 0 := rfl
  simp only [first]
  constructor
  · rintro ⟨fuel, transfer, rfl, finished, -⟩
    by_contra long
    have length : (block 512 content 0).length = 512 := by
      rw [block_length]
      omega
    rw [lock_step_cycles content (by omega) fuel 0 globals.opened _ _ (by decide)
      (by simp only [length])] at finished
    exact absurd finished (by decide)
  · intro bound
    have delivered := lock_step_whole content bound (content.length / 512) globals.opened
      (inBuf.receive request.datagram)
      ⟨some ⟨globals.opened, content, (block 512 content 0).length⟩, globals.opened + 1⟩
      (Nat.le_refl _) rfl
    exact ⟨_, _, rfl, by rw [delivered], by rw [delivered]; simp⟩

/-- The largest numbers of blocks are met too: 65535 full blocks and a short one. -/
theorem transfer_terminates_below_wrap :
    ∃ after session sent,
      handleNewConnection (fun _ => some (List.replicate (65535 * 512 + 511) 7)) 4 [127]
          (InBuf.zeroed.receive (octetRequest 97 (by decide)).datagram) ⟨none, 0⟩ =
        some (after, some (session, sent)) ∧
      ∃ fuel, ∃ transfer,
        transfer = lockStep fuel (InBuf.zeroed.receive (octetRequest 97 (by decide)).datagram)
          after sent.packet ∧
        transfer.finished = true ∧ transfer.packets.length = 65536 := by
  have length : (List.replicate (65535 * 512 + 511) (7 : UInt8)).length = 65535 * 512 + 511 :=
    List.length_replicate
  obtain ⟨after, session, sent, opened, exact⟩ :=
    transfer_terminates_exact (fun _ => some (List.replicate (65535 * 512 + 511) 7)) 4 [127]
      InBuf.zeroed ⟨none, 0⟩ (octetRequest 97 (by decide))
      (List.replicate (65535 * 512 + 511) 7) rfl
  obtain ⟨fuel, transfer, same, finished, packets⟩ := exact.mpr (by omega)
  exact ⟨after, session, sent, opened, fuel, transfer, same, finished, by omega⟩

theorem transfer_of_wrapped_file_cycles :
    ∃ after session sent,
      handleNewConnection (fun _ => some (List.replicate (65536 * 512) 7)) 4 [127]
          (InBuf.zeroed.receive (octetRequest 97 (by decide)).datagram) ⟨none, 0⟩ =
        some (after, some (session, sent)) ∧
      ∀ fuel, (lockStep fuel (InBuf.zeroed.receive (octetRequest 97 (by decide)).datagram)
        after sent.packet).finished = false := by
  have length : (List.replicate (65536 * 512) (7 : UInt8)).length = 65536 * 512 :=
    List.length_replicate
  have full : (block 512 (List.replicate (65536 * 512) (7 : UInt8)) 0).length = 512 := by
    rw [block_length, length]
    decide
  refine ⟨_, _, _, handle_request _ 4 [127] InBuf.zeroed (octetRequest 97 (by decide)) ⟨none, 0⟩,
    fun fuel => ?_⟩
  exact lock_step_cycles _ (Nat.le_of_eq length.symm) fuel 0 0 _ _ (by decide) (by simp only [full])

end Practise.TftpServer
