import Practise.Machine
import Practise.TftpAcks

/-! One client of the handlers, on a network that may lose, repeat and reorder
datagrams. The client asks for a file until it gets the first block, acknowledges
the last block it has got, again if need be, and takes a packet only if it has
the number it waits for. The handlers keep no count of their own: what they send
depends on the acknowledged number alone, which makes them safe. But they close
the file with the last packet they send, and then the packet must not get lost. -/
namespace Practise.TftpServer
open Clib Machine

inductive ClientDatagram where
  | request
  | ack (number : UInt16)
  deriving DecidableEq

structure Receiver where
  expected : Nat
  data : Bytes
  finished : Bool

def Receiver.start : Receiver := ⟨1, [], false⟩

def Receiver.datagram (receiver : Receiver) : ClientDatagram :=
  if receiver.expected = 1 then .request else .ack (UInt16.ofNat (receiver.expected - 1))

/-- A short packet is the last one; every other number is ignored. -/
def Receiver.receive (receiver : Receiver) (packet : Bytes) : Receiver :=
  if receiver.finished = false ∧ packetOpcode packet = DATA ∧
      packetNumber packet = receiver.expected % 65536 then
    { expected := receiver.expected + 1
      data := receiver.data ++ payload packet
      finished := decide ((payload packet).length < 512) }
  else receiver

def Serving.serve (serving : Serving) (fileSystem : FileSystem) (sock : Fd) (addr : Address)
    (request : ReadRequest) : ClientDatagram → Option (Serving × Bytes)
  | .request =>
      let inBuf := serving.inBuf.receive request.datagram
      (handleNewConnection fileSystem sock addr inBuf serving.globals).map fun handled =>
        (⟨inBuf, handled.1⟩,
          match handled.2 with
          | none => []
          | some answered => answered.2.packet)
  | .ack number => some (serving.ack number, serving.answer number)

structure Network where
  serving : Serving
  receiver : Receiver
  toServer : List ClientDatagram
  toClient : List Bytes

/-- A datagram that is `kept` can arrive again. -/
inductive Event where
  | send
  | serve (datagram : ClientDatagram) (kept : Bool)
  | deliver (packet : Bytes) (kept : Bool)
  | loseDatagram (datagram : ClientDatagram)
  | losePacket (packet : Bytes)

section Network
variable (fileSystem : FileSystem) (sock : Fd) (addr : Address) (request : ReadRequest)

def networkStep : Step Network Event Bytes
  | network, .send =>
      some ({ network with toServer := network.receiver.datagram :: network.toServer }, [])
  | network, .serve datagram kept =>
      if datagram ∈ network.toServer then
        (network.serving.serve fileSystem sock addr request datagram).map fun served =>
          ({ network with
              serving := served.1
              toServer := if kept then network.toServer else network.toServer.erase datagram
              toClient := if served.2 = [] then network.toClient else served.2 :: network.toClient },
            [])
      else none
  | network, .deliver packet kept =>
      if packet ∈ network.toClient then
        some ({ network with
            receiver := network.receiver.receive packet
            toClient := if kept then network.toClient else network.toClient.erase packet }, [])
      else none
  | network, .loseDatagram datagram =>
      some ({ network with toServer := network.toServer.erase datagram }, [])
  | network, .losePacket packet =>
      some ({ network with toClient := network.toClient.erase packet }, [])

/-- What an event can do. A datagram that is not kept and one that gets lost are
gone in the same way, so it is only said that nothing else is on the way. -/
inductive Happens (network : Network) : Network → Prop where
  | sent :
      Happens network { network with toServer := network.receiver.datagram :: network.toServer }
  | served (datagram : ClientDatagram) (member : datagram ∈ network.toServer) (after : Serving)
      (answer : Bytes)
      (answers : network.serving.serve fileSystem sock addr request datagram = some (after, answer))
      (toServer : List ClientDatagram) (fewer : toServer ⊆ network.toServer) :
      Happens network
        { network with
          serving := after
          toServer := toServer
          toClient := if answer = [] then network.toClient else answer :: network.toClient }
  | delivered (packet : Bytes) (member : packet ∈ network.toClient) (toClient : List Bytes)
      (fewer : toClient ⊆ network.toClient) :
      Happens network
        { network with receiver := network.receiver.receive packet, toClient := toClient }
  | lost (toServer : List ClientDatagram) (toClient : List Bytes)
      (fewer : toServer ⊆ network.toServer) (less : toClient ⊆ network.toClient) :
      Happens network { network with toServer := toServer, toClient := toClient }

theorem step_happens (network next : Network) (event : Event) (outputs : List Bytes)
    (taken : networkStep fileSystem sock addr request network event = some (next, outputs)) :
    Happens fileSystem sock addr request network next := by
  cases event with
  | send =>
      obtain ⟨rfl, -⟩ := Prod.mk.inj (Option.some.inj taken)
      exact .sent
  | serve datagram kept =>
      simp only [networkStep] at taken
      split at taken
      · next member =>
        obtain ⟨⟨after, answer⟩, answers, moved⟩ := Option.map_eq_some_iff.mp taken
        obtain ⟨rfl, -⟩ := Prod.mk.inj moved
        refine .served datagram member after answer answers _ ?_
        cases kept with
        | true => exact List.Subset.refl _
        | false => exact List.erase_subset
      · exact absurd taken (by simp)
  | deliver packet kept =>
      simp only [networkStep] at taken
      split at taken
      · next member =>
        obtain ⟨rfl, -⟩ := Prod.mk.inj (Option.some.inj taken)
        refine .delivered packet member _ ?_
        cases kept with
        | true => exact List.Subset.refl _
        | false => exact List.erase_subset
      · exact absurd taken (by simp)
  | loseDatagram datagram =>
      obtain ⟨rfl, -⟩ := Prod.mk.inj (Option.some.inj taken)
      exact .lost _ _ List.erase_subset (List.Subset.refl _)
  | losePacket packet =>
      obtain ⟨rfl, -⟩ := Prod.mk.inj (Option.some.inj taken)
      exact .lost _ _ (List.Subset.refl _) List.erase_subset

end Network

def startNetwork (inBuf : InBuf) (opened : Nat) : Network where
  serving := ⟨inBuf, { file := none, opened := opened }⟩
  receiver := Receiver.start
  toServer := []
  toClient := []

/-! What a datagram makes the server do, as long as the numbers are below 32768. -/

def OpenOn (content : Bytes) (serving : Serving) : Prop :=
  ∃ file, serving.globals.file = some file ∧ file.content = content

inductive Answered (content : Bytes) (before after : Serving) : ClientDatagram → Bytes → Prop where
  | opened (open_ : OpenOn content after) :
      Answered content before after .request (filePacket content 0)
  | silent (number : UInt16) (closed : before.globals.file = none)
      (still : after.globals.file = none) : Answered content before after (.ack number) []
  | full (number : UInt16) (inside : number.toNat < content.length / 512)
      (was : before.globals.file ≠ none) (open_ : OpenOn content after) :
      Answered content before after (.ack number) (filePacket content number.toNat)
  | last (number : UInt16) (behind : content.length / 512 ≤ number.toNat)
      (was : before.globals.file ≠ none) (closes : after.globals.file = none) :
      Answered content before after (.ack number) (filePacket content number.toNat)

theorem ack_answered (content : Bytes) (serving : Serving) (number : UInt16)
    (small : number.toNat < 32768)
    (file : ∀ stream, serving.globals.file = some stream → stream.content = content) :
    Answered content serving (serving.ack number) (.ack number) (serving.answer number) := by
  cases opened : serving.globals.file with
  | none =>
      obtain ⟨silent, still⟩ := ack_closed serving number opened
      rw [silent]
      exact .silent number opened still
  | some stream =>
      obtain ⟨answer, after⟩ := ack_open serving number stream opened
      have was : serving.globals.file ≠ none := fun none => nomatch opened.symm.trans none
      have same := file stream opened
      have data : ackData number.toNat stream = block 512 content number.toNat := by
        rw [ackData, ackPosition, if_pos small, same, block]
      rw [data] at answer
      rw [fileAfterAck, data] at after
      rw [answer]
      by_cases short : (block 512 content number.toNat).length < 512
      · rw [if_pos short] at after
        refine .last number ?_ was after
        have := mt (block_full_iff content number.toNat).mpr (not_not.mpr short)
        omega
      · rw [if_neg short] at after
        exact .full number ((block_full_iff content number.toNat).mp short) was ⟨_, after, same⟩

theorem request_served (fileSystem : FileSystem) (sock : Fd) (addr : Address)
    (request : ReadRequest) (content : Bytes) (found : fileSystem request.name = some content)
    (serving : Serving) :
    ∃ after, serving.serve fileSystem sock addr request .request =
        some (after, filePacket content 0) ∧ OpenOn content after := by
  have handled := handle_request fileSystem sock addr serving.inBuf request serving.globals
  rw [found] at handled
  refine ⟨⟨serving.inBuf.receive request.datagram,
    some ⟨serving.globals.opened, content, (block 512 content 0).length⟩,
    serving.globals.opened + 1⟩, ?_, _, rfl, rfl⟩
  simp only [Serving.serve, handled, Option.map_some]
  rfl

theorem serve_answered (fileSystem : FileSystem) (sock : Fd) (addr : Address)
    (request : ReadRequest) (content : Bytes) (found : fileSystem request.name = some content)
    (serving : Serving) (datagram : ClientDatagram)
    (small : ∀ number, datagram = .ack number → number.toNat < 32768)
    (file : ∀ stream, serving.globals.file = some stream → stream.content = content) :
    ∃ after answer, serving.serve fileSystem sock addr request datagram = some (after, answer) ∧
      Answered content serving after datagram answer := by
  cases datagram with
  | request =>
      obtain ⟨after, served, now⟩ := request_served fileSystem sock addr request content found serving
      exact ⟨after, _, served, .opened now⟩
  | ack number =>
      exact ⟨_, _, rfl, ack_answered content serving number (small number rfl) file⟩

/-! What holds on the way. -/

/-- The client has got the first blocks of the file. What is on the way was sent
for a block that it has, or for the next one, and the server has closed the file
only if the client has got every full block. -/
structure Sound (content : Bytes) (network : Network) : Prop where
  counted : 1 ≤ network.receiver.expected
  limit : network.receiver.expected ≤ content.length / 512 + 2
  gathered : network.receiver.data = content.take (512 * (network.receiver.expected - 1))
  finished : network.receiver.finished = true ↔
    network.receiver.expected = content.length / 512 + 2
  acks : ∀ number, .ack number ∈ network.toServer →
    1 ≤ number.toNat ∧ number.toNat < network.receiver.expected
  packets : ∀ packet ∈ network.toClient, ∃ index < network.receiver.expected,
    packet = filePacket content index
  file : ∀ stream, network.serving.globals.file = some stream → stream.content = content
  closed : network.serving.globals.file = none →
    (network.receiver.expected = 1 ∧ network.toClient = []) ∨
      content.length / 512 < network.receiver.expected

theorem start_sound (content : Bytes) (inBuf : InBuf) (opened : Nat) :
    Sound content (startNetwork inBuf opened) where
  counted := Nat.le_refl 1
  limit := Nat.le_add_left 1 _
  gathered := by simp [startNetwork, Receiver.start]
  finished := by simp [startNetwork, Receiver.start]
  acks := fun _ member => nomatch member
  packets := fun _ member => nomatch member
  file := fun _ opened => nomatch opened
  closed := fun _ => Or.inl ⟨rfl, rfl⟩

theorem receive_cases (content : Bytes) (bound : content.length < 512 * 32767)
    (receiver : Receiver) (index : Nat) (limit : receiver.expected ≤ content.length / 512 + 2)
    (older : index < receiver.expected) :
    (receiver.finished = false ∧ index + 1 = receiver.expected ∧
      receiver.receive (filePacket content index) =
        { expected := receiver.expected + 1
          data := receiver.data ++ block 512 content index
          finished := decide ((block 512 content index).length < 512) }) ∨
    ((receiver.finished = true ∨ index + 1 < receiver.expected) ∧
      receiver.receive (filePacket content index) = receiver) := by
  have opcode : packetOpcode (filePacket content index) = DATA := packet_opcode _ _
  have number : packetNumber (filePacket content index) = index + 1 :=
    packet_number (index + 1) (by omega) _
  have carried : payload (filePacket content index) = block 512 content index := packet_payload _ _
  have awaited : receiver.expected % 65536 = receiver.expected := Nat.mod_eq_of_lt (by omega)
  rw [Receiver.receive, opcode, number, carried, awaited]
  cases done : receiver.finished with
  | true =>
      right
      simp
  | false =>
      by_cases next : index + 1 = receiver.expected
      · left
        simp [next]
      · right
        refine ⟨Or.inr (by omega), ?_⟩
        simp [next]

theorem receive_sound (content : Bytes) (bound : content.length < 512 * 32767)
    (network : Network) (sound : Sound content network) (packet : Bytes)
    (member : packet ∈ network.toClient) :
    Sound content { network with receiver := network.receiver.receive packet } := by
  obtain ⟨index, older, rfl⟩ := sound.packets packet member
  rcases receive_cases content bound network.receiver index sound.limit older with
    ⟨unfinished, next, taken⟩ | ⟨-, ignored⟩
  · have counted := sound.counted
    have more : network.receiver.expected < content.length / 512 + 2 := by
      have := sound.limit
      have := mt sound.finished.mpr (by simp [unfinished])
      omega
    have short := block_length 512 content index
    rw [taken]
    constructor
    · simp only
      omega
    · simp only
      omega
    · simp only
      rw [sound.gathered, ← next, block, Nat.add_sub_cancel, Nat.add_sub_cancel, Nat.mul_add,
        List.take_add]
    · simp only [decide_eq_true_eq]
      omega
    · intro number present
      have := sound.acks number present
      simp only
      omega
    · intro other present
      obtain ⟨place, before, same⟩ := sound.packets other present
      exact ⟨place, Nat.lt_succ_of_lt before, same⟩
    · exact sound.file
    · intro closed
      rcases sound.closed closed with ⟨-, none⟩ | behind
      · rw [none] at member
        exact absurd member List.not_mem_nil
      · right
        simp only
        omega
  · rw [ignored]
    exact sound

/-- What gets lost is not missed by anyone. -/
theorem fewer_sound (content : Bytes) (network : Network) (sound : Sound content network)
    (toServer : List ClientDatagram) (toClient : List Bytes) (fewer : toServer ⊆ network.toServer)
    (less : toClient ⊆ network.toClient) :
    Sound content { network with toServer := toServer, toClient := toClient } where
  counted := sound.counted
  limit := sound.limit
  gathered := sound.gathered
  finished := sound.finished
  acks := fun number member => sound.acks number (fewer member)
  packets := fun packet member => sound.packets packet (less member)
  file := sound.file
  closed := by
    intro closed
    rcases sound.closed closed with ⟨first, none⟩ | behind
    · rw [none] at less
      exact Or.inl ⟨first, List.subset_nil.mp less⟩
    · exact Or.inr behind

theorem own_number (expected : Nat) (small : expected ≤ 65536) :
    (UInt16.ofNat (expected - 1)).toNat = expected - 1 := by
  rw [UInt16.toNat_ofNat', Nat.mod_eq_of_lt (by omega)]

theorem send_sound (content : Bytes) (bound : content.length < 512 * 32767)
    (network : Network) (sound : Sound content network) :
    Sound content { network with toServer := network.receiver.datagram :: network.toServer } where
  counted := sound.counted
  limit := sound.limit
  gathered := sound.gathered
  finished := sound.finished
  acks := by
    intro number member
    rcases List.mem_cons.mp member with own | old
    · have counted := sound.counted
      have limit := sound.limit
      rw [Receiver.datagram] at own
      split at own
      · exact nomatch own
      · next later =>
        obtain rfl := ClientDatagram.ack.inj own
        rw [own_number network.receiver.expected (by omega)]
        simp only
        omega
    · exact sound.acks number old
  packets := sound.packets
  file := sound.file
  closed := sound.closed

theorem open_known (content : Bytes) (serving : Serving) (open_ : OpenOn content serving) :
    serving.globals.file ≠ none ∧
      ∀ stream, serving.globals.file = some stream → stream.content = content := by
  obtain ⟨file, opened, same⟩ := open_
  refine ⟨fun none => (nomatch opened.symm.trans none), fun stream other => ?_⟩
  rw [← Option.some.inj (opened.symm.trans other), same]

theorem answer_sound (content : Bytes) (network : Network) (sound : Sound content network)
    (after : Serving) (index : Nat) (older : index < network.receiver.expected)
    (file : ∀ stream, after.globals.file = some stream → stream.content = content)
    (closed : after.globals.file = none →
      content.length / 512 < network.receiver.expected) :
    Sound content
      { network with
        serving := after
        toClient := filePacket content index :: network.toClient } where
  counted := sound.counted
  limit := sound.limit
  gathered := sound.gathered
  finished := sound.finished
  acks := sound.acks
  packets := by
    intro packet member
    rcases List.mem_cons.mp member with own | old
    · exact ⟨index, older, own⟩
    · exact sound.packets packet old
  file := file
  closed := fun none => Or.inr (closed none)

theorem serve_sound (content : Bytes) (network : Network) (sound : Sound content network)
    (datagram : ClientDatagram) (member : datagram ∈ network.toServer) (after : Serving)
    (answer : Bytes) (answered : Answered content network.serving after datagram answer) :
    Sound content
      { network with
        serving := after
        toClient := if answer = [] then network.toClient else answer :: network.toClient } := by
  have sends : ∀ index, filePacket content index ≠ [] := fun _ => data_packet_ne_nil _ _
  cases answered with
  | opened open_ =>
      obtain ⟨present, file⟩ := open_known content after open_
      rw [if_neg (sends 0)]
      exact answer_sound content network sound after 0 sound.counted file
        fun none => absurd none present
  | silent number closed still =>
      rw [if_pos rfl]
      refine { sound with file := fun stream opened => ?_, closed := fun _ => sound.closed closed }
      exact nomatch still.symm.trans opened
  | full number inside was open_ =>
      obtain ⟨present, file⟩ := open_known content after open_
      rw [if_neg (sends number.toNat)]
      exact answer_sound content network sound after number.toNat (sound.acks number member).2 file
        fun none => absurd none present
  | last number behind was closes =>
      have own := (sound.acks number member).2
      rw [if_neg (sends number.toNat)]
      refine answer_sound content network sound after number.toNat own (fun stream opened => ?_)
        fun _ => by omega
      exact nomatch closes.symm.trans opened

section Transfer
variable (fileSystem : FileSystem) (sock : Fd) (addr : Address) (request : ReadRequest)

/-- Every event that can happen keeps it, and a datagram on its way is always
served. -/
theorem network_step_sound (content : Bytes) (found : fileSystem request.name = some content)
    (bound : content.length < 512 * 32767) (network next : Network) (event : Event)
    (outputs : List Bytes) (sound : Sound content network)
    (taken : networkStep fileSystem sock addr request network event = some (next, outputs)) :
    Sound content next := by
  cases step_happens fileSystem sock addr request network next event outputs taken with
  | sent => exact send_sound content bound network sound
  | served datagram member after answer answers toServer fewer =>
      obtain ⟨_, _, served, answered⟩ := serve_answered fileSystem sock addr request content found
        network.serving datagram
        (fun number same => by
          have := (sound.acks number (same ▸ member)).2
          have := sound.limit
          omega) sound.file
      obtain ⟨rfl, rfl⟩ := Prod.mk.inj (Option.some.inj (answers.symm.trans served))
      exact fewer_sound content _
        (serve_sound content network sound datagram member after answer answered) toServer _ fewer
        (List.Subset.refl _)
  | delivered packet member toClient fewer =>
      exact fewer_sound content _ (receive_sound content bound network sound packet member) _
        toClient (List.Subset.refl _) fewer
  | lost toServer toClient fewer less =>
      exact fewer_sound content network sound toServer toClient fewer less

theorem network_sound (content : Bytes) (found : fileSystem request.name = some content)
    (bound : content.length < 512 * 32767) (inBuf : InBuf) (opened : Nat) (events : List Event) :
    EveryPoint (networkStep fileSystem sock addr request) (startNetwork inBuf opened)
      (fun network _ => Sound content network) events := by
  intro past _ network outputs taken
  exact run_keeps (networkStep fileSystem sock addr request) (Sound content)
    (network_step_sound fileSystem sock addr request content found bound) _ network
    (start_sound content inBuf opened) past outputs taken

theorem sound_whole (content : Bytes) (network : Network) (sound : Sound content network)
    (finished : network.receiver.finished = true) : network.receiver.data = content := by
  rw [sound.gathered, sound.finished.mp finished]
  exact List.take_of_length_le (by omega)

/-- Whatever the network does to the datagrams, the client has a front part of
the file at any time, and the whole file when it has finished. -/
theorem unreliable_transfer_safe (content : Bytes) (found : fileSystem request.name = some content)
    (bound : content.length < 512 * 32767) (inBuf : InBuf) (opened : Nat) (events : List Event) :
    EveryPoint (networkStep fileSystem sock addr request) (startNetwork inBuf opened)
      (fun network _ => network.receiver.data <+: content ∧
        (network.receiver.finished = true → network.receiver.data = content)) events := by
  intro past reached network outputs taken
  have sound := network_sound fileSystem sock addr request content found bound inBuf opened events
    past reached network outputs taken
  exact ⟨sound.gathered ▸ List.take_prefix _ _, sound_whole content network sound⟩

/-- Two blocks. The first acknowledgement arrives twice, and so does its answer,
behind a repeated first block. -/
def repeatedAnswers : List Event :=
  [.send, .serve .request false, .deliver (filePacket (List.replicate 513 7) 0) true, .send,
    .serve (.ack 1) true, .serve (.ack 1) false,
    .deliver (filePacket (List.replicate 513 7) 0) false,
    .deliver (filePacket (List.replicate 513 7) 1) true,
    .deliver (filePacket (List.replicate 513 7) 1) false]

theorem repeated_answers_safe :
    ∃ network outputs,
      run (networkStep (fun _ => some (List.replicate 513 7)) 4 [127] (octetRequest 97 (by decide)))
        (startNetwork InBuf.zeroed 0) repeatedAnswers = some (network, outputs) ∧
      network.receiver.finished = true ∧ network.receiver.data = List.replicate 513 7 := by
  have moved : ((run (networkStep (fun _ => some (List.replicate 513 7)) 4 [127]
      (octetRequest 97 (by decide))) (startNetwork InBuf.zeroed 0) repeatedAnswers).map
        fun reached => reached.1.receiver.finished) = some true := by decide +kernel
  obtain ⟨⟨network, outputs⟩, taken, finished⟩ := Option.map_eq_some_iff.mp moved
  have safe := unreliable_transfer_safe (fun _ => some (List.replicate 513 7)) 4 [127]
    (octetRequest 97 (by decide)) (List.replicate 513 7) rfl
    (by rw [List.length_replicate]; decide) InBuf.zeroed 0 repeatedAnswers repeatedAnswers
    (List.prefix_refl _) network outputs taken
  exact ⟨network, outputs, taken, finished, safe.2 finished⟩

/-! Which transfers can still finish. -/

def Finishes (network : Network) : Prop :=
  ∃ events final outputs,
    run (networkStep fileSystem sock addr request) network events = some (final, outputs) ∧
      final.receiver.finished = true

/-- The file is closed, and nothing on the way would open it or end the transfer;
the client does not ask again once it has the first block. -/
structure Doomed (network : Network) : Prop where
  unfinished : network.receiver.finished = false
  begun : 1 < network.receiver.expected
  closed : network.serving.globals.file = none
  unasked : .request ∉ network.toServer
  full : ∀ packet ∈ network.toClient, 512 ≤ (payload packet).length

theorem doomed_receive (receiver : Receiver) (packet : Bytes) (unfinished : receiver.finished = false)
    (full : 512 ≤ (payload packet).length) (begun : 1 < receiver.expected) :
    (receiver.receive packet).finished = false ∧ 1 < (receiver.receive packet).expected := by
  rw [Receiver.receive]
  split
  · simp only [decide_eq_false_iff_not]
    omega
  · exact ⟨unfinished, begun⟩

theorem doomed_step (network next : Network) (event : Event) (outputs : List Bytes)
    (doomed : Doomed network)
    (taken : networkStep fileSystem sock addr request network event = some (next, outputs)) :
    Doomed next := by
  cases step_happens fileSystem sock addr request network next event outputs taken with
  | sent =>
      have later : network.receiver.expected ≠ 1 := by
        have := doomed.begun
        omega
      exact { doomed with unasked := by simpa [Receiver.datagram, later] using doomed.unasked }
  | served datagram member after answer answers toServer fewer =>
      cases datagram with
      | request => exact absurd member doomed.unasked
      | ack number =>
          -- A closed file is not opened by an acknowledgement, and nothing is sent.
          obtain ⟨silent, still⟩ := ack_closed network.serving number doomed.closed
          obtain ⟨rfl, rfl⟩ := Prod.mk.inj (Option.some.inj answers)
          rw [silent]
          exact { doomed with closed := still, unasked := fun asked => doomed.unasked (fewer asked) }
  | delivered packet member toClient fewer =>
      obtain ⟨unfinished, begun⟩ := doomed_receive network.receiver packet doomed.unfinished
        (doomed.full packet member) doomed.begun
      exact { doomed with
        unfinished := unfinished
        begun := begun
        full := fun other there => doomed.full other (fewer there) }
  | lost toServer toClient fewer less =>
      exact { doomed with
        unasked := fun asked => doomed.unasked (fewer asked)
        full := fun other there => doomed.full other (less there) }

theorem doomed_never_finishes (network : Network) (doomed : Doomed network) :
    ¬ Finishes fileSystem sock addr request network := by
  rintro ⟨events, final, outputs, taken, finished⟩
  have still := run_keeps (networkStep fileSystem sock addr request) Doomed
    (doomed_step fileSystem sock addr request) network final doomed events outputs taken
  exact nomatch still.unfinished.symm.trans finished

theorem own_datagram_answered (content : Bytes) (found : fileSystem request.name = some content)
    (bound : content.length < 512 * 32767) (network : Network) (sound : Sound content network)
    (open_ : OpenOn content network.serving)
    (unfinished : network.receiver.finished = false) :
    ∃ after, network.serving.serve fileSystem sock addr request network.receiver.datagram =
        some (after, filePacket content (network.receiver.expected - 1)) ∧
      ((OpenOn content after ∧
          (network.receiver.expected = 1 ∨ network.receiver.expected ≤ content.length / 512)) ∨
        (after.globals.file = none ∧ network.receiver.expected = content.length / 512 + 1)) := by
  have counted := sound.counted
  have limit := sound.limit
  have notLast := mt sound.finished.mpr (by simp [unfinished])
  have own : ∀ number, network.receiver.datagram = .ack number →
      number.toNat = network.receiver.expected - 1 := by
    intro number same
    rw [Receiver.datagram] at same
    split at same
    · exact nomatch same
    · rw [← ClientDatagram.ack.inj same, own_number network.receiver.expected (by omega)]
  obtain ⟨after, answer, served, answered⟩ := serve_answered fileSystem sock addr request content
    found network.serving network.receiver.datagram
    (fun number same => by rw [own number same]; omega) sound.file
  have was := (open_known content network.serving open_).1
  refine ⟨after, ?_⟩
  generalize asked : network.receiver.datagram = datagram at served answered
  cases answered with
  | opened now =>
      have first : network.receiver.expected = 1 := by
        by_contra later
        simp [Receiver.datagram, later] at asked
      rw [served, first]
      exact ⟨rfl, Or.inl ⟨now, Or.inl rfl⟩⟩
  | silent number closed => exact absurd closed was
  | full number inside _ now =>
      have same := own number asked
      rw [served, same]
      exact ⟨rfl, Or.inl ⟨now, Or.inr (by omega)⟩⟩
  | last number behind _ closes =>
      have same := own number asked
      rw [served, same]
      exact ⟨rfl, Or.inr ⟨closes, by omega⟩⟩

theorem one_block_further (content : Bytes) (found : fileSystem request.name = some content)
    (bound : content.length < 512 * 32767) (network : Network) (sound : Sound content network)
    (open_ : OpenOn content network.serving) (unfinished : network.receiver.finished = false) :
    ∃ events next outputs,
      run (networkStep fileSystem sock addr request) network events = some (next, outputs) ∧
        Sound content next ∧ next.receiver.expected = network.receiver.expected + 1 ∧
        next.toServer = network.toServer ∧ next.toClient = network.toClient ∧
        (next.receiver.finished = true ∨ OpenOn content next.serving) := by
  obtain ⟨after, served, outcome⟩ := own_datagram_answered fileSystem sock addr request content
    found bound network sound open_ unfinished
  have counted := sound.counted
  have sends : filePacket content (network.receiver.expected - 1) ≠ [] := data_packet_ne_nil _ _
  rcases receive_cases content bound network.receiver (network.receiver.expected - 1) sound.limit
      (by omega) with ⟨-, -, taken⟩ | ⟨impossible, -⟩
  swap
  · rcases impossible with finished | older
    · exact nomatch unfinished.symm.trans finished
    · omega
  let next : Network :=
    { network with
      serving := after
      receiver := network.receiver.receive (filePacket content (network.receiver.expected - 1)) }
  have moved : run (networkStep fileSystem sock addr request) network
      [.send, .serve network.receiver.datagram false,
        .deliver (filePacket content (network.receiver.expected - 1)) false] = some (next, []) := by
    simp [run, networkStep, served, sends, next]
  refine ⟨_, next, [], moved, ?_, ?_, rfl, rfl, ?_⟩
  · exact run_keeps (networkStep fileSystem sock addr request) (Sound content)
      (network_step_sound fileSystem sock addr request content found bound) network next sound _ []
      moved
  · simp only [next, taken]
  · rcases outcome with ⟨now, -⟩ | ⟨-, last⟩
    · exact Or.inr now
    · left
      have short := block_length 512 content (network.receiver.expected - 1)
      simp only [next, taken, decide_eq_true_eq]
      omega

theorem finishes_after (network next : Network) (events : List Event) (outputs : List Bytes)
    (taken : run (networkStep fileSystem sock addr request) network events = some (next, outputs))
    (finishes : Finishes fileSystem sock addr request next) :
    Finishes fileSystem sock addr request network := by
  obtain ⟨rest, final, others, later, ends⟩ := finishes
  exact ⟨events ++ rest, final, outputs ++ others,
    (run_append ..).mpr ⟨next, outputs, others, taken, later, rfl⟩, ends⟩

theorem open_finishes (content : Bytes) (found : fileSystem request.name = some content)
    (bound : content.length < 512 * 32767) (network : Network) (sound : Sound content network)
    (open_ : OpenOn content network.serving) : Finishes fileSystem sock addr request network := by
  induction left : content.length / 512 + 2 - network.receiver.expected generalizing network with
  | zero =>
      have := sound.limit
      exact ⟨[], network, [], rfl, sound.finished.mpr (by omega)⟩
  | succ left ih =>
      cases finished : network.receiver.finished with
      | true => exact ⟨[], network, [], rfl, finished⟩
      | false =>
          obtain ⟨events, next, outputs, taken, further, more, -, -, outcome⟩ :=
            one_block_further fileSystem sock addr request content found bound network sound open_
              finished
          rcases outcome with done | now
          · exact ⟨events, next, outputs, taken, done⟩
          · exact finishes_after fileSystem sock addr request network next events outputs taken
              (ih next further now (by omega))

/-- A request opens the file again, even in the middle of a transfer. -/
theorem asked_opens (content : Bytes) (found : fileSystem request.name = some content)
    (network : Network) (asked : .request ∈ network.toServer) :
    ∃ after, OpenOn content after ∧
      networkStep fileSystem sock addr request network (.serve .request false) =
        some ({ network with
          serving := after
          toServer := network.toServer.erase .request
          toClient := filePacket content 0 :: network.toClient }, []) := by
  obtain ⟨after, served, now⟩ := request_served fileSystem sock addr request content found
    network.serving
  have sends : filePacket content 0 ≠ [] := data_packet_ne_nil _ _
  exact ⟨after, now, by simp [networkStep, asked, served, sends]⟩

theorem asked_finishes (content : Bytes) (found : fileSystem request.name = some content)
    (bound : content.length < 512 * 32767) (network : Network) (sound : Sound content network)
    (asked : .request ∈ network.toServer) : Finishes fileSystem sock addr request network := by
  obtain ⟨after, now, moved⟩ := asked_opens fileSystem sock addr request content found network asked
  have further := network_step_sound fileSystem sock addr request content found bound network _ _ _
    sound moved
  refine finishes_after fileSystem sock addr request network _ [.serve .request false] []
    (by simp [run, moved]; rfl) ?_
  exact open_finishes fileSystem sock addr request content found bound _ further now

/-- The only short packet that a client can wait for is the last one. -/
theorem short_finishes (content : Bytes) (bound : content.length < 512 * 32767)
    (network : Network) (sound : Sound content network)
    (unfinished : network.receiver.finished = false) (packet : Bytes)
    (member : packet ∈ network.toClient) (short : (payload packet).length < 512) :
    Finishes fileSystem sock addr request network := by
  obtain ⟨index, older, rfl⟩ := sound.packets packet member
  have limit := sound.limit
  have notLast := mt sound.finished.mpr (by simp [unfinished])
  have carried : payload (filePacket content index) = block 512 content index := packet_payload _ _
  rw [carried] at short
  have behind := mt (block_full_iff content index).mpr (not_not.mpr short)
  rcases receive_cases content bound network.receiver index limit older with
    ⟨-, -, taken⟩ | ⟨impossible, -⟩
  · refine ⟨[.deliver (filePacket content index) false], _, _,
      by simp only [run, networkStep, if_pos member]; rfl, ?_⟩
    simp only [taken, decide_eq_true_eq]
    exact short
  · rcases impossible with finished | waits
    · exact absurd (unfinished.symm.trans finished) Bool.false_ne_true
    · omega

/-- At any point of any transfer: it can still finish unless the last packet got
lost, and then it never does. -/
theorem transfer_finishes_unless_doomed (content : Bytes)
    (found : fileSystem request.name = some content) (bound : content.length < 512 * 32767)
    (inBuf : InBuf) (opened : Nat) (events : List Event) :
    EveryPoint (networkStep fileSystem sock addr request) (startNetwork inBuf opened)
      (fun network _ => Finishes fileSystem sock addr request network ↔ ¬ Doomed network)
      events := by
  intro past reached network outputs taken
  have sound := network_sound fileSystem sock addr request content found bound inBuf opened events
    past reached network outputs taken
  refine ⟨fun finishes doomed =>
    doomed_never_finishes fileSystem sock addr request network doomed finishes, fun hope => ?_⟩
  cases finished : network.receiver.finished with
  | true => exact ⟨[], network, [], rfl, finished⟩
  | false =>
      cases file : network.serving.globals.file with
      | some stream =>
          exact open_finishes fileSystem sock addr request content found bound network sound
            ⟨stream, file, sound.file stream file⟩
      | none =>
          by_cases asked : .request ∈ network.toServer
          · exact asked_finishes fileSystem sock addr request content found bound network sound asked
          by_cases first : network.receiver.expected = 1
          · -- The client asks once more.
            refine finishes_after fileSystem sock addr request network _ [.send] []
              (by simp only [run, networkStep]; rfl) ?_
            refine asked_finishes fileSystem sock addr request content found bound _
              (send_sound content bound network sound) ?_
            rw [Receiver.datagram, if_pos first]
            exact List.mem_cons_self
          · have counted := sound.counted
            have short : ∃ packet ∈ network.toClient, (payload packet).length < 512 := by
              by_contra none
              refine hope ⟨finished, by omega, file, asked, fun packet member => ?_⟩
              exact Nat.le_of_not_lt fun short => none ⟨packet, member, short⟩
            obtain ⟨packet, member, short⟩ := short
            exact short_finishes fileSystem sock addr request content bound network sound finished
              packet member short

theorem two_blocks_finish :
    Finishes (fun _ => some (List.replicate 513 7)) 4 [127] (octetRequest 97 (by decide))
      (startNetwork InBuf.zeroed 0) := by
  have exact := transfer_finishes_unless_doomed (fun _ => some (List.replicate 513 7)) 4 [127]
    (octetRequest 97 (by decide)) _ rfl (by rw [List.length_replicate]; decide) InBuf.zeroed 0 [] []
    (List.prefix_refl _) _ _ rfl
  exact exact.mpr fun doomed => absurd doomed.begun (Nat.lt_irrefl 1)

/-! Which transfers a single loss can end. -/

theorem full_blocks_arrive (content : Bytes) (found : fileSystem request.name = some content)
    (bound : content.length < 512 * 32767) (network : Network) (sound : Sound content network)
    (open_ : OpenOn content network.serving)
    (before : network.receiver.expected ≤ content.length / 512 + 1) :
    ∃ events next outputs,
      run (networkStep fileSystem sock addr request) network events = some (next, outputs) ∧
        Sound content next ∧ next.receiver.expected = content.length / 512 + 1 ∧
        next.toServer = network.toServer ∧ next.toClient = network.toClient ∧
        OpenOn content next.serving := by
  induction left : content.length / 512 + 1 - network.receiver.expected generalizing network with
  | zero => exact ⟨[], network, [], rfl, sound, by omega, rfl, rfl, open_⟩
  | succ left ih =>
      have unfinished : network.receiver.finished = false :=
        Bool.eq_false_iff.mpr (mt sound.finished.mp (by omega))
      obtain ⟨events, next, outputs, taken, further, more, toServer, toClient, outcome⟩ :=
        one_block_further fileSystem sock addr request content found bound network sound open_
          unfinished
      have now : OpenOn content next.serving := by
        rcases outcome with done | now
        · have := further.finished.mp done
          omega
        · exact now
      obtain ⟨rest, final, others, later, holds, last, sameServer, sameClient, still⟩ :=
        ih next further now (by omega) (by omega)
      exact ⟨events ++ rest, final, outputs ++ others,
        (run_append ..).mpr ⟨next, outputs, others, taken, later, rfl⟩, holds, last,
        sameServer.trans toServer, sameClient.trans toClient, still⟩

theorem last_packet_lost (content : Bytes) (found : fileSystem request.name = some content)
    (bound : content.length < 512 * 32767) (long : 512 ≤ content.length) (network : Network)
    (sound : Sound content network) (open_ : OpenOn content network.serving)
    (last : network.receiver.expected = content.length / 512 + 1)
    (toServer : network.toServer = []) (toClient : network.toClient = []) :
    ∃ events next outputs,
      run (networkStep fileSystem sock addr request) network events = some (next, outputs) ∧
        Doomed next := by
  have unfinished : network.receiver.finished = false :=
    Bool.eq_false_iff.mpr (mt sound.finished.mp (by omega))
  obtain ⟨after, served, outcome⟩ := own_datagram_answered fileSystem sock addr request content
    found bound network sound open_ unfinished
  have sends : filePacket content (network.receiver.expected - 1) ≠ [] := data_packet_ne_nil _ _
  have closed : after.globals.file = none := by
    rcases outcome with ⟨-, early⟩ | ⟨closed, -⟩
    · omega
    · exact closed
  refine ⟨[.send, .serve network.receiver.datagram false,
    .losePacket (filePacket content (network.receiver.expected - 1))],
    { network with serving := after }, [], ?_, ?_⟩
  · simp [run, networkStep, served, sends]
  · refine ⟨unfinished, by simp only; omega, closed, ?_, ?_⟩
    · simp only [toServer]
      exact List.not_mem_nil
    · intro packet member
      simp only [toClient] at member
      exact absurd member List.not_mem_nil

/-- The server sends the last packet of a longer file once, and closes the file:
these are the transfers that a network can end for good. -/
theorem doomed_reachable_iff (content : Bytes) (found : fileSystem request.name = some content)
    (bound : content.length < 512 * 32767) (inBuf : InBuf) (opened : Nat) :
    (∃ events network outputs,
      run (networkStep fileSystem sock addr request) (startNetwork inBuf opened) events =
        some (network, outputs) ∧ Doomed network) ↔ 512 ≤ content.length := by
  constructor
  · rintro ⟨events, network, outputs, taken, doomed⟩
    have sound := network_sound fileSystem sock addr request content found bound inBuf opened events
      events (List.prefix_refl _) network outputs taken
    have begun := doomed.begun
    have limit := sound.limit
    have notLast := mt sound.finished.mpr (by simp [doomed.unfinished])
    omega
  · intro long
    let asking : Network := { startNetwork inBuf opened with toServer := [.request] }
    obtain ⟨after, now, moved⟩ := asked_opens fileSystem sock addr request content found asking
      (List.mem_singleton.mpr rfl)
    -- The first answer is lost too, so that nothing is on its way.
    let ready : Network := { startNetwork inBuf opened with serving := after }
    have reached : run (networkStep fileSystem sock addr request) (startNetwork inBuf opened)
        [.send, .serve .request false, .losePacket (filePacket content 0)] = some (ready, []) := by
      have sent : networkStep fileSystem sock addr request (startNetwork inBuf opened) .send =
        some (asking, []) := rfl
      simp only [run, sent, moved, Option.bind_some, Option.map_some]
      simp [networkStep, ready, asking, startNetwork]
    have sound := network_sound fileSystem sock addr request content found bound inBuf opened _ _
      (List.prefix_refl _) ready [] reached
    obtain ⟨events, next, outputs, taken, holds, last, toServer, toClient, still⟩ :=
      full_blocks_arrive fileSystem sock addr request content found bound ready sound now
        (by simp only [ready, startNetwork, Receiver.start]; omega)
    obtain ⟨rest, final, others, later, doomed⟩ := last_packet_lost fileSystem sock addr request
      content found bound long next holds still last toServer toClient
    exact ⟨_ ++ (events ++ rest), final, _, (run_append ..).mpr ⟨ready, [], _, reached,
      (run_append ..).mpr ⟨next, outputs, others, taken, later, rfl⟩, rfl⟩, doomed⟩

theorem two_blocks_doomed :
    ∃ events network outputs,
      run (networkStep (fun _ => some (List.replicate 513 7)) 4 [127] (octetRequest 97 (by decide)))
        (startNetwork InBuf.zeroed 0) events = some (network, outputs) ∧ Doomed network :=
  (doomed_reachable_iff (fun _ => some (List.replicate 513 7)) 4 [127] (octetRequest 97 (by decide))
    _ rfl (by rw [List.length_replicate]; decide) InBuf.zeroed 0).mpr
    (by rw [List.length_replicate]; decide)

/-- A client that starts over gets its file from whatever state the server is in,
also from one where another transfer was ended. -/
theorem restarted_transfer_finishes (content : Bytes)
    (found : fileSystem request.name = some content) (bound : content.length < 512 * 32767)
    (serving : Serving) :
    ∃ events final outputs,
      run (networkStep fileSystem sock addr request) ⟨serving, Receiver.start, [], []⟩ events =
        some (final, outputs) ∧
      final.receiver.finished = true ∧ final.receiver.data = content := by
  obtain ⟨after, now, moved⟩ := asked_opens fileSystem sock addr request content found
    ⟨serving, Receiver.start, [.request], []⟩ (List.mem_singleton.mpr rfl)
  obtain ⟨present, file⟩ := open_known content after now
  let opened : Network := ⟨after, Receiver.start, [], [filePacket content 0]⟩
  have sound : Sound content opened :=
    { counted := Nat.le_refl 1
      limit := Nat.le_add_left 1 _
      gathered := by simp [opened, Receiver.start]
      finished := by simp [opened, Receiver.start]
      acks := fun _ member => absurd member List.not_mem_nil
      packets := fun packet member =>
        ⟨0, Nat.one_pos, List.mem_singleton.mp member⟩
      file := file
      closed := fun none => absurd none present }
  have reached : run (networkStep fileSystem sock addr request) ⟨serving, Receiver.start, [], []⟩
      [.send, .serve .request false] = some (opened, []) := by
    have sent : networkStep fileSystem sock addr request ⟨serving, Receiver.start, [], []⟩ .send =
      some (⟨serving, Receiver.start, [.request], []⟩, []) := rfl
    simp only [run, sent, moved, Option.bind_some, Option.map_some]
    rfl
  obtain ⟨events, final, outputs, taken, finished⟩ :=
    open_finishes fileSystem sock addr request content found bound opened sound now
  have kept := run_keeps (networkStep fileSystem sock addr request) (Sound content)
    (network_step_sound fileSystem sock addr request content found bound) opened final sound events
    outputs taken
  exact ⟨_ ++ events, final, _, (run_append ..).mpr ⟨opened, [], outputs, reached, taken, rfl⟩,
    finished, sound_whole content final kept finished⟩

theorem foreign_file_restarted :
    ∃ events final outputs,
      run (networkStep (fun _ => some (List.replicate 513 7)) 4 [127] (octetRequest 97 (by decide)))
          ⟨⟨InBuf.zeroed, some ⟨5, [1, 2, 3], 3⟩, 6⟩, Receiver.start, [], []⟩ events =
        some (final, outputs) ∧
      final.receiver.finished = true ∧ final.receiver.data = List.replicate 513 7 :=
  restarted_transfer_finishes (fun _ => some (List.replicate 513 7)) 4 [127]
    (octetRequest 97 (by decide)) _ rfl (by rw [List.length_replicate]; decide) _

end Transfer

end Practise.TftpServer
