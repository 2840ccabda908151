import Practise.EchoRing

/-! The two programs of echo/libevent2 never come to rest. -/
namespace Practise.LibeventEcho
open Machine RelayRing

/-- The library transfers when it can: "written to the descriptor automatically
as it becomes available for writing", and reading is enabled on both sides. -/
structure Libevent.Prompt {Bev : Type} (lib : Libevent Bev) : Prop where
  writes : ∀ bev, lib.output bev ≠ [] → ∃ count, (lib.drain bev count).isSome
  reads : ∀ bev data, data ≠ [] → ∃ front, front <+: data ∧ (lib.fill bev front).isSome

section Library
variable {Bev : Type} (lib : Libevent Bev)

/-- Between two steps every input buffer is empty, since the callbacks drain
them, and nothing was aborted. -/
structure Running (ring : Ring UInt8 (Client Bev) (Server Bev)) : Prop where
  unaborted : ring.left.aborted = false
  drained : lib.input ring.left.bev = []
  served : ∀ fd bev, ring.right fd = some bev → lib.input bev = []

theorem update_served (server : Server Bev) (fd : Fd) (next : Bev)
    (served : ∀ fd bev, server fd = some bev → lib.input bev = [])
    (drained : lib.input next = []) :
    ∀ other bev, Function.update server fd (some next) other = some bev → lib.input bev = [] := by
  intro other bev found
  by_cases same : other = fd
  · subst same
    rw [Function.update_self, Option.some.injEq] at found
    exact found ▸ drained
  · rw [Function.update_of_ne same] at found
    exact served other bev found

section Documented
variable (documented : lib.Documented)
include documented

theorem moved_drains (bev next : Bev) (transfer : Transfer) (moved : Moved lib bev transfer next)
    (drained : lib.input bev = []) : lib.input next = [] := by
  cases moved with
  | received data done =>
      obtain ⟨filled, -, same⟩ := Option.map_eq_some_iff.mp done
      rw [← (Prod.mk.inj same).1]
      exact (read_cb_moves lib documented filled).1
  | sent count done =>
      obtain ⟨after, drains, same⟩ := Option.map_eq_some_iff.mp done
      rw [← (Prod.mk.inj same).1, (documented.drain bev count after drains).2.2.1]
      exact drained

theorem client_running (message : Bytes) (client next : Client Bev) (label : ClientLabel)
    (outputs : List Transfer) (ordinary : ∀ what, label = .event what → what = .connected)
    (unaborted : client.aborted = false) (drained : lib.input client.bev = [])
    (done : clientStep lib message client label = some (next, outputs)) :
    next.aborted = false ∧ lib.input next.bev = [] := by
  rcases client_step_cases lib message client next label outputs done with
    ⟨what, rfl, -, -, rfl⟩ | ⟨transfer, after, -, moved, -, rfl⟩
  · obtain rfl := ordinary what rfl
    exact ⟨unaborted, (documented.write client.bev message).1.trans drained⟩
  · exact ⟨unaborted, moved_drains lib documented client.bev after transfer moved drained⟩

theorem server_running (server next : Server Bev) (label : ServerLabel)
    (outputs : List (Fd × Transfer))
    (served : ∀ fd bev, server fd = some bev → lib.input bev = [])
    (done : serverStep lib server label = some (next, outputs)) :
    ∀ fd bev, next fd = some bev → lib.input bev = [] := by
  rcases server_step_cases lib server next label outputs done with
    ⟨fd, -, -, -, rfl⟩ | ⟨fd, bev, transfer, after, -, found, moved, -, rfl⟩
  · exact update_served lib server fd lib.socketNew served documented.new.1
  · exact update_served lib server fd after served
      (moved_drains lib documented bev after transfer moved (served fd bev found))

theorem turn_running (message : Bytes) (fd : Fd) (ring next : Ring UInt8 (Client Bev) (Server Bev))
    (turn : Turn ClientLabel ServerLabel) (back : Bytes)
    (ordinary : ∀ what, turn = .left (.event what) → what = .connected)
    (running : Running lib ring)
    (taken : ringStep (clientRelay lib message) (serverRelay lib fd) ring turn =
      some (next, back)) :
    Running lib next := by
  cases turn with
  | left label =>
      obtain ⟨outputs, moved, -, same, -⟩ := (left_turn_iff ..).mp taken
      obtain ⟨unaborted, drained⟩ := client_running lib documented message ring.left next.left
        label outputs (fun what report => ordinary what (report ▸ rfl)) running.unaborted
        running.drained moved
      exact ⟨unaborted, drained, same ▸ running.served⟩
  | right label =>
      obtain ⟨outputs, moved, -, same, -⟩ := (right_turn_iff ..).mp taken
      exact ⟨same ▸ running.unaborted, same ▸ running.drained,
        server_running lib documented ring.right next.right label outputs running.served moved⟩

theorem run_running (message : Bytes) (fd : Fd) (turns : List (Turn ClientLabel ServerLabel))
    (ordinary : ∀ what, .left (.event what) ∈ turns → what = .connected)
    (ring : Ring UInt8 (Client Bev) (Server Bev)) (returned : Bytes)
    (taken : run (ringStep (clientRelay lib message) (serverRelay lib fd))
      (startRing lib noConnections) turns = some (ring, returned)) :
    Running lib ring := by
  refine run_invariant (ringStep (clientRelay lib message) (serverRelay lib fd))
    (startRing lib noConnections)
    (fun _ turn => ∀ what, turn = .left (.event what) → what = .connected)
    (fun ring _ => Running lib ring) ⟨rfl, documented.new.1, fun _ _ found => nomatch found⟩ ?_
    turns (every_step_of_labels _ _ _ turns fun turn member what (same : turn = _) =>
      ordinary what (same ▸ member)) turns (List.prefix_refl _) ring returned taken
  intro ring _ turn next back running ordinary taken
  exact turn_running lib documented message fd ring next turn back ordinary running taken

end Documented

section Enabled
variable (prompt : lib.Prompt) (message : Bytes)
include prompt

theorem send_possible (bev : Bev) (some : lib.output bev ≠ []) :
    ∃ count next, send lib bev count = .some (next, .sent ((lib.output bev).take count)) := by
  obtain ⟨count, possible⟩ := prompt.writes bev some
  obtain ⟨next, drains⟩ := Option.isSome_iff_exists.mp possible
  exact ⟨count, next, by rw [send, drains, Option.map_some]⟩

theorem receive_possible (bev : Bev) (data : Bytes) (some : data ≠ []) :
    ∃ front next, front <+: data ∧ receive lib bev front = .some (next, .received front) := by
  obtain ⟨front, ahead, possible⟩ := prompt.reads bev data some
  obtain ⟨filled, fills⟩ := Option.isSome_iff_exists.mp possible
  exact ⟨front, readCb lib filled, ahead, by rw [receive, fills, Option.map_some]⟩

section Client
variable {State Label Output : Type} (server : Relay UInt8 State Label Output)
  (ring : Ring UInt8 (Client Bev) State) (connected : ring.left.connected = true)
  (unaborted : ring.left.aborted = false)
include connected unaborted

theorem client_sends (some : lib.output ring.left.bev ≠ []) :
    ∃ count, (ringStep (clientRelay lib message) server ring (.left (.sent count))).isSome := by
  obtain ⟨count, next, sends⟩ := send_possible lib prompt ring.left.bev some
  refine ⟨count, ?_⟩
  simp [ringStep, clientRelay, clientStep, connected, unaborted, sends, received]

theorem client_receives (some : ring.toLeft ≠ []) :
    ∃ data, (ringStep (clientRelay lib message) server ring (.left (.received data))).isSome := by
  obtain ⟨front, next, ahead, receives⟩ := receive_possible lib prompt ring.left.bev _ some
  refine ⟨front, ?_⟩
  simp [ringStep, clientRelay, clientStep, connected, unaborted, receives, received, ahead]

end Client

variable (fd : Fd) (ring : Ring UInt8 (Client Bev) (Server Bev)) (bev : Bev)
  (accepted : ring.right fd = some bev)
include accepted

theorem server_sends (some : lib.output bev ≠ []) :
    ∃ count, (ringStep (clientRelay lib message) (serverRelay lib fd) ring
      (.right (.sent fd count))).isSome := by
  obtain ⟨count, next, sends⟩ := send_possible lib prompt bev some
  refine ⟨count, ?_⟩
  simp [ringStep, serverRelay, serverStep, accepted, sends, received, onConnection]

theorem server_receives (some : ring.toRight ≠ []) :
    ∃ data, (ringStep (clientRelay lib message) (serverRelay lib fd) ring
      (.right (.received fd data))).isSome := by
  obtain ⟨front, next, ahead, receives⟩ := receive_possible lib prompt bev _ some
  refine ⟨front, ?_⟩
  simp [ringStep, serverRelay, serverStep, accepted, receives, received, onConnection, ahead]

end Enabled

/-- Once the client is connected and accepted, and as long as nobody hangs up,
there is always a byte that can move on. -/
theorem libevent_never_stuck (documented : lib.Documented) (prompt : lib.Prompt) (message : Bytes)
    (fd : Fd) (turns : List (Turn ClientLabel ServerLabel)) (nonempty : message ≠ [])
    (ordinary : ∀ what, .left (.event what) ∈ turns → what = .connected)
    (ring : Ring UInt8 (Client Bev) (Server Bev)) (returned : Bytes)
    (taken : run (ringStep (clientRelay lib message) (serverRelay lib fd))
      (startRing lib noConnections) turns = some (ring, returned))
    (connected : ring.left.connected = true) (accepted : ring.right fd ≠ none) :
    ∃ turn, turnMoves (ServerLabel.transfersOn fd) turn = true ∧
      (ringStep (clientRelay lib message) (serverRelay lib fd) ring turn).isSome := by
  have running := run_running lib documented message fd turns ordinary ring returned taken
  have both := ring_conserves lib documented message (serverRelay lib fd)
    (server_lawful lib documented fd) noConnections trivial rfl turns (fun _ _ => trivial) turns
    (List.prefix_refl _) ring returned taken
  have perm := circulates_perm message returned _ (both.2.after connected)
  obtain ⟨bev, found⟩ := Option.ne_none_iff_exists'.mp accepted
  have inside : content (clientRelay lib message) (serverRelay lib fd) ring ≠ [] :=
    fun empty => nonempty (List.nil_perm.mp (empty ▸ perm))
  by_cases toLeft : ring.toLeft = []
  · by_cases output : lib.output bev = []
    · by_cases toRight : ring.toRight = []
      · have last : lib.output ring.left.bev ≠ [] := by
          intro none
          refine inside ?_
          simp [content, clientRelay, serverRelay, held, toLeft, toRight, found, output, none,
            running.drained, running.served fd bev found]
        obtain ⟨count, possible⟩ := client_sends lib prompt message (serverRelay lib fd) ring
          connected running.unaborted last
        exact ⟨.left (.sent count), rfl, possible⟩
      · obtain ⟨data, possible⟩ := server_receives lib prompt message fd ring bev found toRight
        exact ⟨.right (.received fd data), by simp [turnMoves, ServerLabel.transfersOn], possible⟩
    · obtain ⟨count, possible⟩ := server_sends lib prompt message fd ring bev found output
      exact ⟨.right (.sent fd count), by simp [turnMoves, ServerLabel.transfersOn], possible⟩
  · obtain ⟨data, possible⟩ := client_receives lib prompt message (serverRelay lib fd) ring connected
      running.unaborted toLeft
    exact ⟨.left (.received data), rfl, possible⟩

end Library

theorem list_buffers_prompt : listBuffers.Prompt where
  writes := fun bev some => ⟨1, by
    have possible : 0 < 1 ∧ 1 ≤ bev.output.length := ⟨Nat.one_pos, List.length_pos_of_ne_nil some⟩
    simp [listBuffers, possible]⟩
  reads := fun bev data some => ⟨data, List.prefix_refl data, by simp [listBuffers, some]⟩

/-- Two bytes, one of which has come back. -/
def oneLap : List (Turn ClientLabel ServerLabel) :=
  [.left (.event .connected), .right (.accept 5), .left (.sent 1), .right (.received 5 [1]),
    .left (.sent 1), .right (.sent 5 1), .left (.received [1]), .right (.received 5 [2])]

/-- After the one lap a byte of the message can move on. -/
theorem one_lap_goes_on :
    ∃ ring returned, run (ringStep (clientRelay listBuffers [1, 2]) (serverRelay listBuffers 5))
        (startRing listBuffers noConnections) oneLap = some (ring, returned) ∧
      ∃ turn, turnMoves (ServerLabel.transfersOn 5) turn = true ∧
        (ringStep (clientRelay listBuffers [1, 2]) (serverRelay listBuffers 5) ring
          turn).isSome := by
  refine ⟨_, _, rfl, libevent_never_stuck listBuffers list_buffers_documented list_buffers_prompt
    [1, 2] 5 oneLap (by simp) ?_ _ _ rfl rfl ?_⟩
  · intro what member
    simpa [oneLap] using member
  · exact Option.some_ne_none _

end Practise.LibeventEcho
