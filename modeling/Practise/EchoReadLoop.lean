import Practise.EchoServer

/-! The read loop of the EPOLLIN branch against an endless stream of answers of
the kernel. `EAGAIN` and the end of the stream leave the loop. Any other error
erases the client's entry and reads on, so as long as the error stays the loop
never comes back to `epoll_wait`. -/
namespace Practise.EchoServer
open Machine

/-- What `read` and, where a pass writes, `write` return in the passes of one
read loop. -/
structure Answers where
  read : Nat → ReadResult
  nwrite : Nat → Int
  below : Nat → UInt8
  possible : ∀ pass received, read pass = .data received →
    -1 ≤ nwrite pass ∧ nwrite pass ≤ (received.bytes.length / 2 : Nat)

def ReadResult.isData : ReadResult → Bool
  | .data _ => true
  | _ => false

def ReadResult.breaks : ReadResult → Bool
  | .eof | .failed .again | .failed .wouldBlock => true
  | .data _ | .failed (.other _) => false

/-- An error that does not mean "try again later". -/
def ReadResult.isLost : ReadResult → Bool
  | .failed (.other _) => true
  | _ => false

/-- The label of a pass: half of the data is written if the client has no entry. -/
def Answers.label (answers : Answers) (event : EpollEvent) (server : Server) (pass : Nat) : Label :=
  .read event.fd (answers.read pass)
    (if (answers.read pass).isData ∧ server.sessionMap event.fd = none
      then some (answers.nwrite pass) else none)
    (answers.below pass)

/-- The state after so many reads, if the loop makes them: it reads only where
it has not been left. -/
def readLoop (listenfd : Fd) (event : EpollEvent) (answers : Answers) (server : Server) :
    Nat → Option Server
  | 0 => some server
  | reads + 1 =>
      (readLoop listenfd event answers server reads).bind fun middle =>
        if middle.control = .read event then
          (step listenfd middle (answers.label event middle reads)).map Prod.fst
        else none

theorem data_goes_on (result : ReadResult) (data : result.isData = true) :
    result.breaks = false ∧ result.isLost = false := by
  cases result with
  | data received => exact ⟨rfl, rfl⟩
  | eof | failed errno => exact absurd data (by simp [ReadResult.isData])

theorem breaks_unless_lost (result : ReadResult) (nothing : result.isData = false) :
    result.breaks = !result.isLost := by
  cases result with
  | data received => exact nomatch nothing
  | eof => rfl
  | failed errno => cases errno <;> rfl

theorem decides_not_read (event other : EpollEvent) (sessionMap : SessionMap) (after : Control)
    (decides : Decides event sessionMap after) : after ≠ .read other := by
  cases decides <;> simp

theorem data_pass_taken (event : EpollEvent) (answers : Answers) (server : Server) (pass : Nat)
    (received : Received) (answered : answers.read pass = .data received) :
    ∃ next calls, readPass event (.data received)
        (if server.sessionMap event.fd = none then some (answers.nwrite pass) else none)
        (answers.below pass) server = some (next, calls) ∧ next.control = server.control := by
  rw [readPass, echo_data_stored]
  cases entry : server.sessionMap event.fd with
  | none =>
      have half : (received.bytes.take (received.bytes.length / 2)).length =
          received.bytes.length / 2 := List.length_take_of_le (Nat.div_le_self _ _)
      have allowed : writeResult (received.bytes.take (received.bytes.length / 2))
          (answers.nwrite pass) = true := by
        rw [write_result_iff, half]
        exact answers.possible pass received answered
      simp only [↓reduceIte, allowed, Option.map_some]
      exact ⟨_, _, rfl, rfl⟩
  | some queue => exact ⟨_, _, rfl, rfl⟩

theorem pass_taken (listenfd : Fd) (event : EpollEvent) (answers : Answers) (server : Server)
    (pass : Nat) (reading : server.control = .read event) :
    ∃ next calls, step listenfd server (answers.label event server pass) = some (next, calls) ∧
      (next.control = .read event ↔ (answers.read pass).breaks = false) := by
  have broken : ∀ server : Server, (epolloutBranch event server).control = .read event ↔
      true = false := fun server =>
    iff_of_false (decides_not_read event event _ _ (epollout_decides event server)) (by simp)
  simp only [step, reading, Answers.label, ↓reduceIte]
  cases answered : answers.read pass with
  | data received =>
      obtain ⟨next, calls, taken, same⟩ :=
        data_pass_taken event answers server pass received answered
      refine ⟨next, calls, ?_, iff_of_true (same.trans reading) rfl⟩
      simpa [ReadResult.isData] using taken
  | eof => exact ⟨_, _, rfl, broken _⟩
  | failed errno =>
      cases errno with
      | again => exact ⟨_, _, rfl, broken _⟩
      | wouldBlock => exact ⟨_, _, rfl, broken _⟩
      | other code => exact ⟨_, _, rfl, iff_of_true reading rfl⟩

theorem read_loop_unbroken (listenfd : Fd) (event : EpollEvent) (answers : Answers)
    (server : Server) (reading : server.control = .read event) (reads : Nat)
    (unbroken : ∀ pass < reads, (answers.read pass).breaks = false) :
    ∃ state, readLoop listenfd event answers server reads = some state ∧
      state.control = .read event := by
  induction reads with
  | zero => exact ⟨server, rfl, reading⟩
  | succ reads ih =>
      obtain ⟨middle, before, inside⟩ := ih fun pass below => unbroken pass (by omega)
      obtain ⟨next, calls, taken, stays⟩ :=
        pass_taken listenfd event answers middle reads inside
      refine ⟨next, ?_, stays.mpr (unbroken reads (by omega))⟩
      rw [readLoop, before, Option.bind_some, if_pos inside, taken, Option.map_some]

theorem read_loop_broken (listenfd : Fd) (event : EpollEvent) (answers : Answers)
    (server : Server) (reading : server.control = .read event) (first : Nat)
    (unbroken : ∀ pass < first, (answers.read pass).breaks = false)
    (breaks : (answers.read first).breaks = true) :
    (∃ state, readLoop listenfd event answers server (first + 1) = some state ∧
      state.control ≠ .read event) ∧
    ∀ more, readLoop listenfd event answers server (first + 2 + more) = none := by
  obtain ⟨middle, before, inside⟩ :=
    read_loop_unbroken listenfd event answers server reading first unbroken
  obtain ⟨next, calls, taken, stays⟩ := pass_taken listenfd event answers middle first inside
  have outside : next.control ≠ .read event := fun control => by
    rw [stays, breaks] at control
    exact nomatch control
  have after : readLoop listenfd event answers server (first + 1) = some next := by
    rw [readLoop, before, Option.bind_some, if_pos inside, taken, Option.map_some]
  refine ⟨⟨next, after, outside⟩, fun more => ?_⟩
  induction more with
  | zero => rw [readLoop, after, Option.bind_some, if_neg outside]
  | succ more ih => rw [← Nat.add_assoc, readLoop, ih, Option.bind_none]

/-- What is expected of the loop when `first` is the first read without data: it
is the last read, the loop is left, and a client that was lost has no entry. -/
structure StopsAtFirst (listenfd : Fd) (event : EpollEvent) (answers : Answers)
    (server : Server) (first : Nat) : Prop where
  last : ∀ reads, (readLoop listenfd event answers server reads).isSome → reads ≤ first + 1
  ends : ∃ reads state, readLoop listenfd event answers server reads = some state ∧
    state.control ≠ .read event
  erased : ∀ reads state, readLoop listenfd event answers server reads = some state →
    state.control ≠ .read event → (∃ pass < reads, (answers.read pass).isLost = true) →
    state.sessionMap event.fd = none

/-- From any state of the loop and on any stream with a first read that brings
no data, the loop stops there exactly if that read is no error but `EAGAIN`. -/
theorem read_loop_stops_exact (listenfd : Fd) (event : EpollEvent) (answers : Answers)
    (server : Server) (reading : server.control = .read event) (first : Nat)
    (earlier : ∀ pass < first, (answers.read pass).isData = true)
    (found : (answers.read first).isData = false) :
    StopsAtFirst listenfd event answers server first ↔
      (answers.read first).isLost = false := by
  have unbroken : ∀ pass < first, (answers.read pass).breaks = false :=
    fun pass below => (data_goes_on _ (earlier pass below)).1
  have decided := breaks_unless_lost _ found
  cases lost : (answers.read first).isLost with
  | true =>
      -- The lost connection is read from once more.
      refine iff_of_false (fun stops => ?_) (by simp)
      obtain ⟨state, again, inside⟩ := read_loop_unbroken listenfd event answers server reading
        (first + 1) fun pass below => by
          rcases Nat.lt_succ_iff_lt_or_eq.mp below with before | rfl
          · exact unbroken pass before
          · rw [decided, lost, Bool.not_true]
      obtain ⟨next, calls, taken, -⟩ := pass_taken listenfd event answers state (first + 1) inside
      have more : readLoop listenfd event answers server (first + 2) = some next := by
        rw [readLoop, again, Option.bind_some, if_pos inside, taken, Option.map_some]
      have bound := stops.last (first + 2) (by rw [more]; rfl)
      omega
  | false =>
      refine iff_of_true ?_ rfl
      obtain ⟨⟨state, after, outside⟩, never⟩ := read_loop_broken listenfd event answers server
        reading first unbroken (by rw [decided, lost, Bool.not_false])
      have last : ∀ reads, (readLoop listenfd event answers server reads).isSome →
          reads ≤ first + 1 := by
        intro reads made
        by_contra many
        obtain ⟨more, rfl⟩ := Nat.exists_eq_add_of_le (by omega : first + 2 ≤ reads)
        rw [never more] at made
        exact nomatch made
      refine ⟨last, ⟨first + 1, state, after, outside⟩, ?_⟩
      rintro reads final made - ⟨pass, below, failed⟩
      have bound := last reads (by rw [made]; rfl)
      rcases Nat.lt_succ_iff_lt_or_eq.mp (by omega : pass < first + 1) with before | rfl
      · rw [(data_goes_on _ (earlier pass before)).2] at failed
        exact nomatch failed
      · rw [lost] at failed
        exact nomatch failed

def Answers.constant (result : ReadResult) (nothing : result.isData = false) : Answers where
  read := fun _ => result
  nwrite := fun _ => -1
  below := fun _ => 0
  possible := by
    rintro pass received rfl
    exact nomatch nothing

def readable (fd : Fd) : EpollEvent := ⟨true, false, true, fd⟩

def Answers.twoBytes : Answers where
  read := fun pass => if pass = 0 then .data ⟨[1, 2], by decide, by decide⟩ else .failed .again
  nwrite := fun _ => 1
  below := fun _ => 0
  possible := by
    intro pass received answered
    split at answered
    · rw [← ReadResult.data.inj answered]
      decide
    · exact nomatch answered

theorem drained_socket_stops :
    ∃ server calls, run (step 3) (start 3 []) [.event (readable 5)] = some (server, calls) ∧
      StopsAtFirst 3 (readable 5) .twoBytes server 1 :=
  ⟨_, _, rfl, (read_loop_stops_exact 3 (readable 5) .twoBytes _ rfl 1
    (fun pass below => by rw [Nat.lt_one_iff.mp below]; rfl) rfl).mpr rfl⟩

/-- A connection reset, error 104, that every later call returns again: the loop
reads as often as one likes, and is never left. -/
theorem reset_connection_spins :
    ∃ server calls, run (step 3) (start 3 []) [.event (readable 5)] = some (server, calls) ∧
      (∀ reads, ∃ state, readLoop 3 (readable 5) (.constant (.failed (.other 104)) rfl) server
        reads = some state ∧ state.control = .read (readable 5)) ∧
      ¬ StopsAtFirst 3 (readable 5) (.constant (.failed (.other 104)) rfl) server 0 := by
  have spins : ∀ reads, ∃ state, readLoop 3 (readable 5) (.constant (.failed (.other 104)) rfl)
      (beginEvent 3 (readable 5) (start 3 [])) reads = some state ∧
        state.control = .read (readable 5) :=
    fun reads => read_loop_unbroken 3 (readable 5) _ _ rfl reads fun _ _ => rfl
  refine ⟨beginEvent 3 (readable 5) (start 3 []), [], rfl, spins, fun stops => ?_⟩
  obtain ⟨state, made, -⟩ := spins 2
  exact absurd (stops.last 2 (Option.isSome_iff_exists.mpr ⟨state, made⟩)) (by decide)

end Practise.EchoServer
