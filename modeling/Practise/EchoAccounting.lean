import Practise.EchoServer

/-! Byte accounting of the echo server. Each client is a FIFO pipe: one step
moves bytes from the input through the queue to the output. The queue chunks
stay between 1 and 1024 bytes as long as no write fails, which also keeps the
assertion of the EPOLLOUT branch out of reach. -/
namespace Practise.EchoServer
open Machine

def Label.writeFails : Label → Bool
  | .read _ _ (some nwrite) _ => decide (nwrite = -1)
  | .write _ nwrite => decide (nwrite = -1)
  | _ => false

/-- A full read whose first half could not be written. -/
def Label.overfills : Label → Bool
  | .read _ (.data received) (some nwrite) _ =>
      decide (received.bytes.length = 1024) && decide (nwrite = -1)
  | _ => false

def Label.readFails : Label → Bool
  | .read _ (.failed (.other _)) _ _ => true
  | _ => false

def Conserved (server : Server) (calls : List Call) : Prop :=
  ∀ fd, bytesOut fd calls ++ pending server.sessionMap fd = bytesIn fd calls

def ChunksWithin (limit : Nat) (sessionMap : SessionMap) : Prop :=
  ∀ fd queue, sessionMap fd = some queue → ∀ chunk ∈ queue, 0 < chunk.length ∧ chunk.length ≤ limit

@[simp] theorem bytes_in_append (fd : Fd) (first later : List Call) :
    bytesIn fd (first ++ later) = bytesIn fd first ++ bytesIn fd later := by
  simp [bytesIn]

@[simp] theorem bytes_out_append (fd : Fd) (first later : List Call) :
    bytesOut fd (first ++ later) = bytesOut fd first ++ bytesOut fd later := by
  simp [bytesOut]

theorem pending_update_same (sessionMap : SessionMap) (fd : Fd) (queue : List Bytes) :
    pending (Function.update sessionMap fd (some queue)) fd = queue.flatten := by
  simp [pending]

theorem pending_update_other (sessionMap : SessionMap) (fd other : Fd)
    (entry : Option (List Bytes)) (different : other ≠ fd) :
    pending (Function.update sessionMap fd entry) other = pending sessionMap other := by
  simp [pending, different]

theorem pending_push_same (sessionMap : SessionMap) (fd : Fd) (data : Bytes) :
    pending (push sessionMap fd data) fd = pending sessionMap fd ++ data := by
  simp [push, pending]

theorem pending_push_other (sessionMap : SessionMap) (fd other : Fd) (data : Bytes)
    (different : other ≠ fd) :
    pending (push sessionMap fd data) other = pending sessionMap other :=
  pending_update_other sessionMap fd other _ different

theorem pending_front (sessionMap : SessionMap) (fd : Fd) (outData : Bytes) (rest : List Bytes)
    (front : sessionMap fd = some (outData :: rest)) :
    pending sessionMap fd = outData ++ rest.flatten := by
  simp [pending, front]

theorem size_t_of_nonneg (value : Int) (lower : 0 ≤ value) (upper : value ≤ 1024) :
    sizeT value = value.toNat := by
  unfold sizeT
  omega

theorem size_t_minus_one : sizeT (-1) = 18446744073709551615 := by decide

theorem chunks_within_update (limit : Nat) (sessionMap : SessionMap) (fd : Fd)
    (queue : List Bytes) (within : ChunksWithin limit sessionMap)
    (chunks : ∀ chunk ∈ queue, 0 < chunk.length ∧ chunk.length ≤ limit) :
    ChunksWithin limit (Function.update sessionMap fd (some queue)) := by
  intro other entry found
  by_cases same : other = fd
  · subst other
    simp only [Function.update_self, Option.some.injEq] at found
    subst entry
    exact chunks
  · rw [Function.update_of_ne same] at found
    exact within other entry found

theorem chunks_within_push (limit : Nat) (sessionMap : SessionMap) (fd : Fd) (data : Bytes)
    (within : ChunksWithin limit sessionMap) (positive : 0 < data.length)
    (small : data.length ≤ limit) : ChunksWithin limit (push sessionMap fd data) := by
  apply chunks_within_update limit sessionMap fd _ within
  intro chunk member
  rcases List.mem_append.mp member with old | new
  · cases entry : sessionMap fd with
    | none => simp [entry] at old
    | some queue => exact within fd queue entry chunk (by simpa [entry] using old)
  · rw [List.mem_singleton.mp new]
    exact ⟨positive, small⟩

/-- No chunk is ever empty. A chunk has at most 1024 bytes unless a failed
write has put one byte too many in front of a full read. -/
theorem effect_chunks_within (limit : Nat) (before after : SessionMap) (label : Label)
    (calls : List Call) (within : ChunksWithin limit before) (room : 1024 ≤ limit)
    (spare : label.overfills = true → 1025 ≤ limit)
    (effect : Effect before label after calls) : ChunksWithin limit after := by
  cases effect with
  | event | accept | stopped | overran => exact within
  | dropped fd =>
      intro other queue found
      by_cases same : other = fd
      · simp [erase, same] at found
      · rw [erase, Function.update_of_ne same] at found
        exact within other queue found
  | direct fd received nwrite below absent lower upper =>
      have positive := received.positive
      have small := received.bounded
      have longer : received.bytes.length = 1024 → nwrite = -1 → 1025 ≤ limit := by
        simpa [Label.overfills] using spare
      apply chunks_within_push limit before fd _ within
      · simp only [List.length_drop, List.length_cons]
        omega
      · simp only [List.length_drop, List.length_cons]
        omega
  | queued fd received =>
      exact chunks_within_push limit before fd _ within received.positive
        (received.bounded.trans room)
  | shortened fd outData rest nwrite front lower upper small short =>
      have old := within fd _ front
      apply chunks_within_update limit before fd _ within
      intro chunk member
      rcases List.mem_cons.mp member with same | tail
      · have size := (old outData List.mem_cons_self).2
        rw [same, List.length_drop]
        omega
      · exact old chunk (List.mem_cons_of_mem outData tail)
  | popped fd outData rest nwrite front =>
      exact chunks_within_update limit before fd _ within
        fun chunk member => within fd _ front chunk (List.mem_cons_of_mem outData member)

theorem overfills_fails (label : Label) (overfills : label.overfills = true) :
    label.writeFails = true := by
  unfold Label.overfills at overfills
  split at overfills
  · exact (Bool.and_eq_true_iff.mp overfills).2
  · exact absurd overfills (by simp)

theorem start_chunks_within (limit : Nat) (listenfd : Fd) (readbuf : Bytes) :
    ChunksWithin limit (start listenfd readbuf).sessionMap := by
  intro fd queue found
  simp [start] at found

/-- The bound that holds of every reachable state, failed writes included. -/
theorem run_chunks_within (listenfd : Fd) (readbuf : Bytes) (labels : List Label) :
    EveryPoint (step listenfd) (start listenfd readbuf)
      (fun server _ => ChunksWithin 1025 server.sessionMap) labels := by
  refine run_invariant (step listenfd) _ (fun _ _ => True) _
    (start_chunks_within 1025 listenfd readbuf) ?_ labels
    (every_step_of_labels _ _ _ labels fun _ _ => trivial)
  intro server past label next calls within _ taken
  exact effect_chunks_within 1025 _ _ label calls within (by omega) (fun _ => le_rfl)
    (step_effect listenfd server next label calls taken)

/-- One step of a client pipe: what was queued and then read equals what was
written and then queued. -/
theorem effect_conserves (before after : SessionMap) (label : Label) (calls : List Call)
    (bounded : ChunksWithin 1024 before) (succeeds : label.writeFails = false)
    (live : label.readFails = false) (effect : Effect before label after calls) (fd : Fd) :
    pending before fd ++ bytesIn fd calls = bytesOut fd calls ++ pending after fd := by
  cases effect with
  | event | accept | stopped => simp [bytesIn, bytesOut]
  | dropped => simp [Label.readFails] at live
  | direct client received nwrite below absent lower upper =>
      have nonneg : nwrite ≠ -1 := by simpa [Label.writeFails] using succeeds
      by_cases same : client = fd
      · subst client
        -- Without -1 the copied range starts right behind the bytes written.
        have unsent : (nwrite + 1).toNat = nwrite.toNat + 1 := by omega
        have sent : min nwrite.toNat (received.bytes.length / 2) = nwrite.toNat := by omega
        rw [pending_push_same, unsent, List.drop_succ_cons]
        simp [bytesIn, bytesOut, pending, absent, List.take_take, sent]
      · rw [pending_push_other before client fd _ (Ne.symm same)]
        simp [bytesIn, bytesOut, same]
  | queued client received below queue present =>
      by_cases same : client = fd
      · subst client
        rw [pending_push_same]
        simp [bytesIn, bytesOut]
      · rw [pending_push_other before client fd _ (Ne.symm same)]
        simp [bytesIn, bytesOut, same]
  | shortened client outData rest nwrite front lower upper small short =>
      have nonneg : nwrite ≠ -1 := by simpa [Label.writeFails] using succeeds
      by_cases same : client = fd
      · subst client
        rw [pending_update_same, pending_front before fd outData rest front,
          size_t_of_nonneg nwrite (by omega) small]
        simp only [bytesIn, bytesOut, List.flatMap_cons, List.flatMap_nil, List.append_nil,
          ↓reduceIte, List.flatten_cons, ← List.append_assoc, List.take_append_drop]
      · rw [pending_update_other before client fd _ (Ne.symm same)]
        simp [bytesIn, bytesOut, same]
  | popped client outData rest nwrite front lower upper small whole =>
      have nonneg : nwrite ≠ -1 := by simpa [Label.writeFails] using succeeds
      by_cases same : client = fd
      · subst client
        rw [size_t_of_nonneg nwrite (by omega) small] at whole
        have all : outData.take nwrite.toNat = outData := List.take_of_length_le (by omega)
        rw [pending_update_same, pending_front before fd outData rest front]
        simp [bytesIn, bytesOut, all]
      · rw [pending_update_other before client fd _ (Ne.symm same)]
        simp [bytesIn, bytesOut, same]
  | overran client outData rest nwrite front upper large =>
      -- The assertion cannot fail: no chunk is that long.
      have limit := (bounded client _ front outData List.mem_cons_self).2
      omega

structure Balanced (server : Server) (calls : List Call) : Prop where
  conserved : Conserved server calls
  bounded : ChunksWithin 1024 server.sessionMap

theorem start_balanced (listenfd : Fd) (readbuf : Bytes) :
    Balanced (start listenfd readbuf) [] where
  conserved := fun _ => rfl
  bounded := start_chunks_within 1024 listenfd readbuf

theorem step_balanced (listenfd : Fd) (server next : Server) (past calls : List Call)
    (label : Label) (balanced : Balanced server past) (live : label.readFails = false)
    (succeeds : label.writeFails = false)
    (taken : step listenfd server label = some (next, calls)) :
    Balanced next (past ++ calls) := by
  have effect := step_effect listenfd server next label calls taken
  refine ⟨fun fd => ?_, effect_chunks_within 1024 _ _ label calls balanced.bounded le_rfl
    (fun overfills => ?_) effect⟩
  swap
  · exact absurd (overfills_fails label overfills) (by simp [succeeds])
  calc bytesOut fd (past ++ calls) ++ pending next.sessionMap fd
      = bytesOut fd past ++ (bytesOut fd calls ++ pending next.sessionMap fd) := by simp
    _ = bytesOut fd past ++ pending server.sessionMap fd ++ bytesIn fd calls := by
        rw [← effect_conserves _ _ label calls balanced.bounded succeeds live effect fd,
          List.append_assoc]
    _ = bytesIn fd (past ++ calls) := by rw [balanced.conserved fd, bytes_in_append]

/-- No byte is lost, duplicated or reordered at any point of a run without
failed writes and without broken connections. -/
theorem run_conserves (listenfd : Fd) (readbuf : Bytes) (labels : List Label)
    (succeeds : ∀ label ∈ labels, label.writeFails = false)
    (live : ∀ label ∈ labels, label.readFails = false) :
    EveryPoint (step listenfd) (start listenfd readbuf) Conserved labels := by
  have balanced : EveryPoint (step listenfd) (start listenfd readbuf) Balanced labels := by
    refine run_invariant (step listenfd) _
      (fun _ label => label.readFails = false ∧ label.writeFails = false) Balanced
      (start_balanced listenfd readbuf) ?_ labels
      (every_step_of_labels _ _ _ labels fun label member =>
        ⟨live label member, succeeds label member⟩)
    intro server past label next calls before allowed taken
    exact step_balanced listenfd server next past calls label before allowed.1 allowed.2 taken
  intro past reached server calls taken
  exact (balanced past reached server calls taken).conserved

def readReturns (bytes : Bytes) : ReadResult :=
  if size : 0 < bytes.length ∧ bytes.length ≤ 1024 then .data ⟨bytes, size.1, size.2⟩ else .eof

def clientEvent (fd : Fd) (epollin epollout : Bool) : Label :=
  .event { epollin := epollin, epollout := epollout, epollet := false, fd := fd }

/-- Two interleaved clients: odd and single reads, short and full writes. -/
def interleavedRun : List Label :=
  [clientEvent 5 true false, .read 5 (readReturns [1, 2, 3]) (some 1) 0,
    .read 5 (.failed .again) none 0,
    clientEvent 6 true true, .read 6 (readReturns [9]) (some 0) 0,
    .read 6 (readReturns [8, 7]) none 0, .read 6 .eof none 0, .write 6 1,
    clientEvent 5 false true, .write 5 1]

theorem interleaved_run_conserves :
    (run (step 3) (start 3 []) interleavedRun).isSome ∧
      EveryPoint (step 3) (start 3 []) Conserved interleavedRun :=
  ⟨rfl, run_conserves 3 [] interleavedRun (by decide) (by decide)⟩

/-! A write that returns -1. At the read site `readbuf+nwrite` and
`nread-nwrite` shift the copied range one byte down and lengthen it by one; at
the EPOLLOUT site the comparison with `size_t` takes -1 for a huge count. -/

/-- What a failed write should leave behind, per call site. -/
def Intact (before : SessionMap) (label : Label) (after : SessionMap) : Prop :=
  match label with
  | .read fd (.data received) _ _ => pending after fd = pending before fd ++ received.bytes
  | .write _ _ => after = before
  | _ => True

theorem effect_not_intact (before after : SessionMap) (label : Label) (calls : List Call)
    (fails : label.writeFails = true) (effect : Effect before label after calls) :
    ¬ Intact before label after := by
  cases effect with
  | event | accept | stopped | dropped | queued => simp [Label.writeFails] at fails
  | direct fd received nwrite below absent =>
      have minus : nwrite = -1 := by simpa [Label.writeFails] using fails
      subst minus
      -- The byte below the buffer is queued too: one byte too many.
      intro intact
      have lengths := congrArg List.length intact
      rw [pending_push_same] at lengths
      simp at lengths
  | shortened fd outData rest nwrite front lower upper small short =>
      have minus : nwrite = -1 := by simpa [Label.writeFails] using fails
      subst minus
      intro intact
      have entry := congrFun intact fd
      rw [Function.update_self, front] at entry
      have lengths := congrArg List.length (List.cons.inj (Option.some.inj entry)).1
      rw [List.length_drop, size_t_minus_one] at lengths
      omega
  | popped fd outData rest nwrite front =>
      intro intact
      have entry := congrFun intact fd
      rw [Function.update_self, front] at entry
      exact List.cons_ne_self outData rest (Option.some.inj entry).symm
  | overran fd outData rest nwrite front upper large =>
      have minus : nwrite = -1 := by simpa [Label.writeFails] using fails
      omega

theorem effect_unbalanced (before after : SessionMap) (label : Label) (calls : List Call)
    (bounded : ChunksWithin 1024 before) (fails : label.writeFails = true)
    (effect : Effect before label after calls) :
    ∃ fd, pending before fd ++ bytesIn fd calls ≠ bytesOut fd calls ++ pending after fd := by
  cases effect with
  | event | accept | stopped | dropped | queued => simp [Label.writeFails] at fails
  | direct fd received nwrite below absent =>
      have minus : nwrite = -1 := by simpa [Label.writeFails] using fails
      subst minus
      refine ⟨fd, fun equal => ?_⟩
      have lengths := congrArg List.length equal
      rw [pending_push_same] at lengths
      simp [bytesIn, bytesOut] at lengths
  | shortened fd outData rest nwrite front lower upper small short =>
      have minus : nwrite = -1 := by simpa [Label.writeFails] using fails
      -- As a size_t, -1 is not below the size of any bounded chunk.
      have limit := (bounded fd _ front outData List.mem_cons_self).2
      rw [minus, size_t_minus_one] at short
      omega
  | popped fd outData rest nwrite front =>
      have minus : nwrite = -1 := by simpa [Label.writeFails] using fails
      subst minus
      have positive := (bounded fd _ front outData List.mem_cons_self).1
      refine ⟨fd, fun equal => ?_⟩
      have lengths := congrArg List.length equal
      rw [pending_update_same, pending_front before fd outData rest front] at lengths
      have empty : outData = [] := by simpa [bytesIn, bytesOut] using lengths
      simp [empty] at positive
  | overran fd outData rest nwrite front upper large =>
      have minus : nwrite = -1 := by simpa [Label.writeFails] using fails
      omega

theorem step_unbalanced (listenfd : Fd) (server next : Server) (past calls : List Call)
    (label : Label) (balanced : Balanced server past) (fails : label.writeFails = true)
    (taken : step listenfd server label = some (next, calls)) :
    ¬ Conserved next (past ++ calls) := by
  have effect := step_effect listenfd server next label calls taken
  obtain ⟨fd, differ⟩ := effect_unbalanced _ _ label calls balanced.bounded fails effect
  intro conserved
  have after := conserved fd
  rw [bytes_out_append, bytes_in_append, ← balanced.conserved fd, List.append_assoc,
    List.append_assoc] at after
  exact differ (List.append_cancel_left after).symm

/-- No failed write leaves the accounting intact, at either call site. Along a
run whose connections stay open the accounting holds at every point exactly
when no write of the run fails. -/
theorem failed_writes_exact (listenfd : Fd) (readbuf : Bytes) :
    (∀ server label next calls, step listenfd server label = some (next, calls) →
      label.writeFails = true → ¬ Intact server.sessionMap label next.sessionMap) ∧
    ∀ labels : List Label, (∀ label ∈ labels, label.readFails = false) →
      (run (step listenfd) (start listenfd readbuf) labels).isSome →
      (EveryPoint (step listenfd) (start listenfd readbuf) Conserved labels ↔
        ∀ label ∈ labels, label.writeFails = false) := by
  constructor
  · intro server label next calls taken fails
    exact effect_not_intact _ _ label calls fails (step_effect listenfd server next label calls taken)
  · intro labels live taken
    have exact_steps := every_point_iff (step listenfd) (start listenfd readbuf)
      (fun label => label.readFails = false) (fun _ label => label.writeFails = false)
      Balanced Conserved (start_balanced listenfd readbuf)
      (fun server past balanced => balanced.conserved)
      (fun server past label next calls balanced open_ succeeds taken =>
        step_balanced listenfd server next past calls label balanced open_ succeeds taken)
      (fun server past label next calls balanced _ fails taken =>
        step_unbalanced listenfd server next past calls label balanced (by simpa using fails) taken)
      labels live taken
    rw [exact_steps]
    exact every_step_labels_iff (step listenfd) (start listenfd readbuf)
      (fun label => label.writeFails = false) labels taken

/-- Client 5 sends two bytes and every write on its socket returns -1. -/
def failedWriteRun : List Label :=
  [clientEvent 5 true false, .read 5 (readReturns [97, 98]) (some (-1)) 42,
    .read 5 (.failed .again) none 42, clientEvent 5 false true, .write 5 (-1)]

theorem failed_writes_exact_here :
    (∀ label ∈ failedWriteRun, label.readFails = false) ∧
      (run (step 3) (start 3 []) failedWriteRun).isSome ∧
      ¬ EveryPoint (step 3) (start 3 []) Conserved failedWriteRun := by
  have live : ∀ label ∈ failedWriteRun, label.readFails = false := by decide
  have taken : (run (step 3) (start 3 []) failedWriteRun).isSome := rfl
  refine ⟨live, taken, fun holds => ?_⟩
  have succeeds := ((failed_writes_exact 3 []).2 failedWriteRun live taken).mp holds
  exact absurd (succeeds (.write 5 (-1)) (by simp [failedWriteRun])) (by decide)

/-- The failed write of the read pass queues the byte below `readbuf` in front
of the data; the failed write of the EPOLLOUT branch then drops the chunk. -/
theorem failed_write_invents_and_loses :
    (∃ server calls, run (step 3) (start 3 []) (failedWriteRun.take 2) = some (server, calls) ∧
      bytesIn 5 calls = [97, 98] ∧ bytesOut 5 calls = [] ∧
      pending server.sessionMap 5 = [42, 97, 98] ∧ ¬ Conserved server calls) ∧
    ∃ server calls, run (step 3) (start 3 []) failedWriteRun = some (server, calls) ∧
      bytesIn 5 calls = [97, 98] ∧ bytesOut 5 calls = [] ∧
      pending server.sessionMap 5 = [] ∧ ¬ Conserved server calls :=
  ⟨⟨_, _, rfl, rfl, rfl, rfl, fun conserved => absurd (conserved 5) (by decide)⟩,
    _, _, rfl, rfl, rfl, rfl, fun conserved => absurd (conserved 5) (by decide)⟩

/-- The sizes that the assertion of the EPOLLOUT branch relies on, and that it
has not failed. -/
def ChunksBounded (server : Server) (_ : List Call) : Prop :=
  ChunksWithin 1024 server.sessionMap ∧ ∀ event, server.control ≠ .aborted event

theorem step_not_aborted (listenfd : Fd) (server next : Server) (label : Label)
    (calls : List Call) (bounded : ChunksWithin 1024 server.sessionMap)
    (taken : step listenfd server label = some (next, calls)) (event : EpollEvent) :
    next.control ≠ .aborted event := by
  intro aborted
  have effect := step_effect listenfd server next label calls taken
  have moves := step_moves listenfd server next label calls taken
  rw [aborted] at moves
  generalize server.control = before at moves
  generalize next.sessionMap = after at effect moves
  cases moves with
  | writable _ _ _ decides | accepted _ _ _ _ _ decides | stops _ _ _ _ _ _ decides =>
      exact nomatch decides
  | aborts nwrite _ large =>
      cases effect with
      | shortened _ _ _ _ _ _ _ small | popped _ _ _ _ _ _ _ small => omega
      | overran outData _ _ _ front upper =>
          have limit := (bounded _ _ front _ List.mem_cons_self).2
          omega

theorem step_chunks_bounded (listenfd : Fd) (server next : Server) (past calls : List Call)
    (label : Label) (bounded : ChunksBounded server past) (fits : label.overfills = false)
    (taken : step listenfd server label = some (next, calls)) :
    ChunksBounded next (past ++ calls) := by
  refine ⟨?_, step_not_aborted listenfd server next label calls bounded.1 taken⟩
  refine effect_chunks_within 1024 _ _ label calls bounded.1 le_rfl (fun overfills => ?_)
    (step_effect listenfd server next label calls taken)
  rw [fits] at overfills
  exact nomatch overfills

theorem effect_overfills (before after : SessionMap) (label : Label) (calls : List Call)
    (overfills : label.overfills = true) (effect : Effect before label after calls) :
    ¬ ChunksWithin 1024 after := by
  cases effect with
  | event | accept | stopped | dropped | queued | shortened | popped | overran =>
      simp [Label.overfills] at overfills
  | direct fd received nwrite below absent =>
      obtain ⟨full, rfl⟩ : received.bytes.length = 1024 ∧ nwrite = -1 := by
        simpa [Label.overfills] using overfills
      intro within
      have entry : push before fd ((below :: received.bytes).drop ((-1 : Int) + 1).toNat) fd =
          some [below :: received.bytes] := by
        simp [push, absent]
      have size := (within fd _ entry _ List.mem_cons_self).2
      rw [List.length_cons, full] at size
      omega

/-- The chunks stay between 1 and 1024 bytes and the assertion holds at every
point of a run, exactly if no full read is followed by a failed write. -/
theorem chunk_bound_exact (listenfd : Fd) (readbuf : Bytes) (labels : List Label)
    (taken : (run (step listenfd) (start listenfd readbuf) labels).isSome) :
    EveryPoint (step listenfd) (start listenfd readbuf) ChunksBounded labels ↔
      ∀ label ∈ labels, label.overfills = false := by
  have exact_steps := every_point_iff (step listenfd) (start listenfd readbuf) (fun _ => True)
    (fun _ label => label.overfills = false) ChunksBounded ChunksBounded
    ⟨start_chunks_within 1024 listenfd readbuf, fun _ impossible => (nomatch impossible)⟩
    (fun _ _ bounded => bounded)
    (fun server past label next calls bounded _ fits taken =>
      step_chunks_bounded listenfd server next past calls label bounded fits taken)
    (fun server past label next calls _ _ overfills taken bounded =>
      effect_overfills _ _ label calls (by simpa using overfills)
        (step_effect listenfd server next label calls taken) bounded.1)
    labels (fun _ _ => trivial) taken
  rw [exact_steps]
  exact every_step_labels_iff (step listenfd) (start listenfd readbuf)
    (fun label => label.overfills = false) labels taken

theorem interleaved_run_bounded :
    (run (step 3) (start 3 []) interleavedRun).isSome ∧
      EveryPoint (step 3) (start 3 []) ChunksBounded interleavedRun :=
  ⟨rfl, (chunk_bound_exact 3 [] interleavedRun rfl).mpr (by decide)⟩

/-- Client 5 sends 1024 bytes at once, nothing can be written yet, and later
everything that is queued. -/
def overfullRun : List Label :=
  [clientEvent 5 true false, .read 5 (readReturns (List.replicate 1024 97)) (some (-1)) 42,
    .read 5 (.failed .again) none 42, clientEvent 5 false true, .write 5 1025]

/-- The chunk of 1025 bytes is written whole, and the assertion fails. -/
theorem overfull_chunk_aborts :
    (∃ server calls, run (step 3) (start 3 []) overfullRun = some (server, calls) ∧
      server.control = .aborted ⟨false, true, false, 5⟩) ∧
    ¬ EveryPoint (step 3) (start 3 []) ChunksBounded overfullRun := by
  have aborts : (run (step 3) (start 3 []) overfullRun).map (fun final => final.1.control) =
      some (.aborted ⟨false, true, false, 5⟩) := by
    decide +kernel
  obtain ⟨⟨server, calls⟩, taken, control⟩ := Option.map_eq_some_iff.mp aborts
  refine ⟨⟨server, calls, taken, control⟩, fun bounded => ?_⟩
  exact (bounded overfullRun (List.prefix_refl _) server calls taken).2 _ control

end Practise.EchoServer
