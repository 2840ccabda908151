import Practise.EchoAccounting

/-! The EPOLLOUT branch against the queues. Its guard asks whether a client
has an entry, its body needs a chunk; and it writes one chunk for each
edge-triggered event. Both are exact here: the entry is never empty as long as
no write takes the only chunk, and an event drains its queue as long as its
write does not take a whole chunk off two or more. -/
namespace Practise.EchoServer
open Machine

def EntriesNonempty (server : Server) (_ : List Call) : Prop :=
  (∀ fd, server.sessionMap fd ≠ some []) ∧ ∀ event, server.control ≠ .emptyFront event

/-- The write takes the branch of `pop()` on a queue of one chunk: it accepted
the whole chunk, or it failed. -/
def popsOnly (server : Server) : Label → Prop
  | .write fd nwrite => ∃ outData, server.sessionMap fd = some [outData] ∧
      nwrite ≤ 1024 ∧ ¬ sizeT nwrite < outData.length
  | _ => False

theorem step_empty_front (listenfd : Fd) (server next : Server) (label : Label)
    (calls : List Call) (event : EpollEvent)
    (taken : step listenfd server label = some (next, calls))
    (undefined : next.control = .emptyFront event) : next.sessionMap event.fd = some [] := by
  have decided : ∀ other, Decides other next.sessionMap (.emptyFront event) →
      next.sessionMap event.fd = some [] := by
    intro other decides
    cases decides with
    | empty drained => exact drained
  have moves := step_moves listenfd server next label calls taken
  rw [undefined] at moves
  generalize server.control = before at moves
  cases moves with
  | writable _ _ _ decides => exact decided _ decides
  | accepted _ _ _ _ _ decides => exact decided _ decides
  | stops _ _ _ _ _ ending decides => exact decided _ decides

theorem update_nonempty (sessionMap : SessionMap) (fd : Fd) (queue : List Bytes)
    (nonempty : ∀ fd, sessionMap fd ≠ some []) (kept : queue ≠ []) (other : Fd) :
    Function.update sessionMap fd (some queue) other ≠ some [] := by
  by_cases same : other = fd
  · subst other
    simpa using kept
  · rw [Function.update_of_ne same]
    exact nonempty other

theorem effect_nonempty (server : Server) (after : SessionMap) (label : Label)
    (calls : List Call) (nonempty : ∀ fd, server.sessionMap fd ≠ some [])
    (keeps : ¬ popsOnly server label) (effect : Effect server.sessionMap label after calls) :
    ∀ fd, after fd ≠ some [] := by
  cases effect with
  | event | accept | stopped | overran => exact nonempty
  | dropped fd =>
      intro other
      by_cases same : other = fd
      · simp [erase, same]
      · rw [erase, Function.update_of_ne same]
        exact nonempty other
  | direct fd | queued fd => exact update_nonempty _ fd _ nonempty (by simp)
  | shortened fd => exact update_nonempty _ fd _ nonempty (by simp)
  | popped fd outData rest nwrite front lower upper small whole =>
      refine update_nonempty _ fd _ nonempty ?_
      intro only
      subst only
      exact keeps ⟨outData, front, small, whole⟩

theorem effect_emptied (server : Server) (after : SessionMap) (label : Label)
    (calls : List Call) (pops : popsOnly server label)
    (effect : Effect server.sessionMap label after calls) : ∃ fd, after fd = some [] := by
  cases effect with
  | event | accept | stopped | dropped | direct | queued => exact pops.elim
  | shortened fd outData rest nwrite front _ _ _ short =>
      obtain ⟨only, entry, _, whole⟩ := pops
      obtain ⟨rfl, -⟩ : outData = only ∧ rest = [] := by simpa [front] using entry
      exact absurd short whole
  | popped fd outData rest nwrite front =>
      obtain ⟨only, entry, _, _⟩ := pops
      obtain ⟨-, rfl⟩ : outData = only ∧ rest = [] := by simpa [front] using entry
      exact ⟨fd, Function.update_self ..⟩
  | overran fd outData rest nwrite front upper large =>
      obtain ⟨_, _, small, _⟩ := pops
      omega

/-- Along every run the guard of the EPOLLOUT branch implies a chunk to write,
and `front()` is never called on an empty queue, exactly when no write of the
run pops the only chunk of its queue. -/
theorem entries_nonempty_exact (listenfd : Fd) (readbuf : Bytes) (labels : List Label)
    (taken : (run (step listenfd) (start listenfd readbuf) labels).isSome) :
    EveryPoint (step listenfd) (start listenfd readbuf) EntriesNonempty labels ↔
      EveryStep (step listenfd) (start listenfd readbuf)
        (fun server label => ¬ popsOnly server label) labels := by
  refine every_point_iff (step listenfd) (start listenfd readbuf) (fun _ => True)
    (fun server label => ¬ popsOnly server label) EntriesNonempty EntriesNonempty
    ⟨fun fd => by simp [start], fun event => by simp [start]⟩ (fun _ _ holds => holds)
    ?_ ?_ labels (fun _ _ => trivial) taken
  · intro server past label next calls holds _ keeps moved
    have nonempty := effect_nonempty server _ label calls holds.1 keeps
      (step_effect listenfd server next label calls moved)
    exact ⟨nonempty, fun event undefined => nonempty event.fd
      (step_empty_front listenfd server next label calls event moved undefined)⟩
  · intro server past label next calls _ _ pops moved holds
    obtain ⟨fd, emptied⟩ := effect_emptied server _ label calls (not_not.mp pops)
      (step_effect listenfd server next label calls moved)
    exact holds.1 fd emptied

/-- One message is echoed in two halves; the client becomes writable again
after its queue has been emptied. -/
def drainedRun : List Label :=
  [clientEvent 5 true false, .read 5 (readReturns [1, 2]) (some 1) 0,
    .read 5 (.failed .again) none 0, clientEvent 5 false true, .write 5 1,
    clientEvent 5 false true]

theorem drained_run_exact :
    (run (step 3) (start 3 []) drainedRun).isSome ∧
      ¬ EveryStep (step 3) (start 3 []) (fun server label => ¬ popsOnly server label)
        drainedRun := by
  have taken : (run (step 3) (start 3 []) drainedRun).isSome := rfl
  refine ⟨taken, fun keeps => ?_⟩
  have holds := (entries_nonempty_exact 3 [] drainedRun taken).mpr keeps
  exact (holds _ (List.prefix_refl _) _ _ rfl).1 5 rfl

theorem front_on_empty_queue :
    ∃ server calls, run (step 3) (start 3 []) drainedRun = some (server, calls) ∧
      server.sessionMap 5 = some [] ∧
      ∃ event, event.fd = 5 ∧ server.control = .emptyFront event :=
  ⟨_, _, rfl, rfl, _, rfl, rfl⟩

/-! One event from `epoll_wait` to the next. Client descriptors are registered
edge-triggered, so a queue that still holds bytes is woken up again only by a
write that was short or failed. -/

def Drained (server : Server) (fd : Fd) (calls : List Call) : Prop :=
  pending server.sessionMap fd = [] ∨ ∃ given nwrite,
    (writesOn fd calls).getLast? = some (given, nwrite) ∧ nwrite < given.length

/-- The chunks in a client's queue after the reads of one event: each read of
data adds one, a broken connection erases the entry. -/
def chunksQueued (before : Nat) (labels : List Label) : Nat :=
  labels.foldl (fun count label =>
    match label with
    | .read _ (.data _) _ _ => count + 1
    | .read _ (.failed (.other _)) _ _ => 0
    | _ => count) before

/-- The write of the EPOLLOUT branch accepts the whole front chunk although the
chunks queued before the event and by its reads are two or more. -/
def StopsEarly (listenfd : Fd) (server : Server) (event : EpollEvent)
    (labels : List Label) : Prop :=
  ∃ (past : List Label) (nwrite : Int) (middle : Server) (calls : List Call)
      (outData : Bytes) (rest : List Bytes),
    labels = past ++ [.write event.fd nwrite] ∧
    run (step listenfd) server (.event event :: past) = some (middle, calls) ∧
    middle.sessionMap event.fd = some (outData :: rest) ∧ nwrite = outData.length ∧
    2 ≤ chunksQueued ((server.sessionMap event.fd).getD []).length past

/-- Until the next event the loop works for one descriptor only. -/
def Handling (listenfd : Fd) (event : EpollEvent) : Control → Prop
  | .wait => True
  | .accept other => other = event ∧ event.fd = listenfd
  | .read other | .write other | .emptyFront other | .aborted other => other = event

theorem decides_handling (listenfd : Fd) (event : EpollEvent) (sessionMap : SessionMap)
    (after : Control) (decides : Decides event sessionMap after) :
    Handling listenfd event after := by
  cases decides <;> simp [Handling]

theorem moves_begin_handling (listenfd : Fd) (event : EpollEvent) (before after : Control)
    (sessionMap : SessionMap) (moves : Moves listenfd before (.event event) sessionMap after) :
    Handling listenfd event after := by
  cases moves with
  | listener _ _ own => exact ⟨rfl, own⟩
  | client => exact rfl
  | writable _ _ _ decides => exact decides_handling listenfd event sessionMap after decides

theorem moves_handling (listenfd : Fd) (event : EpollEvent) (before after : Control)
    (label : Label) (sessionMap : SessionMap) (handling : Handling listenfd event before)
    (same : label.isEvent = false) (moves : Moves listenfd before label sessionMap after) :
    Handling listenfd event after := by
  cases moves with
  | listener | client | writable => simp [Label.isEvent] at same
  | accepted other _ _ _ _ decides =>
      obtain ⟨rfl, _⟩ := handling
      exact decides_handling listenfd other sessionMap after decides
  | stops other _ _ _ _ _ decides =>
      obtain rfl : other = event := handling
      exact decides_handling listenfd other sessionMap after decides
  | repeats | aborts => exact handling
  | blocking | wrote => trivial

theorem run_handling (listenfd : Fd) (server middle : Server) (event : EpollEvent)
    (labels : List Label) (calls : List Call)
    (single : ∀ label ∈ labels, label.isEvent = false)
    (taken : run (step listenfd) server (.event event :: labels) = some (middle, calls)) :
    Handling listenfd event middle.control := by
  obtain ⟨begun, first, later, polled, rest, -⟩ := (run_cons ..).mp taken
  have initial := moves_begin_handling listenfd event _ _ _
    (step_moves listenfd server begun _ first polled)
  have along := run_invariant (step listenfd) begun (fun _ label => label.isEvent = false)
    (fun server _ => Handling listenfd event server.control) initial
    (fun state _ label next calls handling same moved =>
      moves_handling listenfd event _ _ label _ handling same
        (step_moves listenfd state next label calls moved))
    labels (every_step_of_labels _ _ _ labels single)
  exact along labels (List.prefix_refl _) middle later rest

theorem chunks_queued_snoc (before : Nat) (past : List Label) (label : Label) :
    chunksQueued before (past ++ [label]) = chunksQueued (chunksQueued before past) [label] := by
  simp [chunksQueued]

theorem effect_chunks_queued (before after : SessionMap) (fd : Fd) (result : ReadResult)
    (nwrite : Option Int) (below : UInt8) (calls : List Call)
    (effect : Effect before (.read fd result nwrite below) after calls) :
    ((after fd).getD []).length =
      chunksQueued ((before fd).getD []).length [.read fd result nwrite below] := by
  cases effect with
  | stopped _ _ _ ending => rcases ending with rfl | rfl | rfl <;> rfl
  | dropped => simp [erase, chunksQueued]
  | direct => simp [push, chunksQueued]
  | queued => simp [push, chunksQueued]

/-- Until the event is over the queue has exactly the chunks that the labels
of the event account for. -/
theorem run_chunks_queued (listenfd : Fd) (server middle : Server) (event : EpollEvent)
    (labels : List Label) (calls : List Call)
    (single : ∀ label ∈ labels, label.isEvent = false)
    (taken : run (step listenfd) server (.event event :: labels) = some (middle, calls)) :
    (middle.control = .wait ∨ middle.control = .aborted event) ∨
      ((middle.sessionMap event.fd).getD []).length =
        chunksQueued ((server.sessionMap event.fd).getD []).length labels := by
  induction labels using List.reverseRecOn generalizing middle calls with
  | nil =>
      obtain ⟨begun, first, later, polled, rest, -⟩ := (run_cons ..).mp taken
      simp only [run, Option.some.injEq, Prod.mk.injEq] at rest
      obtain ⟨rfl, rfl⟩ := rest
      have effect := step_effect listenfd server begun _ first polled
      generalize begun.sessionMap = after at effect
      cases effect with
      | event => exact Or.inr rfl
  | append_singleton past label ih =>
      rw [← List.cons_append] at taken
      obtain ⟨state, first, last, head, moved, rfl⟩ := (run_snoc ..).mp taken
      have earlier : ∀ label ∈ past, label.isEvent = false :=
        fun label member => single label (by simp [member])
      have handling := run_handling listenfd server state event past first earlier head
      have moves := step_moves listenfd state middle label last moved
      have effect := step_effect listenfd state middle label last moved
      have count := ih state first earlier head
      have same : label.isEvent = false := single label (by simp)
      generalize middle.control = after at moves ⊢
      generalize middle.sessionMap = queues at moves effect ⊢
      generalize state.control = control at moves handling count
      cases moves with
      | listener | client | writable => simp [Label.isEvent] at same
      | accepted =>
          cases effect
          simpa [chunksQueued] using Or.inr count
      | blocking | wrote => exact Or.inl (Or.inl rfl)
      | aborts other =>
          obtain rfl : other = event := handling
          exact Or.inl (Or.inr rfl)
      | stops other | repeats other =>
          obtain rfl : other = event := handling
          right
          rw [chunks_queued_snoc, ← count.resolve_left (by simp)]
          exact effect_chunks_queued _ _ _ _ _ _ last effect

theorem decides_wait_absent (event : EpollEvent) (sessionMap : SessionMap)
    (asked : event.epollout = true) (decides : Decides event sessionMap .wait) :
    sessionMap event.fd = none := by
  cases decides with
  | unasked silent => simp [asked] at silent
  | absent missing => exact missing

theorem absent_drained (server : Server) (fd : Fd) (calls : List Call)
    (missing : server.sessionMap fd = none) : Drained server fd calls :=
  Or.inl (by simp [pending, missing])

theorem last_write_snoc (fd : Fd) (past : List Call) (given : Bytes) (nwrite : Int) :
    (writesOn fd (past ++ [.written fd given nwrite])).getLast? = some (given, nwrite) := by
  simp [writesOn, List.filterMap_append]

/-- The write that ends the event decides it: only a whole chunk taken off a
longer queue leaves bytes behind without a short or failed write. -/
theorem write_drained_iff (before : SessionMap) (final : Server) (fd : Fd) (nwrite : Int)
    (past calls : List Call) (within : ChunksWithin 1025 before) (small : nwrite ≤ 1024)
    (effect : Effect before (.write fd nwrite) final.sessionMap calls) :
    Drained final fd (past ++ calls) ↔
      ¬ ∃ outData rest, before fd = some (outData :: rest) ∧ nwrite = outData.length ∧
        rest ≠ [] := by
  generalize reached : final.sessionMap = after at effect
  cases effect with
  | shortened _ outData rest _ front lower upper _ short =>
      have fewer : nwrite < outData.length := by
        by_cases minus : nwrite = -1
        · omega
        · rw [size_t_of_nonneg nwrite (by omega) small] at short
          omega
      refine iff_of_true (Or.inr ⟨outData, nwrite, last_write_snoc .., fewer⟩) ?_
      rintro ⟨first, more, entry, whole, -⟩
      obtain ⟨rfl, -⟩ : outData = first ∧ rest = more := by simpa [front] using entry
      omega
  | popped _ outData rest _ front lower upper _ whole =>
      by_cases minus : nwrite = -1
      · refine iff_of_true (Or.inr ⟨outData, nwrite, last_write_snoc .., by omega⟩) ?_
        rintro ⟨first, more, entry, full, -⟩
        omega
      · rw [size_t_of_nonneg nwrite (by omega) small] at whole
        have full : nwrite = outData.length := by omega
        have left : pending final.sessionMap fd = rest.flatten := by
          rw [reached, pending_update_same]
        -- A whole chunk was taken: everything depends on what lay behind it.
        cases rest with
        | nil =>
            refine iff_of_true (Or.inl (by simpa using left)) ?_
            rintro ⟨first, more, entry, -, longer⟩
            obtain ⟨-, rfl⟩ : outData = first ∧ [] = more := by simpa [front] using entry
            exact longer rfl
        | cons second more =>
            refine iff_of_false ?_ (not_not.mpr ⟨outData, _, front, full, by simp⟩)
            have positive := (within fd _ front second (by simp)).1
            rintro (empty | ⟨given, count, last, fewer⟩)
            · rw [left, List.flatten_cons, List.append_eq_nil_iff] at empty
              simp [empty.1] at positive
            · obtain ⟨rfl, rfl⟩ : outData = given ∧ nwrite = count := by
                simpa [last_write_snoc] using last
              omega
  | overran _ _ _ _ _ _ large => omega

theorem stops_early_write (listenfd : Fd) (server : Server) (event : EpollEvent)
    (labels : List Label) (early : StopsEarly listenfd server event labels) :
    ∃ past nwrite, labels = past ++ [.write event.fd nwrite] := by
  obtain ⟨past, nwrite, _, _, _, _, split, _⟩ := early
  exact ⟨past, nwrite, split⟩

theorem unwritten_drained_iff (listenfd : Fd) (server final : Server) (event : EpollEvent)
    (labels : List Label) (calls : List Call) (asked : event.epollout = true)
    (decides : Decides event final.sessionMap .wait)
    (unwritten : ∀ past nwrite, labels ≠ past ++ [.write event.fd nwrite]) :
    Drained final event.fd calls ↔ ¬ StopsEarly listenfd server event labels := by
  have missing := decides_wait_absent event final.sessionMap asked decides
  refine iff_of_true (absent_drained final event.fd calls missing) fun early => ?_
  obtain ⟨past, nwrite, split⟩ := stops_early_write listenfd server event labels early
  exact unwritten past nwrite split

/-- In front of the write, the chunks that the labels account for are those of
the queue itself. -/
theorem stops_early_iff (listenfd : Fd) (server middle : Server) (event : EpollEvent)
    (past : List Label) (nwrite : Int) (calls : List Call)
    (single : ∀ label ∈ past, label.isEvent = false)
    (taken : run (step listenfd) server (.event event :: past) = some (middle, calls))
    (current : middle.control = .write event) :
    StopsEarly listenfd server event (past ++ [.write event.fd nwrite]) ↔
      ∃ outData rest, middle.sessionMap event.fd = some (outData :: rest) ∧
        nwrite = outData.length ∧ rest ≠ [] := by
  have counted := run_chunks_queued listenfd server middle event past calls single taken
  have length := counted.resolve_left (by simp [current])
  constructor
  · rintro ⟨shorter, count, again, made, outData, rest, split, repeated, entry, whole, two⟩
    obtain ⟨rfl, rfl⟩ : past = shorter ∧ nwrite = count := by
      simpa using List.append_inj' split rfl
    obtain ⟨rfl, rfl⟩ : middle = again ∧ calls = made := by
      simpa using taken.symm.trans repeated
    refine ⟨outData, rest, entry, whole, ?_⟩
    rintro rfl
    simp only [entry, Option.getD_some, List.length_cons, List.length_nil] at length
    omega
  · rintro ⟨outData, rest, entry, whole, longer⟩
    refine ⟨past, nwrite, middle, calls, outData, rest, rfl, taken, entry, whole, ?_⟩
    have positive := List.length_pos_iff.mpr longer
    simp only [entry, Option.getD_some, List.length_cons] at length
    omega

/-- Every client event with EPOLLOUT, from every reachable state: when the
loop is done with it, the queue is empty or the last write was short or failed,
unless the event stops early. -/
theorem event_drained_exact (listenfd : Fd) (readbuf : Bytes) (history : List Label)
    (server : Server) (before : List Call)
    (reached : run (step listenfd) (start listenfd readbuf) history = some (server, before))
    (event : EpollEvent) (client : event.fd ≠ listenfd) (asked : event.epollout = true)
    (labels : List Label) (single : ∀ label ∈ labels, label.isEvent = false)
    (final : Server) (calls : List Call)
    (taken : run (step listenfd) server (.event event :: labels) = some (final, calls))
    (finished : final.control = .wait) :
    Drained final event.fd calls ↔ ¬ StopsEarly listenfd server event labels := by
  -- The last label of the event decides; an event without labels found no entry.
  rcases List.eq_nil_or_concat labels with rfl | ⟨past, label, rfl⟩
  · have total : run (step listenfd) server ([] ++ [.event event]) = some (final, calls) := taken
    obtain ⟨middle, first, last, head, polled, -⟩ := (run_snoc ..).mp total
    have moves := step_moves listenfd middle final _ last polled
    rw [finished] at moves
    generalize middle.control = control at moves
    cases moves with
    | writable _ _ _ decides =>
        apply unwritten_drained_iff listenfd server final event [] calls asked decides
        simp
  · rw [List.concat_eq_append] at taken single ⊢
    rw [← List.cons_append] at taken
    obtain ⟨middle, first, last, head, moved, rfl⟩ := (run_snoc ..).mp taken
    have earlier : ∀ label ∈ past, label.isEvent = false :=
      fun label member => single label (by simp [member])
    have handling := run_handling listenfd server middle event past first earlier head
    have moves := step_moves listenfd middle final label last moved
    have same : label.isEvent = false := single label (by simp)
    rw [finished] at moves
    generalize current : middle.control = control at moves handling
    cases moves with
    | writable => simp [Label.isEvent] at same
    | accepted | blocking => exact absurd handling.2 client
    | stops other _ _ _ _ _ decides =>
        obtain rfl : other = event := handling
        apply unwritten_drained_iff listenfd server final other _ _ asked decides
        simp
    | wrote other nwrite _ small =>
        obtain rfl : other = event := handling
        have effect := step_effect listenfd middle final _ last moved
        have total : run (step listenfd) (start listenfd readbuf)
            (history ++ .event other :: past) = some (middle, before ++ first) :=
          (run_append ..).mpr ⟨server, before, first, reached, head, rfl⟩
        have within := run_chunks_within listenfd readbuf _ _ (List.prefix_refl _) middle _ total
        rw [stops_early_iff listenfd server middle other past nwrite first earlier head current]
        exact write_drained_iff middle.sessionMap final other.fd nwrite first last within small
          effect

/-- Client 5 sends two messages before it is writable: two chunks are queued. -/
def twoChunksRun : List Label :=
  [clientEvent 5 true false, .read 5 (readReturns [1, 2]) (some 1) 0,
    .read 5 (readReturns [3]) none 0, .read 5 (.failed .again) none 0]

def writableEvent (fd : Fd) : EpollEvent :=
  { epollin := false, epollout := true, epollet := false, fd := fd }

theorem two_chunks_exact :
    ∃ server before final calls,
      run (step 3) (start 3 []) twoChunksRun = some (server, before) ∧
      run (step 3) server [.event (writableEvent 5), .write 5 0] = some (final, calls) ∧
      (Drained final 5 calls ↔ ¬ StopsEarly 3 server (writableEvent 5) [.write 5 0]) :=
  ⟨_, _, _, _, rfl, rfl,
    event_drained_exact 3 [] twoChunksRun _ _ rfl (writableEvent 5) (by decide) rfl
      [.write 5 0] (by decide) _ _ rfl rfl⟩

theorem second_chunk_stays :
    ∃ server before final calls,
      run (step 3) (start 3 []) twoChunksRun = some (server, before) ∧
      run (step 3) server [.event (writableEvent 5), .write 5 1] = some (final, calls) ∧
      final.control = .wait ∧ final.sessionMap 5 = some [[3]] ∧
      writesOn 5 calls = [([2], 1)] ∧ ¬ Drained final 5 calls := by
  refine ⟨_, _, _, _, rfl, rfl, rfl, rfl, rfl, ?_⟩
  rintro (empty | ⟨given, nwrite, last, fewer⟩)
  · exact absurd empty (by decide)
  · have pair : ([2], (1 : Int)) = (given, nwrite) := Option.some.inj last
    obtain ⟨rfl, rfl⟩ := Prod.mk.inj pair
    exact absurd fewer (by decide)

end Practise.EchoServer
