import Practise.EchoServer

/-! Clients of the echo server do not influence each other. All of them share
`readbuf`, `nread`, `ev` and one `session_map`; deleting the events and the
calls of every other descriptor from a run leaves a run of the same server
that treats the remaining client in the same way. -/
namespace Practise.EchoServer
open Machine

def Control.fd : Control → Option Fd
  | .wait => none
  | .accept event | .read event | .write event | .emptyFront event | .aborted event =>
      some event.fd

/-- The loop as one client sees it: waiting whenever it works for another. -/
def Control.seenBy (fd : Fd) (control : Control) : Control :=
  if control.fd = some fd then control else .wait

structure Mirrors (listenfd fd : Fd) (full alone : Server) : Prop where
  queue : alone.sessionMap fd = full.sessionMap fd
  control : alone.control = full.control.seenBy fd
  listening : ∀ event, full.control = .accept event → event.fd = listenfd

/-- What two servers must share after a step that concerns one client. -/
structure Agree (fd : Fd) (left right : Server) : Prop where
  queue : right.sessionMap fd = left.sessionMap fd
  control : right.control = left.control

def Call.concerns (fd : Fd) : Call → Bool
  | .received other _ => decide (other = fd)
  | .written other _ _ => decide (other = fd)

def projectClient (listenfd fd : Fd) (labels : List Label) : List Label :=
  labels.filter fun label => decide (label.fd listenfd = fd)

theorem writes_on_concerned (fd : Fd) (calls : List Call) :
    writesOn fd (calls.filter (Call.concerns fd)) = writesOn fd calls := by
  induction calls with
  | nil => rfl
  | cons call rest ih =>
      have pieces : ∀ calls, writesOn fd (call :: calls) =
          writesOn fd [call] ++ writesOn fd calls := by
        intro calls
        rw [← List.singleton_append]
        exact List.filterMap_append
      by_cases own : call.concerns fd = true
      · rw [List.filter_cons_of_pos own, pieces, ih, ← pieces]
      · rw [List.filter_cons_of_neg own, ih, pieces]
        cases call with
        | received => rfl
        | written other given nwrite =>
            have different : other ≠ fd := by simpa [Call.concerns] using own
            simp [writesOn, different]

theorem push_agrees (left right : SessionMap) (fd : Fd) (data : Bytes)
    (queue : right fd = left fd) : push right fd data fd = push left fd data fd := by
  simp [push, queue]

theorem epollout_agrees (event : EpollEvent) (left right : Server)
    (queue : right.sessionMap event.fd = left.sessionMap event.fd) :
    Agree event.fd (epolloutBranch event left) (epolloutBranch event right) := by
  refine ⟨by simpa using queue, ?_⟩
  unfold epolloutBranch
  rw [queue]
  split
  · split <;> rfl
  · rfl

theorem begin_agrees (listenfd : Fd) (event : EpollEvent) (left right : Server)
    (queue : right.sessionMap event.fd = left.sessionMap event.fd) :
    Agree event.fd (beginEvent listenfd event left) (beginEvent listenfd event right) := by
  unfold beginEvent
  split
  · split <;> exact ⟨queue, rfl⟩
  · exact epollout_agrees event left right queue

theorem accept_agrees (event : EpollEvent) (clientfd : Int) (nonblock : Bool)
    (left right : Server) (queue : right.sessionMap event.fd = left.sessionMap event.fd) :
    Agree event.fd (acceptClient event clientfd nonblock left)
      (acceptClient event clientfd nonblock right) := by
  unfold acceptClient
  split
  · split
    · exact epollout_agrees event _ _ queue
    · exact ⟨queue, rfl⟩
  · exact epollout_agrees event left right queue

theorem read_pass_agrees (event : EpollEvent) (result : ReadResult) (nwrite : Option Int)
    (below : UInt8) (left right next : Server) (calls : List Call)
    (agree : Agree event.fd left right)
    (done : readPass event result nwrite below left = some (next, calls)) :
    ∃ after, readPass event result nwrite below right = some (after, calls) ∧
      Agree event.fd next after := by
  have queue := agree.queue
  cases result with
  | data received =>
      simp only [readPass, echo_data_stored] at done ⊢
      rw [queue]
      cases entry : left.sessionMap event.fd with
      | none =>
          cases nwrite with
          | none => simp [entry] at done
          | some nwrite =>
              simp only [entry] at done ⊢
              split at done
              · next possible =>
                simp only [Option.map_some, Option.some.injEq, Prod.mk.injEq] at done
                obtain ⟨rfl, rfl⟩ := done
                rw [if_pos possible]
                exact ⟨_, rfl, push_agrees _ _ _ _ queue, agree.control⟩
              · simp at done
      | some chunks =>
          cases nwrite with
          | some nwrite => simp [entry] at done
          | none =>
              simp only [entry, Option.map_some, Option.some.injEq, Prod.mk.injEq] at done
              obtain ⟨rfl, rfl⟩ := done
              exact ⟨_, rfl, push_agrees _ _ _ _ queue, agree.control⟩
  | eof =>
      cases nwrite with
      | some nwrite => simp [readPass] at done
      | none =>
          simp only [readPass, Option.some.injEq, Prod.mk.injEq] at done
          obtain ⟨rfl, rfl⟩ := done
          exact ⟨_, rfl, epollout_agrees event _ _ queue⟩
  | failed errno =>
      cases nwrite with
      | some nwrite => cases errno <;> simp [readPass] at done
      | none =>
          cases errno <;>
            simp only [readPass, Option.some.injEq, Prod.mk.injEq] at done <;>
            obtain ⟨rfl, rfl⟩ := done
          · exact ⟨_, rfl, epollout_agrees event _ _ queue⟩
          · exact ⟨_, rfl, epollout_agrees event _ _ queue⟩
          · exact ⟨_, rfl, by simp [erase], agree.control⟩

theorem write_front_agrees (event : EpollEvent) (outData : Bytes) (rest : List Bytes)
    (nwrite : Int) (left right : Server)
    (queue : right.sessionMap event.fd = left.sessionMap event.fd) :
    Agree event.fd (writeFront event outData rest nwrite left)
      (writeFront event outData rest nwrite right) := by
  unfold writeFront
  split
  · exact ⟨queue, rfl⟩
  · exact ⟨by simp, rfl⟩

/-- Where two servers stand at the same point for a client with the same
queue, a call for that client has the same outcome. -/
theorem step_agrees (listenfd : Fd) (left right next : Server) (label : Label)
    (calls : List Call)
    (control : right.control = left.control)
    (queue : right.sessionMap (label.fd listenfd) = left.sessionMap (label.fd listenfd))
    (listening : ∀ event, left.control = .accept event → event.fd = listenfd)
    (taken : step listenfd left label = some (next, calls)) :
    ∃ after, step listenfd right label = some (after, calls) ∧
      Agree (label.fd listenfd) next after := by
  unfold step at taken ⊢
  rw [control]
  split at taken
  · next event _ =>
    simp only [Option.some.injEq, Prod.mk.injEq] at taken
    obtain ⟨rfl, rfl⟩ := taken
    exact ⟨_, rfl, begin_agrees listenfd event left right queue⟩
  · next event clientfd nonblock current =>
    simp only [Option.some.injEq, Prod.mk.injEq] at taken
    obtain ⟨rfl, rfl⟩ := taken
    have own := listening event current
    refine ⟨_, rfl, ?_⟩
    simp only [Label.fd] at queue ⊢
    rw [← own] at queue ⊢
    exact accept_agrees event clientfd nonblock left right queue
  · next event fd result nwrite below current =>
    split at taken
    · next same =>
      subst same
      rw [if_pos rfl]
      exact read_pass_agrees event result nwrite below left right next calls
        ⟨queue, control⟩ taken
    · simp at taken
  · next event fd nwrite current =>
    split at taken
    · next same =>
      subst same
      simp only [Label.fd] at queue
      rw [if_pos rfl, queue]
      split at taken
      · next outData rest entry =>
        split at taken
        · next possible =>
          simp only [Option.some.injEq, Prod.mk.injEq] at taken
          obtain ⟨rfl, rfl⟩ := taken
          exact ⟨_, if_pos possible, write_front_agrees event outData rest nwrite left right queue⟩
        · simp at taken
      · simp at taken
    · simp at taken
  · simp at taken

theorem decides_fd (event : EpollEvent) (sessionMap : SessionMap) (after : Control)
    (decides : Decides event sessionMap after) :
    after = .wait ∨ after.fd = some event.fd := by
  cases decides <;> simp [Control.fd]

theorem decides_not_accept (event other : EpollEvent) (sessionMap : SessionMap) :
    ¬ Decides event sessionMap (.accept other) := by
  intro decides
  cases decides

/-- The loop works for the descriptor of its label, before and after. -/
theorem moves_fd (listenfd : Fd) (before after : Control) (label : Label)
    (sessionMap : SessionMap) (moves : Moves listenfd before label sessionMap after)
    (listening : ∀ event, before = .accept event → event.fd = listenfd) :
    (before = .wait ∨ before.fd = some (label.fd listenfd)) ∧
      (after = .wait ∨ after.fd = some (label.fd listenfd)) ∧
      ∀ event, after = .accept event → event.fd = listenfd := by
  cases moves with
  | listener event _ own =>
      refine ⟨Or.inl rfl, Or.inr rfl, fun other same => ?_⟩
      cases same
      exact own
  | client => exact ⟨Or.inl rfl, Or.inr rfl, by simp⟩
  | writable event _ _ decides =>
      refine ⟨Or.inl rfl, decides_fd event _ _ decides, fun other same => ?_⟩
      subst same
      exact (decides_not_accept event other _ decides).elim
  | accepted event clientfd nonblock _ _ decides =>
      have own : event.fd = listenfd := listening event rfl
      refine ⟨Or.inr (congrArg some own), ?_, fun other same => ?_⟩
      · simpa [Label.fd, own] using decides_fd event _ _ decides
      · subst same
        exact (decides_not_accept event other _ decides).elim
  | blocking event =>
      exact ⟨Or.inr (congrArg some (listening event rfl)), Or.inl rfl, by simp⟩
  | stops event result below _ _ ending decides =>
      refine ⟨Or.inr rfl, decides_fd event _ _ decides, fun other same => ?_⟩
      subst same
      exact (decides_not_accept event other _ decides).elim
  | repeats => exact ⟨Or.inr rfl, Or.inr rfl, by simp⟩
  | wrote => exact ⟨Or.inr rfl, Or.inl rfl, by simp⟩
  | aborts => exact ⟨Or.inr rfl, Or.inr rfl, by simp⟩

theorem seen_by_own (fd : Fd) (control : Control)
    (own : control = .wait ∨ control.fd = some fd) : control.seenBy fd = control := by
  rcases own with rfl | own
  · simp [Control.seenBy]
  · simp [Control.seenBy, own]

theorem seen_by_other (fd other : Fd) (control : Control) (different : other ≠ fd)
    (own : control = .wait ∨ control.fd = some other) : control.seenBy fd = .wait := by
  rcases own with rfl | own
  · simp [Control.seenBy]
  · simp [Control.seenBy, own, different]

/-- A step changes the entry of its own descriptor only, and calls only on it. -/
theorem effect_frame (listenfd fd : Fd) (before after : SessionMap) (label : Label)
    (calls : List Call) (other : label.fd listenfd ≠ fd)
    (effect : Effect before label after calls) :
    after fd = before fd ∧ calls.filter (Call.concerns fd) = [] := by
  cases effect with
  | event | accept | stopped => exact ⟨rfl, rfl⟩
  | dropped => exact ⟨Function.update_of_ne (Ne.symm other) .., rfl⟩
  | overran client => exact ⟨rfl, by simpa [Call.concerns, Label.fd] using other⟩
  | direct client | queued client | shortened client | popped client =>
      exact ⟨Function.update_of_ne (Ne.symm other) .., by simpa [Call.concerns, Label.fd] using other⟩

theorem mirrors_matched (listenfd fd : Fd) (full alone next : Server) (label : Label)
    (calls : List Call) (mirrors : Mirrors listenfd fd full alone)
    (own : label.fd listenfd = fd) (taken : step listenfd full label = some (next, calls)) :
    ∃ after, step listenfd alone label = some (after, calls) ∧
      Mirrors listenfd fd next after := by
  obtain ⟨before, later, listening⟩ := moves_fd listenfd _ _ label _
    (step_moves listenfd full next label calls taken) mirrors.listening
  subst own
  have control : alone.control = full.control :=
    mirrors.control.trans (seen_by_own _ _ before)
  obtain ⟨after, moved, agree⟩ :=
    step_agrees listenfd full alone next label calls control mirrors.queue mirrors.listening taken
  refine ⟨after, moved, agree.queue, ?_, listening⟩
  rw [agree.control, seen_by_own _ _ later]

theorem mirrors_silent (listenfd fd : Fd) (full alone next : Server) (label : Label)
    (calls : List Call) (mirrors : Mirrors listenfd fd full alone)
    (other : label.fd listenfd ≠ fd) (taken : step listenfd full label = some (next, calls)) :
    Mirrors listenfd fd next alone ∧ calls.filter (Call.concerns fd) = [] := by
  obtain ⟨before, later, listening⟩ := moves_fd listenfd _ _ label _
    (step_moves listenfd full next label calls taken) mirrors.listening
  obtain ⟨queue, quiet⟩ := effect_frame listenfd fd _ _ label calls other
    (step_effect listenfd full next label calls taken)
  refine ⟨⟨mirrors.queue.trans queue.symm, ?_, listening⟩, quiet⟩
  rw [mirrors.control, seen_by_other fd _ _ other before, seen_by_other fd _ _ other later]

theorem run_projects (listenfd fd : Fd) (readbuf : Bytes) (labels : List Label)
    (server : Server) (calls : List Call)
    (taken : run (step listenfd) (start listenfd readbuf) labels = some (server, calls)) :
    ∃ alone replies,
      run (step listenfd) (start listenfd readbuf) (projectClient listenfd fd labels) =
        some (alone, replies) ∧
      writesOn fd replies = writesOn fd calls ∧ alone.sessionMap fd = server.sessionMap fd := by
  obtain ⟨alone, replies, followed, mirrors, same⟩ := run_projected (step listenfd)
    (fun label => decide (label.fd listenfd = fd)) (Call.concerns fd) (fun _ _ => True)
    (Mirrors listenfd fd)
    (fun full alone label next calls mirrors _ own taken => by
      obtain ⟨after, moved, related⟩ := mirrors_matched listenfd fd full alone next label calls
        mirrors (by simpa using own) taken
      exact ⟨after, calls, moved, related, rfl⟩)
    (fun full alone label next calls mirrors _ other taken =>
      mirrors_silent listenfd fd full alone next label calls mirrors (by simpa using other) taken)
    (start listenfd readbuf) (start listenfd readbuf)
    ⟨rfl, rfl, fun event impossible => by simp [start] at impossible⟩
    labels (every_step_of_labels _ _ _ labels fun _ _ => trivial) server calls taken
  refine ⟨alone, replies, followed, ?_, mirrors.queue⟩
  rw [← writes_on_concerned fd replies, same, writes_on_concerned]

/-- Deleting everything that belongs to other descriptors changes neither the
writes on a client nor its queue; so two interleavings with the same share for
a client give it the same output. -/
theorem clients_independent (listenfd fd : Fd) (readbuf : Bytes) (labels : List Label)
    (server : Server) (calls : List Call)
    (taken : run (step listenfd) (start listenfd readbuf) labels = some (server, calls)) :
    (∃ alone replies,
      run (step listenfd) (start listenfd readbuf) (projectClient listenfd fd labels) =
        some (alone, replies) ∧
      writesOn fd replies = writesOn fd calls ∧ alone.sessionMap fd = server.sessionMap fd) ∧
    ∀ others state made,
      run (step listenfd) (start listenfd readbuf) others = some (state, made) →
      projectClient listenfd fd others = projectClient listenfd fd labels →
      writesOn fd made = writesOn fd calls ∧ state.sessionMap fd = server.sessionMap fd := by
  obtain ⟨alone, replies, followed, writes, queue⟩ :=
    run_projects listenfd fd readbuf labels server calls taken
  refine ⟨⟨alone, replies, followed, writes, queue⟩, fun others state made other same => ?_⟩
  obtain ⟨mirror, answers, again, sameWrites, sameQueue⟩ :=
    run_projects listenfd fd readbuf others state made other
  rw [same, followed] at again
  obtain ⟨rfl, rfl⟩ : alone = mirror ∧ replies = answers := by simpa using again
  exact ⟨sameWrites.symm.trans writes, sameQueue.symm.trans queue⟩

/-- Clients 5 and 6 in one run: the read buffer still holds bytes of client 5
when client 6 is served. -/
def sharedRun : List Label :=
  [.event { epollin := true, epollout := true, epollet := false, fd := 5 },
    .read 5 (.data ⟨[1, 2, 3], by decide, by decide⟩) (some 1) 0,
    .read 5 (.failed .again) none 0, .write 5 1,
    .event { epollin := true, epollout := false, epollet := false, fd := 6 },
    .read 6 (.data ⟨[9], by decide, by decide⟩) (some 0) 0, .read 6 .eof none 0]

theorem shared_run_independent :
    ∃ server calls, run (step 3) (start 3 []) sharedRun = some (server, calls) ∧
      ∃ alone replies,
        run (step 3) (start 3 []) (projectClient 3 6 sharedRun) = some (alone, replies) ∧
        writesOn 6 replies = writesOn 6 calls ∧ alone.sessionMap 6 = server.sessionMap 6 :=
  ⟨_, _, rfl, (clients_independent 3 6 [] sharedRun _ _ rfl).1⟩

end Practise.EchoServer
