import Practise.TftpSharing

/-! The `FILE` objects that the handlers of tftp/tftp_server.c open and close.
Only `handle_ACK` closes one, with its last block. `handle_RRQ` assigns the
global `file` without looking at it, so a request while a file is open takes the
last pointer to it away, whether the new file can be opened or not. The session
still has the pointer in `pFile`, but nothing closes it from there. -/
namespace Practise.TftpServer
open Clib Machine

structure Ledger where
  service : Service
  streams : List Nat

/-- `fopen` in `handle_RRQ` adds a file, `fclose` in `handle_ACK` takes one away,
at the place where `file` is set to null. -/
def serveLedger (fileSystem : FileSystem) : Step Ledger Request Reply := fun ledger request =>
  (serve fileSystem ledger.service request).map fun done =>
    ({ service := done.1
       streams :=
        match request with
        | .rrq _ _ _ =>
            if done.1.globals.opened = ledger.service.globals.opened then ledger.streams
            else ledger.service.globals.opened :: ledger.streams
        | .ack _ _ =>
            match ledger.service.globals.file, done.1.globals.file with
            | some file, none => ledger.streams.erase file.ident
            | _, _ => ledger.streams },
      done.2)

def Ledger.start (inBuf : InBuf) : Ledger := ⟨startService inBuf, []⟩

/-- The request takes an open file's pointer away. -/
def Displaces (service : Service) : Request → Prop
  | .rrq _ _ _ => service.globals.file ≠ none
  | .ack _ _ => False

instance (service : Service) (request : Request) : Decidable (Displaces service request) :=
  match request with
  | .rrq _ _ _ => inferInstanceAs (Decidable (service.globals.file ≠ none))
  | .ack _ _ => inferInstanceAs (Decidable False)

def displacements (fileSystem : FileSystem) : Service → List Request → Nat
  | _, [] => 0
  | service, request :: rest =>
      (if Displaces service request then 1 else 0) +
        match serve fileSystem service request with
        | none => 0
        | some done => displacements fileSystem done.1 rest

def pointed (service : Service) : Nat := if service.globals.file = none then 0 else 1

/-- Each open file is listed once, also the one that `file` points to. -/
structure Listed (ledger : Ledger) : Prop where
  distinct : ledger.streams.Nodup
  numbered : ∀ ident ∈ ledger.streams, ident < ledger.service.globals.opened
  current : ∀ file, ledger.service.globals.file = some file → file.ident ∈ ledger.streams

theorem start_listed (inBuf : InBuf) : Listed (Ledger.start inBuf) where
  distinct := List.nodup_nil
  numbered := fun _ member => absurd member List.not_mem_nil
  current := fun _ opened => absurd opened (by simp [Ledger.start, startService])

/-- The five ways of the ledger, one for each way of the service and one more
where the last block closes the file. -/
inductive Entered (ledger after : Ledger) : Request → Prop where
  | missing (addr : Address) (request : ReadRequest) (sock : Fd)
      (same : after.streams = ledger.streams)
      (opened : after.service.globals.opened = ledger.service.globals.opened)
      (file : after.service.globals.file = none) : Entered ledger after (.rrq addr request sock)
  | opens (addr : Address) (request : ReadRequest) (sock : Fd)
      (added : after.streams = ledger.service.globals.opened :: ledger.streams)
      (opened : after.service.globals.opened = ledger.service.globals.opened + 1)
      (file : ∃ stream, after.service.globals.file = some stream ∧
        stream.ident = ledger.service.globals.opened) :
      Entered ledger after (.rrq addr request sock)
  | idle (addr : Address) (number : UInt16) (same : after.streams = ledger.streams)
      (opened : after.service.globals.opened = ledger.service.globals.opened)
      (before : ledger.service.globals.file = none) (file : after.service.globals.file = none) :
      Entered ledger after (.ack addr number)
  | keeps (addr : Address) (number : UInt16) (stream next : Stream UInt8)
      (same : after.streams = ledger.streams)
      (opened : after.service.globals.opened = ledger.service.globals.opened)
      (before : ledger.service.globals.file = some stream)
      (file : after.service.globals.file = some next) (ident : next.ident = stream.ident) :
      Entered ledger after (.ack addr number)
  | closes (addr : Address) (number : UInt16) (stream : Stream UInt8)
      (less : after.streams = ledger.streams.erase stream.ident)
      (opened : after.service.globals.opened = ledger.service.globals.opened)
      (before : ledger.service.globals.file = some stream)
      (file : after.service.globals.file = none) : Entered ledger after (.ack addr number)

theorem serve_entered (fileSystem : FileSystem) (ledger after : Ledger) (request : Request)
    (replies : List Reply)
    (taken : serveLedger fileSystem ledger request = some (after, replies)) :
    Entered ledger after request := by
  obtain ⟨⟨service, sent⟩, served, same⟩ := Option.map_eq_some_iff.mp taken
  obtain ⟨rfl, rfl⟩ := Prod.mk.inj same
  cases serve_served fileSystem ledger.service service request sent served with
  | missing addr request sock inBuf absent =>
      exact .missing addr request sock (if_pos rfl) rfl rfl
  | opens addr request sock inBuf content found =>
      have more : ledger.service.globals.opened + 1 ≠ ledger.service.globals.opened :=
        Nat.succ_ne_self _
      exact .opens addr request sock (if_neg more) rfl ⟨_, rfl, rfl⟩
  | closed addr number inBuf unopened =>
      refine .idle addr number ?_ rfl unopened rfl
      simp only [unopened]
  | reads addr number inBuf stream current =>
      cases kept : fileAfterAck number.toNat stream with
      | none =>
          refine .closes addr number stream ?_ rfl current rfl
          simp only [current, Service.withFile]
      | some next =>
          refine .keeps addr number stream next ?_ rfl current rfl
            (file_after_ack number.toNat stream next kept).1
          simp only [current, Service.withFile]

theorem unpointed_listed (ledger after : Ledger) (listed : Listed ledger)
    (same : after.streams = ledger.streams)
    (opened : after.service.globals.opened = ledger.service.globals.opened)
    (file : after.service.globals.file = none) : Listed after := by
  refine ⟨same ▸ listed.distinct, ?_, fun stream some => ?_⟩
  · rw [same, opened]
    exact listed.numbered
  · exact absurd (file.symm.trans some) (by simp)

theorem entered_listed (ledger after : Ledger) (request : Request) (listed : Listed ledger)
    (entered : Entered ledger after request) : Listed after := by
  cases entered with
  | missing addr request sock same opened file =>
      exact unpointed_listed ledger after listed same opened file
  | opens addr request sock added opened file =>
      obtain ⟨stream, current, ident⟩ := file
      refine ⟨?_, fun number member => ?_, fun other some => ?_⟩
      · rw [added]
        exact List.nodup_cons.mpr
          ⟨fun old => Nat.lt_irrefl _ (listed.numbered _ old), listed.distinct⟩
      · rw [opened]
        rw [added] at member
        rcases List.mem_cons.mp member with rfl | old
        · exact Nat.lt_succ_self _
        · exact Nat.lt_succ_of_lt (listed.numbered number old)
      · rw [← Option.some.inj (current.symm.trans some), ident, added]
        exact List.mem_cons_self
  | idle addr number same opened before file =>
      exact unpointed_listed ledger after listed same opened file
  | keeps addr number stream next same opened before file ident =>
      refine ⟨same ▸ listed.distinct, ?_, fun other some => ?_⟩
      · rw [same, opened]
        exact listed.numbered
      · rw [← Option.some.inj (file.symm.trans some), ident, same]
        exact listed.current stream before
  | closes addr number stream less opened before file =>
      refine ⟨less ▸ listed.distinct.erase _, fun ident member => ?_, fun other some => ?_⟩
      · rw [opened]
        exact listed.numbered ident (List.erase_subset (less ▸ member))
      · exact absurd (file.symm.trans some) (by simp)

/-- Only a displacement opens a gap between the listed files and the one that is
pointed to. -/
theorem entered_balance (ledger after : Ledger) (request : Request) (listed : Listed ledger)
    (entered : Entered ledger after request) :
    after.streams.length + pointed ledger.service =
      ledger.streams.length + pointed after.service +
        if Displaces ledger.service request then 1 else 0 := by
  cases entered with
  | missing addr request sock same opened file =>
      rw [same, pointed, pointed, if_pos file]
      by_cases before : ledger.service.globals.file = none
      · simp [Displaces, before]
      · simp [Displaces, before]
  | opens addr request sock added opened file =>
      obtain ⟨stream, current, -⟩ := file
      rw [added, pointed, pointed, current]
      by_cases before : ledger.service.globals.file = none
      · simp [Displaces, before]
      · simp [Displaces, before]
  | idle addr number same opened before file =>
      rw [same, pointed, pointed, if_pos before, if_pos file]
      simp [Displaces]
  | keeps addr number stream next same opened before file ident =>
      rw [same, pointed, pointed, before, file]
      simp [Displaces]
  | closes addr number stream less opened before file =>
      have present := listed.current stream before
      have size := List.length_erase_of_mem present
      have positive := List.length_pos_of_mem present
      rw [less, pointed, pointed, before, if_pos file, size]
      simp only [reduceCtorEq, ↓reduceIte, Displaces]
      omega

theorem entered_lost (ledger after : Ledger) (request : Request) (listed : Listed ledger)
    (entered : Entered ledger after request) (ident : Nat) (member : ident ∈ ledger.streams)
    (lost : ∀ file, ledger.service.globals.file = some file → file.ident ≠ ident) :
    ident ∈ after.streams ∧
      ∀ file, after.service.globals.file = some file → file.ident ≠ ident := by
  cases entered with
  | missing addr request sock same opened file =>
      exact ⟨same ▸ member, fun stream some => absurd (file.symm.trans some) (by simp)⟩
  | opens addr request sock added opened file =>
      obtain ⟨stream, current, own⟩ := file
      refine ⟨by rw [added]; exact List.mem_cons_of_mem _ member, fun other some => ?_⟩
      rw [← Option.some.inj (current.symm.trans some), own]
      exact (Nat.ne_of_lt (listed.numbered ident member)).symm
  | idle addr number same opened before file =>
      exact ⟨same ▸ member, fun stream some => absurd (file.symm.trans some) (by simp)⟩
  | keeps addr number stream next same opened before file own =>
      refine ⟨same ▸ member, fun other some => ?_⟩
      rw [← Option.some.inj (file.symm.trans some), own]
      exact lost stream before
  | closes addr number stream less opened before file =>
      refine ⟨?_, fun other some => absurd (file.symm.trans some) (by simp)⟩
      rw [less, listed.distinct.mem_erase_iff]
      exact ⟨(lost stream before).symm, member⟩

theorem displaced_lost (ledger after : Ledger) (request : Request) (listed : Listed ledger)
    (entered : Entered ledger after request) (displaces : Displaces ledger.service request) :
    ∃ stream, ledger.service.globals.file = some stream ∧ stream.ident ∈ after.streams ∧
      ∀ file, after.service.globals.file = some file → file.ident ≠ stream.ident := by
  cases entered with
  | missing addr request sock same opened file =>
      obtain ⟨stream, before⟩ := Option.ne_none_iff_exists'.mp displaces
      refine ⟨stream, before, same ▸ listed.current stream before, fun other some => ?_⟩
      exact absurd (file.symm.trans some) (by simp)
  | opens addr request sock added opened file =>
      obtain ⟨stream, before⟩ := Option.ne_none_iff_exists'.mp displaces
      obtain ⟨new, current, own⟩ := file
      have present := listed.current stream before
      refine ⟨stream, before, by rw [added]; exact List.mem_cons_of_mem _ present,
        fun other some => ?_⟩
      rw [← Option.some.inj (current.symm.trans some), own]
      exact (Nat.ne_of_lt (listed.numbered _ present)).symm
  | idle => exact absurd displaces id
  | keeps => exact absurd displaces id
  | closes => exact absurd displaces id

/-! Whole runs. -/
section Runs
variable (fileSystem : FileSystem)

theorem ledger_step_taken (ledger : Ledger) (request : Request) :
    ∃ next replies, serveLedger fileSystem ledger request = some (next, replies) ∧
      serve fileSystem ledger.service request = some (next.service, replies) := by
  obtain ⟨⟨service, replies⟩, served⟩ :=
    Option.isSome_iff_exists.mp (serve_total fileSystem ledger.service request)
  exact ⟨_, replies, by rw [serveLedger, served, Option.map_some], served⟩

theorem ledger_counted (ledger : Ledger) (requests : List Request) (listed : Listed ledger) :
    ∃ final replies, run (serveLedger fileSystem) ledger requests = some (final, replies) ∧
      Listed final ∧
      final.streams.length + pointed ledger.service =
        ledger.streams.length + pointed final.service +
          displacements fileSystem ledger.service requests := by
  induction requests generalizing ledger with
  | nil => exact ⟨ledger, [], rfl, listed, rfl⟩
  | cons request rest ih =>
      obtain ⟨next, sent, taken, served⟩ := ledger_step_taken fileSystem ledger request
      have entered := serve_entered fileSystem ledger next request sent taken
      have balance := entered_balance ledger next request listed entered
      obtain ⟨final, replies, followed, still, count⟩ :=
        ih next (entered_listed ledger next request listed entered)
      refine ⟨final, _, (run_cons ..).mpr ⟨next, sent, replies, taken, followed, rfl⟩, still, ?_⟩
      rw [displacements, served]
      simp only
      omega

theorem lost_forever (ledger : Ledger) (requests : List Request) (listed : Listed ledger)
    (ident : Nat) (member : ident ∈ ledger.streams)
    (lost : ∀ file, ledger.service.globals.file = some file → file.ident ≠ ident) :
    ∃ final replies, run (serveLedger fileSystem) ledger requests = some (final, replies) ∧
      ident ∈ final.streams ∧
      ∀ file, final.service.globals.file = some file → file.ident ≠ ident := by
  obtain ⟨final, replies, taken, -, stays, away⟩ := run_defined (serveLedger fileSystem)
    (fun _ _ => True)
    (fun ledger => Listed ledger ∧ ident ∈ ledger.streams ∧
      ∀ file, ledger.service.globals.file = some file → file.ident ≠ ident)
    (fun ledger request kept _ => by
      obtain ⟨next, sent, taken, -⟩ := ledger_step_taken fileSystem ledger request
      have entered := serve_entered fileSystem ledger next request sent taken
      exact ⟨next, sent, taken, entered_listed ledger next request kept.1 entered,
        entered_lost ledger next request kept.1 entered ident kept.2.1 kept.2.2⟩)
    ledger ⟨listed, member, lost⟩ requests
    (every_step_of_labels _ _ _ requests fun _ _ => trivial)
  exact ⟨final, replies, taken, stays, away⟩

/-- However many clients ask in whatever order: besides the file that is pointed
to, exactly one file is open for each request that came while a file was open,
and such a file is never closed. -/
theorem displaced_streams_leak (inBuf : InBuf) (past : List Request) (request : Request)
    (later : List Request) :
    ∃ ledger replies final more,
      run (serveLedger fileSystem) (Ledger.start inBuf) past = some (ledger, replies) ∧
      run (serveLedger fileSystem) ledger (request :: later) = some (final, more) ∧
      ledger.streams.length =
        pointed ledger.service + displacements fileSystem (startService inBuf) past ∧
      (Displaces ledger.service request → ∃ file, ledger.service.globals.file = some file ∧
        file.ident ∈ final.streams ∧
        ∀ current, final.service.globals.file = some current → current.ident ≠ file.ident) := by
  obtain ⟨ledger, replies, taken, listed, count⟩ :=
    ledger_counted fileSystem (Ledger.start inBuf) past (start_listed inBuf)
  obtain ⟨next, sent, moved, -⟩ := ledger_step_taken fileSystem ledger request
  have entered := serve_entered fileSystem ledger next request sent moved
  have still := entered_listed ledger next request listed entered
  obtain ⟨final, more, followed, -⟩ := ledger_counted fileSystem next later still
  refine ⟨ledger, replies, final, _, taken,
    (run_cons ..).mpr ⟨next, sent, more, moved, followed, rfl⟩, ?_, fun displaces => ?_⟩
  · have none : pointed (Ledger.start inBuf).service = 0 := rfl
    have empty : (Ledger.start inBuf).streams.length = 0 := rfl
    rw [none, empty] at count
    have same : (Ledger.start inBuf).service = startService inBuf := rfl
    rw [same] at count
    omega
  · obtain ⟨file, before, member, lost⟩ :=
      displaced_lost ledger next request listed entered displaces
    obtain ⟨last, _, again, ends⟩ := lost_forever fileSystem next later still file.ident member lost
    obtain ⟨rfl, -⟩ := Prod.mk.inj (Option.some.inj (followed.symm.trans again))
    exact ⟨file, before, ends⟩

end Runs

end Practise.TftpServer
