import Mathlib.Data.List.AList
import Mathlib.Data.List.Induction
import Practise.Machine

/-! The loop of go/redis/main.go, which sets and deletes random keys. What redigo
and the server do is a parameter, of which no more is known than their
documentation says, with no other client at the database. A command can fail on
the way to the server, where it has no effect, or on the way back, where it has.
The loop returns at the first error, and what is left behind then is the key of
this iteration at most. -/
namespace Practise.RedisLoop
open Machine
variable {Store Chance : Type}

abbrev Key := List Char

inductive Command where
  | set (key value : Key)
  | del (key : Key)

inductive Reply where
  | status (text : String)
  | integer (value : Nat)
  deriving DecidableEq

/-- `c.Do`, which returns no reply with an error, and what `GET` would find. What
happens on the way is up to chance. -/
structure Redis (Store Chance : Type) where
  get : Store → Key → Option Key
  perform : Command → Chance → Store → Option Reply × Store

def Redis.Applied (redis : Redis Store Chance) (before after : Store) : Command → Prop
  | .set key value => redis.get after key = some value ∧
      ∀ other, other ≠ key → redis.get after other = redis.get before other
  | .del key => redis.get after key = none ∧
      ∀ other, other ≠ key → redis.get after other = redis.get before other

structure Redis.Documented (redis : Redis Store Chance) : Prop where
  replied : ∀ command chance store reply after,
    redis.perform command chance store = (some reply, after) → redis.Applied store after command
  -- The reply of `DEL` is the number of keys that were removed.
  deleted : ∀ key chance store reply after,
    redis.perform (.del key) chance store = (some reply, after) →
      reply = .integer (redis.get store key).isSome.toNat
  failed : ∀ command chance store after,
    redis.perform command chance store = (none, after) →
      (∀ key, redis.get after key = redis.get store key) ∨ redis.Applied store after command

def letterRunes : List Char :=
  "abcdefghijklmnopqrstuvwxyzABCDEFGHIJKLMNOPQRSTUVWXYZ".toList

/-- `intn` gives the results of `rand.Intn`, one for each index. -/
def randStringRunes (n : Nat) (intn : Nat → Fin letterRunes.length) : Key :=
  (List.range n).map fun i => letterRunes.get (intn i)

inductive Line where
  | deleted (v : Reply) (i : Nat)
  | error
  deriving DecidableEq

structure Loop (Store : Type) where
  store : Store
  i : Nat
  running : Bool

/-- What chance decides in one iteration. -/
structure Choice (Chance : Type) where
  intn : Nat → Fin letterRunes.length
  set : Chance
  del : Chance

def Choice.keyStr (choice : Choice Chance) : Key := randStringRunes 60 choice.intn

def iteration (redis : Redis Store Chance) : Step (Loop Store) (Choice Chance) Line :=
  fun loop choice =>
    if loop.running = true ∧ loop.i < 1000 * 1000 * 100 then
      match redis.perform (.set choice.keyStr choice.keyStr) choice.set loop.store with
      | (none, store) => some ({ loop with store := store, running := false }, [.error])
      | (some _, store) =>
          match redis.perform (.del choice.keyStr) choice.del store with
          | (none, store) => some ({ loop with store := store, running := false }, [.error])
          | (some v, store) =>
              some ({ loop with store := store, i := loop.i + 1 }, [.deleted v loop.i])
    else none

def startLoop (store : Store) : Loop Store := ⟨store, 0, true⟩

/-- The database without these keys. -/
def without (redis : Redis Store Chance) (store : Store) (keys : List Key) (key : Key) :
    Option Key := if key ∈ keys then none else redis.get store key

theorem without_snoc (redis : Redis Store Chance) (store : Store) (keys : List Key)
    (last key : Key) :
    without redis store (keys ++ [last]) key =
      if key = last then none else without redis store keys key := by
  by_cases same : key = last
  · simp [without, same]
  · simp [without, same]

/-- The database as it is after an iteration that failed. -/
structure Interrupted (redis : Redis Store Chance) (before after : Store) (key : Key) :
    Prop where
  others : ∀ other, other ≠ key → redis.get after other = redis.get before other
  own : redis.get after key = redis.get before key ∨ redis.get after key = some key ∨
    redis.get after key = none

section Iteration
variable (redis : Redis Store Chance) (documented : redis.Documented)
include documented

theorem failed_set (key : Key) (chance : Chance) (store after : Store)
    (done : redis.perform (.set key key) chance store = (none, after)) :
    Interrupted redis store after key := by
  rcases documented.failed _ _ _ _ done with nothing | ⟨stored, others⟩
  · exact ⟨fun other _ => nothing other, Or.inl (nothing key)⟩
  · exact ⟨others, Or.inr (Or.inl stored)⟩

theorem failed_del (key : Key) (first second : Chance) (store middle after : Store) (reply : Reply)
    (set : redis.perform (.set key key) first store = (some reply, middle))
    (done : redis.perform (.del key) second middle = (none, after)) :
    Interrupted redis store after key := by
  obtain ⟨stored, kept⟩ := documented.replied _ _ _ _ _ set
  rcases documented.failed _ _ _ _ done with nothing | ⟨gone, others⟩
  · refine ⟨fun other differs => (nothing other).trans (kept other differs), ?_⟩
    exact Or.inr (Or.inl ((nothing key).trans stored))
  · exact ⟨fun other differs => (others other differs).trans (kept other differs),
      Or.inr (Or.inr gone)⟩

theorem set_and_deleted (key : Key) (first second : Chance) (store middle after : Store)
    (reply v : Reply) (set : redis.perform (.set key key) first store = (some reply, middle))
    (done : redis.perform (.del key) second middle = (some v, after)) :
    v = .integer 1 ∧
      ∀ other, redis.get after other = if other = key then none else redis.get store other := by
  obtain ⟨stored, kept⟩ := documented.replied _ _ _ _ _ set
  obtain ⟨gone, others⟩ := documented.replied _ _ _ _ _ done
  refine ⟨by rw [documented.deleted _ _ _ _ _ done, stored]; rfl, fun other => ?_⟩
  by_cases same : other = key
  · rw [if_pos same, same, gone]
  · rw [if_neg same, others other same, kept other same]

/-- One iteration that is begun: it completes, or the loop has returned with the
key of this iteration as it was, stored, or deleted. -/
theorem iteration_cases (loop next : Loop Store) (choice : Choice Chance) (lines : List Line)
    (taken : iteration redis loop choice = some (next, lines)) :
    loop.running = true ∧
      ((next.running = true ∧ next.i = loop.i + 1 ∧ lines = [.deleted (.integer 1) loop.i] ∧
          ∀ key, redis.get next.store key =
            if key = choice.keyStr then none else redis.get loop.store key) ∨
        (next.running = false ∧ next.i = loop.i ∧ lines = [.error] ∧
          Interrupted redis loop.store next.store choice.keyStr)) := by
  rw [iteration] at taken
  split at taken
  swap
  · exact absurd taken (by simp)
  next begun =>
  refine ⟨begun.1, ?_⟩
  split at taken
  · next store set =>
    obtain ⟨rfl, rfl⟩ := Prod.mk.inj (Option.some.inj taken)
    exact Or.inr ⟨rfl, rfl, rfl, failed_set redis documented _ _ _ _ set⟩
  next reply store set =>
  split at taken
  · next after del =>
    obtain ⟨rfl, rfl⟩ := Prod.mk.inj (Option.some.inj taken)
    exact Or.inr ⟨rfl, rfl, rfl, failed_del redis documented _ _ _ _ _ _ _ set del⟩
  · next v after del =>
    obtain ⟨rfl, rfl⟩ := Prod.mk.inj (Option.some.inj taken)
    obtain ⟨rfl, now⟩ := set_and_deleted redis documented _ _ _ _ _ _ _ _ set del
    exact Or.inl ⟨begun.1, rfl, rfl, now⟩

/-- While the loop goes on, all keys so far are gone, and the lines count the
iterations. -/
theorem loop_running (store : Store) (choices : List (Choice Chance)) (loop : Loop Store)
    (lines : List Line) (running : loop.running = true)
    (taken : run (iteration redis) (startLoop store) choices = some (loop, lines)) :
    lines = (List.range loop.i).map (Line.deleted (.integer 1)) ∧ loop.i = choices.length ∧
      ∀ key, redis.get loop.store key =
        without redis store (choices.map Choice.keyStr) key := by
  induction choices using List.reverseRecOn generalizing loop lines with
  | nil =>
      obtain ⟨rfl, rfl⟩ := Prod.mk.inj (Option.some.inj taken)
      exact ⟨rfl, rfl, fun key => (if_neg List.not_mem_nil).symm⟩
  | append_singleton earlier last ih =>
      obtain ⟨middle, before, first, reached, moved, rfl⟩ := (run_snoc ..).mp taken
      obtain ⟨goes, ⟨-, count, printed, now⟩ | ⟨stopped, -⟩⟩ :=
        iteration_cases redis documented middle loop last first moved
      · obtain ⟨lines, sofar, kept⟩ := ih middle before goes reached
        refine ⟨?_, by rw [count, sofar, List.length_append]; rfl, fun key => ?_⟩
        · rw [lines, printed, count, List.range_succ, List.map_append]
          rfl
        · rw [now, kept, List.map_append, List.map_singleton, without_snoc]
      · exact absurd (running.symm.trans stopped) (by decide)

/-- Whatever the keys are and whatever fails: the lines number the iterations that
were completed, each of which has deleted its one key. The database is the old one
without the keys that were used, but for the key of an iteration that failed,
which may be there as it was, or stored, or gone. -/
theorem loop_leaves_at_most_one_key (store : Store) (choices : List (Choice Chance))
    (final : Loop Store) (lines : List Line)
    (taken : run (iteration redis) (startLoop store) choices = some (final, lines)) :
    (final.running = true ∧ lines = (List.range choices.length).map (Line.deleted (.integer 1)) ∧
      ∀ key, redis.get final.store key =
        without redis store (choices.map Choice.keyStr) key) ∨
    ∃ earlier last, choices = earlier ++ [last] ∧ final.running = false ∧
      lines = (List.range earlier.length).map (Line.deleted (.integer 1)) ++ [.error] ∧
      (∀ key, key ≠ last.keyStr → redis.get final.store key =
        without redis store (earlier.map Choice.keyStr) key) ∧
      (redis.get final.store last.keyStr =
          without redis store (earlier.map Choice.keyStr) last.keyStr ∨
        redis.get final.store last.keyStr = some last.keyStr ∨
        redis.get final.store last.keyStr = none) := by
  cases running : final.running with
  | true =>
      obtain ⟨printed, count, kept⟩ :=
        loop_running redis documented store choices final lines running taken
      exact Or.inl ⟨rfl, by rw [printed, count], kept⟩
  | false =>
      right
      rcases List.eq_nil_or_concat choices with rfl | ⟨earlier, last, rfl⟩
      · obtain ⟨rfl, -⟩ := Prod.mk.inj (Option.some.inj taken)
        have impossible : true = false := running
        exact absurd impossible (by decide)
      · rw [List.concat_eq_append] at taken ⊢
        obtain ⟨middle, before, first, reached, moved, rfl⟩ := (run_snoc ..).mp taken
        obtain ⟨goes, ⟨still, -⟩ | ⟨-, -, printed, interrupted⟩⟩ :=
          iteration_cases redis documented middle final last first moved
        · exact absurd (still.symm.trans running) (by decide)
        · obtain ⟨lines, count, kept⟩ :=
            loop_running redis documented store earlier middle before goes reached
          refine ⟨earlier, last, rfl, rfl, ?_, fun key different => ?_, ?_⟩
          · rw [lines, printed, count]
          · rw [interrupted.others key different, kept]
          · have own := interrupted.own
            rwa [kept] at own

end Iteration

/-! A database in memory, with commands that fail before or after their effect. -/

inductive Outcome where
  | replied
  | failed (applied : Bool)

def Command.effect (command : Command) (database : AList fun _ : Key => Key) :
    Reply × AList fun _ : Key => Key :=
  match command with
  | .set key value => (.status "OK", database.insert key value)
  | .del key => (.integer (database.lookup key).isSome.toNat, database.erase key)

def inMemory : Redis (AList fun _ : Key => Key) Outcome where
  get := fun database key => database.lookup key
  perform := fun command outcome database =>
    match outcome with
    | .replied => (some (command.effect database).1, (command.effect database).2)
    | .failed true => (none, (command.effect database).2)
    | .failed false => (none, database)

theorem effect_applied (command : Command) (database : AList fun _ : Key => Key) :
    inMemory.Applied database (command.effect database).2 command := by
  cases command with
  | set key value =>
      exact ⟨AList.lookup_insert _, fun other differs => AList.lookup_insert_ne differs⟩
  | del key =>
      exact ⟨AList.lookup_erase _ _, fun other differs => AList.lookup_erase_ne differs⟩

theorem in_memory_documented : inMemory.Documented where
  replied := by
    rintro command (_ | _ | _) store reply after done
    · obtain ⟨-, rfl⟩ := Prod.mk.inj done
      exact effect_applied command store
    · exact absurd (Prod.mk.inj done).1 (by simp)
    · exact absurd (Prod.mk.inj done).1 (by simp)
  deleted := by
    rintro key (_ | _ | _) store reply after done
    · obtain ⟨replied, -⟩ := Prod.mk.inj done
      exact (Option.some.inj replied).symm
    · exact absurd (Prod.mk.inj done).1 (by simp)
    · exact absurd (Prod.mk.inj done).1 (by simp)
  failed := by
    rintro command (_ | _ | _) store after done
    · exact absurd (Prod.mk.inj done).1 (by simp)
    · obtain ⟨-, rfl⟩ := Prod.mk.inj done
      exact Or.inl fun _ => rfl
    · obtain ⟨-, rfl⟩ := Prod.mk.inj done
      exact Or.inr (effect_applied command store)

/-- Every draw is the same letter. -/
def oneLetter (index : Fin letterRunes.length) (set del : Outcome) : Choice Outcome :=
  ⟨fun _ => index, set, del⟩

def interrupted : List (Choice Outcome) :=
  [oneLetter ⟨0, by decide⟩ .replied .replied, oneLetter ⟨1, by decide⟩ .replied (.failed false)]

/-- The first key is gone, whatever the second one is when its `DEL` fails. -/
theorem first_key_gone :
    ∃ final lines, run (iteration inMemory) (startLoop ∅) interrupted = some (final, lines) ∧
      lines = [.deleted (.integer 1) 0, .error] ∧
      inMemory.get final.store (oneLetter ⟨0, by decide⟩ .replied .replied).keyStr = none := by
  have taken : ∃ final lines,
      run (iteration inMemory) (startLoop ∅) interrupted = some (final, lines) ∧
        final.running = false := ⟨_, _, rfl, rfl⟩
  obtain ⟨final, lines, taken, stopped⟩ := taken
  refine ⟨final, lines, taken, ?_⟩
  rcases loop_leaves_at_most_one_key inMemory in_memory_documented ∅ interrupted final lines taken
    with ⟨running, -, -⟩ | ⟨earlier, last, split, -, printed, others, -⟩
  · exact absurd (running.symm.trans stopped) (by decide)
  · have both : [oneLetter ⟨0, by decide⟩ .replied .replied] ++
        [oneLetter ⟨1, by decide⟩ .replied (.failed false)] = earlier ++ [last] := split
    obtain ⟨rfl, same⟩ := List.append_inj' both rfl
    obtain rfl := List.singleton_inj.mp same
    refine ⟨printed, ?_⟩
    rw [others _ (by decide), without, if_pos (by simp)]

end Practise.RedisLoop
