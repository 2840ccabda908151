import Practise.SessionList

/-!
Who frees what of the sessions in the list. `create_new_session` allocates two
blocks, the `SESSION` and its `cli_addr`, and each insertion a node. A removal
frees the node and the `SESSION`; `free_session` would free the `cli_addr` too.
-/
namespace Practise.SessionStorage
open LinkedChain SessionList Machine

def start (head : Ptr) : Storage := SessionList.start head ∅

/-- There is no result if the pointer is not that of a live `SESSION`. -/
def freeSession (storage : Storage) (sess : Ptr) : Option Storage :=
  if sess = NULL then some storage
  else
    match storage.blocks.lookup sess with
    | some (.session cliAddr) => some ((storage.free cliAddr).free sess)
    | _ => none

/-- A new session is created and inserted at once. -/
inductive Operation where
  | create (sess cliAddr newitem : Ptr)
  | insert (session newitem : Ptr)
  | remove (session : Ptr)
  deriving DecidableEq

/-- Allocated addresses are unused, and only created sessions are inserted. -/
def Admissible (storage : Storage) : Operation → Prop
  | .create sess cliAddr newitem =>
      Unused storage sess ∧ Unused storage cliAddr ∧ Unused storage newitem ∧
        sess ≠ cliAddr ∧ sess ≠ newitem ∧ cliAddr ≠ newitem
  | .insert session newitem => session ∈ storage.created ∧ Unused storage newitem
  | .remove _ => True

instance (storage : Storage) : ∀ operation, Decidable (Admissible storage operation)
  | .create _ _ _ => inferInstanceAs (Decidable (_ ∧ _))
  | .insert _ _ => inferInstanceAs (Decidable (_ ∧ _))
  | .remove _ => inferInstanceAs (Decidable True)

def perform (head : Ptr) (storage : Storage) : Operation → Option Storage
  | .create sess cliAddr newitem =>
      insertSession (createNewSession storage sess cliAddr) head sess newitem
  | .insert session newitem => insertSession storage head session newitem
  | .remove session => removeFromList storage head session

def step (head : Ptr) : Step Storage Operation Empty := fun storage operation =>
  if Admissible storage operation then
    (perform head storage operation).map fun storage => (storage, [])
  else none

/-- Every session in the list is live, nothing was freed twice, and the live
blocks are the sentinel, the list nodes and the two blocks of each session in
the list. -/
def Accounted (head : Ptr) (storage : Storage) : Prop :=
  ∃ cells, Represents storage.nodes head cells ∧
    (∀ session ∈ values cells, ∃ cliAddr,
      storage.blocks.lookup session = some (.session cliAddr)) ∧
    storage.doubleFrees = [] ∧
    ∀ address, storage.Live address ↔
      address = head ∨ address ∈ addresses cells ∨ ∃ session ∈ values cells,
        address = session ∨ storage.blocks.lookup session = some (.session address)

/-- As long as nothing was removed, everything allocated has one owner. -/
structure Owns (head : Ptr) (cells : List (Ptr × Ptr)) (storage : Storage) : Prop
    extends Sound head cells storage where
  listed : ∀ session ∈ storage.created, session ∈ values cells
  whole : ∀ session ∈ values cells, session ≠ NULL ∧ ∃ cliAddr,
    storage.blocks.lookup session = some (.session cliAddr) ∧
      storage.blocks.lookup cliAddr = some .sockaddr
  unshared : ∀ session other cliAddr,
    storage.blocks.lookup session = some (.session cliAddr) →
    storage.blocks.lookup other = some (.session cliAddr) → session = other
  owned : ∀ address ∈ storage.blocks, ∃ session ∈ values cells,
    address = session ∨ storage.blocks.lookup session = some (.session address)

theorem start_owns (head : Ptr) (nonNull : head ≠ NULL) : Owns head [] (start head) where
  toSound := start_sound head ∅ nonNull (AList.notMem_empty head)
  listed := by simp [start, SessionList.start]
  whole := by simp [values]
  unshared := by simp [start, SessionList.start]
  owned := fun address member => absurd member (AList.notMem_empty address)

theorem owns_accounted (head : Ptr) (cells : List (Ptr × Ptr)) (storage : Storage)
    (owns : Owns head cells storage) : Accounted head storage := by
  refine ⟨cells, owns.represents, ?_, owns.once, ?_⟩
  · intro session member
    obtain ⟨-, cliAddr, block, -⟩ := owns.whole session member
    exact ⟨cliAddr, block⟩
  · intro address
    rw [Storage.Live, owns.represents.allocated, or_assoc]
    refine or_congr_right (or_congr_right ⟨owns.owned address, ?_⟩)
    rintro ⟨session, member, same | points⟩
    · obtain ⟨-, cliAddr, block, -⟩ := owns.whole session member
      exact same ▸ lookup_mem storage.blocks session _ block
    · obtain ⟨-, cliAddr, block, target⟩ := owns.whole session member
      obtain rfl : cliAddr = address := by simpa using block.symm.trans points
      exact lookup_mem storage.blocks cliAddr _ target

/-! Insertions. -/

theorem insert_owns (storage : Storage) (head session newitem : Ptr) (cells : List (Ptr × Ptr))
    (owns : Owns head cells storage) (known : session ∈ storage.created)
    (unused : Unused storage newitem) :
    ∃ after, insertSession storage head session newitem = some after ∧
      Owns head ((newitem, session) :: cells) after := by
  obtain ⟨nodes, inserted, sound⟩ :=
    insert_sound head session newitem cells storage owns.toSound unused
  -- The session is in the list already, so the same sessions are listed as before.
  have same : ∀ other, other ∈ values ((newitem, session) :: cells) ↔ other ∈ values cells := by
    intro other
    rw [values_cons, List.mem_cons]
    exact ⟨fun either => either.elim (fun equal => equal ▸ owns.listed session known) id, Or.inr⟩
  refine ⟨_, inserted, sound, ?_, ?_, owns.unshared, ?_⟩
  · intro other member
    exact (same other).mpr (owns.listed other member)
  · intro other member
    exact owns.whole other ((same other).mp member)
  · intro address member
    obtain ⟨other, inside, owner⟩ := owns.owned address member
    exact ⟨other, (same other).mpr inside, owner⟩

theorem create_lookup (storage : Storage) (sess cliAddr address : Ptr) :
    (createNewSession storage sess cliAddr).blocks.lookup address =
      if address = cliAddr then some .sockaddr
      else if address = sess then some (.session cliAddr) else storage.blocks.lookup address := by
  rw [createNewSession]
  by_cases target : address = cliAddr
  · rw [if_pos target, target, AList.lookup_insert]
  · rw [if_neg target, AList.lookup_insert_ne target]
    by_cases own : address = sess
    · rw [if_pos own, own, AList.lookup_insert]
    · rw [if_neg own, AList.lookup_insert_ne own]

theorem create_session (storage : Storage) (sess cliAddr session target : Ptr)
    (block : (createNewSession storage sess cliAddr).blocks.lookup session =
      some (.session target)) :
    (session = sess ∧ target = cliAddr) ∨
      storage.blocks.lookup session = some (.session target) := by
  rw [create_lookup] at block
  by_cases address : session = cliAddr
  · rw [if_pos address] at block
    exact absurd block (by simp)
  · rw [if_neg address] at block
    by_cases own : session = sess
    · rw [if_pos own, Option.some.injEq, Block.session.injEq] at block
      exact Or.inl ⟨own, block.symm⟩
    · rw [if_neg own] at block
      exact Or.inr block

theorem session_target (storage : Storage) (head : Ptr) (cells : List (Ptr × Ptr))
    (owns : Owns head cells storage) (session target : Ptr)
    (block : storage.blocks.lookup session = some (.session target)) :
    target ∈ storage.blocks := by
  have live := lookup_mem storage.blocks session _ block
  obtain ⟨owner, listed, same | points⟩ := owns.owned session live
  · obtain ⟨-, cliAddr, own, address⟩ := owns.whole owner listed
    rw [same, own, Option.some.injEq, Block.session.injEq] at block
    subst block
    exact lookup_mem storage.blocks cliAddr _ address
  · -- The block would be a session and an address at once.
    obtain ⟨-, cliAddr, own, address⟩ := owns.whole owner listed
    obtain rfl : cliAddr = session := by simpa using own.symm.trans points
    exact absurd (address.symm.trans block) (by simp)

theorem create_member (storage : Storage) (sess cliAddr address : Ptr) :
    address ∈ (createNewSession storage sess cliAddr).blocks ↔
      address = cliAddr ∨ address = sess ∨ address ∈ storage.blocks := by
  rw [createNewSession, AList.mem_insert, AList.mem_insert]

theorem create_older (storage : Storage) (sess cliAddr address : Ptr) (block : Block)
    (freshSess : Unused storage sess) (freshAddr : Unused storage cliAddr)
    (found : storage.blocks.lookup address = some block) :
    (createNewSession storage sess cliAddr).blocks.lookup address = some block := by
  have live := lookup_mem storage.blocks address block found
  have addrDiffers : address ≠ cliAddr := fun same => freshAddr.2 (Or.inr (same ▸ live))
  have sessDiffers : address ≠ sess := fun same => freshSess.2 (Or.inr (same ▸ live))
  rw [create_lookup, if_neg addrDiffers, if_neg sessDiffers, found]

theorem create_unused (storage : Storage) (sess cliAddr newitem : Ptr)
    (admissible : Admissible storage (.create sess cliAddr newitem)) :
    Unused (createNewSession storage sess cliAddr) newitem := by
  obtain ⟨-, -, freshNode, -, nodeApart, nodeAddr⟩ := admissible
  refine ⟨freshNode.1, ?_⟩
  rintro (inside | inside)
  · exact freshNode.2 (Or.inl inside)
  · rcases (create_member storage sess cliAddr newitem).mp inside with same | same | old
    · exact nodeAddr same.symm
    · exact nodeApart same.symm
    · exact freshNode.2 (Or.inr old)

/-- No older session points to the new address, so still no two sessions share one. -/
theorem create_unshared (storage : Storage) (head sess cliAddr : Ptr) (cells : List (Ptr × Ptr))
    (owns : Owns head cells storage) (freshAddr : Unused storage cliAddr)
    (session other target : Ptr)
    (first : (createNewSession storage sess cliAddr).blocks.lookup session =
      some (.session target))
    (second : (createNewSession storage sess cliAddr).blocks.lookup other =
      some (.session target)) :
    session = other := by
  have untaken : ∀ session, storage.blocks.lookup session ≠ some (.session cliAddr) :=
    fun session block =>
      freshAddr.2 (Or.inr (session_target storage head cells owns session cliAddr block))
  rcases create_session storage sess cliAddr session target first with ⟨own, rfl⟩ | before
  · rcases create_session storage sess target other target second with ⟨again, -⟩ | earlier
    · rw [own, again]
    · exact absurd earlier (untaken other)
  · rcases create_session storage sess cliAddr other target second with ⟨-, rfl⟩ | earlier
    · exact absurd before (untaken session)
    · exact owns.unshared session other target before earlier

theorem create_owns (storage : Storage) (head sess cliAddr newitem : Ptr)
    (cells : List (Ptr × Ptr)) (owns : Owns head cells storage)
    (admissible : Admissible storage (.create sess cliAddr newitem)) :
    ∃ after, insertSession (createNewSession storage sess cliAddr) head sess newitem = some after ∧
      Owns head ((newitem, sess) :: cells) after := by
  have unused := create_unused storage sess cliAddr newitem admissible
  obtain ⟨freshSess, freshAddr, -, addrApart, -, -⟩ := admissible
  have older : ∀ address block, storage.blocks.lookup address = some block →
      (createNewSession storage sess cliAddr).blocks.lookup address = some block :=
    fun address block => create_older storage sess cliAddr address block freshSess freshAddr
  obtain ⟨nodes, inserted, sound⟩ :=
    insert_sound head sess newitem cells (createNewSession storage sess cliAddr)
      (create_sound head sess cliAddr cells storage owns.toSound ⟨freshSess, freshAddr, addrApart⟩)
      unused
  refine ⟨_, inserted, sound, ?_, ?_, ?_, ?_⟩
  · intro session known
    rw [values_cons, List.mem_cons]
    rcases List.mem_cons.mp known with same | earlier
    · exact Or.inl same
    · exact Or.inr (owns.listed session earlier)
  · intro session listed
    rw [values_cons, List.mem_cons] at listed
    rcases listed with rfl | earlier
    · refine ⟨freshSess.1, cliAddr, ?_, ?_⟩
      · rw [create_lookup, if_neg addrApart, if_pos rfl]
      · rw [create_lookup, if_pos rfl]
    · obtain ⟨nonNull, target, block, address⟩ := owns.whole session earlier
      exact ⟨nonNull, target, older session _ block, older target _ address⟩
  · exact create_unshared storage head sess cliAddr cells owns freshAddr
  · intro address live
    rcases (create_member storage sess cliAddr address).mp live with rfl | rfl | block
    · exact ⟨sess, by simp, Or.inr (by rw [create_lookup, if_neg addrApart, if_pos rfl])⟩
    · exact ⟨address, by simp, Or.inl rfl⟩
    · obtain ⟨session, inside, owner⟩ := owns.owned address block
      refine ⟨session, List.mem_cons_of_mem _ inside, owner.imp_right (older session _)⟩

/-! Removals. -/

theorem remove_unlisted_owns (storage : Storage) (head session : Ptr) (cells : List (Ptr × Ptr))
    (owns : Owns head cells storage) (absent : session ∉ values cells) :
    ∃ after, removeFromList storage head session = some after ∧ Owns head cells after := by
  obtain ⟨nodes, removed, sound⟩ := remove_unlisted head session cells storage owns.toSound absent
  exact ⟨_, removed, sound, owns.listed, owns.whole, owns.unshared, owns.owned⟩

/-- Removing a session that is in the list frees its `SESSION` block and leaves
the rest of the blocks as they are. -/
theorem remove_listed (storage : Storage) (head session : Ptr) (cells : List (Ptr × Ptr))
    (owns : Owns head cells storage) (listed : session ∈ values cells) :
    ∃ after, removeFromList storage head session = some after ∧
      after.blocks = storage.blocks.erase session ∧
      ∀ node ∈ after.nodes, node ∈ storage.nodes := by
  obtain ⟨nonNull, cliAddr, block, -⟩ := owns.whole session listed
  obtain ⟨after, removed, -, nodes, blocks⟩ := remove_sound head session cells storage owns.toSound
    listed (Or.inr (lookup_mem storage.blocks session _ block))
  exact ⟨after, removed, blocks nonNull, nodes⟩

theorem remove_unaccounted (storage after : Storage) (head session : Ptr)
    (cells : List (Ptr × Ptr)) (owns : Owns head cells storage) (listed : session ∈ values cells)
    (blocks : after.blocks = storage.blocks.erase session)
    (nodes : ∀ node ∈ after.nodes, node ∈ storage.nodes) : ¬ Accounted head after := by
  rintro ⟨others, represents, live, -, exact⟩
  obtain ⟨-, cliAddr, block, address⟩ := owns.whole session listed
  have differs : cliAddr ≠ session := by
    rintro rfl
    exact absurd (block.symm.trans address) (by simp)
  have left : after.blocks.lookup cliAddr = some .sockaddr := by
    rw [blocks, AList.lookup_erase_ne differs, address]
  have present := lookup_mem after.blocks cliAddr _ left
  have noNode : cliAddr ∉ after.nodes := by
    intro member
    rw [blocks] at present
    exact owns.apart cliAddr (nodes cliAddr member) (AList.mem_erase.mp present).2
  rw [represents.allocated, not_or] at noNode
  rcases (exact cliAddr).mp (Or.inr present) with same | member | ⟨owner, inside, same | points⟩
  · exact noNode.1 same
  · exact noNode.2 member
  · obtain ⟨target, session⟩ := live owner inside
    rw [← same, left] at session
    exact absurd session (by simp)
  · rw [blocks] at points
    by_cases own : owner = session
    · rw [own, AList.lookup_erase] at points
      exact absurd points (by simp)
    · rw [AList.lookup_erase_ne own] at points
      exact own (owns.unshared owner session cliAddr points block)

/-! Whole runs. -/

def Unlisted (head : Ptr) (storage : Storage) : Operation → Prop
  | .remove session => ¬ Listed head storage session
  | _ => True

theorem step_owns (head : Ptr) (storage : Storage) (operation : Operation)
    (owns : ∃ cells, Owns head cells storage) (admissible : Admissible storage operation)
    (unlisted : Unlisted head storage operation) :
    ∃ next, step head storage operation = some (next, []) ∧ ∃ cells, Owns head cells next := by
  obtain ⟨cells, owns⟩ := owns
  suffices performed : ∃ next, perform head storage operation = some next ∧
      ∃ cells, Owns head cells next by
    obtain ⟨next, taken, kept⟩ := performed
    exact ⟨next, by rw [step, if_pos admissible, taken, Option.map_some], kept⟩
  cases operation with
  | create sess cliAddr newitem =>
      obtain ⟨next, taken, kept⟩ := create_owns storage head sess cliAddr newitem cells owns admissible
      exact ⟨next, taken, _, kept⟩
  | insert session newitem =>
      obtain ⟨next, taken, kept⟩ := insert_owns storage head session newitem cells owns
        admissible.1 admissible.2
      exact ⟨next, taken, _, kept⟩
  | remove session =>
      obtain ⟨next, taken, kept⟩ := remove_unlisted_owns storage head session cells owns
        (fun member => unlisted ⟨cells, owns.represents, member⟩)
      exact ⟨next, taken, _, kept⟩

theorem step_unaccounted (head : Ptr) (storage next : Storage) (operation : Operation)
    (outputs : List Empty) (owns : ∃ cells, Owns head cells storage)
    (found : ¬ Unlisted head storage operation)
    (taken : step head storage operation = some (next, outputs)) : ¬ Accounted head next := by
  obtain ⟨cells, owns⟩ := owns
  cases operation with
  | create sess cliAddr newitem => exact absurd trivial found
  | insert session newitem => exact absurd trivial found
  | remove session =>
      obtain ⟨others, represents, member⟩ := not_not.mp found
      rw [represents_unique storage.nodes head others cells represents owns.represents] at member
      obtain ⟨after, removed, blocks, nodes⟩ := remove_listed storage head session cells owns member
      have allowed : Admissible storage (.remove session) := trivial
      have performed : step head storage (.remove session) = some (after, []) := by
        rw [step, if_pos allowed, perform, removed, Option.map_some]
      obtain ⟨rfl, -⟩ := Prod.mk.inj (Option.some.inj (performed.symm.trans taken))
      exact remove_unaccounted storage after head session cells owns member blocks nodes

/-- The storage is accounted for all along a run, exactly if no removal of the
run finds its session. -/
theorem storage_accounted_exact (head : Ptr) (nonNull : head ≠ NULL)
    (operations : List Operation)
    (admissible : EveryStep (step head) (start head) Admissible operations) :
    ((run (step head) (start head) operations).isSome ∧
        EveryPoint (step head) (start head) (fun storage _ => Accounted head storage) operations) ↔
      EveryStep (step head) (start head) (Unlisted head) operations := by
  have exact_ := every_point_iff (step head) (start head) (fun _ => True) (Unlisted head)
    (fun storage _ => ∃ cells, Owns head cells storage) (fun storage _ => Accounted head storage)
    ⟨[], start_owns head nonNull⟩
    (fun storage _ ⟨cells, owns⟩ => owns_accounted head cells storage owns)
    (fun storage past operation next outputs owns _ unlisted taken => by
      have allowed : Admissible storage operation := by
        by_contra refused
        rw [step, if_neg refused] at taken
        exact absurd taken (by simp)
      obtain ⟨after, moved, kept⟩ := step_owns head storage operation owns allowed unlisted
      obtain ⟨rfl, -⟩ := Prod.mk.inj (Option.some.inj (moved.symm.trans taken))
      exact kept)
    (fun storage past operation next outputs owns _ found taken =>
      step_unaccounted head storage next operation outputs owns found taken)
    operations (fun _ _ => trivial)
  constructor
  · rintro ⟨taken, accounted⟩
    exact (exact_ taken).mp accounted
  · intro unlisted
    obtain ⟨final, outputs, taken, -⟩ := run_defined (step head)
      (fun storage operation => Admissible storage operation ∧ Unlisted head storage operation)
      (fun storage => ∃ cells, Owns head cells storage)
      (fun storage operation owns both => by
        obtain ⟨next, moved, kept⟩ := step_owns head storage operation owns both.1 both.2
        exact ⟨next, [], moved, kept⟩)
      (start head) ⟨[], start_owns head nonNull⟩ operations
      (fun past operation reached storage outputs head =>
        ⟨admissible past operation reached storage outputs head,
          unlisted past operation reached storage outputs head⟩)
    have defined : (run (step head) (start head) operations).isSome := by
      rw [taken]
      rfl
    exact ⟨defined, (exact_ defined).mpr unlisted⟩

theorem repeated_insertion_accounted :
    EveryPoint (step 1) (start 1) (fun storage _ => Accounted 1 storage)
      [.create 10 11 2, .insert 10 3] := by
  have admissible : EveryStep (step 1) (start 1) Admissible [.create 10 11 2, .insert 10 3] := by
    refine every_step_cons _ _ _ _ _ _ _ rfl (by decide) ?_
    exact every_step_cons _ _ _ _ _ _ _ rfl (by decide) (every_step_nil _ _ _)
  have unlisted : EveryStep (step 1) (start 1) (Unlisted 1) [.create 10 11 2, .insert 10 3] := by
    refine every_step_cons _ _ _ _ _ _ _ rfl trivial ?_
    exact every_step_cons _ _ _ _ _ _ _ rfl trivial (every_step_nil _ _ _)
  exact ((storage_accounted_exact 1 (by decide) _ admissible).mpr unlisted).2

/-- After a session was created and removed, the list is empty and its
`cli_addr` block is still allocated; `free_session` would have freed it. With
the session in the list twice, the second removal frees it twice. -/
theorem removed_session_leaks :
    (∃ before after released,
      run (step 1) (start 1) [.create 10 11 2] = some (before, []) ∧
      run (step 1) (start 1) [.create 10 11 2, .remove 10] = some (after, []) ∧
      Represents after.nodes 1 [] ∧ after.Live 11 ∧ ¬ Accounted 1 after ∧
      freeSession before 10 = some released ∧ ¬ released.Live 11) ∧
    ∃ after, run (step 1) (start 1) [.create 10 11 2, .insert 10 3, .remove 10, .remove 10] =
        some (after, []) ∧ after.doubleFrees = [10] := by
  have empty : Represents (createSessionList 1) 1 [] := create_represents 1 (by decide)
  refine ⟨⟨_, _, _, rfl, rfl, empty, by decide, ?_, rfl, by decide⟩, _, rfl, rfl⟩
  rintro ⟨cells, represents, -, -, exact⟩
  obtain rfl := represents_unique _ 1 cells [] represents empty
  rcases (exact 11).mp (by decide) with same | member | ⟨session, member, -⟩
  · exact absurd same (by decide)
  · exact absurd member (by simp [addresses])
  · exact absurd member (by simp [values])

end Practise.SessionStorage
