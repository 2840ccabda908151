import Practise.LinkedChain
import Practise.Machine

/-!
The list of tftp/list.c: a chain of `SESSION_LIST` nodes behind a sentinel, and
the other blocks of the heap, which the sessions are made of. The list stores
and compares the pointers to them and frees a session with its node, although
it takes any pointer, also one that is in the list already. `malloc` succeeds,
and the address it returns comes with the call: it is unused then, but may have
been in use before. The loops get as many steps as there are nodes; a walk that
needs more goes round in a circle.
-/
namespace Practise.SessionList
open LinkedChain Machine

/-- Blocks that are no list nodes. Of a `SESSION` only `cli_addr` matters here. -/
inductive Block where
  | session (cliAddr : Ptr)
  | sockaddr
  deriving DecidableEq

/-- `doubleFrees` collects the addresses that were freed while nothing was
allocated there, `created` the pointers that `create_new_session` returned. -/
structure Storage where
  nodes : Heap Ptr
  blocks : AList (fun _ : Ptr => Block)
  doubleFrees : List Ptr
  created : List Ptr

def Storage.Live (storage : Storage) (address : Ptr) : Prop :=
  address ∈ storage.nodes ∨ address ∈ storage.blocks

instance (storage : Storage) (address : Ptr) : Decidable (storage.Live address) :=
  inferInstanceAs (Decidable (_ ∨ _))

def Storage.free (storage : Storage) (address : Ptr) : Storage :=
  if address = NULL then storage
  else if address ∈ storage.blocks then { storage with blocks := storage.blocks.erase address }
  else if address ∈ storage.nodes then { storage with nodes := storage.nodes.erase address }
  else { storage with doubleFrees := address :: storage.doubleFrees }

def Unused (storage : Storage) (address : Ptr) : Prop := address ≠ NULL ∧ ¬ storage.Live address

instance (storage : Storage) (address : Ptr) : Decidable (Unused storage address) :=
  inferInstanceAs (Decidable (_ ∧ _))

def createNewSession (storage : Storage) (sess cliAddr : Ptr) : Storage :=
  { storage with
    blocks := (storage.blocks.insert sess (.session cliAddr)).insert cliAddr .sockaddr
    created := sess :: storage.created }

/-! The functions of list.c. -/

def createSessionList (head : Ptr) : Heap Ptr := (∅ : Heap Ptr).insert head ⟨NULL, NULL⟩

def lengthLoop : Nat → Heap Ptr → Ptr → Nat → Option Nat
  | 0, _, _, _ => none
  | fuel + 1, heap, pIndex, length =>
      if pIndex = NULL then some length
      else (heap.lookup pIndex).bind fun node => lengthLoop fuel heap node.next (length + 1)

def getListLength (heap : Heap Ptr) (head : Ptr) : Option Nat :=
  if head = NULL then some 0
  else
    (heap.lookup head).bind fun node => lengthLoop (heap.entries.length + 1) heap node.next 0

def insertToSessionList (heap : Heap Ptr) (head session newitem : Ptr) : Option (Heap Ptr) :=
  (heap.lookup head).map fun node =>
    (heap.insert newitem ⟨session, node.next⟩).insert head { node with next := newitem }

/-- The loop of `remove_from_list` up to its two calls of `free`: the heap with
the node taken out of the chain, and the node if there is one to free. -/
def unlinkLoop (session : Ptr) : Nat → Heap Ptr → Ptr → Ptr → Option (Heap Ptr × Option Ptr)
  | 0, _, _, _ => none
  | fuel + 1, heap, pprev, pindex =>
      if pindex = NULL then some (heap, none)
      else
        (heap.lookup pindex).bind fun node =>
          if node.value = session then
            (heap.lookup pprev).map fun prev =>
              (heap.insert pprev { prev with next := node.next }, some pindex)
          else unlinkLoop session fuel heap pindex node.next

def unlink (heap : Heap Ptr) (head session : Ptr) : Option (Heap Ptr × Option Ptr) :=
  (heap.lookup head).bind fun node =>
    unlinkLoop session (heap.entries.length + 1) heap head node.next

def insertSession (storage : Storage) (head session newitem : Ptr) : Option Storage :=
  (insertToSessionList storage.nodes head session newitem).map fun nodes =>
    { storage with nodes := nodes }

/-- `free(pindex->value)` and then `free(pindex)`. The value is the session, and
nothing keeps it from being freed already, or from being a node. -/
def removeFromList (storage : Storage) (head session : Ptr) : Option Storage :=
  (unlink storage.nodes head session).map fun unlinked =>
    let storage := { storage with nodes := unlinked.1 }
    match unlinked.2 with
    | none => storage
    | some pindex => (storage.free session).free pindex

inductive Call where
  | create (sess cliAddr : Ptr)
  | insert (session newitem : Ptr)
  | remove (session : Ptr)
  | length
  deriving DecidableEq

def Fresh (storage : Storage) : Call → Prop
  | .create sess cliAddr => Unused storage sess ∧ Unused storage cliAddr ∧ sess ≠ cliAddr
  | .insert _ newitem => Unused storage newitem
  | .remove _ => True
  | .length => True

instance (storage : Storage) : ∀ call, Decidable (Fresh storage call)
  | .create _ _ => inferInstanceAs (Decidable (_ ∧ _))
  | .insert _ newitem => inferInstanceAs (Decidable (Unused storage newitem))
  | .remove _ => inferInstanceAs (Decidable True)
  | .length => inferInstanceAs (Decidable True)

def perform (head : Ptr) (storage : Storage) : Call → Option (Storage × List Nat)
  | .create sess cliAddr => some (createNewSession storage sess cliAddr, [])
  | .insert session newitem =>
      (insertSession storage head session newitem).map fun after => (after, [])
  | .remove session => (removeFromList storage head session).map fun after => (after, [])
  | .length => (getListLength storage.nodes head).map fun length => (storage, [length])

def step (head : Ptr) : Step Storage Call Nat := fun storage call =>
  if Fresh storage call then perform head storage call else none

def start (head : Ptr) (blocks : AList fun _ : Ptr => Block) : Storage :=
  ⟨createSessionList head, blocks, [], []⟩

/-- What the list is for: a sequence of session pointers, the newest first. -/
def abstractStep : Step (List Ptr) Call Nat
  | sessions, .create _ _ => some (sessions, [])
  | sessions, .insert session _ => some (session :: sessions, [])
  | sessions, .remove session => some (sessions.erase session, [])
  | sessions, .length => some (sessions, [sessions.length])

/-- The heap holds the sentinel and, behind it, an acyclic chain of these
cells, and nothing else. -/
structure Represents (heap : Heap Ptr) (head : Ptr) (cells : List (Ptr × Ptr)) : Prop where
  nonNull : head ≠ NULL
  sentinel : ∃ next, heap.lookup head = some ⟨NULL, next⟩ ∧ Linked heap next cells
  distinct : (head :: addresses cells).Nodup
  allocated : ∀ address, address ∈ heap ↔ address = head ∨ address ∈ addresses cells

theorem create_represents (head : Ptr) (nonNull : head ≠ NULL) :
    Represents (createSessionList head) head [] where
  nonNull := nonNull
  sentinel := ⟨NULL, AList.lookup_insert _, rfl⟩
  distinct := by simp [addresses]
  allocated := by
    intro address
    rw [createSessionList, AList.mem_insert]
    simp [addresses]

/-! The walk of `get_list_length`. -/

theorem length_loop (heap : Heap Ptr) (fuel start length : Nat) (cells : List (Ptr × Ptr))
    (linked : Linked heap start cells) (enough : cells.length < fuel) :
    lengthLoop fuel heap start length = some (length + cells.length) := by
  induction cells generalizing fuel start length with
  | nil =>
      obtain ⟨fuel, rfl⟩ := Nat.exists_eq_add_one_of_ne_zero (Nat.ne_of_gt enough)
      have ended : start = NULL := linked
      rw [lengthLoop, if_pos ended, List.length_nil, Nat.add_zero]
  | cons cell rest ih =>
      obtain ⟨fuel, rfl⟩ := Nat.exists_eq_add_one_of_ne_zero (Nat.ne_of_gt (Nat.zero_lt_of_lt enough))
      obtain ⟨-, nonNull, next, node, further⟩ := linked
      rw [lengthLoop, if_neg nonNull, node, Option.bind_some,
        ih fuel next (length + 1) further (by simpa using enough), List.length_cons]
      congr 1
      omega

theorem get_list_length (heap : Heap Ptr) (head : Ptr) (cells : List (Ptr × Ptr))
    (represents : Represents heap head cells) : getListLength heap head = some cells.length := by
  obtain ⟨next, sentinel, linked⟩ := represents.sentinel
  have bound := linked_length heap next cells linked (List.nodup_cons.mp represents.distinct).2
  rw [getListLength, if_neg represents.nonNull, sentinel, Option.bind_some,
    length_loop heap _ next 0 cells linked (Nat.lt_succ_of_le bound), Nat.zero_add]

theorem insert_represents (heap : Heap Ptr) (head session newitem : Ptr) (cells : List (Ptr × Ptr))
    (represents : Represents heap head cells) (nonNull : newitem ≠ NULL)
    (fresh : newitem ∉ heap) :
    ∃ after, insertToSessionList heap head session newitem = some after ∧
      Represents after head ((newitem, session) :: cells) := by
  obtain ⟨next, sentinel, linked⟩ := represents.sentinel
  obtain ⟨headApart, distinct⟩ := List.nodup_cons.mp represents.distinct
  have unused : newitem ≠ head ∧ newitem ∉ addresses cells := by
    rw [represents.allocated] at fresh
    exact not_or.mp fresh
  refine ⟨_, by rw [insertToSessionList, sentinel, Option.map_some], ?_⟩
  constructor
  · exact represents.nonNull
  · refine ⟨newitem, AList.lookup_insert _, rfl, nonNull, next, ?_, ?_⟩
    · rw [AList.lookup_insert_ne unused.1, AList.lookup_insert]
    · exact linked_insert _ next head _ cells headApart
        (linked_insert heap next newitem _ cells unused.2 linked)
  · rw [addresses_cons, List.nodup_cons, List.mem_cons, List.nodup_cons]
    exact ⟨fun member => member.elim (Ne.symm unused.1) headApart, unused.2, distinct⟩
  · intro address
    rw [AList.mem_insert, AList.mem_insert, represents.allocated, addresses_cons, List.mem_cons]
    tauto

/-! The two pointers of `remove_from_list`. -/

/-- With `pprev` on the node in front of the rest of the chain, the loop takes
the first cell with the session out of the rest. It changes one node in front
of that cell, and allocates or frees none. -/
theorem unlink_loop (heap : Heap Ptr) (session fuel pprev value start : Ptr)
    (cells : List (Ptr × Ptr)) (front : heap.lookup pprev = some ⟨value, start⟩)
    (linked : Linked heap start cells) (distinct : (pprev :: addresses cells).Nodup)
    (enough : cells.length < fuel) :
    ∃ after next, unlinkLoop session fuel heap pprev start = some (after, findValue session cells) ∧
      after.lookup pprev = some ⟨value, next⟩ ∧
      Linked after next (eraseValue session cells) ∧
      (∀ address, address ∉ pprev :: addresses cells →
        after.lookup address = heap.lookup address) ∧
      ∀ address, address ∈ after ↔ address ∈ heap := by
  induction cells generalizing fuel pprev value start with
  | nil =>
      obtain ⟨fuel, rfl⟩ := Nat.exists_eq_add_one_of_ne_zero (Nat.ne_of_gt enough)
      have ended : start = NULL := linked
      refine ⟨heap, start, ?_, front, linked, fun _ _ => rfl, fun _ => Iff.rfl⟩
      rw [unlinkLoop, if_pos ended]
      rfl
  | cons cell rest ih =>
      obtain ⟨fuel, rfl⟩ :=
        Nat.exists_eq_add_one_of_ne_zero (Nat.ne_of_gt (Nat.zero_lt_of_lt enough))
      obtain ⟨here, nonNull, next, node, further⟩ := linked
      obtain ⟨apart, later⟩ := List.nodup_cons.mp distinct
      rw [addresses_cons, List.mem_cons, not_or] at apart
      rw [unlinkLoop, if_neg nonNull, node, Option.bind_some]
      by_cases hit : cell.2 = session
      · -- The cell is the one: the node in front now points behind it.
        refine ⟨heap.insert pprev ⟨value, next⟩, next, ?_, AList.lookup_insert _, ?_, ?_, ?_⟩
        · rw [if_pos hit, front, Option.map_some, find_here session cell rest hit, here]
        · rw [erase_here session cell rest hit]
          exact linked_insert heap next pprev _ rest apart.2 further
        · intro address outside
          exact AList.lookup_insert_ne fun same => outside (by simp [same])
        · intro address
          rw [AList.mem_insert]
          constructor
          · rintro (rfl | inside)
            · exact lookup_mem heap _ _ front
            · exact inside
          · exact Or.inr
      · -- Otherwise the cell is in front of what remains.
        obtain ⟨after, second, taken, kept, chained, frame, allocated⟩ :=
          ih fuel start cell.2 next node further (by rwa [addresses_cons, ← here] at later)
            (by simpa using enough)
        refine ⟨after, start, ?_, ?_, ?_, ?_, allocated⟩
        · rw [if_neg hit, taken, find_later session cell rest hit]
        · rw [frame pprev (by rw [here]; simp [apart]), front]
        · rw [erase_later session cell rest hit]
          exact ⟨here, nonNull, second, kept, chained⟩
        · intro address outside
          apply frame
          rw [here]
          exact fun member => outside (List.mem_cons_of_mem _ member)

theorem unlink_represents (heap : Heap Ptr) (head session : Ptr) (cells : List (Ptr × Ptr))
    (represents : Represents heap head cells) :
    ∃ after next, unlink heap head session = some (after, findValue session cells) ∧
      after.lookup head = some ⟨NULL, next⟩ ∧ Linked after next (eraseValue session cells) ∧
      ∀ address, address ∈ after ↔ address ∈ heap := by
  obtain ⟨start, sentinel, linked⟩ := represents.sentinel
  have bound := linked_length heap start cells linked (List.nodup_cons.mp represents.distinct).2
  obtain ⟨after, next, taken, kept, chained, -, allocated⟩ := unlink_loop heap session
    (heap.entries.length + 1) head NULL start cells sentinel linked represents.distinct
    (Nat.lt_succ_of_le bound)
  exact ⟨after, next, by rw [unlink, sentinel, Option.bind_some, taken], kept, chained, allocated⟩

theorem unlink_absent (heap : Heap Ptr) (head session : Ptr) (cells : List (Ptr × Ptr))
    (represents : Represents heap head cells) (absent : session ∉ values cells) :
    ∃ after, unlink heap head session = some (after, none) ∧ Represents after head cells := by
  obtain ⟨after, next, taken, kept, chained, allocated⟩ :=
    unlink_represents heap head session cells represents
  rw [(find_none_iff session cells).mpr absent] at taken
  rw [erase_absent session cells absent] at chained
  refine ⟨after, taken, ?_⟩
  constructor
  · exact represents.nonNull
  · exact ⟨next, kept, chained⟩
  · exact represents.distinct
  · intro address
    rw [allocated, represents.allocated]

theorem unlink_listed (heap : Heap Ptr) (head session : Ptr) (cells : List (Ptr × Ptr))
    (represents : Represents heap head cells) (listed : session ∈ values cells) :
    ∃ after pindex, unlink heap head session = some (after, some pindex) ∧
      (∀ address, address ∈ after ↔ address ∈ heap) ∧ pindex ∈ heap ∧ pindex ≠ NULL ∧
      Represents (after.erase pindex) head (eraseValue session cells) := by
  obtain ⟨after, next, taken, kept, chained, allocated⟩ :=
    unlink_represents heap head session cells represents
  cases found : findValue session cells with
  | none => exact absurd listed ((find_none_iff session cells).mp found)
  | some pindex =>
      obtain ⟨headApart, distinct⟩ := List.nodup_cons.mp represents.distinct
      obtain ⟨member, dropped⟩ := find_dropped session cells pindex distinct found
      obtain ⟨begin, -, linked⟩ := represents.sentinel
      have apart : head ≠ pindex := fun same => headApart (same ▸ member)
      refine ⟨after, pindex, by rw [taken, found], allocated,
        linked_allocated heap begin cells linked pindex member,
        linked_nonnull heap begin cells linked pindex member, ?_⟩
      constructor
      · exact represents.nonNull
      · refine ⟨next, by rw [AList.lookup_erase_ne apart, kept], ?_⟩
        exact linked_erase after next pindex _ (fun listed => ((dropped pindex).mp listed).2 rfl)
          chained
      · exact List.nodup_cons.mpr ⟨fun inside => headApart ((dropped head).mp inside).1,
          addresses_erase_nodup session cells distinct⟩
      · intro address
        rw [AList.mem_erase, allocated, represents.allocated, dropped]
        constructor
        · rintro ⟨differs, same | inside⟩
          · exact Or.inl same
          · exact Or.inr ⟨inside, differs⟩
        · rintro (same | ⟨inside, differs⟩)
          · exact ⟨same ▸ apart, Or.inl same⟩
          · exact ⟨differs, Or.inr inside⟩

/-- Two heaps, one of which says more, cannot hold different lists. -/
theorem represents_mono (heap larger : Heap Ptr) (head : Ptr) (cells others : List (Ptr × Ptr))
    (kept : ∀ address node, heap.lookup address = some node → larger.lookup address = some node)
    (represents : Represents heap head cells) (again : Represents larger head others) :
    cells = others := by
  obtain ⟨next, sentinel, linked⟩ := represents.sentinel
  obtain ⟨after, same, further⟩ := again.sentinel
  rw [kept head _ sentinel, Option.some.injEq, Node.mk.injEq] at same
  exact linked_unique larger next cells others (linked_mono heap larger next cells kept linked)
    (same.2 ▸ further)

theorem represents_unique (heap : Heap Ptr) (head : Ptr) (cells others : List (Ptr × Ptr))
    (represents : Represents heap head cells) (again : Represents heap head others) :
    cells = others :=
  represents_mono heap heap head cells others (fun _ _ found => found) represents again

/-! What `free` does to a block, to a node, and where nothing is allocated. -/

section Free
variable (storage : Storage) (address : Ptr) (nonNull : address ≠ NULL)
include nonNull

theorem free_block (block : address ∈ storage.blocks) :
    storage.free address = { storage with blocks := storage.blocks.erase address } := by
  rw [Storage.free, if_neg nonNull, if_pos block]

theorem free_node (apart : address ∉ storage.blocks) (node : address ∈ storage.nodes) :
    storage.free address = { storage with nodes := storage.nodes.erase address } := by
  rw [Storage.free, if_neg nonNull, if_neg apart, if_pos node]

theorem free_dangling (apart : address ∉ storage.blocks) (gone : address ∉ storage.nodes) :
    storage.free address =
      { storage with doubleFrees := address :: storage.doubleFrees } := by
  rw [Storage.free, if_neg nonNull, if_neg apart, if_neg gone]

end Free

/-! One call. -/

/-- The chain is there, no node of it is a block too, and every `free` so far was
of something allocated; what happens after another one is undefined. -/
structure Sound (head : Ptr) (cells : List (Ptr × Ptr)) (storage : Storage) : Prop where
  represents : Represents storage.nodes head cells
  apart : ∀ address, address ∈ storage.nodes → address ∉ storage.blocks
  once : storage.doubleFrees = []

def Good (head : Ptr) (storage : Storage) : Prop :=
  storage.doubleFrees = [] ∧ ∃ cells, Represents storage.nodes head cells

def Listed (head : Ptr) (storage : Storage) (session : Ptr) : Prop :=
  ∃ cells, Represents storage.nodes head cells ∧ session ∈ values cells

/-- A session that is found in the list can be freed: it is NULL, or allocated. -/
def Removable (head : Ptr) (storage : Storage) : Call → Prop
  | .remove session =>
      Listed head storage session → session = NULL ∨ session ∈ storage.blocks
  | _ => True

theorem start_sound (head : Ptr) (blocks : AList fun _ : Ptr => Block) (nonNull : head ≠ NULL)
    (apart : head ∉ blocks) : Sound head [] (start head blocks) where
  represents := create_represents head nonNull
  apart := by
    intro address member
    rcases ((create_represents head nonNull).allocated address).mp member with rfl | impossible
    · exact apart
    · exact absurd impossible (by simp [addresses])
  once := rfl

theorem create_sound (head sess cliAddr : Ptr) (cells : List (Ptr × Ptr)) (storage : Storage)
    (sound : Sound head cells storage) (fresh : Fresh storage (.create sess cliAddr)) :
    Sound head cells (createNewSession storage sess cliAddr) where
  represents := sound.represents
  apart := by
    obtain ⟨freshSess, freshAddr, -⟩ := fresh
    intro address node block
    rw [createNewSession, AList.mem_insert, AList.mem_insert] at block
    rcases block with rfl | rfl | old
    · exact freshAddr.2 (Or.inl node)
    · exact freshSess.2 (Or.inl node)
    · exact sound.apart address node old
  once := sound.once

theorem insert_sound (head session newitem : Ptr) (cells : List (Ptr × Ptr)) (storage : Storage)
    (sound : Sound head cells storage) (unused : Unused storage newitem) :
    ∃ nodes, insertSession storage head session newitem = some { storage with nodes := nodes } ∧
      Sound head ((newitem, session) :: cells) { storage with nodes := nodes } := by
  obtain ⟨nodes, inserted, kept⟩ := insert_represents storage.nodes head session newitem cells
    sound.represents unused.1 (fun member => unused.2 (Or.inl member))
  refine ⟨nodes, by rw [insertSession, inserted, Option.map_some], kept, ?_, sound.once⟩
  intro address member
  rw [kept.allocated, addresses_cons, List.mem_cons] at member
  rcases member with same | rfl | old
  · exact sound.apart address ((sound.represents.allocated address).mpr (Or.inl same))
  · exact fun block => unused.2 (Or.inr block)
  · exact sound.apart address ((sound.represents.allocated address).mpr (Or.inr old))

theorem remove_unlisted (head session : Ptr) (cells : List (Ptr × Ptr)) (storage : Storage)
    (sound : Sound head cells storage) (absent : session ∉ values cells) :
    ∃ nodes, removeFromList storage head session = some { storage with nodes := nodes } ∧
      Sound head cells { storage with nodes := nodes } := by
  obtain ⟨nodes, taken, represents⟩ :=
    unlink_absent storage.nodes head session cells sound.represents absent
  refine ⟨nodes, by rw [removeFromList, taken, Option.map_some], represents, ?_, sound.once⟩
  intro address member
  rw [represents.allocated, ← sound.represents.allocated] at member
  exact sound.apart address member

theorem remove_found (head session pindex : Ptr) (storage : Storage) (nodes : Heap Ptr)
    (taken : unlink storage.nodes head session = some (nodes, some pindex)) :
    removeFromList storage head session =
      some ((Storage.free { storage with nodes := nodes } session).free pindex) := by
  rw [removeFromList, taken]
  rfl

theorem remove_sound (head session : Ptr) (cells : List (Ptr × Ptr)) (storage : Storage)
    (sound : Sound head cells storage) (listed : session ∈ values cells)
    (freeable : session = NULL ∨ session ∈ storage.blocks) :
    ∃ after, removeFromList storage head session = some after ∧
      Sound head (eraseValue session cells) after ∧
      (∀ address ∈ after.nodes, address ∈ storage.nodes) ∧
      (session ≠ NULL → after.blocks = storage.blocks.erase session) := by
  obtain ⟨nodes, pindex, taken, allocated, inside, pindexNonNull, represents⟩ :=
    unlink_listed storage.nodes head session cells sound.represents listed
  have node : pindex ∈ nodes := (allocated pindex).mpr inside
  have noBlock := sound.apart pindex inside
  have within : ∀ address ∈ nodes.erase pindex, address ∈ storage.nodes :=
    fun address member => (allocated address).mp (AList.mem_erase.mp member).2
  rw [remove_found head session pindex storage nodes taken]
  by_cases null : session = NULL
  · have unchanged : Storage.free { storage with nodes := nodes } session =
        { storage with nodes := nodes } := if_pos null
    rw [unchanged, free_node { storage with nodes := nodes } pindex pindexNonNull noBlock node]
    exact ⟨_, rfl, ⟨represents, fun address member => sound.apart address (within address member),
      sound.once⟩, within, fun differs => absurd null differs⟩
  · rw [free_block { storage with nodes := nodes } session null (freeable.resolve_left null),
      free_node { storage with nodes := nodes, blocks := storage.blocks.erase session } pindex
        pindexNonNull (fun still => noBlock (AList.mem_erase.mp still).2) node]
    refine ⟨_, rfl, ⟨represents, fun address member still => ?_, sound.once⟩, within, fun _ => rfl⟩
    exact sound.apart address (within address member) (AList.mem_erase.mp still).2

/-- Freeing anything else spoils the list: the first `free` or the second one is
of something that is not allocated, or a node of the list is gone. -/
theorem remove_spoils (head session : Ptr) (cells : List (Ptr × Ptr)) (storage : Storage)
    (sound : Sound head cells storage) (listed : session ∈ values cells)
    (nonNull : session ≠ NULL) (dangling : session ∉ storage.blocks) :
    ∃ after, removeFromList storage head session = some after ∧ ¬ Good head after := by
  obtain ⟨nodes, pindex, taken, allocated, inside, pindexNonNull, represents⟩ :=
    unlink_listed storage.nodes head session cells sound.represents listed
  have node : pindex ∈ nodes := (allocated pindex).mpr inside
  have noBlock := sound.apart pindex inside
  rw [remove_found head session pindex storage nodes taken]
  refine ⟨_, rfl, ?_⟩
  by_cases live : session ∈ nodes
  · rw [free_node { storage with nodes := nodes } session nonNull dangling live]
    have gone : session ∉ nodes.erase session := fun still => (AList.mem_erase.mp still).1 rfl
    by_cases same : pindex = session
    · -- The session is the node itself, which is freed twice.
      subst same
      rw [free_dangling { storage with nodes := nodes.erase pindex } pindex nonNull noBlock gone]
      exact fun good => absurd good.1 (List.cons_ne_nil _ _)
    · -- The session is another node of the list, or its sentinel.
      rw [free_node { storage with nodes := nodes.erase session } pindex pindexNonNull noBlock
        (AList.mem_erase.mpr ⟨same, node⟩)]
      rintro ⟨-, others, again⟩
      have smaller : ∀ address entry, ((nodes.erase session).erase pindex).lookup address =
          some entry → (nodes.erase pindex).lookup address = some entry := by
        intro address entry found
        rw [AList.erase_erase] at found
        have differs : address ≠ session := by
          rintro rfl
          exact absurd found (by simp)
        rwa [AList.lookup_erase_ne differs] at found
      obtain rfl := represents_mono _ _ head others _ smaller again represents
      have kept : session ∈ nodes.erase pindex := AList.mem_erase.mpr ⟨Ne.symm same, live⟩
      rw [represents.allocated, ← again.allocated] at kept
      exact gone (AList.mem_erase.mp kept).2
  · rw [free_dangling { storage with nodes := nodes } session nonNull dangling live,
      free_node { storage with nodes := nodes, doubleFrees := session :: storage.doubleFrees } pindex
        pindexNonNull noBlock node]
    exact fun good => absurd good.1 (List.cons_ne_nil _ _)

/-! Whole runs. -/

theorem step_refines (head : Ptr) (storage : Storage) (sessions : List Ptr) (call : Call)
    (related : ∃ cells, Sound head cells storage ∧ values cells = sessions)
    (both : Fresh storage call ∧ Removable head storage call) :
    ∃ next after outputs, step head storage call = some (next, outputs) ∧
      abstractStep sessions call = some (after, outputs) ∧
      ∃ cells, Sound head cells next ∧ values cells = after := by
  obtain ⟨cells, sound, rfl⟩ := related
  obtain ⟨fresh, removable⟩ := both
  suffices performed : ∃ next after outputs, perform head storage call = some (next, outputs) ∧
      abstractStep (values cells) call = some (after, outputs) ∧
      ∃ cells, Sound head cells next ∧ values cells = after by
    obtain ⟨next, after, outputs, taken, rest⟩ := performed
    exact ⟨next, after, outputs, by rw [step, if_pos fresh, taken], rest⟩
  cases call with
  | create sess cliAddr =>
      exact ⟨_, _, [], rfl, rfl, cells, create_sound head sess cliAddr cells storage sound fresh,
        rfl⟩
  | insert session newitem =>
      obtain ⟨nodes, inserted, kept⟩ := insert_sound head session newitem cells storage sound fresh
      exact ⟨_, _, [], by rw [perform, inserted, Option.map_some], rfl, _, kept, rfl⟩
  | remove session =>
      by_cases listed : session ∈ values cells
      · obtain ⟨next, removed, kept, -, -⟩ := remove_sound head session cells storage sound listed
          (removable ⟨cells, sound.represents, listed⟩)
        exact ⟨next, _, [], by rw [perform, removed, Option.map_some], rfl, _, kept,
          values_erase session cells⟩
      · obtain ⟨nodes, removed, kept⟩ := remove_unlisted head session cells storage sound listed
        refine ⟨_, _, [], by rw [perform, removed, Option.map_some], rfl, cells, kept, ?_⟩
        rw [List.erase_of_not_mem listed]
  | length =>
      refine ⟨storage, _, [cells.length], ?_, ?_, cells, sound, rfl⟩
      · rw [perform, get_list_length storage.nodes head cells sound.represents, Option.map_some]
      · rw [abstractStep, values, List.length_map]

theorem step_spoils (head : Ptr) (storage next : Storage) (call : Call) (outputs : List Nat)
    (sound : ∃ cells, Sound head cells storage) (stuck : ¬ Removable head storage call)
    (taken : step head storage call = some (next, outputs)) : ¬ Good head next := by
  obtain ⟨cells, sound⟩ := sound
  cases call with
  | create sess cliAddr => exact absurd trivial stuck
  | insert session newitem => exact absurd trivial stuck
  | length => exact absurd trivial stuck
  | remove session =>
      rw [Removable, Classical.not_imp, not_or] at stuck
      obtain ⟨⟨others, represents, listed⟩, nonNull, dangling⟩ := stuck
      rw [represents_unique _ head others cells represents sound.represents] at listed
      obtain ⟨after, removed, spoilt⟩ := remove_spoils head session cells storage sound listed nonNull
        dangling
      have performed : step head storage (.remove session) = some (after, []) := by
        have fresh : Fresh storage (.remove session) := trivial
        rw [step, if_pos fresh, perform, removed, Option.map_some]
      obtain ⟨rfl, -⟩ := Prod.mk.inj (Option.some.inj (performed.symm.trans taken))
      exact spoilt

/-- At every point of the run nothing undefined has happened, the nodes behind the
sentinel form an acyclic chain, and its values, like all lengths returned so far,
are those of the abstract sequence. -/
def Mirrors (head : Ptr) (blocks : AList fun _ : Ptr => Block) (calls : List Call) : Prop :=
  ∀ past, past <+: calls → ∃ storage outputs cells,
    run (step head) (start head blocks) past = some (storage, outputs) ∧
      storage.doubleFrees = [] ∧ Represents storage.nodes head cells ∧
      run abstractStep [] past = some (values cells, outputs)

/-- The list is the sequence of its sessions in every run in which a session that
is removed, and found, is still allocated or is NULL, and in no other run. -/
theorem session_list_refines_exact (head : Ptr) (nonNull : head ≠ NULL)
    (blocks : AList fun _ : Ptr => Block) (apart : head ∉ blocks) (calls : List Call)
    (fresh : EveryStep (step head) (start head blocks) Fresh calls) :
    Mirrors head blocks calls ↔
      EveryStep (step head) (start head blocks) (Removable head) calls := by
  constructor
  · intro mirrors
    have exact_ := every_point_iff (step head) (start head blocks) (fun _ => True)
      (Removable head) (fun storage _ => ∃ cells, Sound head cells storage)
      (fun storage _ => Good head storage) ⟨[], start_sound head blocks nonNull apart⟩
      (fun storage _ ⟨cells, sound⟩ => ⟨sound.once, cells, sound.represents⟩)
      (fun storage past call next outputs ⟨cells, sound⟩ _ removable taken => by
        have allowed : Fresh storage call := by
          by_contra refused
          rw [step, if_neg refused] at taken
          exact absurd taken (by simp)
        obtain ⟨after, -, replies, moved, -, cells, kept, -⟩ := step_refines head storage
          (values cells) call ⟨cells, sound, rfl⟩ ⟨allowed, removable⟩
        obtain ⟨rfl, -⟩ := Prod.mk.inj (Option.some.inj (moved.symm.trans taken))
        exact ⟨cells, kept⟩)
      (fun storage past call next outputs sound _ stuck taken =>
        step_spoils head storage next call outputs sound stuck taken)
      calls (fun _ _ => trivial)
    obtain ⟨storage, outputs, -, taken, -⟩ := mirrors calls (List.prefix_refl _)
    refine (exact_ (by rw [taken]; rfl)).mp fun past reached state replies arrived => ?_
    obtain ⟨storage, outputs, cells, taken, once, represents, -⟩ := mirrors past reached
    obtain ⟨rfl, -⟩ := Prod.mk.inj (Option.some.inj (taken.symm.trans arrived))
    exact ⟨once, cells, represents⟩
  · intro removable past reached
    obtain ⟨storage, sessions, outputs, taken, followed, cells, sound, rfl⟩ :=
      run_simulated (step head) abstractStep
        (fun storage call => Fresh storage call ∧ Removable head storage call)
        (fun storage sessions => ∃ cells, Sound head cells storage ∧ values cells = sessions)
        (step_refines head) (start head blocks) []
        ⟨[], start_sound head blocks nonNull apart, rfl⟩ past
        (fun earlier call short storage outputs head =>
          ⟨fresh earlier call (short.trans reached) storage outputs head,
            removable earlier call (short.trans reached) storage outputs head⟩)
    exact ⟨storage, outputs, cells, taken, sound.once, sound.represents, followed⟩

def oneSession (address : Ptr) : AList fun _ : Ptr => Block :=
  (∅ : AList fun _ : Ptr => Block).insert address (.session NULL)

/-- Two sessions, one of them inserted twice and taken out once, and NULL. -/
def mixedCalls : List Call :=
  [.create 8 9, .insert 8 2, .insert 7 3, .insert NULL 4, .insert 7 5, .remove 7, .remove NULL,
    .length]

theorem repeated_session_refines :
    ∃ storage cells, run (step 1) (start 1 (oneSession 7)) mixedCalls = some (storage, [2]) ∧
      Represents storage.nodes 1 cells ∧ values cells = [7, 8] := by
  have fresh : EveryStep (step 1) (start 1 (oneSession 7)) Fresh mixedCalls := by
    refine every_step_cons _ _ _ _ _ _ _ rfl (by decide) ?_
    refine every_step_cons _ _ _ _ _ _ _ rfl (by decide) ?_
    refine every_step_cons _ _ _ _ _ _ _ rfl (by decide) ?_
    refine every_step_cons _ _ _ _ _ _ _ rfl (by decide) ?_
    refine every_step_cons _ _ _ _ _ _ _ rfl (by decide) ?_
    refine every_step_cons _ _ _ _ _ _ _ rfl trivial ?_
    refine every_step_cons _ _ _ _ _ _ _ rfl trivial ?_
    exact every_step_cons _ _ _ _ _ _ _ rfl trivial (every_step_nil _ _ _)
  have removable : EveryStep (step 1) (start 1 (oneSession 7)) (Removable 1) mixedCalls := by
    refine every_step_cons _ _ _ _ _ _ _ rfl trivial ?_
    refine every_step_cons _ _ _ _ _ _ _ rfl trivial ?_
    refine every_step_cons _ _ _ _ _ _ _ rfl trivial ?_
    refine every_step_cons _ _ _ _ _ _ _ rfl trivial ?_
    refine every_step_cons _ _ _ _ _ _ _ rfl trivial ?_
    refine every_step_cons _ _ _ _ _ _ _ rfl (fun _ => Or.inr (by decide)) ?_
    refine every_step_cons _ _ _ _ _ _ _ rfl (fun _ => Or.inl rfl) ?_
    exact every_step_cons _ _ _ _ _ _ _ rfl trivial (every_step_nil _ _ _)
  obtain ⟨storage, outputs, cells, taken, -, represents, followed⟩ :=
    (session_list_refines_exact 1 (by decide) (oneSession 7) (by decide) mixedCalls fresh).mpr
      removable mixedCalls (List.prefix_refl _)
  obtain ⟨same, rfl⟩ : [7, 8] = values cells ∧ [2] = outputs := by
    simpa [run, abstractStep, mixedCalls] using followed
  exact ⟨storage, cells, taken, represents, same.symm⟩

/-- One session twice in the list. Between its removals another one is inserted,
with a node at the address that the first removal has freed. -/
def reusedAddress : List Call :=
  [.insert 9 2, .insert 9 3, .remove 9, .insert 7 9, .remove 9, .length]

/-- A session that is in the list twice is freed by its first removal. A second
removal frees it again; if its address has become that of a node meanwhile, it
frees this node, and the list cannot be walked any more. -/
theorem repeated_session_spoils :
    (∃ storage, run (step 1) (start 1 (oneSession 9))
        [.insert 9 2, .insert 9 3, .remove 9, .remove 9] = some (storage, []) ∧
      storage.doubleFrees = [9]) ∧
    EveryStep (step 1) (start 1 (oneSession 9)) Fresh reusedAddress ∧
    run (step 1) (start 1 (oneSession 9)) reusedAddress = none ∧
    run abstractStep [] reusedAddress = some ([7], [1]) ∧
    ¬ Mirrors 1 (oneSession 9) reusedAddress := by
  have stuck : run (step 1) (start 1 (oneSession 9)) reusedAddress = none := rfl
  refine ⟨⟨_, rfl, rfl⟩, ?_, stuck, rfl, fun mirrors => ?_⟩
  · refine every_step_cons _ _ _ _ _ _ _ rfl (by decide) ?_
    refine every_step_cons _ _ _ _ _ _ _ rfl (by decide) ?_
    refine every_step_cons _ _ _ _ _ _ _ rfl trivial ?_
    refine every_step_cons _ _ _ _ _ _ _ rfl (by decide) ?_
    refine every_step_cons _ _ _ _ _ _ _ rfl trivial ?_
    exact (every_step_snoc _ _ _ [] _).mpr ⟨every_step_nil _ _ _, fun _ _ _ => trivial⟩
  · obtain ⟨storage, outputs, cells, taken, -⟩ := mirrors reusedAddress (List.prefix_refl _)
    exact absurd (stuck.symm.trans taken) (by simp)

end Practise.SessionList
