import Mathlib.Data.List.AList
import Mathlib.Data.List.Nodup

/-! Singly linked chains in a heap of nodes. A heap is a finite map from
addresses to nodes, and 0 is the null pointer. A chain is described by its
cells, the addresses along it with their values, so that what a pointer
operation does to it can be said with lists. -/
namespace Practise.LinkedChain
variable {Value : Type}

abbrev Ptr := Nat

def NULL : Ptr := 0

structure Node (Value : Type) where
  value : Value
  next : Ptr
  deriving DecidableEq

abbrev Heap (Value : Type) := AList (fun _ : Ptr => Node Value)

/-- The chain from `start` runs through exactly these cells and then ends. -/
def Linked (heap : Heap Value) : Ptr → List (Ptr × Value) → Prop
  | start, [] => start = NULL
  | start, cell :: rest =>
      start = cell.1 ∧ start ≠ NULL ∧
        ∃ next, heap.lookup start = some ⟨cell.2, next⟩ ∧ Linked heap next rest

def addresses (cells : List (Ptr × Value)) : List Ptr := cells.map Prod.fst

def values (cells : List (Ptr × Value)) : List Value := cells.map Prod.snd

@[simp] theorem addresses_cons (cell : Ptr × Value) (rest : List (Ptr × Value)) :
    addresses (cell :: rest) = cell.1 :: addresses rest := rfl

@[simp] theorem values_cons (cell : Ptr × Value) (rest : List (Ptr × Value)) :
    values (cell :: rest) = cell.2 :: values rest := rfl

theorem lookup_mem {Entry : Type} (map : AList fun _ : Ptr => Entry) (address : Ptr)
    (entry : Entry) (found : map.lookup address = some entry) : address ∈ map := by
  rw [← AList.lookup_isSome, found]
  rfl

/-- Only the nodes of a chain matter for it. -/
theorem linked_congr (heap other : Heap Value) (start : Ptr) (cells : List (Ptr × Value))
    (same : ∀ address ∈ addresses cells, other.lookup address = heap.lookup address)
    (linked : Linked heap start cells) : Linked other start cells := by
  induction cells generalizing start with
  | nil => exact linked
  | cons cell rest ih =>
      obtain ⟨here, nonNull, next, node, further⟩ := linked
      refine ⟨here, nonNull, next, ?_, ih next ?_ further⟩
      · rw [here, same cell.1 (by simp), ← here, node]
      · intro address member
        exact same address (List.mem_cons_of_mem _ member)

/-- What a heap says of a chain, a larger heap says too. -/
theorem linked_mono (heap larger : Heap Value) (start : Ptr) (cells : List (Ptr × Value))
    (kept : ∀ address node, heap.lookup address = some node → larger.lookup address = some node)
    (linked : Linked heap start cells) : Linked larger start cells := by
  induction cells generalizing start with
  | nil => exact linked
  | cons cell rest ih =>
      obtain ⟨here, nonNull, next, node, further⟩ := linked
      exact ⟨here, nonNull, next, kept start _ node, ih next further⟩

theorem linked_insert (heap : Heap Value) (start address : Ptr) (node : Node Value)
    (cells : List (Ptr × Value)) (apart : address ∉ addresses cells)
    (linked : Linked heap start cells) : Linked (heap.insert address node) start cells := by
  apply linked_congr heap _ start cells _ linked
  intro other member
  exact AList.lookup_insert_ne fun same => apart (same ▸ member)

theorem linked_erase (heap : Heap Value) (start address : Ptr) (cells : List (Ptr × Value))
    (apart : address ∉ addresses cells) (linked : Linked heap start cells) :
    Linked (heap.erase address) start cells := by
  apply linked_congr heap _ start cells _ linked
  intro other member
  exact AList.lookup_erase_ne fun same => apart (same ▸ member)

theorem linked_allocated (heap : Heap Value) (start : Ptr) (cells : List (Ptr × Value))
    (linked : Linked heap start cells) : ∀ address ∈ addresses cells, address ∈ heap := by
  induction cells generalizing start with
  | nil => simp [addresses]
  | cons cell rest ih =>
      obtain ⟨here, -, next, node, further⟩ := linked
      intro address member
      rcases List.mem_cons.mp member with same | later
      · rw [same, ← here]
        exact lookup_mem heap start _ node
      · exact ih next further address later

theorem linked_nonnull (heap : Heap Value) (start : Ptr) (cells : List (Ptr × Value))
    (linked : Linked heap start cells) : ∀ address ∈ addresses cells, address ≠ NULL := by
  induction cells generalizing start with
  | nil => simp [addresses]
  | cons cell rest ih =>
      obtain ⟨here, nonNull, next, -, further⟩ := linked
      intro address member
      rcases List.mem_cons.mp member with same | later
      · rwa [same, ← here]
      · exact ih next further address later

theorem linked_unique (heap : Heap Value) (start : Ptr) (cells others : List (Ptr × Value))
    (linked : Linked heap start cells) (again : Linked heap start others) : cells = others := by
  induction cells generalizing start others with
  | nil =>
      cases others with
      | nil => rfl
      | cons other rest => exact absurd linked again.2.1
  | cons cell rest ih =>
      cases others with
      | nil => exact absurd again linked.2.1
      | cons other remaining =>
          obtain ⟨here, -, next, node, further⟩ := linked
          obtain ⟨there, -, after, same, beyond⟩ := again
          rw [node, Option.some.injEq, Node.mk.injEq] at same
          obtain ⟨value, rfl⟩ := same
          rw [ih next remaining further beyond, Prod.ext (here.symm.trans there) value]

/-- A chain without repetition is no longer than the heap is large, so that
many steps are enough to walk along it. -/
theorem linked_length (heap : Heap Value) (start : Ptr) (cells : List (Ptr × Value))
    (linked : Linked heap start cells) (distinct : (addresses cells).Nodup) :
    cells.length ≤ heap.entries.length := by
  have within : addresses cells ⊆ heap.keys := fun address member =>
    AList.mem_keys.mp (linked_allocated heap start cells linked address member)
  have short := List.Nodup.length_le_of_subset distinct within
  rw [addresses, List.length_map] at short
  simpa [AList.keys, List.keys] using short

/-- The cells without the first one that carries the value. -/
def eraseValue [DecidableEq Value] (value : Value) (cells : List (Ptr × Value)) :
    List (Ptr × Value) := cells.eraseP fun cell => cell.2 = value

/-- The address of that cell. -/
def findValue [DecidableEq Value] (value : Value) (cells : List (Ptr × Value)) : Option Ptr :=
  (cells.find? fun cell => cell.2 = value).map Prod.fst

section Erase
variable [DecidableEq Value]

theorem erase_here (value : Value) (cell : Ptr × Value) (rest : List (Ptr × Value))
    (hit : cell.2 = value) : eraseValue value (cell :: rest) = rest := by
  simp [eraseValue, hit]

theorem erase_later (value : Value) (cell : Ptr × Value) (rest : List (Ptr × Value))
    (miss : cell.2 ≠ value) :
    eraseValue value (cell :: rest) = cell :: eraseValue value rest := by
  simp [eraseValue, miss]

theorem find_here (value : Value) (cell : Ptr × Value) (rest : List (Ptr × Value))
    (hit : cell.2 = value) : findValue value (cell :: rest) = some cell.1 := by
  simp [findValue, hit]

theorem find_later (value : Value) (cell : Ptr × Value) (rest : List (Ptr × Value))
    (miss : cell.2 ≠ value) : findValue value (cell :: rest) = findValue value rest := by
  simp [findValue, miss]

theorem values_erase (value : Value) (cells : List (Ptr × Value)) :
    values (eraseValue value cells) = (values cells).erase value := by
  induction cells with
  | nil => rfl
  | cons cell rest ih =>
      by_cases hit : cell.2 = value
      · rw [erase_here value cell rest hit, values_cons, hit, List.erase_cons_head]
      · rw [erase_later value cell rest hit, values_cons, values_cons, ih,
          List.erase_cons_tail (by simpa using hit)]

theorem addresses_erase_nodup (value : Value) (cells : List (Ptr × Value))
    (distinct : (addresses cells).Nodup) : (addresses (eraseValue value cells)).Nodup :=
  distinct.sublist ((List.eraseP_sublist).map Prod.fst)

theorem find_none_iff (value : Value) (cells : List (Ptr × Value)) :
    findValue value cells = none ↔ value ∉ values cells := by
  rw [findValue, Option.map_eq_none_iff, List.find?_eq_none]
  constructor
  · intro differs member
    obtain ⟨cell, inside, same⟩ := List.mem_map.mp member
    exact differs cell inside (by simpa using same)
  · intro absent cell inside same
    exact absent (List.mem_map.mpr ⟨cell, inside, by simpa using same⟩)

theorem erase_absent (value : Value) (cells : List (Ptr × Value)) (absent : value ∉ values cells) :
    eraseValue value cells = cells := by
  apply List.eraseP_of_forall_not
  intro cell inside same
  exact absent (List.mem_map.mpr ⟨cell, inside, by simpa using same⟩)

/-- What is found is one of the addresses, and it is the one that is dropped. -/
theorem find_dropped (value : Value) (cells : List (Ptr × Value)) (address : Ptr)
    (distinct : (addresses cells).Nodup) (found : findValue value cells = some address) :
    address ∈ addresses cells ∧
      ∀ other, other ∈ addresses (eraseValue value cells) ↔
        other ∈ addresses cells ∧ other ≠ address := by
  induction cells with
  | nil => exact absurd found (by simp [findValue])
  | cons cell rest ih =>
      rw [addresses_cons, List.nodup_cons] at distinct
      by_cases hit : cell.2 = value
      · rw [find_here value cell rest hit, Option.some.injEq] at found
        refine ⟨by simp [found], fun other => ?_⟩
        rw [erase_here value cell rest hit, addresses_cons, List.mem_cons, ← found]
        constructor
        · intro member
          exact ⟨Or.inr member, fun same => distinct.1 (same ▸ member)⟩
        · rintro ⟨same | member, differs⟩
          · exact absurd same differs
          · exact member
      · rw [find_later value cell rest hit] at found
        obtain ⟨member, dropped⟩ := ih distinct.2 found
        have apart : cell.1 ≠ address := fun same => distinct.1 (same ▸ member)
        refine ⟨by simp [member], fun other => ?_⟩
        rw [erase_later value cell rest hit, addresses_cons, addresses_cons, List.mem_cons,
          List.mem_cons, dropped]
        constructor
        · rintro (same | ⟨inside, differs⟩)
          · exact ⟨Or.inl same, same ▸ apart⟩
          · exact ⟨Or.inr inside, differs⟩
        · rintro ⟨same | inside, differs⟩
          · exact Or.inl same
          · exact Or.inr ⟨inside, differs⟩

end Erase

end Practise.LinkedChain
