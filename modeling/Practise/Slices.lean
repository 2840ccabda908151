import Mathlib.Data.List.Basic
import Mathlib.Logic.Function.Basic

/-! Slices of a language like Go: windows on backing arrays that several
slices may share. `append` writes behind the window as long as the capacity
suffices, into whatever other slices see there, and moves to a new array
otherwise; how far a new array grows is a parameter. An operation that would
panic has no result. -/
namespace Practise.Slices
variable {Item : Type}

/-- The backing arrays by address. Addresses from `next` on are unused. -/
structure Heap (Item : Type) where
  cells : Nat → List Item
  next : Nat

structure Slice where
  array : Nat
  offset : Nat
  len : Nat
  cap : Nat
  within : len ≤ cap
  deriving DecidableEq

def Slice.elements (slice : Slice) (heap : Heap Item) : List Item :=
  ((heap.cells slice.array).drop slice.offset).take slice.len

/-- `slice[index]` -/
def Slice.get (slice : Slice) (heap : Heap Item) (index : Nat) : Option Item :=
  if index < slice.len then (heap.cells slice.array)[slice.offset + index]? else none

/-- `slice[:high]` -/
def Slice.upTo (slice : Slice) (high : Nat) : Option Slice :=
  if inside : high ≤ slice.cap then some { slice with len := high, within := inside } else none

/-- `slice[low:]` -/
def Slice.startingAt (slice : Slice) (low : Nat) : Option Slice :=
  if low ≤ slice.len then
    some
      { array := slice.array
        offset := slice.offset + low
        len := slice.len - low
        cap := slice.cap - low
        within := Nat.sub_le_sub_right slice.within low }
  else none

def overwrite (cells : List Item) (position : Nat) (items : List Item) : List Item :=
  cells.take position ++ items ++ cells.drop (position + items.length)

def Heap.store (heap : Heap Item) (array position : Nat) (items : List Item) : Heap Item where
  cells := Function.update heap.cells array (overwrite (heap.cells array) position items)
  next := heap.next

/-- `append(slice, items...)` -/
def append [Inhabited Item] (grow : Nat → Nat) (heap : Heap Item) (slice : Slice)
    (items : List Item) : Heap Item × Slice :=
  let len := slice.len + items.length
  if fits : len ≤ slice.cap then
    (heap.store slice.array (slice.offset + slice.len) items,
      { slice with len := len, within := fits })
  else
    let cap := max len (grow slice.cap)
    let cells := slice.elements heap ++ items ++ List.replicate (cap - len) default
    ({ cells := Function.update heap.cells heap.next cells, next := heap.next + 1 },
      { array := heap.next, offset := 0, len := len, cap := cap, within := Nat.le_max_left .. })

/-- `append(slice[:index], slice[index+1:]...)` -/
def removeAt [Inhabited Item] (grow : Nat → Nat) (heap : Heap Item) (slice : Slice)
    (index : Nat) : Option (Heap Item × Slice) :=
  (slice.upTo index).bind fun front =>
    (slice.startingAt (index + 1)).map fun rest => append grow heap front (rest.elements heap)

/-! Windows inside their arrays, windows that do not overlap, and what a
change inside one window leaves alone. -/

def Fits (heap : Heap Item) (slice : Slice) : Prop :=
  slice.offset + slice.cap ≤ (heap.cells slice.array).length

def Apart (left right : Slice) : Prop :=
  left.array = right.array →
    left.offset + left.len ≤ right.offset ∨ right.offset + right.len ≤ left.offset

instance (heap : Heap Item) (slice : Slice) : Decidable (Fits heap slice) :=
  inferInstanceAs (Decidable (_ ≤ _))

instance (left right : Slice) : Decidable (Apart left right) :=
  inferInstanceAs (Decidable (_ → _))

structure SameOutside (slice : Slice) (before after : Heap Item) : Prop where
  size : ∀ array, (after.cells array).length = (before.cells array).length
  outside : ∀ array index,
    (array = slice.array → index < slice.offset ∨ slice.offset + slice.len ≤ index) →
      (after.cells array)[index]? = (before.cells array)[index]?

/-- The same window, cut at the end. -/
structure Shrunk (before after : Slice) : Prop where
  array : after.array = before.array
  offset : after.offset = before.offset
  cap : after.cap = before.cap
  len : after.len ≤ before.len

theorem shrunk_refl (slice : Slice) : Shrunk slice slice :=
  ⟨rfl, rfl, rfl, Nat.le_refl _⟩

theorem shrunk_trans (first second third : Slice) (one : Shrunk first second)
    (two : Shrunk second third) : Shrunk first third :=
  ⟨two.array.trans one.array, two.offset.trans one.offset, two.cap.trans one.cap,
    Nat.le_trans two.len one.len⟩

theorem shrunk_apart (before after other : Slice) (shrunk : Shrunk before after)
    (apart : Apart before other) : Apart after other := by
  intro same
  have := apart (shrunk.array.symm.trans same)
  have := shrunk.len
  rw [shrunk.offset]
  omega

theorem apart_symm (left right : Slice) (apart : Apart left right) : Apart right left :=
  fun same => (apart same.symm).symm

theorem same_outside_refl (slice : Slice) (heap : Heap Item) : SameOutside slice heap heap :=
  ⟨fun _ => rfl, fun _ _ _ => rfl⟩

theorem same_outside_trans (slice inner : Slice) (first second third : Heap Item)
    (shrunk : Shrunk slice inner) (one : SameOutside slice first second)
    (two : SameOutside inner second third) : SameOutside slice first third := by
  refine ⟨fun array => (two.size array).trans (one.size array), fun array index away => ?_⟩
  refine (two.outside array index fun same => ?_).trans (one.outside array index away)
  have := away (same.trans shrunk.array)
  have := shrunk.len
  rw [shrunk.offset]
  omega

theorem fits_same_outside (slice window : Slice) (before after : Heap Item)
    (same : SameOutside window before after) (fits : Fits before slice) : Fits after slice := by
  rw [Fits, same.size]
  exact fits

theorem fits_shrunk (heap : Heap Item) (before after : Slice) (shrunk : Shrunk before after)
    (fits : Fits heap before) : Fits heap after := by
  rw [Fits, shrunk.array, shrunk.offset, shrunk.cap]
  exact fits

theorem elements_get (slice : Slice) (heap : Heap Item) (index : Nat) :
    (slice.elements heap)[index]? = slice.get heap index := by
  simp only [Slice.elements, Slice.get, List.getElem?_take, List.getElem?_drop]

theorem elements_length (slice : Slice) (heap : Heap Item) (fits : Fits heap slice) :
    (slice.elements heap).length = slice.len := by
  have := slice.within
  simp only [Fits] at fits
  simp only [Slice.elements, List.length_take, List.length_drop]
  omega

/-- A slice apart from the changed window keeps its elements. -/
theorem elements_apart (window slice : Slice) (before after : Heap Item)
    (same : SameOutside window before after) (apart : Apart window slice) :
    slice.elements after = slice.elements before := by
  apply List.ext_getElem?
  intro index
  rw [elements_get, elements_get, Slice.get, Slice.get]
  by_cases inside : index < slice.len
  · rw [if_pos inside, if_pos inside]
    apply same.outside
    intro shared
    have := apart shared.symm
    omega
  · rw [if_neg inside, if_neg inside]

theorem overwrite_length (cells : List Item) (position : Nat) (items : List Item)
    (inside : position + items.length ≤ cells.length) :
    (overwrite cells position items).length = cells.length := by
  simp only [overwrite, List.length_append, List.length_take, List.length_drop]
  omega

theorem overwrite_get (cells : List Item) (position : Nat) (items : List Item) (index : Nat)
    (inside : position + items.length ≤ cells.length) :
    (overwrite cells position items)[index]? =
      if index < position then cells[index]?
      else if index < position + items.length then items[index - position]?
      else cells[index]? := by
  have front : (cells.take position).length = position := by
    rw [List.length_take]
    omega
  have both : (cells.take position ++ items).length = position + items.length := by
    rw [List.length_append, front]
  rw [overwrite, List.getElem?_append, both]
  by_cases before : index < position
  · rw [if_pos (by omega), List.getElem?_append_left (by omega), List.getElem?_take, if_pos before,
      if_pos before]
  · rw [if_neg before]
    by_cases written : index < position + items.length
    · rw [if_pos written, if_pos written, List.getElem?_append_right (by omega), front]
    · rw [if_neg written, if_neg written, List.getElem?_drop]
      congr 1
      omega

theorem store_size (heap : Heap Item) (array position : Nat) (items : List Item)
    (inside : position + items.length ≤ (heap.cells array).length) (other : Nat) :
    ((heap.store array position items).cells other).length = (heap.cells other).length := by
  by_cases same : other = array
  · subst same
    simp only [Heap.store, Function.update_self]
    exact overwrite_length _ _ _ inside
  · simp only [Heap.store, Function.update_of_ne same]

theorem store_get (heap : Heap Item) (array position : Nat) (items : List Item)
    (inside : position + items.length ≤ (heap.cells array).length) (other index : Nat) :
    ((heap.store array position items).cells other)[index]? =
      if other = array ∧ position ≤ index ∧ index < position + items.length then
        items[index - position]?
      else (heap.cells other)[index]? := by
  by_cases same : other = array
  · subst same
    simp only [Heap.store, Function.update_self]
    rw [overwrite_get _ _ _ _ inside]
    by_cases before : index < position
    · rw [if_pos before, if_neg (by omega)]
    · rw [if_neg before]
      by_cases written : index < position + items.length
      · rw [if_pos written, if_pos ⟨trivial, by omega, written⟩]
      · rw [if_neg written, if_neg (by omega)]
  · simp only [Heap.store, Function.update_of_ne same]
    rw [if_neg (fun both => same both.1)]

theorem append_in_place [Inhabited Item] (grow : Nat → Nat) (heap : Heap Item) (slice : Slice)
    (items : List Item) (room : slice.len + items.length ≤ slice.cap) :
    append grow heap slice items =
      (heap.store slice.array (slice.offset + slice.len) items,
        { slice with len := slice.len + items.length, within := room }) := by
  simp only [append, dif_pos room]

theorem append_moved [Inhabited Item] (grow : Nat → Nat) (heap : Heap Item) (slice : Slice)
    (items : List Item) (full : ¬ slice.len + items.length ≤ slice.cap) :
    ∃ spare, append grow heap slice items =
      ({ cells := Function.update heap.cells heap.next (slice.elements heap ++ items ++ spare)
         next := heap.next + 1 },
        ⟨heap.next, 0, slice.len + items.length,
          max (slice.len + items.length) (grow slice.cap), Nat.le_max_left ..⟩) ∧
      spare.length = max (slice.len + items.length) (grow slice.cap) -
        (slice.len + items.length) :=
  ⟨List.replicate _ default, by simp only [append, dif_neg full], List.length_replicate⟩

/-- An append changes one array only: the slice's own, or a new one. -/
theorem append_spec [Inhabited Item] (grow : Nat → Nat) (heap : Heap Item) (slice : Slice)
    (items : List Item) (fits : Fits heap slice) :
    ∃ after longer, append grow heap slice items = (after, longer) ∧ Fits after longer ∧
      longer.elements after = slice.elements heap ++ items ∧
      longer.len = slice.len + items.length ∧
      (∀ array, array ≠ longer.array → after.cells array = heap.cells array) ∧
      (longer.array = slice.array ∧ slice.len + items.length ≤ slice.cap ∧
          after.next = heap.next ∨
        longer.array = heap.next ∧ after.next = heap.next + 1) := by
  have length := elements_length slice heap fits
  by_cases room : slice.len + items.length ≤ slice.cap
  · simp only [Fits] at fits
    have inside : slice.offset + slice.len + items.length ≤ (heap.cells slice.array).length := by
      omega
    refine ⟨_, _, append_in_place grow heap slice items room, ?_, ?_, rfl,
      fun array different => Function.update_of_ne different .., Or.inl ⟨rfl, room, rfl⟩⟩
    · rw [Fits, store_size heap _ _ _ inside]
      exact fits
    · apply List.ext_getElem?
      intro index
      rw [elements_get]
      simp only [Slice.get]
      by_cases old : index < slice.len
      · rw [if_pos (by omega), store_get heap _ _ _ inside, if_neg (by omega),
          List.getElem?_append_left (by omega), elements_get, Slice.get, if_pos old]
      · rw [List.getElem?_append_right (by omega), length]
        by_cases new : index < slice.len + items.length
        · rw [if_pos new, store_get heap _ _ _ inside, if_pos ⟨rfl, by omega, by omega⟩]
          congr 1
          omega
        · rw [if_neg new, List.getElem?_eq_none (by omega)]
  · obtain ⟨spare, moved, rest⟩ := append_moved grow heap slice items room
    refine ⟨_, _, moved, ?_, ?_, rfl, fun array different => Function.update_of_ne different ..,
      Or.inr ⟨rfl, rfl⟩⟩
    · simp only [Fits, Function.update_self, List.length_append, length, rest]
      omega
    · rw [Slice.elements]
      simp only [Function.update_self, List.drop_zero]
      rw [List.take_left' (by rw [List.length_append, length])]

/-- Removing never needs a new array: the elements behind the index move down
by one, and the last cell of the window keeps its stale content. -/
theorem remove_at_spec [Inhabited Item] (grow : Nat → Nat) (heap : Heap Item) (slice : Slice)
    (index : Nat) (fits : Fits heap slice) (inside : index < slice.len) :
    ∃ after shorter, removeAt grow heap slice index = some (after, shorter) ∧
      Shrunk slice shorter ∧ shorter.len + 1 = slice.len ∧
      shorter.elements after = (slice.elements heap).eraseIdx index ∧
      SameOutside slice heap after := by
  have bound := slice.within
  have length := elements_length slice heap fits
  simp only [Fits] at fits
  have high : index ≤ slice.cap := by omega
  have moved : ∀ cap within, (Slice.mk slice.array (slice.offset + (index + 1))
      (slice.len - (index + 1)) cap within).elements heap =
        (slice.elements heap).drop (index + 1) := by
    intro cap within
    rw [Slice.elements, Slice.elements, List.drop_take, List.drop_drop]
  have count : ((slice.elements heap).drop (index + 1)).length = slice.len - (index + 1) := by
    rw [List.length_drop, length]
  have room : slice.offset + index + ((slice.elements heap).drop (index + 1)).length ≤
      (heap.cells slice.array).length := by
    omega
  have short : index + ((slice.elements heap).drop (index + 1)).length ≤ slice.cap := by
    omega
  have taken : removeAt grow heap slice index = some
      (heap.store slice.array (slice.offset + index) ((slice.elements heap).drop (index + 1)),
        { slice with
          len := index + ((slice.elements heap).drop (index + 1)).length
          within := short }) := by
    have low : index + 1 ≤ slice.len := inside
    simp only [removeAt, Slice.upTo, dif_pos high, Slice.startingAt, if_pos low,
      Option.bind_some, Option.map_some, moved]
    exact congrArg some (append_in_place grow heap ⟨slice.array, slice.offset, index, _, high⟩ _
      short)
  refine ⟨_, _, taken, ⟨rfl, rfl, rfl, by simp only; omega⟩, by simp only; omega, ?_,
    ⟨store_size heap _ _ _ room, fun array cell away => ?_⟩⟩
  -- Cell by cell: before the index, moved from the right, and past the new end.
  · apply List.ext_getElem?
    intro position
    rw [elements_get, List.getElem?_eraseIdx]
    simp only [Slice.get]
    by_cases front : position < index
    · rw [if_pos front, if_pos (by omega), elements_get, Slice.get, if_pos (by omega),
        store_get heap _ _ _ room, if_neg (by omega)]
    · rw [if_neg front]
      by_cases last : position + 1 < slice.len
      · rw [if_pos (by omega), store_get heap _ _ _ room, if_pos ⟨rfl, by omega, by omega⟩,
          List.getElem?_drop]
        congr 1
        omega
      · rw [if_neg (by omega), List.getElem?_eq_none (by omega)]
  · rw [store_get heap _ _ _ room, if_neg]
    rintro ⟨same, lower, upper⟩
    have := away same
    omega

end Practise.Slices
