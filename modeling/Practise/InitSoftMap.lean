import Practise.BlockedCates

/-! How `initSoftMap` of go/custom/block_soft.go stores the lists it has read,
one for each key that parses to a category. A slice starts without an array
and grows by `append`, so each category comes to own its array, and the maps
that `getBlockedCates` is called with have separate slices. -/
namespace Practise.BlockedCates
open Slices

/-- `[]int64{}` -/
def emptySlice : Slice := ⟨0, 0, 0, 0, Nat.le_refl 0⟩

def appendSoft (grow : Nat → Nat) (cate : Cate) (store : Store) (soft : Soft) : Option Store :=
  (store.softMap.lookup cate).map fun softs =>
    let appended := append grow store.heap softs [soft]
    { heap := appended.1, softMap := store.softMap.insert cate appended.2 }

/-- The end of the loop body, for a category and the list read for its key. -/
def storeSofts (grow : Nat → Nat) (store : Store) (entry : Cate × List Soft) : Option Store :=
  entry.2.foldlM (appendSoft grow entry.1)
    { store with softMap := store.softMap.insert entry.1 emptySlice }

def enter (catalogue : Catalogue Cate Soft) (entry : Cate × List Soft) : Catalogue Cate Soft :=
  Function.update catalogue entry.1 (some entry.2)

/-- Every slice is without an array or the only one on an allocated array. -/
structure Owned (store : Store) : Prop where
  fits : ∀ cate softs, store.softMap.lookup cate = some softs → Fits store.heap softs
  placed : ∀ cate softs, store.softMap.lookup cate = some softs →
    softs = emptySlice ∨ softs.array < store.heap.next
  alone : ∀ left right one two, left ≠ right → store.softMap.lookup left = some one →
    store.softMap.lookup right = some two →
    one = emptySlice ∨ two = emptySlice ∨ one.array ≠ two.array

theorem owned_separate (store : Store) (owned : Owned store) : Separate store := by
  refine ⟨owned.fits, fun left right one two different leftFound rightFound shared => ?_⟩
  rcases owned.alone left right one two different leftFound rightFound with rfl | rfl | distinct
  · exact Or.inl (Nat.zero_le _)
  · exact Or.inr (Nat.zero_le _)
  · exact absurd shared distinct

theorem owned_empty (heap : Heap Soft) : Owned ⟨heap, ∅⟩ :=
  ⟨fun _ _ found => (nomatch found), fun _ _ found => (nomatch found),
    fun _ _ _ _ _ found => (nomatch found)⟩

theorem owned_insert (store : Store) (owned : Owned store) (after : Heap Soft) (cate : Cate)
    (slice : Slice) (fits : Fits after slice) (grown : store.heap.next ≤ after.next)
    (placed : slice = emptySlice ∨ slice.array < after.next)
    (others : ∀ other softs, other ≠ cate → store.softMap.lookup other = some softs →
      (slice = emptySlice ∨ softs = emptySlice ∨ slice.array ≠ softs.array) ∧
        Fits after softs ∧ softs.elements after = softs.elements store.heap) :
    Owned ⟨after, store.softMap.insert cate slice⟩ ∧
      (Store.mk after (store.softMap.insert cate slice)).catalogue =
        Function.update store.catalogue cate (some (slice.elements after)) := by
  refine ⟨⟨fun other softs found => ?_, fun other softs found => ?_,
    fun left right one two different leftFound rightFound => ?_⟩, ?_⟩
  · rcases lookup_insert_cases _ _ _ _ _ found with ⟨rfl, rfl⟩ | ⟨different, old⟩
    · exact fits
    · exact (others other softs different old).2.1
  · rcases lookup_insert_cases _ _ _ _ _ found with ⟨rfl, rfl⟩ | ⟨_, old⟩
    · exact placed
    · exact (owned.placed other softs old).imp_right fun below => below.trans_le grown
  · rcases lookup_insert_cases _ _ _ _ _ leftFound with ⟨rfl, rfl⟩ | ⟨leftOther, oldLeft⟩ <;>
      rcases lookup_insert_cases _ _ _ _ _ rightFound with ⟨rfl, rfl⟩ | ⟨rightOther, oldRight⟩
    · exact absurd rfl different
    · exact (others right two rightOther oldRight).1
    · rcases (others left one leftOther oldLeft).1 with empty | empty | distinct
      · exact Or.inr (Or.inl empty)
      · exact Or.inl empty
      · exact Or.inr (Or.inr distinct.symm)
    · exact owned.alone left right one two different oldLeft oldRight
  · funext other
    by_cases same : other = cate
    · subst same
      rw [catalogue_insert_own, Function.update_self]
    · rw [Function.update_of_ne same]
      exact catalogue_insert_other store after cate other slice same
        fun softs found => (others other softs same found).2.2

theorem append_soft_spec (grow : Nat → Nat) (cate : Cate) (store : Store) (soft : Soft)
    (owned : Owned store) (before : List Soft) (listed : store.catalogue cate = some before) :
    ∃ next, appendSoft grow cate store soft = some next ∧ Owned next ∧
      next.catalogue = Function.update store.catalogue cate (some (before ++ [soft])) := by
  obtain ⟨softs, found, rfl⟩ := Option.map_eq_some_iff.mp listed
  obtain ⟨after, longer, appended, fits, elements, length, same, moved⟩ :=
    append_spec grow store.heap softs [soft] (owned.fits cate softs found)
  have inserted := owned_insert store owned after cate longer fits
    (by rcases moved with ⟨_, _, next⟩ | ⟨_, next⟩ <;> omega)
    (Or.inr ?_) ?_
  · refine ⟨_, ?_, inserted.1, inserted.2.trans (by rw [elements])⟩
    rw [appendSoft, found, Option.map_some, appended]
  -- The array is the slice's own, which was not the empty one, or a new one.
  · rcases moved with ⟨own, room, next⟩ | ⟨fresh, next⟩
    · rcases owned.placed cate softs found with rfl | below
      · exact absurd room (by simp [emptySlice])
      · omega
    · omega
  · intro other slice different present
    have distinct : slice = emptySlice ∨ longer.array ≠ slice.array := by
      rcases owned.placed other slice present with empty | below
      · exact Or.inl empty
      · rcases moved with ⟨own, room, _⟩ | ⟨fresh, _⟩
        · rcases owned.alone other cate slice softs different present found with
            empty | rfl | apart
          · exact Or.inl empty
          · exact absurd room (by simp [emptySlice])
          · exact Or.inr (own ▸ apart.symm)
        · exact Or.inr (by omega)
    refine ⟨Or.inr distinct, ?_⟩
    rcases distinct with rfl | apart
    · exact ⟨Nat.zero_le _, rfl⟩
    · have cells := same slice.array apart.symm
      refine ⟨?_, by rw [Slice.elements, cells, Slice.elements]⟩
      rw [Fits, cells]
      exact owned.fits other slice present

theorem append_softs_spec (grow : Nat → Nat) (cate : Cate) (softs : List Soft) (store : Store)
    (owned : Owned store) (before : List Soft) (listed : store.catalogue cate = some before) :
    ∃ after, softs.foldlM (appendSoft grow cate) store = some after ∧ Owned after ∧
      after.catalogue = Function.update store.catalogue cate (some (before ++ softs)) := by
  induction softs generalizing store before with
  | nil =>
      refine ⟨store, rfl, owned, ?_⟩
      rw [List.append_nil, ← listed, Function.update_eq_self]
  | cons soft rest ih =>
      obtain ⟨next, taken, still, catalogue⟩ :=
        append_soft_spec grow cate store soft owned before listed
      obtain ⟨after, run, final, total⟩ := ih next still (before ++ [soft])
        (by rw [catalogue, Function.update_self])
      refine ⟨after, ?_, final, ?_⟩
      · rw [List.foldlM_cons, taken]
        exact run
      · rw [total, catalogue, Function.update_idem, List.append_assoc, List.singleton_append]

theorem store_softs_spec (grow : Nat → Nat) (store : Store) (entry : Cate × List Soft)
    (owned : Owned store) :
    ∃ after, storeSofts grow store entry = some after ∧ Owned after ∧
      after.catalogue = enter store.catalogue entry := by
  obtain ⟨begun, catalogue⟩ := owned_insert store owned store.heap entry.1 emptySlice
    (Nat.zero_le _) (Nat.le_refl _) (Or.inl rfl)
    (fun other softs _ found => ⟨Or.inl rfl, owned.fits other softs found, rfl⟩)
  obtain ⟨after, run, final, total⟩ := append_softs_spec grow entry.1 entry.2 _ begun []
    (by rw [catalogue, Function.update_self]; rfl)
  exact ⟨after, run, final, by rw [total, catalogue, Function.update_idem, List.nil_append, enter]⟩

/-- The map that is built has separate slices, and holds for each category the
list that was stored last. -/
theorem stored_softs_separate (grow : Nat → Nat) (heap : Heap Soft)
    (entries : List (Cate × List Soft)) :
    ∃ store, entries.foldlM (storeSofts grow) ⟨heap, ∅⟩ = some store ∧ Separate store ∧
      store.catalogue = entries.foldl enter fun _ => none := by
  have general : ∀ store, Owned store →
      ∃ after, entries.foldlM (storeSofts grow) store = some after ∧ Owned after ∧
        after.catalogue = entries.foldl enter store.catalogue := by
    induction entries with
    | nil => exact fun store owned => ⟨store, rfl, owned, rfl⟩
    | cons entry rest ih =>
        intro store owned
        obtain ⟨next, taken, still, catalogue⟩ := store_softs_spec grow store entry owned
        obtain ⟨after, run, final, total⟩ := ih next still
        refine ⟨after, ?_, final, ?_⟩
        · rw [List.foldlM_cons, taken]
          exact run
        · rw [total, catalogue, List.foldl_cons]
  obtain ⟨store, run, owned, catalogue⟩ := general ⟨heap, ∅⟩ (owned_empty heap)
  exact ⟨store, run, owned_separate store owned, catalogue⟩

end Practise.BlockedCates
