import Mathlib.Data.Finset.Basic
import Mathlib.Data.List.AList
import Practise.Slices

/-! `getBlockedCates` of go/custom/block_soft.go. It deletes the blocked softs
from every category's slice in place, writes the shortened slices back into
the caller's map, and returns the categories whose slices have become empty.
The order in which each of the two loops ranges over the map is a parameter.
Output is a list here: nothing depends on the array behind it. -/
namespace Practise.BlockedCates
open Slices

/-! What the function is for: a catalogue of categories, and the categories
that are left without softs when some softs are hidden. -/
section Catalogue
variable {Cate Soft : Type} [DecidableEq Soft]

abbrev Catalogue (Cate Soft : Type) := Cate → Option (List Soft)

def hide (blocked : Finset Soft) (catalogue : Catalogue Cate Soft) : Catalogue Cate Soft :=
  fun cate => (catalogue cate).map fun softs => softs.filter fun soft => soft ∉ blocked

def hiddenCates (catalogue : Catalogue Cate Soft) : Set Cate :=
  { cate | catalogue cate = some [] }

theorem mem_hidden_hide (blocked : Finset Soft) (catalogue : Catalogue Cate Soft) (cate : Cate) :
    cate ∈ hiddenCates (hide blocked catalogue) ↔
      ∃ softs, catalogue cate = some softs ∧ ∀ soft ∈ softs, soft ∈ blocked := by
  simp [hiddenCates, hide]

theorem hide_empty (catalogue : Catalogue Cate Soft) : hide ∅ catalogue = catalogue := by
  funext cate
  simp [hide]

/-- Hiding twice is hiding the union: nothing that was hidden comes back. -/
theorem hide_hide (first second : Finset Soft) (catalogue : Catalogue Cate Soft) :
    hide second (hide first catalogue) = hide (first ∪ second) catalogue := by
  funext cate
  cases found : catalogue cate with
  | none => simp [hide, found]
  | some softs =>
      simp only [hide, found, Option.map_some, List.filter_filter, Option.some.injEq]
      apply List.filter_congr
      intro soft _
      simp [Bool.and_comm]

end Catalogue

abbrev Cate := Int64
abbrev Soft := Int64
abbrev SoftMap := AList fun _ : Cate => Slice

structure Store where
  heap : Heap Soft
  softMap : SoftMap

def makeBlockMap (blockedSofts : List Soft) : Finset Soft :=
  blockedSofts.foldl (fun blockMap soft => insert soft blockMap) ∅

/-- The inner loop. `fuel` bounds its iterations; an index out of range and a
loop that is not finished have no result. -/
def deleteBlocked (grow : Nat → Nat) (blockMap : Finset Soft) :
    Nat → Heap Soft → Slice → Nat → Option (Heap Soft × Slice)
  | 0, heap, softs, i => if i < softs.len then none else some (heap, softs)
  | fuel + 1, heap, softs, i =>
      if i < softs.len then
        (softs.get heap i).bind fun soft =>
          if soft ∈ blockMap then
            -- `i--` is undone by the `i++` of the loop.
            (removeAt grow heap softs i).bind fun removed =>
              deleteBlocked grow blockMap fuel removed.1 removed.2 i
          else deleteBlocked grow blockMap fuel heap softs (i + 1)
      else some (heap, softs)

def hideInCate (grow : Nat → Nat) (blockMap : Finset Soft) (store : Store) (cate : Cate) :
    Option Store :=
  (store.softMap.lookup cate).bind fun softs =>
    (deleteBlocked grow blockMap softs.len store.heap softs 0).map fun deleted =>
      { heap := deleted.1, softMap := store.softMap.insert cate deleted.2 }

def collectEmpty (softMap : SoftMap) (blockedCates : List Cate) (cate : Cate) :
    Option (List Cate) :=
  (softMap.lookup cate).map fun softs =>
    if softs.len = 0 then blockedCates ++ [cate] else blockedCates

/-- `first` and `second` are the orders of the two loops over the map. -/
def getBlockedCates (grow : Nat → Nat) (store : Store) (blockedSofts : List Soft)
    (first second : List Cate) : Option (Store × List Cate) :=
  (first.foldlM (hideInCate grow (makeBlockMap blockedSofts)) store).bind fun store =>
    (second.foldlM (collectEmpty store.softMap) []).map fun blockedCates => (store, blockedCates)

def Store.catalogue (store : Store) : Catalogue Cate Soft :=
  fun cate => (store.softMap.lookup cate).map fun softs => softs.elements store.heap

/-- No cell is seen by the slices of two categories. -/
structure Separate (store : Store) : Prop where
  fits : ∀ cate softs, store.softMap.lookup cate = some softs → Fits store.heap softs
  apart : ∀ left right one two, left ≠ right → store.softMap.lookup left = some one →
    store.softMap.lookup right = some two → Apart one two

/-- An order in which a loop may range over the map. -/
structure Ranges (store : Store) (order : List Cate) : Prop where
  nodup : order.Nodup
  complete : ∀ cate, cate ∈ order ↔ cate ∈ store.softMap

theorem mem_make_block_map (blockedSofts : List Soft) (soft : Soft) :
    soft ∈ makeBlockMap blockedSofts ↔ soft ∈ blockedSofts := by
  have general : ∀ blockMap : Finset Soft,
      soft ∈ blockedSofts.foldl (fun blockMap soft => insert soft blockMap) blockMap ↔
        soft ∈ blockMap ∨ soft ∈ blockedSofts := by
    induction blockedSofts with
    | nil => simp
    | cons head rest ih =>
        intro blockMap
        rw [List.foldl_cons, ih, Finset.mem_insert, List.mem_cons]
        tauto
  simpa [makeBlockMap] using general ∅

theorem elements_scanned (blockMap : Finset Soft) (heap : Heap Soft) (softs : Slice) (i : Nat)
    (fits : Fits heap softs) (ends : ¬ i < softs.len) :
    softs.elements heap = (softs.elements heap).take i ++
      ((softs.elements heap).drop i).filter fun soft => soft ∉ blockMap := by
  have length := elements_length softs heap fits
  rw [List.take_of_length_le (by omega), List.drop_of_length_le (by omega), List.filter_nil,
    List.append_nil]

/-- The loop ends after at most one iteration for each remaining element. What
lies before `i` has been kept; of what lies from `i` on, the unblocked
elements remain, in their order. -/
theorem delete_blocked_spec (grow : Nat → Nat) (blockMap : Finset Soft) (fuel : Nat)
    (heap : Heap Soft) (softs : Slice) (i : Nat) (fits : Fits heap softs)
    (inside : i ≤ softs.len) (enough : softs.len - i ≤ fuel) :
    ∃ after kept, deleteBlocked grow blockMap fuel heap softs i = some (after, kept) ∧
      Shrunk softs kept ∧ SameOutside softs heap after ∧
      kept.elements after = (softs.elements heap).take i ++
        ((softs.elements heap).drop i).filter fun soft => soft ∉ blockMap := by
  induction fuel generalizing heap softs i with
  | zero =>
      have ends : ¬ i < softs.len := by omega
      exact ⟨heap, softs, by rw [deleteBlocked, if_neg ends], shrunk_refl softs,
        same_outside_refl softs heap, elements_scanned blockMap heap softs i fits ends⟩
  | succ fuel ih =>
      by_cases more : i < softs.len
      · have here : i < (softs.elements heap).length := by
          rw [elements_length softs heap fits]
          exact more
        have found : softs.get heap i = some (softs.elements heap)[i] := by
          rw [← elements_get, List.getElem?_eq_getElem here]
        have split : (softs.elements heap).drop i =
            (softs.elements heap)[i] :: (softs.elements heap).drop (i + 1) :=
          List.drop_eq_getElem_cons here
        rw [deleteBlocked, if_pos more, found, Option.bind_some]
        by_cases blocked : (softs.elements heap)[i] ∈ blockMap
        -- Deleted: the next element moves to `i` and the slice gets shorter.
        · obtain ⟨middle, shorter, removed, shrunk, count, rest, outside⟩ :=
            remove_at_spec grow heap softs i fits more
          have stillFits : Fits middle shorter :=
            fits_shrunk middle softs shorter shrunk
              (fits_same_outside softs softs heap middle outside fits)
          obtain ⟨after, kept, deleted, cut, same, elements⟩ :=
            ih middle shorter i stillFits (by omega) (by omega)
          refine ⟨after, kept, ?_, shrunk_trans softs shorter kept shrunk cut,
            same_outside_trans softs shorter heap middle after shrunk outside same, ?_⟩
          · rw [if_pos blocked, removed, Option.bind_some, deleted]
          · rw [elements, rest, split, List.filter_cons_of_neg (by simpa using blocked),
              List.eraseIdx_eq_take_drop_succ, List.take_left' (by simp; omega),
              List.drop_left' (by simp; omega)]
        -- Kept: the element joins the part before `i`.
        · obtain ⟨after, kept, deleted, cut, same, elements⟩ :=
            ih heap softs (i + 1) fits more (by omega)
          refine ⟨after, kept, by rw [if_neg blocked, deleted], cut, same, ?_⟩
          rw [elements, split, List.filter_cons_of_pos (by simpa using blocked),
            List.take_succ_eq_append_getElem here, List.append_assoc]
          rfl
      · exact ⟨heap, softs, by rw [deleteBlocked, if_neg more], shrunk_refl softs,
          same_outside_refl softs heap, elements_scanned blockMap heap softs i fits more⟩

/-- On any slice of any array the loop ends after at most one iteration for each
element, with every index in range, and has filtered the window where it is. -/
theorem deletion_loop_filters (grow : Nat → Nat) (blockMap : Finset Soft) (heap : Heap Soft)
    (softs : Slice) (fits : Fits heap softs) (fuel : Nat) (enough : softs.len ≤ fuel) :
    ∃ after kept, deleteBlocked grow blockMap fuel heap softs 0 = some (after, kept) ∧
      kept.array = softs.array ∧ kept.offset = softs.offset ∧
      kept.elements after = (softs.elements heap).filter (fun soft => soft ∉ blockMap) ∧
      kept.len = ((softs.elements heap).filter fun soft => soft ∉ blockMap).length ∧
      ∀ array index,
        (array = softs.array → index < softs.offset ∨ softs.offset + softs.len ≤ index) →
        (after.cells array)[index]? = (heap.cells array)[index]? := by
  obtain ⟨after, kept, deleted, shrunk, outside, elements⟩ :=
    delete_blocked_spec grow blockMap fuel heap softs 0 fits (Nat.zero_le _) enough
  rw [List.take_zero, List.drop_zero, List.nil_append] at elements
  have stillFits : Fits after kept :=
    fits_shrunk after softs kept shrunk (fits_same_outside softs softs heap after outside fits)
  refine ⟨after, kept, deleted, shrunk.array, shrunk.offset, elements, ?_, outside.outside⟩
  rw [← elements, elements_length kept after stillFits]

theorem window_filtered :
    ∃ after kept, deleteBlocked id {1} 4 ⟨fun _ => [9, 1, 2, 1, 3, 8], 1⟩
        ⟨0, 1, 4, 5, by decide⟩ 0 = some (after, kept) ∧
      kept.offset = 1 ∧ kept.elements after = [2, 3] ∧
      (after.cells 0)[0]? = some 9 ∧ (after.cells 0)[5]? = some 8 := by
  obtain ⟨after, kept, deleted, -, offset, elements, -, outside⟩ :=
    deletion_loop_filters id {1} ⟨fun _ => [9, 1, 2, 1, 3, 8], 1⟩ ⟨0, 1, 4, 5, by decide⟩
      (by decide) 4 (by decide)
  exact ⟨after, kept, deleted, offset, elements.trans (by decide), outside 0 0 (by decide),
    outside 0 5 (by decide)⟩

theorem lookup_insert_cases (softMap : SoftMap) (cate other : Cate) (slice softs : Slice)
    (found : (softMap.insert cate slice).lookup other = some softs) :
    other = cate ∧ softs = slice ∨ other ≠ cate ∧ softMap.lookup other = some softs := by
  by_cases same : other = cate
  · subst same
    rw [AList.lookup_insert] at found
    exact Or.inl ⟨rfl, (Option.some.inj found).symm⟩
  · rw [AList.lookup_insert_ne same] at found
    exact Or.inr ⟨same, found⟩

theorem catalogue_insert_own (heap : Heap Soft) (softMap : SoftMap) (cate : Cate)
    (slice : Slice) :
    (Store.mk heap (softMap.insert cate slice)).catalogue cate = some (slice.elements heap) := by
  simp only [Store.catalogue, AList.lookup_insert, Option.map_some]

theorem catalogue_insert_other (store : Store) (after : Heap Soft) (cate other : Cate)
    (slice : Slice) (different : other ≠ cate)
    (same : ∀ softs, store.softMap.lookup other = some softs →
      softs.elements after = softs.elements store.heap) :
    (Store.mk after (store.softMap.insert cate slice)).catalogue other =
      store.catalogue other := by
  simp only [Store.catalogue, AList.lookup_insert_ne different]
  cases found : store.softMap.lookup other with
  | none => rfl
  | some softs => exact congrArg some (same softs found)

/-- One iteration of the first loop hides the blocked softs of its category
and leaves every other category alone. -/
theorem hide_in_cate_spec (grow : Nat → Nat) (blockMap : Finset Soft) (store : Store)
    (separate : Separate store) (cate : Cate) (member : cate ∈ store.softMap) :
    ∃ next, hideInCate grow blockMap store cate = some next ∧ Separate next ∧
      (∀ other, other ∈ next.softMap ↔ other ∈ store.softMap) ∧
      next.catalogue cate = hide blockMap store.catalogue cate ∧
      ∀ other, other ≠ cate → next.catalogue other = store.catalogue other := by
  obtain ⟨softs, found⟩ := Option.isSome_iff_exists.mp (AList.lookup_isSome.mpr member)
  have fits := separate.fits cate softs found
  obtain ⟨after, kept, deleted, shrunk, outside, elements⟩ :=
    delete_blocked_spec grow blockMap softs.len store.heap softs 0 fits (Nat.zero_le _)
      (Nat.le_refl _)
  have apart : ∀ other slice, other ≠ cate → store.softMap.lookup other = some slice →
      Apart softs slice :=
    fun other slice different present =>
      separate.apart cate other softs slice different.symm found present
  refine ⟨⟨after, store.softMap.insert cate kept⟩, ?_, ⟨fun other slice present => ?_,
    fun left right one two different leftFound rightFound => ?_⟩, fun other => ?_, ?_,
    fun other different => ?_⟩
  · rw [hideInCate, found, Option.bind_some, deleted, Option.map_some]
  · rcases lookup_insert_cases _ _ _ _ _ present with ⟨rfl, rfl⟩ | ⟨_, old⟩
    · exact fits_shrunk after softs slice shrunk
        (fits_same_outside softs softs store.heap after outside fits)
    · exact fits_same_outside slice softs store.heap after outside
        (separate.fits other slice old)
  · rcases lookup_insert_cases _ _ _ _ _ leftFound with ⟨rfl, rfl⟩ | ⟨leftOther, oldLeft⟩ <;>
      rcases lookup_insert_cases _ _ _ _ _ rightFound with ⟨rfl, rfl⟩ | ⟨rightOther, oldRight⟩
    · exact absurd rfl different
    · exact shrunk_apart softs one two shrunk (apart right two rightOther oldRight)
    · exact apart_symm two one (shrunk_apart softs two one shrunk (apart left one leftOther oldLeft))
    · exact separate.apart left right one two different oldLeft oldRight
  · rw [AList.mem_insert]
    exact ⟨fun either => either.elim (fun same => same ▸ member) id, Or.inr⟩
  · rw [catalogue_insert_own, elements]
    simp only [hide, Store.catalogue, found, Option.map_some, List.take_zero, List.drop_zero,
      List.nil_append]
  · exact catalogue_insert_other store after cate other kept different fun slice present =>
      elements_apart softs slice store.heap after outside (apart other slice different present)

theorem hide_in_cates_spec (grow : Nat → Nat) (blockMap : Finset Soft) (store : Store)
    (separate : Separate store) (order : List Cate)
    (known : ∀ cate ∈ order, cate ∈ store.softMap) :
    ∃ after, order.foldlM (hideInCate grow blockMap) store = some after ∧ Separate after ∧
      (∀ cate, cate ∈ after.softMap ↔ cate ∈ store.softMap) ∧
      ∀ cate, after.catalogue cate =
        if cate ∈ order then hide blockMap store.catalogue cate else store.catalogue cate := by
  induction order generalizing store with
  | nil => exact ⟨store, rfl, separate, fun _ => Iff.rfl, fun cate => by simp⟩
  | cons head rest ih =>
      obtain ⟨next, taken, still, keys, own, others⟩ :=
        hide_in_cate_spec grow blockMap store separate head (known head List.mem_cons_self)
      obtain ⟨after, run, final, sameKeys, hidden⟩ := ih next still fun cate member =>
        (keys cate).mpr (known cate (List.mem_cons_of_mem head member))
      refine ⟨after, ?_, final, fun cate => (sameKeys cate).trans (keys cate), fun cate => ?_⟩
      · rw [List.foldlM_cons, taken]
        exact run
      · rw [hidden]
        by_cases same : cate = head
        · subst same
          have twice : hide blockMap next.catalogue cate = hide blockMap store.catalogue cate := by
            have again := congrFun (hide_hide blockMap blockMap store.catalogue) cate
            rw [Finset.union_self] at again
            rw [← again]
            simp only [hide, own]
          rw [if_pos List.mem_cons_self]
          by_cases again : cate ∈ rest
          · rw [if_pos again, twice]
          · rw [if_neg again, own]
        · have unchanged : hide blockMap next.catalogue cate =
              hide blockMap store.catalogue cate := by
            simp only [hide, others cate same]
          simp only [List.mem_cons, same, false_or, others cate same, unchanged]

theorem collect_empty_spec (softMap : SoftMap) (order : List Cate)
    (known : ∀ cate ∈ order, cate ∈ softMap) (blockedCates : List Cate) :
    order.foldlM (collectEmpty softMap) blockedCates =
      some (blockedCates ++
        order.filter fun cate => decide ((softMap.lookup cate).map Slice.len = some 0)) := by
  induction order generalizing blockedCates with
  | nil => simp
  | cons head rest ih =>
      obtain ⟨softs, found⟩ := Option.isSome_iff_exists.mp
        (AList.lookup_isSome.mpr (known head List.mem_cons_self))
      have tail := ih fun cate member => known cate (List.mem_cons_of_mem head member)
      rw [List.foldlM_cons, collectEmpty, found, Option.map_some]
      by_cases empty : softs.len = 0
      · rw [if_pos empty, List.filter_cons_of_pos (by simp [found, empty])]
        exact (tail _).trans (by simp)
      · rw [if_neg empty, List.filter_cons_of_neg (by simp [found, empty])]
        exact tail _

theorem emptied_iff (store : Store) (separate : Separate store) (cate : Cate) :
    (store.softMap.lookup cate).map Slice.len = some 0 ↔ cate ∈ hiddenCates store.catalogue := by
  simp only [hiddenCates, Store.catalogue, Set.mem_ofPred_eq, Option.map_eq_some_iff]
  apply exists_congr
  intro softs
  apply and_congr_right
  intro found
  rw [← elements_length softs store.heap (separate.fits cate softs found),
    List.length_eq_zero_iff]

/-- The function refines hiding: whatever the two orders are, the map it
leaves is the catalogue with the blocked softs hidden, and it returns the
categories that are hidden there. -/
theorem get_blocked_cates_refines (grow : Nat → Nat) (store : Store) (separate : Separate store)
    (blockedSofts : List Soft) (first second : List Cate) (firstRanges : Ranges store first)
    (secondRanges : Ranges store second) :
    ∃ after blockedCates,
      getBlockedCates grow store blockedSofts first second = some (after, blockedCates) ∧
      Separate after ∧ (∀ cate, cate ∈ after.softMap ↔ cate ∈ store.softMap) ∧
      after.catalogue = hide (makeBlockMap blockedSofts) store.catalogue ∧
      blockedCates.Nodup ∧ ∀ cate, cate ∈ blockedCates ↔ cate ∈ hiddenCates after.catalogue := by
  obtain ⟨after, hidden, still, keys, catalogue⟩ :=
    hide_in_cates_spec grow (makeBlockMap blockedSofts) store separate first
      fun cate => (firstRanges.complete cate).mp
  have collected := collect_empty_spec after.softMap second
    (fun cate member => (keys cate).mpr ((secondRanges.complete cate).mp member)) []
  refine ⟨after, _, by rw [getBlockedCates, hidden, Option.bind_some, collected, Option.map_some],
    still, keys, ?_, ?_, fun cate => ?_⟩
  · funext cate
    rw [catalogue]
    by_cases present : cate ∈ first
    · rw [if_pos present]
    · have absent : store.softMap.lookup cate = none :=
        AList.lookup_eq_none.mpr fun member => present ((firstRanges.complete cate).mpr member)
      rw [if_neg present, hide, Store.catalogue, absent, Option.map_none, Option.map_none]
  · rw [List.nil_append]
    exact secondRanges.nodup.filter _
  · rw [List.nil_append, List.mem_filter, decide_eq_true_iff, emptied_iff after still]
    refine and_iff_right_of_imp fun emptied => (secondRanges.complete cate).mpr ?_
    rw [← keys, ← AList.lookup_isSome]
    obtain ⟨softs, found, _⟩ := Option.map_eq_some_iff.mp emptied
    rw [found, Option.isSome_some]

/-- Exactly the categories all of whose softs are blocked are returned, each
of them once. -/
theorem blocked_cates_exact (grow : Nat → Nat) (store : Store) (separate : Separate store)
    (blockedSofts : List Soft) (first second : List Cate) (firstRanges : Ranges store first)
    (secondRanges : Ranges store second) :
    ∃ after blockedCates,
      getBlockedCates grow store blockedSofts first second = some (after, blockedCates) ∧
      blockedCates.Nodup ∧
      ∀ cate, cate ∈ blockedCates ↔
        ∃ softs, store.softMap.lookup cate = some softs ∧
          ∀ soft ∈ softs.elements store.heap, soft ∈ blockedSofts := by
  obtain ⟨after, blockedCates, taken, _, _, catalogue, nodup, exactly⟩ :=
    get_blocked_cates_refines grow store separate blockedSofts first second firstRanges
      secondRanges
  refine ⟨after, blockedCates, taken, nodup, fun cate => ?_⟩
  rw [exactly, catalogue, mem_hidden_hide]
  simp only [Store.catalogue, Option.map_eq_some_iff, mem_make_block_map]
  constructor
  · rintro ⟨_, ⟨softs, found, rfl⟩, all⟩
    exact ⟨softs, found, all⟩
  · rintro ⟨softs, found, all⟩
    exact ⟨_, ⟨softs, found, rfl⟩, all⟩

theorem ranges_of_perm (store : Store) (order : List Cate)
    (perm : order.Perm store.softMap.keys) : Ranges store order :=
  ⟨perm.nodup_iff.mpr store.softMap.keys_nodup,
    fun _ => perm.mem_iff.trans AList.mem_keys.symm⟩

theorem separate_of_entries (store : Store)
    (fits : ∀ entry ∈ store.softMap.entries, Fits store.heap entry.2)
    (apart : store.softMap.entries.Pairwise fun one two => Apart one.2 two.2) :
    Separate store := by
  refine ⟨fun cate softs found => fits ⟨cate, softs⟩ (AList.mem_lookup_iff.mp found),
    fun left right one two different leftFound rightFound => ?_⟩
  have symmetric : Std.Symm fun one two : Sigma fun _ : Cate => Slice => Apart one.2 two.2 :=
    ⟨fun one two => apart_symm one.2 two.2⟩
  exact apart.forall (AList.mem_lookup_iff.mp leftFound) (AList.mem_lookup_iff.mp rightFound)
    (fun same => different (congrArg Sigma.fst same))

def wholeArray (array len : Nat) : Slice := ⟨array, 0, len, len, Nat.le_refl len⟩

/-- The map of the comment at the top of the source. -/
def commentStore : Store where
  heap := { cells := fun array => [[1, 2], [2, 3], [1, 4]].getD array [], next := 3 }
  softMap := (((∅ : SoftMap).insert 3 (wholeArray 2 2)).insert 2 (wholeArray 1 2)).insert 1
    (wholeArray 0 2)

theorem comment_store_separate : Separate commentStore := by
  refine separate_of_entries commentStore ?_ ?_
  · decide
  · decide

theorem comment_example_blocked :
    ∃ after blockedCates,
      getBlockedCates (fun cap => 2 * cap) commentStore [2, 3, 4] [3, 1, 2] [2, 3, 1] =
        some (after, blockedCates) ∧
      blockedCates.Nodup ∧ 2 ∈ blockedCates ∧ 1 ∉ blockedCates ∧ 3 ∉ blockedCates := by
  obtain ⟨after, blockedCates, taken, nodup, exactly⟩ := blocked_cates_exact (fun cap => 2 * cap)
    commentStore comment_store_separate [2, 3, 4] [3, 1, 2] [2, 3, 1]
    (ranges_of_perm _ _ (by decide)) (ranges_of_perm _ _ (by decide))
  have visible : ∀ cate softs, commentStore.softMap.lookup cate = some softs →
      (1 : Soft) ∈ softs.elements commentStore.heap → cate ∉ blockedCates := by
    intro cate softs found shown member
    obtain ⟨other, again, all⟩ := (exactly cate).mp member
    obtain rfl : softs = other := Option.some.inj (found.symm.trans again)
    exact absurd (all 1 shown) (by decide)
  have second : (wholeArray 1 2).elements commentStore.heap = [2, 3] := rfl
  exact ⟨after, blockedCates, taken, nodup,
    (exactly 2).mpr ⟨wholeArray 1 2, rfl, by simp [second]⟩,
    visible 1 (wholeArray 0 2) rfl (by decide), visible 3 (wholeArray 2 2) rfl (by decide)⟩

end Practise.BlockedCates
