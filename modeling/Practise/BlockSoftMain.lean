import Mathlib.Data.Finset.Card
import Mathlib.Data.List.TakeWhile
import Practise.BlockedHistory
import Practise.SoftMapKeys

/-! The programs around `getBlockedCates`: `main` of go/custom/block_soft.go and the
benchmark of block_soft_test.go. Both load their map from a Redis that can fail at
any command. What was stored before a failed `LRANGE` stays in the map, and the
callers are not told: they answer for the categories that were read. -/
namespace Practise.BlockedCates
open Slices GoStrings

/-! The map that is loaded when commands fail. -/

def passes (lrange : Key → Option (List Soft)) (key : Key) : Bool :=
  (cateOf key).isNone || (lrange key).isSome

def keysRead (lrange : Key → Option (List Soft)) (keys : List Key) : List Key :=
  keys.takeWhile (passes lrange)

def readEntry (lrange : Key → Option (List Soft)) (key : Key) : Option (Cate × List Soft) :=
  (cateOf key).bind fun cate => (lrange key).map fun softs => (cate, softs)

theorem read_entry_some (lrange : Key → Option (List Soft)) (key : Key)
    (entry : Cate × List Soft) :
    readEntry lrange key = some entry ↔
      cateOf key = some entry.1 ∧ lrange key = some entry.2 := by
  rw [readEntry, Option.bind_eq_some_iff]
  constructor
  · rintro ⟨cate, category, mapped⟩
    obtain ⟨softs, listed, rfl⟩ := Option.map_eq_some_iff.mp mapped
    exact ⟨category, listed⟩
  · rintro ⟨category, listed⟩
    exact ⟨entry.1, category, by rw [listed, Option.map_some]⟩

theorem load_until_failure (grow : Nat → Nat) (lrange : Key → Option (List Soft))
    (keys : List Key) (store : Store) (matching : ∀ key ∈ keys, keyPrefix <+: key)
    (owned : Owned store) :
    ∃ after, loadKeys grow lrange keys store = some after ∧ Owned after ∧
      after.catalogue =
        ((keysRead lrange keys).filterMap (readEntry lrange)).foldl enter store.catalogue := by
  induction keys generalizing store with
  | nil => exact ⟨store, rfl, owned, rfl⟩
  | cons key rest ih =>
      have later : ∀ key ∈ rest, keyPrefix <+: key :=
        fun other inside => matching other (List.mem_cons_of_mem key inside)
      obtain ⟨field, second⟩ := matching_second key (matching key List.mem_cons_self)
      have category : cateOf key = (parseInt 32 field).map Int64.ofInt := by
        rw [cateOf, second, Option.bind_some]
      rw [loadKeys, second, Option.bind_some, keysRead]
      cases parsed : parseInt 32 field with
      | none =>
          rw [parsed, Option.map_none] at category
          rw [List.takeWhile_cons_of_pos (by simp [passes, category]),
            List.filterMap_cons_none (by simp [readEntry, category])]
          exact ih store later owned
      | some cateID =>
          rw [parsed, Option.map_some] at category
          cases listed : lrange key with
          | none =>
              rw [List.takeWhile_cons_of_neg (by simp [passes, category, listed])]
              exact ⟨store, rfl, owned, rfl⟩
          | some softs =>
              have entered : readEntry lrange key = some (Int64.ofInt cateID, softs) :=
                (read_entry_some lrange key _).mpr ⟨category, listed⟩
              obtain ⟨next, stored, still, catalogue⟩ :=
                store_softs_spec grow store (Int64.ofInt cateID, softs) owned
              obtain ⟨after, loaded, final, total⟩ := ih next later still
              refine ⟨after, ?_, final, ?_⟩
              · simp only [stored, Option.bind_some, loaded]
              · rw [total, catalogue, List.takeWhile_cons_of_pos (by simp [passes, listed]),
                  List.filterMap_cons_some entered, List.foldl_cons]
                rfl

def LastRead (lrange : Key → Option (List Soft)) (keys : List Key) (cate : Cate)
    (softs : List Soft) : Prop :=
  ∃ earlier key later, keysRead lrange keys = earlier ++ key :: later ∧
    cateOf key = some cate ∧ lrange key = some softs ∧
    ∀ other ∈ later, cateOf other ≠ some cate

theorem entered_elsewhere (lrange : Key → Option (List Soft)) (catalogue : Catalogue Cate Soft)
    (key : Key) (cate : Cate) (elsewhere : cateOf key ≠ some cate) :
    ([key].filterMap (readEntry lrange)).foldl enter catalogue cate = catalogue cate := by
  cases entered : readEntry lrange key with
  | none => rw [List.filterMap_cons_none entered, List.filterMap_nil, List.foldl_nil]
  | some entry =>
      have different : cate ≠ entry.1 := by
        rintro rfl
        exact elsewhere ((read_entry_some lrange key entry).mp entered).1
      rw [List.filterMap_cons_some entered, List.filterMap_nil, List.foldl_cons, List.foldl_nil,
        enter, Function.update_of_ne different]

theorem entered_last_read (lrange : Key → Option (List Soft)) (read : List Key)
    (pass : ∀ key ∈ read, passes lrange key = true) (cate : Cate) (softs : List Soft) :
    (read.filterMap (readEntry lrange)).foldl enter (fun _ => none) cate = some softs ↔
      ∃ earlier key later, read = earlier ++ key :: later ∧ cateOf key = some cate ∧
        lrange key = some softs ∧ ∀ other ∈ later, cateOf other ≠ some cate := by
  constructor
  · induction read using List.reverseRecOn with
    | nil => exact fun impossible => absurd impossible (by simp)
    | append_singleton earlier key ih =>
        rw [List.filterMap_append, List.foldl_append]
        by_cases category : cateOf key = some cate
        · -- The key is the last one of its category, and its list was read.
          obtain ⟨own, listed⟩ : ∃ own, lrange key = some own := by
            have passed := pass key (by simp)
            rw [passes, category] at passed
            exact Option.isSome_iff_exists.mp (by simpa using passed)
          have entered : readEntry lrange key = some (cate, own) :=
            (read_entry_some lrange key _).mpr ⟨category, listed⟩
          rw [List.filterMap_cons_some entered, List.filterMap_nil, List.foldl_cons,
            List.foldl_nil, enter, Function.update_self, Option.some.injEq]
          rintro rfl
          exact ⟨earlier, key, [], rfl, category, listed,
            fun _ member => absurd member List.not_mem_nil⟩
        · rw [entered_elsewhere lrange _ key cate category]
          intro kept
          have before := ih fun other member => pass other (List.mem_append_left _ member)
          obtain ⟨first, chosen, later, rfl, named, listed, last⟩ := before kept
          refine ⟨first, chosen, later ++ [key], by simp, named, listed, ?_⟩
          intro other member
          rcases List.mem_append.mp member with old | new
          · exact last other old
          · rw [List.mem_singleton.mp new]
            exact category
  · rintro ⟨earlier, key, later, rfl, category, listed, last⟩
    have entered : readEntry lrange key = some (cate, softs) :=
      (read_entry_some lrange key _).mpr ⟨category, listed⟩
    rw [List.filterMap_append, List.foldl_append, List.filterMap_cons_some entered, List.foldl_cons,
      entered_absent, enter, Function.update_self]
    rintro ⟨other, list⟩ member rfl
    obtain ⟨behind, inside, from_⟩ := List.mem_filterMap.mp member
    exact last behind inside ((read_entry_some lrange behind _).mp from_).1

/-- The keys that `initSoftMap` gets: none if it does not get so far. -/
def replied (dialled : Bool) (keys : Option (List Key)) : List Key :=
  if dialled then keys.getD [] else []

theorem init_soft_map_loads (grow : Nat → Nat) (heap : Heap Soft) (dialled : Bool)
    (keys : Option (List Key)) (lrange : Key → Option (List Soft))
    (matching : ∀ key ∈ replied dialled keys, keyPrefix <+: key) :
    ∃ softMap, initSoftMap grow heap dialled keys lrange = some softMap ∧ Separate softMap ∧
      ∀ cate softs, softMap.catalogue cate = some softs ↔
        LastRead lrange (replied dialled keys) cate softs := by
  have same : initSoftMap grow heap dialled keys lrange =
      loadKeys grow lrange (replied dialled keys) ⟨heap, ∅⟩ := by
    cases dialled with
    | false => rfl
    | true =>
        cases keys with
        | none => rfl
        | some keys => rfl
  obtain ⟨softMap, loaded, owned, catalogue⟩ := load_until_failure grow lrange
    (replied dialled keys) ⟨heap, ∅⟩ matching (owned_empty heap)
  refine ⟨softMap, same.trans loaded, owned_separate softMap owned, fun cate softs => ?_⟩
  rw [catalogue]
  exact entered_last_read lrange _ (fun key member => List.mem_takeWhile_imp member) cate softs

/-! `main` -/

def println (cates : List Cate) : String :=
  "[" ++ String.intercalate " " (cates.map toString) ++ "]\n"

/-- What is printed after the map is loaded, for any blocked softs. -/
def printBlocked (grow : Nat → Nat) (heap : Heap Soft) (dialled : Bool)
    (keys : Option (List Key)) (lrange : Key → Option (List Soft)) (blockedSofts : List Soft)
    (first second : List Cate) : Option String :=
  (initSoftMap grow heap dialled keys lrange).bind fun softMap =>
    (getBlockedCates grow softMap blockedSofts first second).map fun found => println found.2

def main (grow : Nat → Nat) (heap : Heap Soft) (dialled : Bool) (keys : Option (List Key))
    (lrange : Key → Option (List Soft)) (first second : List Cate) : Option String :=
  printBlocked grow heap dialled keys lrange [103356856, 100114658, 10257] first second

/-- Whichever commands fail: a category is printed, once, exactly if it was read
and all softs of the last list that was read for it are blocked. -/
theorem printed_cates_exact (grow : Nat → Nat) (heap : Heap Soft) (dialled : Bool)
    (keys : Option (List Key)) (lrange : Key → Option (List Soft))
    (matching : ∀ key ∈ replied dialled keys, keyPrefix <+: key) (blockedSofts : List Soft) :
    ∃ softMap, initSoftMap grow heap dialled keys lrange = some softMap ∧
      ∀ first second, Ranges softMap first → Ranges softMap second →
        ∃ blockedCates : List Cate,
          printBlocked grow heap dialled keys lrange blockedSofts first second =
            some ("[" ++ String.intercalate " " (blockedCates.map toString) ++ "]\n") ∧
          blockedCates.Nodup ∧
          ∀ cate, cate ∈ blockedCates ↔ ∃ softs,
            LastRead lrange (replied dialled keys) cate softs ∧
              ∀ soft ∈ softs, soft ∈ blockedSofts := by
  obtain ⟨softMap, loaded, separate, catalogue⟩ :=
    init_soft_map_loads grow heap dialled keys lrange matching
  refine ⟨softMap, loaded, fun first second firstRanges secondRanges => ?_⟩
  obtain ⟨after, blockedCates, taken, -, -, hidden, nodup, exactly⟩ := get_blocked_cates_refines
    grow softMap separate blockedSofts first second firstRanges secondRanges
  refine ⟨blockedCates, ?_, nodup, fun cate => ?_⟩
  · rw [printBlocked, loaded, Option.bind_some, taken, Option.map_some, println]
  · rw [exactly, hidden, mem_hidden_hide]
    simp only [catalogue, mem_make_block_map]

/-- Category 1 is read and hidden; the list of category 2 cannot be read. -/
def oneOfTwo (key : Key) : Option (List Soft) :=
  if key = bytes "cloud_cate_children:1" then some [10257] else none

theorem unread_category_not_printed :
    ∃ order, main id ⟨fun _ => [], 1⟩ true
        (some [bytes "cloud_cate_children:1", bytes "cloud_cate_children:2"]) oneOfTwo order order =
      some "[1]\n" := by
  obtain ⟨softMap, -, printed⟩ := printed_cates_exact id ⟨fun _ => [], 1⟩ true
    (some [bytes "cloud_cate_children:1", bytes "cloud_cate_children:2"]) oneOfTwo
    (by decide +kernel) [103356856, 100114658, 10257]
  have ranges := ranges_of_perm softMap softMap.softMap.keys (List.Perm.refl _)
  obtain ⟨blockedCates, text, nodup, exactly⟩ := printed _ _ ranges ranges
  have read : keysRead oneOfTwo
      (replied true (some [bytes "cloud_cate_children:1", bytes "cloud_cate_children:2"])) =
        [bytes "cloud_cate_children:1"] := by decide +kernel
  have category : cateOf (bytes "cloud_cate_children:1") = some 1 := by decide +kernel
  have only : blockedCates = [1] := by
    refine List.perm_singleton.mp ((List.perm_ext_iff_of_nodup nodup (by simp)).mpr fun cate => ?_)
    rw [exactly, List.mem_singleton]
    constructor
    · rintro ⟨softs, ⟨earlier, key, later, split, named, -⟩, -⟩
      have first : key ∈ [bytes "cloud_cate_children:1"] := by
        rw [← read, split]
        simp
      rw [List.mem_singleton.mp first, category] at named
      exact (Option.some.inj named).symm
    · rintro rfl
      exact ⟨[10257], ⟨[], _, [], read, category, rfl, by simp⟩, by simp⟩
  rw [only] at text
  exact ⟨softMap.softMap.keys, text⟩

/-! The benchmark -/

/-- The keys of `totalSofts`, for the order in which the loop ranges over the map. -/
def totalSofts (softMap : Store) (order : List Cate) : Finset Soft :=
  order.foldl (fun total cate =>
    ((softMap.catalogue cate).getD []).foldl (fun total soft => insert soft total) total) ∅

/-- The loop that counts `blockN` down, over any order of `totalSofts`. -/
def takeSofts : Nat → List Soft → List Soft → List Soft
  | _, blockedSofts, [] => blockedSofts
  | blockN, blockedSofts, soft :: rest =>
      if blockN = 0 then blockedSofts else takeSofts (blockN - 1) (blockedSofts ++ [soft]) rest

/-- The calls of the timed loop, with the orders of each; the answers are only
kept here. -/
def benchmarkCalls (grow : Nat → Nat) (blockedSofts : List Soft) :
    List (List Cate × List Cate) → Store → Option (Store × List (List Cate))
  | [], softMap => some (softMap, [])
  | (first, second) :: rest, softMap =>
      (getBlockedCates grow softMap blockedSofts first second).bind fun found =>
        (benchmarkCalls grow blockedSofts rest found.1).map fun later =>
          (later.1, found.2 :: later.2)

theorem mem_total_softs (softMap : Store) (order : List Cate) (soft : Soft) :
    soft ∈ totalSofts softMap order ↔
      ∃ cate ∈ order, ∃ softs, softMap.catalogue cate = some softs ∧ soft ∈ softs := by
  have inner : ∀ (softs : List Soft) (total : Finset Soft),
      soft ∈ softs.foldl (fun total soft => insert soft total) total ↔
        soft ∈ total ∨ soft ∈ softs := by
    intro softs
    induction softs with
    | nil => simp
    | cons head rest ih =>
        intro total
        rw [List.foldl_cons, ih, Finset.mem_insert, List.mem_cons]
        tauto
  have outer : ∀ total : Finset Soft,
      soft ∈ order.foldl (fun total cate =>
          ((softMap.catalogue cate).getD []).foldl (fun total soft => insert soft total) total)
        total ↔
      soft ∈ total ∨ ∃ cate ∈ order, soft ∈ (softMap.catalogue cate).getD [] := by
    induction order with
    | nil => simp
    | cons head rest ih =>
        intro total
        rw [List.foldl_cons, ih, inner, List.exists_mem_cons_iff]
        tauto
  rw [totalSofts, outer]
  simp only [Finset.notMem_empty, false_or]
  refine exists_congr fun cate => and_congr_right fun _ => ?_
  cases softMap.catalogue cate with
  | none => simp
  | some softs => simp

theorem take_softs_spec (blockN : Nat) (blockedSofts softs : List Soft) :
    takeSofts blockN blockedSofts softs = blockedSofts ++ softs.take blockN := by
  induction softs generalizing blockN blockedSofts with
  | nil => simp [takeSofts]
  | cons soft rest ih =>
      cases blockN with
      | zero => simp [takeSofts]
      | succ blockN =>
          rw [takeSofts, if_neg (Nat.succ_ne_zero blockN), Nat.add_sub_cancel, ih,
            List.take_succ_cons, List.append_assoc, List.singleton_append]

theorem hide_twice (blocked : Finset Soft) (catalogue : Catalogue Cate Soft) :
    hide blocked (hide blocked catalogue) = hide blocked catalogue := by
  rw [hide_hide, Finset.union_self]

theorem benchmark_calls_spec (grow : Nat → Nat) (blockedSofts : List Soft) (original : Store)
    (calls : List (List Cate × List Cate))
    (ranges : ∀ call ∈ calls, Ranges original call.1 ∧ Ranges original call.2)
    (softMap : Store) (separate : Separate softMap)
    (keys : ∀ cate, cate ∈ softMap.softMap ↔ cate ∈ original.softMap)
    (same : hide (makeBlockMap blockedSofts) softMap.catalogue =
      hide (makeBlockMap blockedSofts) original.catalogue) :
    ∃ final answers, benchmarkCalls grow blockedSofts calls softMap = some (final, answers) ∧
      answers.length = calls.length ∧
      (∀ answer ∈ answers, answer.Nodup ∧ ∀ cate, cate ∈ answer ↔
        cate ∈ hiddenCates (hide (makeBlockMap blockedSofts) original.catalogue)) ∧
      (calls ≠ [] → final.catalogue = hide (makeBlockMap blockedSofts) original.catalogue) := by
  induction calls generalizing softMap with
  | nil =>
      exact ⟨softMap, [], rfl, rfl, fun _ member => absurd member List.not_mem_nil,
        fun nonempty => absurd rfl nonempty⟩
  | cons call rest ih =>
      obtain ⟨firstRanges, secondRanges⟩ := ranges call List.mem_cons_self
      obtain ⟨next, answer, taken, still, kept, hidden, nodup, exactly⟩ := get_blocked_cates_refines
        grow softMap separate blockedSofts call.1 call.2
        (ranges_same_keys original softMap _ keys firstRanges)
        (ranges_same_keys original softMap _ keys secondRanges)
      have done : next.catalogue = hide (makeBlockMap blockedSofts) original.catalogue :=
        hidden.trans same
      obtain ⟨final, answers, followed, count, agree, ends⟩ := ih
        (fun other member => ranges other (List.mem_cons_of_mem call member)) next still
        (fun cate => (kept cate).trans (keys cate)) (by rw [done, hide_twice])
      refine ⟨final, answer :: answers, ?_, by simp [count], ?_, fun _ => ?_⟩
      · rw [benchmarkCalls, taken, Option.bind_some, followed, Option.map_some]
      · intro other member
        rcases List.mem_cons.mp member with rfl | later
        · exact ⟨nodup, fun cate => by rw [exactly, done]⟩
        · exact agree other later
      · cases rest with
        | nil =>
            obtain ⟨rfl, -⟩ := Prod.mk.inj (Option.some.inj followed)
            exact done
        | cons more others => exact ends (List.cons_ne_nil more others)

/-- The benchmark times one real call at most. On every map that can be loaded
and in every order, all its calls return the same categories, the map has its
final content after the first of them, and all categories are returned if there
are at most 10000 softs. -/
theorem benchmark_repeats_first_call (grow : Nat → Nat) (heap : Heap Soft) (dialled : Bool)
    (keys : Option (List Key)) (lrange : Key → Option (List Soft))
    (matching : ∀ key ∈ replied dialled keys, keyPrefix <+: key) :
    ∃ softMap, initSoftMap grow heap dialled keys lrange = some softMap ∧
      ∀ order softOrder calls, Ranges softMap order → softOrder.Nodup →
        (∀ soft, soft ∈ softOrder ↔ soft ∈ totalSofts softMap order) →
        (∀ call ∈ calls, Ranges softMap call.1 ∧ Ranges softMap call.2) →
        ∃ blockedSofts, takeSofts 10000 [] softOrder = blockedSofts ∧
          blockedSofts.length = min 10000 (totalSofts softMap order).card ∧
          (∀ past, past <+: calls → past ≠ [] → ∃ later answers,
            benchmarkCalls grow blockedSofts past softMap = some (later, answers) ∧
            later.catalogue = hide (makeBlockMap blockedSofts) softMap.catalogue) ∧
          ∃ final answers, benchmarkCalls grow blockedSofts calls softMap = some (final, answers) ∧
            answers.length = calls.length ∧
            (∀ answer ∈ answers, answer.Nodup ∧ ∀ cate, cate ∈ answer ↔ ∃ softs,
              LastRead lrange (replied dialled keys) cate softs ∧
                ∀ soft ∈ softs, soft ∈ blockedSofts) ∧
            ((totalSofts softMap order).card ≤ 10000 →
              ∀ answer ∈ answers, ∀ cate ∈ order, cate ∈ answer) := by
  obtain ⟨softMap, loaded, separate, catalogue⟩ :=
    init_soft_map_loads grow heap dialled keys lrange matching
  refine ⟨softMap, loaded, fun order softOrder calls orderRanges distinct complete ranges => ?_⟩
  have size : softOrder.length = (totalSofts softMap order).card := by
    rw [← List.toFinset_card_of_nodup distinct]
    congr 1
    ext soft
    rw [List.mem_toFinset, complete]
  have taken : takeSofts 10000 [] softOrder = softOrder.take 10000 :=
    take_softs_spec 10000 [] softOrder
  refine ⟨_, taken, ?_, ?_, ?_⟩
  · rw [List.length_take, size]
  · intro past earlier nonempty
    obtain ⟨later, answers, called, -, -, ends⟩ := benchmark_calls_spec grow (softOrder.take 10000)
      softMap past (fun call member => ranges call (earlier.subset member)) softMap separate
      (fun _ => Iff.rfl) rfl
    exact ⟨later, answers, called, ends nonempty⟩
  · obtain ⟨final, answers, called, count, agree, -⟩ := benchmark_calls_spec grow
      (softOrder.take 10000) softMap calls ranges softMap separate (fun _ => Iff.rfl) rfl
    have exactly : ∀ answer ∈ answers, ∀ cate, cate ∈ answer ↔ ∃ softs,
        softMap.catalogue cate = some softs ∧ ∀ soft ∈ softs, soft ∈ softOrder.take 10000 := by
      intro answer member cate
      rw [(agree answer member).2, mem_hidden_hide]
      simp only [mem_make_block_map]
    refine ⟨final, answers, called, count, fun answer member => ⟨(agree answer member).1, ?_⟩, ?_⟩
    · intro cate
      simp only [exactly answer member, catalogue]
    · intro few answer member cate inside
      have present := AList.lookup_isSome.mpr ((orderRanges.complete cate).mp inside)
      obtain ⟨softs, found⟩ := Option.isSome_iff_exists.mp present
      refine (exactly answer member cate).mpr ⟨softs.elements softMap.heap, ?_, ?_⟩
      · rw [Store.catalogue, found, Option.map_some]
      · intro soft listed
        rw [List.take_of_length_le (by omega), complete, mem_total_softs]
        exact ⟨cate, inside, _, by rw [Store.catalogue, found, Option.map_some], listed⟩

def oneLoaded : Store :=
  (initSoftMap id ⟨fun _ => [], 1⟩ true
    (some [bytes "cloud_cate_children:1", bytes "cloud_cate_children:2"]) oneOfTwo).get
      (by decide +kernel)

theorem benchmark_of_one_category :
    ∃ final answers,
      benchmarkCalls id [10257] [([1], [1]), ([1], [1]), ([1], [1])] oneLoaded =
        some (final, answers) ∧ answers.length = 3 ∧ ∀ answer ∈ answers, 1 ∈ answer := by
  obtain ⟨softMap, loaded, runs⟩ := benchmark_repeats_first_call id ⟨fun _ => [], 1⟩ true
    (some [bytes "cloud_cate_children:1", bytes "cloud_cate_children:2"]) oneOfTwo
    (by decide +kernel)
  obtain rfl : oneLoaded = softMap :=
    Option.some.inj ((Option.some_get _).trans loaded)
  have ranges : Ranges oneLoaded [1] := ranges_of_perm _ _ (by decide +kernel)
  have total : totalSofts oneLoaded [1] = {10257} := by decide +kernel
  obtain ⟨blockedSofts, rfl, -, -, final, answers, called, count, -, all⟩ := runs [1] [10257]
    [([1], [1]), ([1], [1]), ([1], [1])] ranges (by decide) (by simp [total])
    (by simpa using ranges)
  refine ⟨final, answers, called, count, fun answer member => all ?_ answer member 1 (by simp)⟩
  rw [total, Finset.card_singleton]
  decide

end Practise.BlockedCates
