import Practise.BlockedCates

/-! Several calls on one map. A call leaves its blocked softs deleted from the
caller's map, so a later call answers for the union of all lists so far. -/
namespace Practise.BlockedCates
open Slices

structure Call where
  blockedSofts : List Soft
  first : List Cate
  second : List Cate

/-- Calls `getBlockedCates` for each list and drops the answers. -/
def callEach (grow : Nat → Nat) (store : Store) (calls : List Call) : Option Store :=
  calls.foldlM (fun store call =>
    (getBlockedCates grow store call.blockedSofts call.first call.second).map Prod.fst) store

structure Call.Ranges (call : Call) (store : Store) : Prop where
  first : BlockedCates.Ranges store call.first
  second : BlockedCates.Ranges store call.second

theorem ranges_same_keys (before after : Store) (order : List Cate)
    (keys : ∀ cate, cate ∈ after.softMap ↔ cate ∈ before.softMap)
    (ranges : Ranges before order) : Ranges after order :=
  ⟨ranges.nodup, fun cate => (ranges.complete cate).trans (keys cate).symm⟩

theorem make_block_map_append (first second : List Soft) :
    makeBlockMap (first ++ second) = makeBlockMap first ∪ makeBlockMap second := by
  ext soft
  simp [mem_make_block_map]

theorem call_each_refines (grow : Nat → Nat) (store : Store) (separate : Separate store)
    (calls : List Call) (ranges : ∀ call ∈ calls, call.Ranges store) :
    ∃ later, callEach grow store calls = some later ∧ Separate later ∧
      (∀ cate, cate ∈ later.softMap ↔ cate ∈ store.softMap) ∧
      later.catalogue =
        hide (makeBlockMap (calls.flatMap Call.blockedSofts)) store.catalogue := by
  induction calls generalizing store with
  | nil => exact ⟨store, rfl, separate, fun _ => Iff.rfl, (hide_empty store.catalogue).symm⟩
  | cons call rest ih =>
      have valid := ranges call List.mem_cons_self
      obtain ⟨next, _, taken, still, keys, catalogue, _⟩ := get_blocked_cates_refines grow store
        separate call.blockedSofts call.first call.second valid.first valid.second
      obtain ⟨later, followed, final, sameKeys, hidden⟩ := ih next still fun other member =>
        have other := ranges other (List.mem_cons_of_mem call member)
        ⟨ranges_same_keys store next _ keys other.first,
          ranges_same_keys store next _ keys other.second⟩
      refine ⟨later, ?_, final, fun cate => (sameKeys cate).trans (keys cate), ?_⟩
      · rw [callEach, List.foldlM_cons, taken]
        exact followed
      · rw [hidden, catalogue, hide_hide, List.flatMap_cons, make_block_map_append]

/-- After earlier calls the answer is the one on the original map exactly when
every category that the earlier lists and the new one hide together is hidden
by the new list alone. -/
theorem answer_after_calls_exact (grow : Nat → Nat) (store : Store) (separate : Separate store)
    (history : List Call) (ranges : ∀ call ∈ history, call.Ranges store)
    (query original : Call) (valid : query.Ranges store) (originalValid : original.Ranges store)
    (sameList : original.blockedSofts = query.blockedSofts) :
    ∃ later after blockedCates fresh blockedBefore,
      callEach grow store history = some later ∧
      getBlockedCates grow later query.blockedSofts query.first query.second =
        some (after, blockedCates) ∧
      getBlockedCates grow store original.blockedSofts original.first original.second =
        some (fresh, blockedBefore) ∧
      ((∀ cate, cate ∈ blockedCates ↔ cate ∈ blockedBefore) ↔
        ∀ cate softs, store.catalogue cate = some softs →
          (∀ soft ∈ softs, soft ∈ query.blockedSofts ∨
            ∃ call ∈ history, soft ∈ call.blockedSofts) →
          ∀ soft ∈ softs, soft ∈ query.blockedSofts) := by
  obtain ⟨later, called, still, keys, catalogue⟩ :=
    call_each_refines grow store separate history ranges
  obtain ⟨after, blockedCates, taken, _, _, hidden, _, exactly⟩ := get_blocked_cates_refines grow
    later still query.blockedSofts query.first query.second
    (ranges_same_keys store later _ keys valid.first)
    (ranges_same_keys store later _ keys valid.second)
  obtain ⟨fresh, blockedBefore, direct, _, _, hiddenBefore, _, exactlyBefore⟩ :=
    get_blocked_cates_refines grow store separate original.blockedSofts original.first
      original.second originalValid.first originalValid.second
  refine ⟨later, after, blockedCates, fresh, blockedBefore, called, taken, direct, ?_⟩
  -- The map answers for the union, the original one for the new list alone.
  have answered : ∀ cate, cate ∈ blockedCates ↔ ∃ softs, store.catalogue cate = some softs ∧
      ∀ soft ∈ softs, soft ∈ query.blockedSofts ∨ ∃ call ∈ history, soft ∈ call.blockedSofts := by
    intro cate
    rw [exactly, hidden, catalogue, hide_hide, mem_hidden_hide]
    simp only [Finset.mem_union, mem_make_block_map, List.mem_flatMap, or_comm]
  have answeredBefore : ∀ cate, cate ∈ blockedBefore ↔
      ∃ softs, store.catalogue cate = some softs ∧ ∀ soft ∈ softs, soft ∈ query.blockedSofts := by
    intro cate
    rw [exactlyBefore, hiddenBefore, mem_hidden_hide, sameList]
    simp only [mem_make_block_map]
  constructor
  · intro same cate softs found covered
    obtain ⟨other, again, all⟩ :=
      (answeredBefore cate).mp ((same cate).mp ((answered cate).mpr ⟨softs, found, covered⟩))
    obtain rfl : softs = other := Option.some.inj (found.symm.trans again)
    exact all
  · intro alone cate
    rw [answered, answeredBefore]
    constructor
    · rintro ⟨softs, found, covered⟩
      exact ⟨softs, found, alone cate softs found covered⟩
    · rintro ⟨softs, found, all⟩
      exact ⟨softs, found, fun soft member => Or.inl (all soft member)⟩

/-- Blocking soft 1 first makes blocking soft 2 alone hide category 1, which
also holds soft 1. -/
theorem earlier_call_changes_answer :
    ((callEach (fun cap => 2 * cap) commentStore [⟨[1], [1, 2, 3], [1, 2, 3]⟩]).bind fun later =>
      (getBlockedCates (fun cap => 2 * cap) later [2] [1, 2, 3] [1, 2, 3]).map Prod.snd) =
        some [1] ∧
    (getBlockedCates (fun cap => 2 * cap) commentStore [2] [1, 2, 3] [1, 2, 3]).map Prod.snd =
      some [] := by
  decide

theorem smaller_call_before_agrees :
    ∃ later after blockedCates fresh blockedBefore,
      callEach (fun cap => 2 * cap) commentStore [⟨[2, 4], [2, 1, 3], [1, 2, 3]⟩] = some later ∧
      getBlockedCates (fun cap => 2 * cap) later [2, 3, 4] [1, 2, 3] [3, 2, 1] =
        some (after, blockedCates) ∧
      getBlockedCates (fun cap => 2 * cap) commentStore [2, 3, 4] [1, 2, 3] [1, 2, 3] =
        some (fresh, blockedBefore) ∧
      ∀ cate, cate ∈ blockedCates ↔ cate ∈ blockedBefore := by
  obtain ⟨later, after, blockedCates, fresh, blockedBefore, called, taken, direct, exactly⟩ :=
    answer_after_calls_exact (fun cap => 2 * cap) commentStore comment_store_separate
      [⟨[2, 4], [2, 1, 3], [1, 2, 3]⟩]
      (by
        intro call member
        obtain rfl := List.mem_singleton.mp member
        exact ⟨ranges_of_perm _ _ (by decide), ranges_of_perm _ _ (by decide)⟩)
      ⟨[2, 3, 4], [1, 2, 3], [3, 2, 1]⟩ ⟨[2, 3, 4], [1, 2, 3], [1, 2, 3]⟩
      ⟨ranges_of_perm _ _ (by decide), ranges_of_perm _ _ (by decide)⟩
      ⟨ranges_of_perm _ _ (by decide), ranges_of_perm _ _ (by decide)⟩ rfl
  refine ⟨later, after, blockedCates, fresh, blockedBefore, called, taken, direct,
    exactly.mpr fun cate softs found covered soft member => ?_⟩
  rcases covered soft member with own | ⟨call, earlier, blocked⟩
  · exact own
  · obtain rfl := List.mem_singleton.mp earlier
    have smaller : ∀ soft ∈ ([2, 4] : List Soft), soft ∈ ([2, 3, 4] : List Soft) := by simp
    exact smaller soft blocked

end Practise.BlockedCates
