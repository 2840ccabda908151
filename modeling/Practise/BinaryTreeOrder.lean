import Practise.BinaryTreePush

/-!
What a tree of algorithm/binary-tree/normal/binary-tree.cpp keeps of the order in
which its values were pushed. Equal values stay in their order. The rest of the
order is in the shape, which `preorder_print` does not show: it prints the values
in their own order, not in the one that its name promises.
-/
namespace Practise.BinaryTreePush
open LinkedChain LinkedTree SearchTree Machine

/-- The nodes are visited in the order of a stable sort: by their values, and the
nodes of one value in the order in which they were pushed. -/
theorem equal_values_in_push_order (values : List Int) (pushes : List (Int × Ptr))
    (pushed : Pushes values pushes) :
    ∃ memory, ∃ cells : List (Ptr × Int),
      run step Memory.empty (pushCalls pushes) = some (memory, []) ∧
      visited memory = some cells ∧
      preorderPrint memory =
        some (String.join (cells.map fun cell => toString cell.2 ++ " ") ++ "\n") ∧
      (cells.map Prod.snd).Pairwise (· ≤ ·) ∧ cells.Perm (pushes.map Prod.swap) ∧
      ∀ value, cells.filter (fun cell => cell.2 = value) =
        (pushes.map Prod.swap).filter fun cell => cell.2 = value := by
  obtain ⟨memory, builds, represents⟩ := pushes_build pushes pushed.fresh
  have shown := represented_visited memory _ represents
  have ordered : Ordered Prod.snd (addAll Prod.snd .nil (pushes.map Prod.swap)) :=
    add_all_ordered Prod.snd .nil _ trivial
  refine ⟨memory, _, builds.1, shown, ?_, (inorder_sorted Prod.snd _ ordered).pairwise, ?_,
    fun value => ?_⟩
  · rw [preorderPrint, shown, Option.map_some, printed, LinkedChain.values, List.map_map]
    rfl
  · have same := inorder_add_all Prod.snd .nil (pushes.map Prod.swap)
    rwa [inorder, List.append_nil] at same
  · rw [inorder_add_all_equal Prod.snd value .nil _ trivial, inorder, List.filter_nil,
      List.nil_append]

theorem threes_in_push_order :
    ∃ memory, ∃ cells : List (Ptr × Int),
      run step Memory.empty (pushCalls [(3, 7), (1, 2), (3, 5)]) = some (memory, []) ∧
      visited memory = some cells ∧ cells.filter (fun cell => cell.2 = 3) = [(7, 3), (5, 3)] := by
  obtain ⟨memory, cells, built, shown, -, -, -, equal⟩ := equal_values_in_push_order [3, 1, 3]
    [(3, 7), (1, 2), (3, 5)] ⟨rfl, distinct_pushes _ (by decide) (by decide)⟩
  exact ⟨memory, cells, built, shown, equal 3⟩

theorem pushed_shape (values : List Int) (pushes : List (Int × Ptr))
    (pushed : Pushes values pushes) :
    (addAll Prod.snd .nil (pushes.map Prod.swap)).map Prod.snd = addAll id .nil values := by
  rw [add_all_map, swapped_values, pushed.values]
  rfl

/-- Pushing the printed values into a new tree gives the old tree back exactly if
they had been pushed in their order, each at the end of one long branch. -/
theorem printed_values_rebuild_exact (values : List Int) (pushes : List (Int × Ptr))
    (pushed : Pushes values pushes) :
    ∃ memory tree, ∃ sorted : List Int, Builds pushes memory tree ∧
      preorderPrint memory =
        some (String.join (sorted.map fun value => toString value ++ " ") ++ "\n") ∧
      sorted.Pairwise (· ≤ ·) ∧ sorted.Perm values ∧
      ∀ others, Pushes sorted others → ∃ final rebuilt, Builds others final rebuilt ∧
        (rebuilt.map Prod.snd = tree.map Prod.snd ↔ values.Pairwise (· ≤ ·)) := by
  obtain ⟨memory, tree, sorted, builds, -, prints, increasing, perm⟩ :=
    pushes_print values pushes pushed
  obtain ⟨again, same, -⟩ := pushes_build pushes pushed.fresh
  refine ⟨again, _, sorted, same, ?_, increasing, perm, fun others repushed => ?_⟩
  · obtain ⟨rfl, -⟩ := Prod.mk.inj (Option.some.inj (builds.1.symm.trans same.1))
    exact prints
  · obtain ⟨final, follows, -⟩ := pushes_build others repushed.fresh
    refine ⟨final, _, follows, ?_⟩
    have grown : addAll id .nil sorted = vine sorted :=
      add_all_rising id sorted (by rwa [List.map_id])
    rw [pushed_shape sorted others repushed, pushed_shape values pushes pushed, grown]
    constructor
    · intro shape
      have rising := rising_of_vine id values sorted shape.symm
      rwa [List.map_id] at rising
    · intro rising
      have equal : values = sorted :=
        List.Perm.eq_of_pairwise (fun _ _ _ _ => Int.le_antisymm) rising increasing perm.symm
      rw [equal, grown]

theorem two_one_not_rebuilt :
    ∃ memory tree, Builds [(2, 1), (1, 2)] memory tree ∧ preorderPrint memory = some "1 2 \n" ∧
      ∀ others, Pushes [1, 2] others → ∃ final rebuilt, Builds others final rebuilt ∧
        rebuilt.map Prod.snd ≠ tree.map Prod.snd := by
  obtain ⟨memory, tree, sorted, builds, prints, rising, perm, rebuild⟩ :=
    printed_values_rebuild_exact [2, 1] [(2, 1), (1, 2)]
      ⟨rfl, distinct_pushes _ (by decide) (by decide)⟩
  have known : sorted = [1, 2] :=
    List.Perm.eq_of_pairwise (fun _ _ _ _ => Int.le_antisymm) rising (by decide)
      (perm.trans (by decide))
  rw [known] at prints rebuild
  refine ⟨memory, tree, builds, prints, fun others repushed => ?_⟩
  obtain ⟨final, rebuilt, follows, exactly⟩ := rebuild others repushed
  exact ⟨final, rebuilt, follows, fun same => absurd (exactly.mp same) (by decide)⟩

/-! Prints between the pushes. -/

/-- The values that each print shows, if it shows those so far in their order. -/
def sortedPrints : List Int → List Call → List (List Int)
  | _, [] => []
  | sofar, .pushData value _ :: rest => sortedPrints (sofar ++ [value]) rest
  | sofar, .preorderPrint :: rest =>
      sofar.mergeSort (fun left right => decide (left ≤ right)) :: sortedPrints sofar rest

def pushAddresses (calls : List Call) : List Ptr :=
  calls.filterMap fun
    | .pushData _ pnode => some pnode
    | .preorderPrint => none

theorem merge_sorted (values sorted : List Int) (rising : sorted.Pairwise (· ≤ ·))
    (perm : sorted.Perm values) :
    values.mergeSort (fun left right => decide (left ≤ right)) = sorted := by
  have ordered : (values.mergeSort fun left right => decide (left ≤ right)).Pairwise (· ≤ ·) := by
    have transitive : ∀ one two three : Int, decide (one ≤ two) = true →
        decide (two ≤ three) = true → decide (one ≤ three) = true := by
      intro one two three first second
      rw [decide_eq_true_eq] at first second ⊢
      exact Int.le_trans first second
    have total : ∀ one two : Int, (decide (one ≤ two) || decide (two ≤ one)) = true := by
      intro one two
      simpa using Int.le_total one two
    simpa only [decide_eq_true_eq] using List.pairwise_mergeSort transitive total values
  exact List.Perm.eq_of_pairwise (fun _ _ _ _ => Int.le_antisymm) ordered rising
    ((List.mergeSort_perm values _).trans perm.symm)

theorem abstract_prints (calls : List Call) (tree : BinaryTree (Ptr × Int)) (sofar : List Int)
    (ordered : Ordered Prod.snd tree) (holds : ((inorder tree).map Prod.snd).Perm sofar) :
    ∃ final, run abstractStep tree calls = some (final, (sortedPrints sofar calls).map printed) ∧
      (places final).Perm (pushAddresses calls ++ places tree) := by
  induction calls generalizing tree sofar with
  | nil => exact ⟨tree, rfl, List.Perm.refl _⟩
  | cons call rest ih =>
      cases call with
      | pushData value pnode =>
          have more : ((inorder (add Prod.snd (pnode, value) tree)).map Prod.snd).Perm
              (sofar ++ [value]) :=
            ((inorder_add Prod.snd (pnode, value) tree).map Prod.snd).trans
              ((holds.cons value).trans (List.perm_append_singleton value sofar).symm)
          obtain ⟨final, followed, places⟩ := ih (add Prod.snd (pnode, value) tree)
            (sofar ++ [value]) (add_ordered Prod.snd (pnode, value) tree ordered) more
          refine ⟨final, (run_cons ..).mpr ⟨_, [], _, rfl, followed, rfl⟩, places.trans ?_⟩
          exact ((places_add (pnode, value) tree).append_left _).trans List.perm_middle
      | preorderPrint =>
          obtain ⟨final, followed, places⟩ := ih tree sofar ordered holds
          refine ⟨final, (run_cons ..).mpr ⟨tree, _, _, rfl, followed, ?_⟩, places⟩
          rw [sortedPrints,
            merge_sorted sofar _ (inorder_sorted Prod.snd tree ordered).pairwise holds]
          rfl

theorem calls_represent (calls : List Call) (fresh : EveryStep step Memory.empty Fresh calls) :
    ∃ memory tree, run step Memory.empty calls =
        some (memory, (sortedPrints [] calls).map printed) ∧
      Represents memory tree ∧ (places tree).Perm (pushAddresses calls) := by
  obtain ⟨memory, tree, outputs, taken, followed, represents⟩ := run_simulated step abstractStep
    Fresh Represents (fun memory tree call => step_refines memory tree call) Memory.empty .nil
    empty_represents calls fresh
  obtain ⟨final, again, addresses⟩ := abstract_prints calls .nil [] trivial (List.Perm.refl _)
  obtain ⟨rfl, rfl⟩ := Prod.mk.inj (Option.some.inj (followed.symm.trans again))
  refine ⟨memory, tree, taken, represents, ?_⟩
  have none : places (.nil : BinaryTree (Ptr × Int)) = [] := rfl
  rwa [none, List.append_nil] at addresses

/-- In any sequence of calls, every print shows exactly the values that were pushed
before it, in their order; no call fails. -/
theorem every_print_sorted (calls : List Call) (nonNull : NULL ∉ pushAddresses calls)
    (distinct : (pushAddresses calls).Nodup) :
    ∃ memory, run step Memory.empty calls =
      some (memory, (sortedPrints [] calls).map fun sorted =>
        String.join (sorted.map fun value => toString value ++ " ") ++ "\n") := by
  have fresh : EveryStep step Memory.empty Fresh calls := by
    induction calls using List.reverseRecOn with
    | nil => exact every_step_nil step Memory.empty Fresh
    | append_singleton earlier call ih =>
        rw [pushAddresses, List.filterMap_append, ← pushAddresses] at nonNull distinct
        rw [List.mem_append, not_or] at nonNull
        rw [List.nodup_append] at distinct
        have before := ih nonNull.1 distinct.1
        refine (every_step_snoc ..).mpr ⟨before, fun state outputs reached => ?_⟩
        obtain ⟨memory, tree, taken, represents, addresses⟩ := calls_represent earlier before
        obtain ⟨rfl, -⟩ := Prod.mk.inj (Option.some.inj (taken.symm.trans reached))
        cases call with
        | preorderPrint => trivial
        | pushData value pnode =>
            refine ⟨fun null => nonNull.2 (by simp [null]), fun inside => ?_⟩
            rw [represents.allocated, addresses.mem_iff] at inside
            exact distinct.2.2 pnode inside pnode (by simp) rfl
  obtain ⟨memory, tree, taken, -⟩ := calls_represent calls fresh
  exact ⟨memory, taken⟩

theorem printed_twice :
    ∃ memory, run step Memory.empty
        [.pushData 3 1, .preorderPrint, .pushData 1 2, .preorderPrint] =
      some (memory, ["3 \n", "1 3 \n"]) := by
  obtain ⟨memory, taken⟩ := every_print_sorted
    [.pushData 3 1, .preorderPrint, .pushData 1 2, .preorderPrint] (by decide) (by decide)
  have one : [(3 : Int)].mergeSort (fun left right => decide (left ≤ right)) = [3] :=
    merge_sorted [3] [3] (by decide) (by decide)
  have two : [(3 : Int), 1].mergeSort (fun left right => decide (left ≤ right)) = [1, 3] :=
    merge_sorted [3, 1] [1, 3] (by decide) (by decide)
  have shown : sortedPrints [] [.pushData 3 1, .preorderPrint, .pushData 1 2, .preorderPrint] =
      [[3], [1, 3]] := by
    simp only [sortedPrints, List.nil_append, List.singleton_append, one, two]
  rw [shown] at taken
  exact ⟨memory, taken⟩

end Practise.BinaryTreePush
