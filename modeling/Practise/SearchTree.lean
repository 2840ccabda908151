import Mathlib.Data.List.Sort
import Mathlib.Data.Tree.Basic

/-! Unbalanced search trees whose items are compared by a key. An item whose
key is there already goes to the right of it, so nothing is ever dropped, and
the shape of a tree records the order in which its items came. -/
namespace Practise.SearchTree
variable {Item Key : Type}

def inorder : BinaryTree Item → List Item
  | .nil => []
  | .node item left right => inorder left ++ item :: inorder right

theorem inorder_length (tree : BinaryTree Item) : (inorder tree).length = tree.numNodes := by
  induction tree with
  | nil => rfl
  | node item left right ihLeft ihRight =>
      simp only [inorder, List.length_append, List.length_cons, BinaryTree.numNodes, ihLeft, ihRight]
      omega

section Ordered
variable [LinearOrder Key] (key : Item → Key)

def add (item : Item) : BinaryTree Item → BinaryTree Item
  | .nil => .node item .nil .nil
  | .node root left right =>
      if key item < key root then .node root (add item left) right
      else .node root left (add item right)

def addAll (tree : BinaryTree Item) (items : List Item) : BinaryTree Item :=
  items.foldl (fun tree item => add key item tree) tree

/-- At every node, all keys on its left are smaller and none on its right is. -/
def Ordered : BinaryTree Item → Prop
  | .nil => True
  | .node root left right =>
      Ordered left ∧ Ordered right ∧ (∀ item ∈ inorder left, key item < key root) ∧
        ∀ item ∈ inorder right, key root ≤ key item

theorem inorder_add (item : Item) (tree : BinaryTree Item) :
    (inorder (add key item tree)).Perm (item :: inorder tree) := by
  induction tree with
  | nil => exact List.Perm.refl _
  | node root left right ihLeft ihRight =>
      by_cases smaller : key item < key root
      · rw [add, if_pos smaller]
        exact ihLeft.append_right (root :: inorder right)
      · rw [add, if_neg smaller]
        calc inorder left ++ root :: inorder (add key item right)
          _ |>.Perm (inorder left ++ root :: item :: inorder right) :=
              (ihRight.cons root).append_left (inorder left)
          _ |>.Perm (inorder left ++ item :: root :: inorder right) :=
              (List.Perm.swap item root _).append_left (inorder left)
          _ |>.Perm (item :: (inorder left ++ root :: inorder right)) := List.perm_middle

theorem mem_inorder_add (item other : Item) (tree : BinaryTree Item) :
    other ∈ inorder (add key item tree) ↔ other = item ∨ other ∈ inorder tree := by
  rw [(inorder_add key item tree).mem_iff, List.mem_cons]

theorem add_ordered (item : Item) (tree : BinaryTree Item) (ordered : Ordered key tree) :
    Ordered key (add key item tree) := by
  induction tree with
  | nil => simp [add, Ordered, inorder]
  | node root left right ihLeft ihRight =>
      obtain ⟨orderedLeft, orderedRight, below, above⟩ := ordered
      by_cases smaller : key item < key root
      · rw [add, if_pos smaller]
        refine ⟨ihLeft orderedLeft, orderedRight, ?_, above⟩
        intro other member
        rcases (mem_inorder_add key item other left).mp member with rfl | old
        · exact smaller
        · exact below other old
      · rw [add, if_neg smaller]
        refine ⟨orderedLeft, ihRight orderedRight, below, ?_⟩
        intro other member
        rcases (mem_inorder_add key item other right).mp member with rfl | old
        · exact le_of_not_gt smaller
        · exact above other old

theorem inorder_sorted (tree : BinaryTree Item) (ordered : Ordered key tree) :
    ((inorder tree).map key).SortedLE := by
  apply List.Pairwise.sortedLE
  induction tree with
  | nil => exact List.Pairwise.nil
  | node root left right ihLeft ihRight =>
      obtain ⟨orderedLeft, orderedRight, below, above⟩ := ordered
      rw [inorder, List.map_append, List.map_cons, List.pairwise_append, List.pairwise_cons]
      refine ⟨ihLeft orderedLeft, ⟨?_, ihRight orderedRight⟩, ?_⟩
      · simpa using above
      · simp only [List.mem_map, List.mem_cons]
        rintro _ ⟨small, inLeft, rfl⟩ _ (rfl | ⟨large, inRight, rfl⟩)
        · exact (below small inLeft).le
        · exact (below small inLeft).le.trans (above large inRight)

theorem add_all_ordered (tree : BinaryTree Item) (items : List Item)
    (ordered : Ordered key tree) : Ordered key (addAll key tree items) := by
  induction items generalizing tree with
  | nil => exact ordered
  | cons item rest ih => exact ih (add key item tree) (add_ordered key item tree ordered)

theorem inorder_add_all (tree : BinaryTree Item) (items : List Item) :
    (inorder (addAll key tree items)).Perm (items ++ inorder tree) := by
  induction items generalizing tree with
  | nil => exact List.Perm.refl _
  | cons item rest ih =>
      calc inorder (addAll key (add key item tree) rest)
        _ |>.Perm (rest ++ inorder (add key item tree)) := ih (add key item tree)
        _ |>.Perm (rest ++ item :: inorder tree) := (inorder_add key item tree).append_left rest
        _ |>.Perm (item :: (rest ++ inorder tree)) := List.perm_middle

/-- Behind its root a tree is two trees that grow by themselves, each from the
items on its side in their order. -/
theorem add_all_node (root : Item) (left right : BinaryTree Item) (items : List Item) :
    addAll key (.node root left right) items =
      .node root (addAll key left (items.filter fun item => key item < key root))
        (addAll key right (items.filter fun item => ¬ key item < key root)) := by
  induction items generalizing left right with
  | nil => rfl
  | cons item rest ih =>
      by_cases smaller : key item < key root
      · have here : addAll key (.node root left right) (item :: rest) =
            addAll key (.node root (add key item left) right) rest := by
          rw [addAll, List.foldl_cons, add, if_pos smaller, addAll]
        rw [here, ih, List.filter_cons_of_pos (by simpa using smaller),
          List.filter_cons_of_neg (by simpa using smaller)]
        rfl
      · have here : addAll key (.node root left right) (item :: rest) =
            addAll key (.node root left (add key item right)) rest := by
          rw [addAll, List.foldl_cons, add, if_neg smaller, addAll]
        rw [here, ih, List.filter_cons_of_neg (by simpa using smaller),
          List.filter_cons_of_pos (by simpa using smaller)]
        rfl

/-- An item comes behind the items with its key that are there already. -/
theorem inorder_add_equal (item : Item) (value : Key) (tree : BinaryTree Item)
    (ordered : Ordered key tree) :
    (inorder (add key item tree)).filter (fun other => key other = value) =
      (inorder tree).filter (fun other => key other = value) ++
        [item].filter fun other => key other = value := by
  induction tree with
  | nil => rfl
  | node root left right ihLeft ihRight =>
      obtain ⟨orderedLeft, orderedRight, -, above⟩ := ordered
      by_cases smaller : key item < key root
      · rw [add, if_pos smaller, inorder, inorder, List.filter_append, List.filter_append,
          ihLeft orderedLeft, List.append_assoc, List.append_assoc]
        congr 1
        by_cases own : key item = value
        · -- Nothing from the root on has this key.
          have none : (root :: inorder right).filter (fun other => key other = value) = [] := by
            rw [List.filter_eq_nil_iff]
            intro other member
            rw [decide_eq_true_eq, ← own]
            rcases List.mem_cons.mp member with rfl | later
            · exact smaller.ne'
            · exact (smaller.trans_le (above other later)).ne'
          rw [none, List.append_nil, List.nil_append]
        · rw [List.filter_cons_of_neg (by simpa using own), List.filter_nil, List.nil_append,
            List.append_nil]
      · rw [add, if_neg smaller, inorder, inorder, List.filter_append, List.filter_append,
          List.filter_cons, List.filter_cons, ihRight orderedRight]
        split
        · simp
        · simp

theorem inorder_add_all_equal (value : Key) (tree : BinaryTree Item) (items : List Item)
    (ordered : Ordered key tree) :
    (inorder (addAll key tree items)).filter (fun other => key other = value) =
      (inorder tree).filter (fun other => key other = value) ++
        items.filter fun other => key other = value := by
  induction items generalizing tree with
  | nil => simp [addAll]
  | cons item rest ih =>
      have later := ih (add key item tree) (add_ordered key item tree ordered)
      rw [inorder_add_equal key item value tree ordered, List.append_assoc, ← List.filter_append,
        List.singleton_append] at later
      exact later

/-- A tree without left branches. -/
def vine : List Item → BinaryTree Item
  | [] => .nil
  | item :: rest => .node item .nil (vine rest)

/-- Rising keys give a vine. -/
theorem add_all_rising (items : List Item) (rising : (items.map key).Pairwise (· ≤ ·)) :
    addAll key .nil items = vine items := by
  induction items with
  | nil => rfl
  | cons item rest ih =>
      rw [List.map_cons, List.pairwise_cons] at rising
      have above : ∀ other ∈ rest, ¬ key other < key item := fun other member =>
        not_lt_of_ge (rising.1 (key other) (List.mem_map_of_mem member))
      have here : addAll key .nil (item :: rest) = addAll key (.node item .nil .nil) rest := rfl
      rw [here, add_all_node, List.filter_eq_nil_iff.mpr (by simpa using above),
        List.filter_eq_self.mpr (by simpa using above), ih rising.2]
      rfl

/-- Only rising keys give a vine. -/
theorem rising_of_vine (items others : List Item) (same : addAll key .nil items = vine others) :
    (items.map key).Pairwise (· ≤ ·) := by
  induction items generalizing others with
  | nil => exact List.Pairwise.nil
  | cons item rest ih =>
      have here : addAll key .nil (item :: rest) = addAll key (.node item .nil .nil) rest := rfl
      rw [here, add_all_node] at same
      cases others with
      | nil => exact absurd same (by simp [vine])
      | cons first others =>
          simp only [vine, BinaryTree.node.injEq] at same
          obtain ⟨-, left, right⟩ := same
          have below := (inorder_add_all key .nil (rest.filter fun other => key other < key item))
          rw [left, inorder, List.append_nil, List.nil_perm, List.filter_eq_nil_iff] at below
          have above : ∀ other ∈ rest, ¬ key other < key item := by simpa using below
          rw [List.filter_eq_self.mpr (by simpa using above)] at right
          rw [List.map_cons, List.pairwise_cons]
          refine ⟨fun other member => ?_, ih others right⟩
          obtain ⟨later, inside, rfl⟩ := List.mem_map.mp member
          exact le_of_not_gt (above later inside)

/-- Only the keys decide on the shape. -/
theorem add_map (item : Item) (tree : BinaryTree Item) :
    (add key item tree).map key = add id (key item) (tree.map key) := by
  induction tree with
  | nil => rfl
  | node root left right ihLeft ihRight =>
      by_cases smaller : key item < key root
      · rw [add, if_pos smaller, BinaryTree.map, ihLeft, BinaryTree.map, add, id, id,
          if_pos smaller]
      · rw [add, if_neg smaller, BinaryTree.map, ihRight, BinaryTree.map, add, id, id,
          if_neg smaller]

theorem add_all_map (tree : BinaryTree Item) (items : List Item) :
    (addAll key tree items).map key = addAll id (tree.map key) (items.map key) := by
  induction items generalizing tree with
  | nil => rfl
  | cons item rest ih =>
      calc (addAll key (add key item tree) rest).map key
        _ = addAll id ((add key item tree).map key) (rest.map key) := ih (add key item tree)
        _ = addAll id (add id (key item) (tree.map key)) (rest.map key) := by rw [add_map]

end Ordered

/-! Places in a tree, given by the turns on the way from the root. -/
section Paths

inductive Side where
  | left
  | right
  deriving DecidableEq

def itemAt : List Side → BinaryTree Item → Option Item
  | _, .nil => none
  | [], .node root _ _ => some root
  | .left :: path, .node _ left _ => itemAt path left
  | .right :: path, .node _ _ right => itemAt path right

theorem item_at_nil (path : List Side) : itemAt path (.nil : BinaryTree Item) = none := by
  unfold itemAt
  rfl

/-- One leaf is new and everything else is where it was. -/
structure AddsLeaf (item : Item) (before after : BinaryTree Item) (path : List Side) : Prop where
  vacant : itemAt path before = none
  placed : itemAt path after = some item
  leaf : ∀ side further, itemAt (path ++ side :: further) after = none
  kept : ∀ other, other ≠ path → itemAt other after = itemAt other before

theorem adds_leaf_left (item root : Item) (before after other : BinaryTree Item)
    (path : List Side) (adds : AddsLeaf item before after path) :
    AddsLeaf item (.node root before other) (.node root after other) (.left :: path) := by
  refine ⟨adds.vacant, adds.placed, adds.leaf, ?_⟩
  intro place different
  match place with
  | [] => rfl
  | .left :: rest => exact adds.kept rest fun same => different (congrArg _ same)
  | .right :: rest => rfl

theorem adds_leaf_right (item root : Item) (before after other : BinaryTree Item)
    (path : List Side) (adds : AddsLeaf item before after path) :
    AddsLeaf item (.node root other before) (.node root other after) (.right :: path) := by
  refine ⟨adds.vacant, adds.placed, adds.leaf, ?_⟩
  intro place different
  match place with
  | [] => rfl
  | .left :: rest => rfl
  | .right :: rest => exact adds.kept rest fun same => different (congrArg _ same)

theorem add_adds_leaf [LinearOrder Key] (key : Item → Key) (item : Item)
    (tree : BinaryTree Item) : ∃ path, AddsLeaf item tree (add key item tree) path := by
  induction tree with
  | nil =>
      refine ⟨[], rfl, rfl, ?_, ?_⟩
      · intro side further
        cases side <;> exact item_at_nil further
      · intro other nonempty
        match other with
        | [] => exact absurd rfl nonempty
        | .left :: rest => exact item_at_nil rest
        | .right :: rest => exact item_at_nil rest
  | node root left right ihLeft ihRight =>
      by_cases smaller : key item < key root
      · obtain ⟨path, adds⟩ := ihLeft
        rw [add, if_pos smaller]
        exact ⟨.left :: path, adds_leaf_left item root left _ right path adds⟩
      · obtain ⟨path, adds⟩ := ihRight
        rw [add, if_neg smaller]
        exact ⟨.right :: path, adds_leaf_right item root right _ left path adds⟩

end Paths

end Practise.SearchTree
