import Mathlib.Data.List.AList
import Practise.LinkedChain
import Practise.SearchTree

/-! Binary trees of nodes in a heap, in the manner of the linked chains. A tree
is described by the addresses of its nodes with their values. -/
namespace Practise.LinkedTree
open LinkedChain SearchTree
variable {Value : Type}

structure TreeNode (Value : Type) where
  value : Value
  left : Ptr
  right : Ptr
  deriving DecidableEq

abbrev TreeHeap (Value : Type) := AList (fun _ : Ptr => TreeNode Value)

/-- The pointers from `start` on run through exactly this tree. -/
def Planted (heap : TreeHeap Value) : Ptr → BinaryTree (Ptr × Value) → Prop
  | start, .nil => start = NULL
  | start, .node cell leftTree rightTree =>
      start = cell.1 ∧ start ≠ NULL ∧ ∃ left right,
        heap.lookup start = some ⟨cell.2, left, right⟩ ∧
          Planted heap left leftTree ∧ Planted heap right rightTree

def places (tree : BinaryTree (Ptr × Value)) : List Ptr := addresses (inorder tree)

theorem places_node (cell : Ptr × Value) (left right : BinaryTree (Ptr × Value)) :
    places (.node cell left right) = places left ++ cell.1 :: places right := by
  rw [places, inorder, addresses, List.map_append, List.map_cons]
  rfl

theorem planted_null (heap : TreeHeap Value) (tree : BinaryTree (Ptr × Value))
    (planted : Planted heap NULL tree) : tree = .nil := by
  cases tree with
  | nil => rfl
  | node cell left right => exact absurd rfl planted.2.1

theorem planted_congr (heap other : TreeHeap Value) (start : Ptr)
    (tree : BinaryTree (Ptr × Value))
    (same : ∀ address ∈ places tree, other.lookup address = heap.lookup address)
    (planted : Planted heap start tree) : Planted other start tree := by
  induction tree generalizing start with
  | nil => exact planted
  | node cell leftTree rightTree ihLeft ihRight =>
      obtain ⟨here, nonNull, left, right, node, onLeft, onRight⟩ := planted
      simp only [places_node, List.mem_append, List.mem_cons] at same
      refine ⟨here, nonNull, left, right, ?_, ihLeft left ?_ onLeft, ihRight right ?_ onRight⟩
      · rw [here, same cell.1 (Or.inr (Or.inl rfl)), ← here, node]
      · exact fun address member => same address (Or.inl member)
      · exact fun address member => same address (Or.inr (Or.inr member))

theorem planted_insert (heap : TreeHeap Value) (start other : Ptr) (node : TreeNode Value)
    (tree : BinaryTree (Ptr × Value)) (outside : other ∉ places tree)
    (planted : Planted heap start tree) : Planted (heap.insert other node) start tree := by
  apply planted_congr heap _ start tree _ planted
  intro address member
  exact AList.lookup_insert_ne fun same => outside (same ▸ member)

/-- A node, the trees below it and an address outside are all apart. -/
theorem distinct_below (outer : Ptr) (cell : Ptr × Value) (left right : BinaryTree (Ptr × Value))
    (distinct : (outer :: places (.node cell left right)).Nodup) :
    outer ≠ cell.1 ∧ (outer :: places left).Nodup ∧ (outer :: places right).Nodup ∧
      cell.1 ∉ places left ∧ cell.1 ∉ places right ∧
      ∀ address ∈ places left, address ∉ places right := by
  rw [places_node, List.nodup_cons, List.mem_append, List.mem_cons, List.nodup_append,
    List.nodup_cons] at distinct
  obtain ⟨apart, onLeft, ⟨notRight, onRight⟩, sides⟩ := distinct
  refine ⟨fun same => apart (Or.inr (Or.inl same)), ?_, ?_, ?_, notRight, ?_⟩
  · exact List.nodup_cons.mpr ⟨fun member => apart (Or.inl member), onLeft⟩
  · exact List.nodup_cons.mpr ⟨fun member => apart (Or.inr (Or.inr member)), onRight⟩
  · exact fun member => sides cell.1 member cell.1 List.mem_cons_self rfl
  · exact fun address member other => sides address member address (List.mem_cons_of_mem _ other) rfl

/-- The tree behind a pointer has become another one. Nothing else was written,
and nothing was allocated or freed. -/
structure Regrown (before after : TreeHeap Value) (start : Ptr)
    (tree grown : BinaryTree (Ptr × Value)) : Prop where
  planted : Planted after start grown
  frame : ∀ address, address ∉ places tree → after.lookup address = before.lookup address
  allocated : ∀ address, address ∈ after ↔ address ∈ before

/-- The child pointers of the topmost node are set. -/
theorem regrown_top (heap : TreeHeap Value) (cell : Ptr × Value) (node : TreeNode Value)
    (left right : Ptr) (leftTree rightTree newLeft newRight : BinaryTree (Ptr × Value))
    (present : cell.1 ≠ NULL) (found : heap.lookup cell.1 = some node)
    (onLeft : Planted heap left newLeft) (onRight : Planted heap right newRight)
    (apartLeft : cell.1 ∉ places newLeft) (apartRight : cell.1 ∉ places newRight) :
    Regrown heap (heap.insert cell.1 ⟨cell.2, left, right⟩) cell.1
      (.node cell leftTree rightTree) (.node cell newLeft newRight) where
  planted := ⟨rfl, present, left, right, AList.lookup_insert _,
    planted_insert heap left cell.1 _ newLeft apartLeft onLeft,
    planted_insert heap right cell.1 _ newRight apartRight onRight⟩
  frame := fun address outside =>
    AList.lookup_insert_ne fun same => outside (by simp [places_node, same])
  allocated := fun address => by
    rw [AList.mem_insert, or_iff_right_of_imp]
    exact fun same => same ▸ lookup_mem heap cell.1 node found

theorem regrown_left (before after : TreeHeap Value) (cell : Ptr × Value) (left right : Ptr)
    (leftTree rightTree grown : BinaryTree (Ptr × Value)) (present : cell.1 ≠ NULL)
    (node : before.lookup cell.1 = some ⟨cell.2, left, right⟩)
    (onRight : Planted before right rightTree) (apart : cell.1 ∉ places leftTree)
    (sides : ∀ address ∈ places leftTree, address ∉ places rightTree)
    (regrown : Regrown before after left leftTree grown) :
    Regrown before after cell.1 (.node cell leftTree rightTree) (.node cell grown rightTree) where
  planted := by
    refine ⟨rfl, present, left, right, ?_, regrown.planted, ?_⟩
    · rw [regrown.frame cell.1 apart, node]
    · apply planted_congr before after right rightTree _ onRight
      exact fun address member => regrown.frame address fun other => sides address other member
  frame := fun address outside =>
    regrown.frame address fun member => outside (by simp [places_node, member])
  allocated := regrown.allocated

theorem regrown_right (before after : TreeHeap Value) (cell : Ptr × Value) (left right : Ptr)
    (leftTree rightTree grown : BinaryTree (Ptr × Value)) (present : cell.1 ≠ NULL)
    (node : before.lookup cell.1 = some ⟨cell.2, left, right⟩)
    (onLeft : Planted before left leftTree) (apart : cell.1 ∉ places rightTree)
    (sides : ∀ address ∈ places leftTree, address ∉ places rightTree)
    (regrown : Regrown before after right rightTree grown) :
    Regrown before after cell.1 (.node cell leftTree rightTree) (.node cell leftTree grown) where
  planted := by
    refine ⟨rfl, present, left, right, ?_, ?_, regrown.planted⟩
    · rw [regrown.frame cell.1 apart, node]
    · apply planted_congr before after left leftTree _ onLeft
      exact fun address member => regrown.frame address (sides address member)
  frame := fun address outside =>
    regrown.frame address fun member => outside (by simp [places_node, member])
  allocated := regrown.allocated

theorem planted_allocated (heap : TreeHeap Value) (start : Ptr) (tree : BinaryTree (Ptr × Value))
    (planted : Planted heap start tree) : ∀ address ∈ places tree, address ∈ heap := by
  induction tree generalizing start with
  | nil => exact fun address member => (nomatch member)
  | node cell leftTree rightTree ihLeft ihRight =>
      obtain ⟨here, -, left, right, node, onLeft, onRight⟩ := planted
      intro address member
      rw [places_node, List.mem_append, List.mem_cons] at member
      rcases member with inLeft | rfl | inRight
      · exact ihLeft left onLeft address inLeft
      · exact here ▸ lookup_mem heap start _ node
      · exact ihRight right onRight address inRight

/-- A tree without shared nodes is no higher than its heap has nodes. -/
theorem planted_height (heap : TreeHeap Value) (start : Ptr) (tree : BinaryTree (Ptr × Value))
    (planted : Planted heap start tree) (distinct : (places tree).Nodup) :
    tree.height ≤ heap.entries.length := by
  have within : places tree ⊆ heap.keys := fun address member =>
    AList.mem_keys.mp (planted_allocated heap start tree planted address member)
  have few := List.Nodup.length_le_of_subset distinct within
  rw [places, addresses, List.length_map, inorder_length] at few
  have low := BinaryTree.height_le_numNodes tree
  simp only [AList.keys, List.keys, List.length_map] at few
  omega

end Practise.LinkedTree
