import Practise.LinkedTree
import Practise.Machine

/-!
The tree of algorithm/binary-tree/normal/binary-tree.cpp. `push_data_aux` gets
its tree as a reference to the pointer that holds it, which is the `root` of the
`BinaryTree` or a child pointer of a node, so a pointer is given by its place
here. `new` succeeds, and the address it returns comes with the call. An `int`
is only compared and printed. Both recursions get one step more than there are
nodes; a walk that needs more goes round in a circle.
-/
namespace Practise.BinaryTreePush
open LinkedChain LinkedTree SearchTree Machine

structure Memory where
  nodes : TreeHeap Int
  root : Ptr

def Memory.empty : Memory := ⟨∅, NULL⟩

/-- The pointer variables that a `Node *&` can be bound to. -/
inductive Place where
  | root
  | left (owner : Ptr)
  | right (owner : Ptr)

def Memory.load (memory : Memory) : Place → Option Ptr
  | .root => some memory.root
  | .left owner => (memory.nodes.lookup owner).map TreeNode.left
  | .right owner => (memory.nodes.lookup owner).map TreeNode.right

def Memory.store (memory : Memory) (pointer : Ptr) : Place → Option Memory
  | .root => some { memory with root := pointer }
  | .left owner => (memory.nodes.lookup owner).map fun node =>
      { memory with nodes := memory.nodes.insert owner { node with left := pointer } }
  | .right owner => (memory.nodes.lookup owner).map fun node =>
      { memory with nodes := memory.nodes.insert owner { node with right := pointer } }

/-- A failed `assert` and a null pointer that is followed have no result. -/
def pushDataAux (pnode : Ptr) : Nat → Memory → Place → Option Memory
  | 0, _, _ => none
  | fuel + 1, memory, place =>
      if pnode = NULL then none
      else (memory.load place).bind fun root =>
        if root = NULL then memory.store pnode place
        else (memory.nodes.lookup pnode).bind fun new =>
          (memory.nodes.lookup root).bind fun node =>
            if new.value < node.value then
              if node.left = NULL then memory.store pnode (.left root)
              else pushDataAux pnode fuel memory (.left root)
            else
              if node.right = NULL then memory.store pnode (.right root)
              else pushDataAux pnode fuel memory (.right root)

def pushData (memory : Memory) (value : Int) (pnode : Ptr) : Option Memory :=
  let nodes := memory.nodes.insert pnode ⟨value, NULL, NULL⟩
  pushDataAux pnode (nodes.entries.length + 1) { memory with nodes := nodes } .root

/-- The nodes that are printed, with their values. In spite of its name it visits
the left subtree before the node. -/
def preorderPrintAux (nodes : TreeHeap Int) : Nat → Ptr → Option (List (Ptr × Int))
  | 0, _ => none
  | fuel + 1, root =>
      if root = NULL then some []
      else (nodes.lookup root).bind fun node =>
        (preorderPrintAux nodes fuel node.left).bind fun before =>
          (preorderPrintAux nodes fuel node.right).map fun behind =>
            before ++ (root, node.value) :: behind

/-- What the printed values look like on `std::cout`. -/
def printed (values : List Int) : String :=
  String.join (values.map fun value => toString value ++ " ") ++ "\n"

def visited (memory : Memory) : Option (List (Ptr × Int)) :=
  preorderPrintAux memory.nodes (memory.nodes.entries.length + 1) memory.root

def preorderPrint (memory : Memory) : Option String :=
  (visited memory).map fun cells => printed (values cells)

inductive Call where
  | pushData (value : Int) (pnode : Ptr)
  | preorderPrint

def step : Step Memory Call String
  | memory, .pushData value pnode => (pushData memory value pnode).map fun after => (after, [])
  | memory, .preorderPrint => (preorderPrint memory).map fun text => (memory, [text])

/-- What `new` promises. -/
def Fresh (memory : Memory) : Call → Prop
  | .pushData _ pnode => pnode ≠ NULL ∧ pnode ∉ memory.nodes
  | .preorderPrint => True

/-- The nodes are exactly those of the tree, and none of them is shared. -/
structure Represents (memory : Memory) (tree : BinaryTree (Ptr × Int)) : Prop where
  planted : Planted memory.nodes memory.root tree
  distinct : (places tree).Nodup
  allocated : ∀ address, address ∈ memory.nodes ↔ address ∈ places tree

theorem empty_represents : Represents Memory.empty .nil where
  planted := rfl
  distinct := List.nodup_nil
  allocated := fun address => by simp [Memory.empty, places, inorder, addresses]

/-! The recursion of `push_data_aux`. -/

theorem places_add (cell : Ptr × Int) (tree : BinaryTree (Ptr × Int)) :
    (places (add Prod.snd cell tree)).Perm (cell.1 :: places tree) :=
  (inorder_add Prod.snd cell tree).map Prod.fst

theorem leaf_planted (nodes : TreeHeap Int) (pnode : Ptr) (value : Int) (nonNull : pnode ≠ NULL)
    (new : nodes.lookup pnode = some ⟨value, NULL, NULL⟩) :
    Planted nodes pnode (.node (pnode, value) .nil .nil) :=
  ⟨rfl, nonNull, NULL, NULL, new, rfl, rfl⟩

/-- With a node at the place, the recursion stays inside its tree: it changes one
child pointer there, and allocates nothing. -/
theorem push_data_aux_spec (pnode : Ptr) (value : Int) (nonNull : pnode ≠ NULL)
    (tree : BinaryTree (Ptr × Int)) (fuel : Nat) (memory : Memory) (place : Place) (start : Ptr)
    (new : memory.nodes.lookup pnode = some ⟨value, NULL, NULL⟩)
    (loaded : memory.load place = some start) (present : start ≠ NULL)
    (planted : Planted memory.nodes start tree) (distinct : (pnode :: places tree).Nodup)
    (enough : tree.height ≤ fuel) :
    ∃ after, pushDataAux pnode fuel memory place = some { memory with nodes := after } ∧
      Regrown memory.nodes after start tree (add Prod.snd (pnode, value) tree) := by
  have leaf := leaf_planted memory.nodes pnode value nonNull new
  induction tree generalizing fuel place start with
  | nil => exact absurd planted present
  | node cell leftTree rightTree ihLeft ihRight =>
      obtain ⟨rfl, -, left, right, node, onLeft, onRight⟩ := planted
      rw [BinaryTree.height] at enough
      obtain ⟨fuel, rfl⟩ := Nat.exists_eq_add_one_of_ne_zero (by omega : fuel ≠ 0)
      obtain ⟨newApart, newLeft, newRight, apartLeft, apartRight, sides⟩ :=
        distinct_below pnode cell leftTree rightTree distinct
      have leafApart : cell.1 ∉ places (.node (pnode, value) .nil .nil) := by
        simpa [places, addresses, inorder] using newApart.symm
      rw [pushDataAux, if_neg nonNull, loaded, Option.bind_some, if_neg present, new,
        Option.bind_some, node, Option.bind_some]
      by_cases smaller : value < cell.2
      · have grown : add Prod.snd (pnode, value) (.node cell leftTree rightTree) =
            .node cell (add Prod.snd (pnode, value) leftTree) rightTree := if_pos smaller
        rw [if_pos smaller, grown]
        by_cases ends : left = NULL
        · rw [ends] at onLeft
          obtain rfl := planted_null _ leftTree onLeft
          refine ⟨memory.nodes.insert cell.1 ⟨cell.2, pnode, right⟩, ?_, ?_⟩
          · rw [if_pos ends, Memory.store, node, Option.map_some]
          · exact regrown_top memory.nodes cell _ pnode right .nil rightTree _ rightTree present node
              leaf onRight leafApart apartRight
        · obtain ⟨after, pushed, regrown⟩ := ihLeft fuel (.left cell.1) left
            (by rw [Memory.load, node, Option.map_some]) ends onLeft newLeft (by omega)
          refine ⟨after, by rw [if_neg ends, pushed], ?_⟩
          exact regrown_left memory.nodes after cell left right leftTree rightTree _ present node
            onRight apartLeft sides regrown
      · have grown : add Prod.snd (pnode, value) (.node cell leftTree rightTree) =
            .node cell leftTree (add Prod.snd (pnode, value) rightTree) := if_neg smaller
        rw [if_neg smaller, grown]
        by_cases ends : right = NULL
        · rw [ends] at onRight
          obtain rfl := planted_null _ rightTree onRight
          refine ⟨memory.nodes.insert cell.1 ⟨cell.2, left, pnode⟩, ?_, ?_⟩
          · rw [if_pos ends, Memory.store, node, Option.map_some]
          · exact regrown_top memory.nodes cell _ left pnode leftTree .nil leftTree _ present node
              onLeft leaf apartLeft leafApart
        · obtain ⟨after, pushed, regrown⟩ := ihRight fuel (.right cell.1) right
            (by rw [Memory.load, node, Option.map_some]) ends onRight newRight (by omega)
          refine ⟨after, by rw [if_neg ends, pushed], ?_⟩
          exact regrown_right memory.nodes after cell left right leftTree rightTree _ present node
            onLeft apartRight sides regrown

theorem push_represents (memory : Memory) (tree : BinaryTree (Ptr × Int)) (value : Int)
    (pnode : Ptr) (represents : Represents memory tree) (nonNull : pnode ≠ NULL)
    (unused : pnode ∉ memory.nodes) :
    ∃ after, pushData memory value pnode = some after ∧
      Represents after (add Prod.snd (pnode, value) tree) := by
  obtain ⟨nodes, root⟩ := memory
  obtain ⟨planted, distinct, allocated⟩ := represents
  have apart : pnode ∉ places tree := fun member => unused ((allocated pnode).mpr member)
  have new : (nodes.insert pnode ⟨value, NULL, NULL⟩).lookup pnode = some ⟨value, NULL, NULL⟩ :=
    AList.lookup_insert _
  have kept := planted_insert nodes root pnode ⟨value, NULL, NULL⟩ tree apart planted
  have both : (pnode :: places tree).Nodup := List.nodup_cons.mpr ⟨apart, distinct⟩
  have added := places_add (pnode, value) tree
  have member : ∀ address, address ∈ nodes.insert pnode ⟨value, NULL, NULL⟩ ↔
      address ∈ places (add Prod.snd (pnode, value) tree) := by
    intro address
    rw [AList.mem_insert, added.mem_iff, List.mem_cons, allocated]
  by_cases present : root = NULL
  · subst present
    obtain rfl := planted_null nodes tree planted
    refine ⟨⟨nodes.insert pnode ⟨value, NULL, NULL⟩, pnode⟩, ?_, ?_⟩
    · rw [pushData, pushDataAux, if_neg nonNull, Memory.load, Option.bind_some, if_pos rfl,
        Memory.store]
    · exact ⟨leaf_planted _ pnode value nonNull new, added.nodup_iff.mpr both, member⟩
  · have low := planted_height _ root tree kept distinct
    obtain ⟨after, pushed, regrown⟩ := push_data_aux_spec pnode value nonNull tree
      ((nodes.insert pnode ⟨value, NULL, NULL⟩).entries.length + 1)
      ⟨nodes.insert pnode ⟨value, NULL, NULL⟩, root⟩ .root root new rfl present kept both (by omega)
    exact ⟨⟨after, root⟩, pushed, regrown.planted, added.nodup_iff.mpr both,
      fun address => (regrown.allocated address).trans (member address)⟩

/-! Printing, and whole sequences of calls. -/

theorem preorder_print_aux_spec (nodes : TreeHeap Int) (tree : BinaryTree (Ptr × Int))
    (fuel : Nat) (root : Ptr) (planted : Planted nodes root tree) (enough : tree.height < fuel) :
    preorderPrintAux nodes fuel root = some (inorder tree) := by
  induction tree generalizing fuel root with
  | nil =>
      obtain ⟨fuel, rfl⟩ := Nat.exists_eq_add_one_of_ne_zero (Nat.ne_zero_of_lt enough)
      have ends : root = NULL := planted
      rw [preorderPrintAux, if_pos ends, inorder]
  | node cell leftTree rightTree ihLeft ihRight =>
      obtain ⟨rfl, nonNull, left, right, node, onLeft, onRight⟩ := planted
      rw [BinaryTree.height] at enough
      obtain ⟨fuel, rfl⟩ := Nat.exists_eq_add_one_of_ne_zero (Nat.ne_zero_of_lt enough)
      rw [preorderPrintAux, if_neg nonNull, node, Option.bind_some,
        ihLeft fuel left onLeft (by omega), Option.bind_some,
        ihRight fuel right onRight (by omega), Option.map_some, inorder]

theorem represented_visited (memory : Memory) (tree : BinaryTree (Ptr × Int))
    (represents : Represents memory tree) : visited memory = some (inorder tree) := by
  have low := planted_height memory.nodes memory.root tree represents.planted represents.distinct
  exact preorder_print_aux_spec memory.nodes tree _ memory.root represents.planted
    (Nat.lt_succ_of_le low)

/-- What the calls are for: a tree of values, printed in its order. -/
def abstractStep : Step (BinaryTree (Ptr × Int)) Call String
  | tree, .pushData value pnode => some (add Prod.snd (pnode, value) tree, [])
  | tree, .preorderPrint => some (tree, [printed (values (inorder tree))])

theorem step_refines (memory : Memory) (tree : BinaryTree (Ptr × Int)) (call : Call)
    (represents : Represents memory tree) (fresh : Fresh memory call) :
    ∃ next after outputs, step memory call = some (next, outputs) ∧
      abstractStep tree call = some (after, outputs) ∧ Represents next after := by
  cases call with
  | pushData value pnode =>
      obtain ⟨next, pushed, kept⟩ :=
        push_represents memory tree value pnode represents fresh.1 fresh.2
      exact ⟨next, _, [], by rw [step, pushed, Option.map_some], rfl, kept⟩
  | preorderPrint =>
      refine ⟨memory, tree, _, ?_, rfl, represents⟩
      rw [step, preorderPrint, represented_visited memory tree represents, Option.map_some,
        Option.map_some]

def pushCalls (pushes : List (Int × Ptr)) : List Call :=
  pushes.map fun push => .pushData push.1 push.2

/-- The values of these calls, with addresses that `new` can return for them. -/
structure Pushes (values : List Int) (pushes : List (Int × Ptr)) : Prop where
  values : pushes.map Prod.fst = values
  fresh : EveryStep step Memory.empty Fresh (pushCalls pushes)

def Builds (pushes : List (Int × Ptr)) (memory : Memory) (tree : BinaryTree (Ptr × Int)) : Prop :=
  run step Memory.empty (pushCalls pushes) = some (memory, []) ∧
    Planted memory.nodes memory.root tree

theorem abstract_pushes (tree : BinaryTree (Ptr × Int)) (pushes : List (Int × Ptr)) :
    run abstractStep tree (pushCalls pushes) =
      some (addAll Prod.snd tree (pushes.map Prod.swap), []) := by
  induction pushes generalizing tree with
  | nil => rfl
  | cons push rest ih =>
      exact (run_cons ..).mpr ⟨add Prod.snd push.swap tree, [], [], rfl, ih _, rfl⟩

theorem pushes_build (pushes : List (Int × Ptr))
    (fresh : EveryStep step Memory.empty Fresh (pushCalls pushes)) :
    ∃ memory, Builds pushes memory (addAll Prod.snd .nil (pushes.map Prod.swap)) ∧
      Represents memory (addAll Prod.snd .nil (pushes.map Prod.swap)) := by
  obtain ⟨memory, tree, outputs, taken, followed, represents⟩ := run_simulated step abstractStep
    Fresh Represents (fun memory tree call => step_refines memory tree call) Memory.empty .nil
    empty_represents (pushCalls pushes) fresh
  rw [abstract_pushes, Option.some.injEq, Prod.mk.injEq] at followed
  obtain ⟨rfl, rfl⟩ := followed
  exact ⟨memory, ⟨taken, represents.planted⟩, represents⟩

theorem swapped_values (pushes : List (Int × Ptr)) :
    (pushes.map Prod.swap).map Prod.snd = pushes.map Prod.fst := by
  rw [List.map_map]
  rfl

theorem pushes_places (pushes : List (Int × Ptr)) :
    (places (addAll Prod.snd .nil (pushes.map Prod.swap))).Perm (pushes.map Prod.snd) := by
  have same := (inorder_add_all Prod.snd .nil (pushes.map Prod.swap)).map Prod.fst
  rwa [inorder, List.append_nil, List.map_map] at same

/-- Nothing is freed, so `new` may return any different addresses. -/
theorem distinct_pushes (pushes : List (Int × Ptr)) (nonNull : NULL ∉ pushes.map Prod.snd)
    (distinct : (pushes.map Prod.snd).Nodup) :
    EveryStep step Memory.empty Fresh (pushCalls pushes) := by
  induction pushes using List.reverseRecOn with
  | nil => exact every_step_nil step Memory.empty Fresh
  | append_singleton earlier push ih =>
      rw [List.map_append, List.mem_append, not_or] at nonNull
      rw [List.map_append, List.nodup_append] at distinct
      have fresh := ih nonNull.1 distinct.1
      obtain ⟨memory, builds, represents⟩ := pushes_build earlier fresh
      rw [pushCalls, List.map_append]
      refine (every_step_snoc ..).mpr ⟨fresh, fun state outputs reached => ?_⟩
      obtain ⟨rfl, -⟩ : memory = state ∧ [] = outputs := by
        simpa using builds.1.symm.trans reached
      refine ⟨fun null => nonNull.2 (by simp [null]), fun inside => ?_⟩
      rw [represents.allocated, (pushes_places earlier).mem_iff] at inside
      exact distinct.2.2 push.2 inside push.2 (by simp) rfl

theorem pushes_print (values : List Int) (pushes : List (Int × Ptr)) (pushed : Pushes values pushes) :
    ∃ memory tree sorted, Builds pushes memory tree ∧ Ordered Prod.snd tree ∧
      preorderPrint memory = some (printed sorted) ∧ sorted.Pairwise (· ≤ ·) ∧ sorted.Perm values := by
  obtain ⟨memory, builds, represents⟩ := pushes_build pushes pushed.fresh
  have ordered : Ordered Prod.snd (addAll Prod.snd .nil (pushes.map Prod.swap)) :=
    add_all_ordered Prod.snd .nil _ trivial
  refine ⟨memory, _, _, builds, ordered, ?_, (inorder_sorted Prod.snd _ ordered).pairwise, ?_⟩
  · rw [preorderPrint, represented_visited memory _ represents, Option.map_some]
    rfl
  · have same := (inorder_add_all Prod.snd .nil (pushes.map Prod.swap)).map Prod.snd
    rwa [inorder, List.append_nil, swapped_values, pushed.values] at same

/-- Whatever is pushed, the nodes form a search tree, and the values come out in
order, each as often as it was pushed; the order of the pushes does not show. -/
theorem pushed_values_print_sorted (values : List Int) (pushes : List (Int × Ptr))
    (pushed : Pushes values pushes) :
    ∃ memory tree, ∃ sorted : List Int, Builds pushes memory tree ∧ Ordered Prod.snd tree ∧
      preorderPrint memory =
        some (String.join (sorted.map fun value => toString value ++ " ") ++ "\n") ∧
      sorted.Pairwise (· ≤ ·) ∧ sorted.Perm values ∧
      ∀ others reordered, Pushes others reordered → others.Perm values →
        ∃ final last, Builds reordered final last ∧
          preorderPrint final =
            some (String.join (sorted.map fun value => toString value ++ " ") ++ "\n") := by
  obtain ⟨memory, tree, sorted, builds, ordered, prints, increasing, perm⟩ :=
    pushes_print values pushes pushed
  refine ⟨memory, tree, sorted, builds, ordered, prints, increasing, perm, ?_⟩
  intro others reordered again same
  obtain ⟨final, last, text, follows, -, shown, rising, arranged⟩ :=
    pushes_print others reordered again
  have equal : text = sorted :=
    List.Perm.eq_of_pairwise (fun _ _ _ _ => Int.le_antisymm) rising increasing
      (arranged.trans (same.trans perm.symm))
  exact ⟨final, last, follows, equal ▸ shown⟩

theorem two_orders_print_alike :
    ∃ memory final, run step Memory.empty (pushCalls [(3, 1), (-1, 2), (3, 3)]) = some (memory, []) ∧
      run step Memory.empty (pushCalls [(3, 7), (3, 5), (-1, 9)]) = some (final, []) ∧
      preorderPrint memory = some "-1 3 3 \n" ∧ preorderPrint final = some "-1 3 3 \n" := by
  have one : Pushes [3, -1, 3] [(3, 1), (-1, 2), (3, 3)] :=
    ⟨rfl, distinct_pushes _ (by decide) (by decide)⟩
  have two : Pushes [3, 3, -1] [(3, 7), (3, 5), (-1, 9)] :=
    ⟨rfl, distinct_pushes _ (by decide) (by decide)⟩
  obtain ⟨memory, tree, sorted, builds, -, prints, rising, perm, others⟩ :=
    pushed_values_print_sorted [3, -1, 3] _ one
  obtain ⟨final, last, follows, shown⟩ := others [3, 3, -1] _ two (by decide)
  have known : sorted = [-1, 3, 3] :=
    List.Perm.eq_of_pairwise (fun _ _ _ _ => Int.le_antisymm) rising (by decide)
      (perm.trans (by decide))
  rw [known] at prints shown
  exact ⟨memory, final, builds.1, follows.1, prints, shown⟩

theorem earlier_pushes (pushes earlier : List (Int × Ptr)) (shorter : earlier <+: pushes)
    (fresh : EveryStep step Memory.empty Fresh (pushCalls pushes)) :
    EveryStep step Memory.empty Fresh (pushCalls earlier) :=
  fun past call reached => fresh past call (reached.trans (shorter.map _))

/-- The first value is the root, and the later ones fall into the trees of the
smaller and of the other values, pushed in their order. Each push on the way
adds one leaf and moves nothing. -/
theorem pushed_tree_partitioned (x : Int) (xs : List Int) (whole smaller larger : List (Int × Ptr))
    (all : Pushes (x :: xs) whole) (below : Pushes (xs.filter fun value => value < x) smaller)
    (above : Pushes (xs.filter fun value => ¬ value < x) larger) :
    (∃ memory tree leftMemory left rightMemory right, Builds whole memory tree ∧
      Builds smaller leftMemory left ∧ Builds larger rightMemory right ∧
      tree.map Prod.snd = .node x (left.map Prod.snd) (right.map Prod.snd)) ∧
    ∀ earlier push, earlier ++ [push] <+: whole → ∃ memory tree next grown path,
      Builds earlier memory tree ∧ Builds (earlier ++ [push]) next grown ∧
        AddsLeaf push.swap tree grown path := by
  have shape : ∀ values pushes, Pushes values pushes → ∃ memory tree, Builds pushes memory tree ∧
      tree.map Prod.snd = addAll id .nil values := by
    intro values pushes pushed
    obtain ⟨memory, builds, -⟩ := pushes_build pushes pushed.fresh
    refine ⟨memory, _, builds, ?_⟩
    rw [add_all_map, swapped_values, pushed.values]
    rfl
  constructor
  · obtain ⟨memory, tree, builds, same⟩ := shape _ whole all
    obtain ⟨leftMemory, left, buildsLeft, sameLeft⟩ := shape _ smaller below
    obtain ⟨rightMemory, right, buildsRight, sameRight⟩ := shape _ larger above
    refine ⟨memory, tree, leftMemory, left, rightMemory, right, builds, buildsLeft, buildsRight, ?_⟩
    rw [same, sameLeft, sameRight]
    exact add_all_node id x .nil .nil xs
  · intro earlier push reached
    obtain ⟨memory, builds, -⟩ := pushes_build earlier
      (earlier_pushes whole earlier ((List.prefix_append earlier [push]).trans reached) all.fresh)
    obtain ⟨next, follows, -⟩ := pushes_build (earlier ++ [push])
      (earlier_pushes whole _ reached all.fresh)
    obtain ⟨path, adds⟩ := add_adds_leaf Prod.snd push.swap
      (addAll Prod.snd .nil (earlier.map Prod.swap))
    rw [List.map_append, addAll, List.foldl_append] at follows
    exact ⟨memory, _, next, _, path, builds, follows, adds⟩

theorem root_value_pushed_again :
    ∃ memory tree leftMemory left rightMemory right,
      Builds [(2, 1), (1, 2), (3, 3), (2, 4)] memory tree ∧ Builds [(1, 5)] leftMemory left ∧
      Builds [(3, 6), (2, 7)] rightMemory right ∧
      tree.map Prod.snd = .node 2 (left.map Prod.snd) (right.map Prod.snd) :=
  (pushed_tree_partitioned 2 [1, 3, 2] [(2, 1), (1, 2), (3, 3), (2, 4)] [(1, 5)] [(3, 6), (2, 7)]
    ⟨rfl, distinct_pushes _ (by decide) (by decide)⟩
    ⟨rfl, distinct_pushes _ (by decide) (by decide)⟩
    ⟨rfl, distinct_pushes _ (by decide) (by decide)⟩).1

end Practise.BinaryTreePush
