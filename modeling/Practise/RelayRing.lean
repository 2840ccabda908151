import Practise.Machine

/-! Two parties that pass on the bytes they get, joined into a ring by two
channels that keep the order. Whatever is in the ring goes round for ever. The
bytes are counted where they come back to the left party: the ring is then
determined by what was put into it and by what has come back. -/
namespace Practise.RelayRing
open Machine
variable {Byte State Label Output : Type}

/-- A machine with the bytes that its outputs take in and give out, and the
bytes that a state holds back. -/
structure Relay (Byte State Label Output : Type) where
  step : Step State Label Output
  taken : List Output → List Byte
  given : List Output → List Byte
  held : State → List Byte

/-- No byte is lost, invented or overtaken between the two states. -/
def Relay.PassesOn (relay : Relay Byte State Label Output) (state : State)
    (outputs : List Output) (next : State) : Prop :=
  relay.held state ++ relay.taken outputs = relay.given outputs ++ relay.held next

/-- From good states, admitted labels pass on every byte, and some of them are
known to move at least one. -/
structure Relay.Lawful (relay : Relay Byte State Label Output) (good : State → Prop)
    (admitted : Label → Prop) (moves : Label → Bool) : Prop where
  kept : ∀ state label next outputs, good state → admitted label →
    relay.step state label = some (next, outputs) → good next
  passes : ∀ state label next outputs, good state → admitted label →
    relay.step state label = some (next, outputs) → relay.PassesOn state outputs next
  moving : ∀ state label next outputs, relay.step state label = some (next, outputs) →
    moves label = true → 0 < (relay.taken outputs).length + (relay.given outputs).length

variable {Left Right LeftLabel RightLabel LeftOutput RightOutput : Type}

structure Ring (Byte Left Right : Type) where
  left : Left
  right : Right
  toLeft : List Byte
  toRight : List Byte

inductive Turn (LeftLabel RightLabel : Type) where
  | left (label : LeftLabel)
  | right (label : RightLabel)

section Step
variable [DecidableEq Byte] (left : Relay Byte Left LeftLabel LeftOutput)
  (right : Relay Byte Right RightLabel RightOutput)

/-- A party takes bytes from the front of its channel only. The output is what
comes back to the left party. -/
def ringStep : Step (Ring Byte Left Right) (Turn LeftLabel RightLabel) Byte
  | ring, .left label =>
      (left.step ring.left label).bind fun moved =>
        if left.taken moved.2 <+: ring.toLeft then
          some ({ left := moved.1
                  right := ring.right
                  toLeft := ring.toLeft.drop (left.taken moved.2).length
                  toRight := ring.toRight ++ left.given moved.2 }, left.taken moved.2)
        else none
  | ring, .right label =>
      (right.step ring.right label).bind fun moved =>
        if right.taken moved.2 <+: ring.toRight then
          some ({ left := ring.left
                  right := moved.1
                  toLeft := ring.toLeft ++ right.given moved.2
                  toRight := ring.toRight.drop (right.taken moved.2).length }, [])
        else none

theorem left_turn_iff (ring next : Ring Byte Left Right) (label : LeftLabel) (back : List Byte) :
    ringStep left right ring (.left label) = some (next, back) ↔
      ∃ outputs, left.step ring.left label = some (next.left, outputs) ∧
        back = left.taken outputs ∧ next.right = ring.right ∧
        ring.toLeft = back ++ next.toLeft ∧
        next.toRight = ring.toRight ++ left.given outputs := by
  simp only [ringStep, Option.bind_eq_some_iff, Prod.exists]
  constructor
  · rintro ⟨state, outputs, moved, taken⟩
    split at taken
    · next ahead =>
      obtain ⟨rest, split⟩ := ahead
      simp only [Option.some.injEq, Prod.mk.injEq] at taken
      obtain ⟨rfl, rfl⟩ := taken
      exact ⟨outputs, moved, rfl, rfl, by simp [← split], rfl⟩
    · exact absurd taken (by simp)
  · rintro ⟨outputs, moved, rfl, same, split, sent⟩
    refine ⟨next.left, outputs, moved, ?_⟩
    rw [if_pos ⟨next.toLeft, split.symm⟩, split, List.drop_left, ← sent, ← same]

theorem right_turn_iff (ring next : Ring Byte Left Right) (label : RightLabel)
    (back : List Byte) :
    ringStep left right ring (.right label) = some (next, back) ↔
      ∃ outputs, right.step ring.right label = some (next.right, outputs) ∧
        back = [] ∧ next.left = ring.left ∧
        ring.toRight = right.taken outputs ++ next.toRight ∧
        next.toLeft = ring.toLeft ++ right.given outputs := by
  simp only [ringStep, Option.bind_eq_some_iff, Prod.exists]
  constructor
  · rintro ⟨state, outputs, moved, taken⟩
    split at taken
    · next ahead =>
      obtain ⟨rest, split⟩ := ahead
      simp only [Option.some.injEq, Prod.mk.injEq] at taken
      obtain ⟨rfl, rfl⟩ := taken
      exact ⟨outputs, moved, rfl, rfl, by simp [← split], rfl⟩
    · exact absurd taken (by simp)
  · rintro ⟨outputs, moved, rfl, same, split, sent⟩
    refine ⟨next.right, outputs, moved, ?_⟩
    rw [if_pos ⟨next.toRight, split.symm⟩, split, List.drop_left, ← sent, ← same]

/-- All bytes of the ring, those first that come back first. -/
def content (ring : Ring Byte Left Right) : List Byte :=
  ring.toLeft ++ right.held ring.right ++ ring.toRight ++ left.held ring.left

theorem left_turn_content (ring next : Ring Byte Left Right) (label : LeftLabel)
    (back : List Byte) (taken : ringStep left right ring (.left label) = some (next, back))
    (passes : ∀ outputs, left.step ring.left label = some (next.left, outputs) →
      left.PassesOn ring.left outputs next.left) :
    ∃ rest, content left right ring = back ++ rest ∧ content left right next = rest ++ back := by
  obtain ⟨outputs, moved, rfl, same, split, sent⟩ := (left_turn_iff ..).mp taken
  have passed : left.held ring.left ++ left.taken outputs =
      left.given outputs ++ left.held next.left := passes outputs moved
  refine ⟨next.toLeft ++ right.held ring.right ++ ring.toRight ++ left.held ring.left, ?_, ?_⟩
  · rw [content, split]
    simp
  · rw [content, same, sent, List.append_assoc (_ ++ _ ++ _) _ (left.taken outputs), passed]
    simp

theorem right_turn_content (ring next : Ring Byte Left Right) (label : RightLabel)
    (back : List Byte) (taken : ringStep left right ring (.right label) = some (next, back))
    (passes : ∀ outputs, right.step ring.right label = some (next.right, outputs) →
      right.PassesOn ring.right outputs next.right) :
    back = [] ∧ content left right next = content left right ring := by
  obtain ⟨outputs, moved, rfl, same, split, sent⟩ := (right_turn_iff ..).mp taken
  have passed : right.held ring.right ++ right.taken outputs =
      right.given outputs ++ right.held next.right := passes outputs moved
  refine ⟨rfl, ?_⟩
  rw [content, content, same, sent, split, List.append_assoc ring.toLeft, ← passed]
  simp

/-- How many steps forward the bytes can be moved before one has to come back:
from the left party into its channel, to the right party, and out of it. -/
def distance (ring : Ring Byte Left Right) : Nat :=
  3 * (left.held ring.left).length + 2 * ring.toRight.length + (right.held ring.right).length

theorem left_turn_distance (ring next : Ring Byte Left Right) (label : LeftLabel)
    (back : List Byte) (taken : ringStep left right ring (.left label) = some (next, back))
    (passes : ∀ outputs, left.step ring.left label = some (next.left, outputs) →
      left.PassesOn ring.left outputs next.left) :
    ∃ outputs, left.step ring.left label = some (next.left, outputs) ∧
      distance left right next + ((left.taken outputs).length + (left.given outputs).length) =
        distance left right ring + 4 * back.length := by
  obtain ⟨outputs, moved, rfl, same, -, sent⟩ := (left_turn_iff ..).mp taken
  have lengths := congrArg List.length (passes outputs moved)
  simp only [List.length_append] at lengths
  refine ⟨outputs, moved, ?_⟩
  rw [distance, distance, same, sent, List.length_append]
  omega

theorem right_turn_distance (ring next : Ring Byte Left Right) (label : RightLabel)
    (back : List Byte) (taken : ringStep left right ring (.right label) = some (next, back))
    (passes : ∀ outputs, right.step ring.right label = some (next.right, outputs) →
      right.PassesOn ring.right outputs next.right) :
    ∃ outputs, right.step ring.right label = some (next.right, outputs) ∧
      distance left right next + ((right.taken outputs).length + (right.given outputs).length) =
        distance left right ring := by
  obtain ⟨outputs, moved, -, same, split, -⟩ := (right_turn_iff ..).mp taken
  have lengths := congrArg List.length (passes outputs moved)
  have channel := congrArg List.length split
  simp only [List.length_append] at lengths channel
  refine ⟨outputs, moved, ?_⟩
  rw [distance, distance, same]
  omega

end Step

/-! What is in the ring, when some bytes were put in and some have come back. -/

def Circulates (sown returned inside : List Byte) : Prop :=
  sown ++ returned = returned ++ inside

theorem circulates_start (sown : List Byte) : Circulates sown [] sown := by
  simp [Circulates]

theorem circulates_turn (sown returned inside back rest after : List Byte)
    (circulates : Circulates sown returned inside) (before : inside = back ++ rest)
    (turned : after = rest ++ back) : Circulates sown (returned ++ back) after := by
  have whole : sown ++ returned = returned ++ inside := circulates
  calc sown ++ (returned ++ back)
    _ = returned ++ inside ++ back := by rw [← List.append_assoc, whole]
    _ = returned ++ back ++ after := by rw [before, turned]; simp

theorem circulates_perm (sown returned inside : List Byte)
    (circulates : Circulates sown returned inside) : inside.Perm sown := by
  have whole : sown ++ returned = returned ++ inside := circulates
  have both : (returned ++ inside).Perm (returned ++ sown) :=
    whole ▸ List.perm_append_comm
  exact (List.perm_append_left_iff returned).mp both

/-- What comes back is what was put in, over and over. -/
theorem circulates_periodic (sown returned inside : List Byte)
    (circulates : Circulates sown returned inside) (some : sown ≠ []) (index : Nat)
    (came : index < returned.length) : returned[index]? = sown[index % sown.length]? := by
  have whole : sown ++ returned = returned ++ inside := circulates
  have positive := List.length_pos_of_ne_nil some
  induction index using Nat.strong_induction_on with
  | _ index ih =>
      have here : (sown ++ returned)[index]? = returned[index]? := by
        rw [whole, List.getElem?_append_left came]
      by_cases first : index < sown.length
      · rw [← here, List.getElem?_append_left first, Nat.mod_eq_of_lt first]
      · rw [← here, List.getElem?_append_right (by omega), Nat.mod_eq_sub_mod (by omega)]
        exact ih (index - sown.length) (by omega) (by omega)

end Practise.RelayRing
