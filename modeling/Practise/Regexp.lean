import Mathlib.Data.List.Basic
import Mathlib.Data.List.Infix

/-! Regular expressions with groups, matched leftmost-first: at the leftmost
position where there is a match, the one that a backtracking search finds
first. The matches at a position are listed in the order of that search. -/
namespace Practise.Regexp
variable {Symbol : Type}

inductive Pattern (Symbol : Type) where
  | empty
  | single (accepts : Symbol → Bool)
  | seq (first second : Pattern Symbol)
  | alt (first second : Pattern Symbol)
  | plus (body : Pattern Symbol)
  | group (index : Nat) (body : Pattern Symbol)

/-- A match at the front of a text: what it takes, what it leaves, and what its
groups have taken. -/
structure Match (Symbol : Type) where
  taken : List Symbol
  rest : List Symbol
  groups : List (Nat × List Symbol)
  deriving DecidableEq

def Match.andThen (one two : Match Symbol) : Match Symbol :=
  ⟨one.taken ++ two.taken, two.rest, one.groups ++ two.groups⟩

/-- The last text of a group, which is empty if the group took no part. -/
def Match.submatch (one : Match Symbol) (index : Nat) : List Symbol :=
  (one.groups.reverse.lookup index).getD []

/-- One or more times the body, more often before less often. A repetition that
takes nothing is the last one. -/
def greedy (body : List Symbol → List (Match Symbol)) :
    Nat → List Symbol → List (Match Symbol)
  | 0, text => body text
  | fuel + 1, text => (body text).flatMap fun one =>
      (if one.taken.isEmpty then [] else (greedy body fuel one.rest).map one.andThen) ++ [one]

def Pattern.ways : Pattern Symbol → List Symbol → List (Match Symbol)
  | .empty, text => [⟨[], text, []⟩]
  | .single _, [] => []
  | .single accepts, symbol :: rest => if accepts symbol then [⟨[symbol], rest, []⟩] else []
  | .seq first second, text =>
      (first.ways text).flatMap fun one => (second.ways one.rest).map one.andThen
  | .alt first second, text => first.ways text ++ second.ways text
  | .plus body, text => greedy body.ways text.length text
  | .group index body, text =>
      (body.ways text).map fun one => { one with groups := one.groups ++ [(index, one.taken)] }

def find (pattern : Pattern Symbol) : List Symbol → Option (List Symbol × Match Symbol)
  | [] => (pattern.ways []).head?.map fun one => ([], one)
  | symbol :: rest =>
      match (pattern.ways (symbol :: rest)).head? with
      | some one => some ([], one)
      | none => (find pattern rest).map fun found => (symbol :: found.1, found.2)

/-- The successive matches that do not overlap. `ended` says that a match has
ended just here: an empty match is then left out. -/
def findAllFrom (pattern : Pattern Symbol) : Nat → Bool → List Symbol → List (Match Symbol)
  | 0, _, _ => []
  | fuel + 1, ended, text =>
      match find pattern text with
      | none => []
      | some (skipped, one) =>
          if skipped.isEmpty && one.taken.isEmpty then
            (if ended then [] else [one]) ++
              match text with
              | [] => []
              | _ :: rest => findAllFrom pattern fuel false rest
          else one :: findAllFrom pattern fuel true one.rest

/-- Every search goes on further right, so the fuel suffices. -/
def findAll (pattern : Pattern Symbol) (text : List Symbol) : List (Match Symbol) :=
  findAllFrom pattern (text.length + 1) false text

section Literal
variable [DecidableEq Symbol]

def literal : List Symbol → Pattern Symbol
  | [] => .empty
  | symbol :: rest => .seq (.single fun other => other = symbol) (literal rest)

theorem literal_here (word rest : List Symbol) :
    (literal word).ways (word ++ rest) = [⟨word, rest, []⟩] := by
  induction word with
  | nil => rfl
  | cons symbol word ih => simp [literal, Pattern.ways, ih, Match.andThen]

theorem literal_absent (word text : List Symbol) (absent : ¬ word <+: text) :
    (literal word).ways text = [] := by
  induction word generalizing text with
  | nil => exact absurd (List.nil_prefix) absent
  | cons symbol word ih =>
      cases text with
      | nil => rfl
      | cons other rest =>
          by_cases same : other = symbol
          · subst same
            have further : ¬ word <+: rest := fun shorter =>
              absent (List.cons_prefix_cons.mpr ⟨rfl, shorter⟩)
            simp [literal, Pattern.ways, ih rest further]
          · simp [literal, Pattern.ways, same]

theorem literal_sound (word text : List Symbol) (one : Match Symbol)
    (way : one ∈ (literal word).ways text) : text = word ++ one.rest := by
  by_cases ahead : word <+: text
  · obtain ⟨rest, rfl⟩ := ahead
    rw [literal_here, List.mem_singleton] at way
    rw [way]
  · rw [literal_absent word text ahead] at way
    exact nomatch way

end Literal

/-- Only the longest run of a class counts, if what follows cannot go on with a
symbol of the class. -/
theorem greedy_run {Result : Type} (accepts : Symbol → Bool) (fuel : Nat) (text : List Symbol)
    (enough : text.length ≤ fuel) (follow : Match Symbol → List Result)
    (stuck : ∀ one symbol rest, one.rest = symbol :: rest → accepts symbol = true →
      follow one = []) :
    (greedy (Pattern.single accepts).ways fuel text).flatMap follow =
      if text.takeWhile accepts = [] then []
      else follow ⟨text.takeWhile accepts, text.dropWhile accepts, []⟩ := by
  induction text generalizing fuel follow with
  | nil => cases fuel <;> rfl
  | cons symbol rest ih =>
      obtain ⟨fuel, rfl⟩ := Nat.exists_eq_add_one_of_ne_zero
        (Nat.ne_zero_of_lt (Nat.lt_of_lt_of_le (Nat.succ_pos _) enough))
      cases accepted : accepts symbol with
      | false => simp [greedy, Pattern.ways, accepted]
      | true =>
          have further := ih fuel (Nat.le_of_succ_le_succ enough)
            (fun one => follow (Match.andThen ⟨[symbol], rest, []⟩ one))
            fun one next behind left => stuck _ next behind left
          have split : (greedy (Pattern.single accepts).ways (fuel + 1) (symbol :: rest)).flatMap
              follow = (greedy (Pattern.single accepts).ways fuel rest).flatMap
                (fun one => follow (Match.andThen ⟨[symbol], rest, []⟩ one)) ++
                  follow ⟨[symbol], rest, []⟩ := by
            simp [greedy, Pattern.ways, accepted, List.flatMap_map]
          rw [split, further, List.takeWhile_cons_of_pos accepted,
            List.dropWhile_cons_of_pos accepted, if_neg (List.cons_ne_nil _ _)]
          cases rest with
          | nil => rfl
          | cons next behind =>
              cases goes : accepts next with
              | false =>
                  rw [List.takeWhile_cons_of_neg (by simp [goes]),
                    List.dropWhile_cons_of_neg (by simp [goes]), if_pos rfl, List.nil_append]
              | true =>
                  rw [stuck ⟨[symbol], next :: behind, []⟩ next behind rfl goes, List.append_nil,
                    List.takeWhile_cons_of_pos goes, if_neg (List.cons_ne_nil _ _)]
                  rfl

/-! The leftmost match, and the search after it. -/

theorem find_first (pattern : Pattern Symbol) (before after : List Symbol) (one : Match Symbol)
    (more : List (Match Symbol)) (here : pattern.ways after = one :: more)
    (leftmost : ∀ first second, before = first ++ second → second ≠ [] →
      pattern.ways (second ++ after) = []) :
    find pattern (before ++ after) = some (before, one) := by
  induction before with
  | nil =>
      rw [List.nil_append]
      cases after with
      | nil => rw [find, here, List.head?_cons, Option.map_some]
      | cons symbol rest => rw [find, here, List.head?_cons]
  | cons symbol before ih =>
      have none := leftmost [] (symbol :: before) rfl (List.cons_ne_nil _ _)
      rw [List.cons_append] at none ⊢
      rw [find, none, List.head?_nil, ih, Option.map_some]
      rintro first second rfl nonempty
      exact leftmost (symbol :: first) second rfl nonempty

theorem find_none (pattern : Pattern Symbol) (text : List Symbol)
    (nowhere : ∀ before after, text = before ++ after → pattern.ways after = []) :
    find pattern text = none := by
  induction text with
  | nil => rw [find, nowhere [] [] rfl, List.head?_nil, Option.map_none]
  | cons symbol rest ih =>
      rw [find, nowhere [] (symbol :: rest) rfl, List.head?_nil, ih, Option.map_none]
      rintro before after rfl
      exact nowhere (symbol :: before) after rfl

theorem find_cases (pattern : Pattern Symbol) (text : List Symbol) :
    (∀ before after, text = before ++ after → pattern.ways after = []) ∨
      ∃ before after one more, text = before ++ after ∧ pattern.ways after = one :: more ∧
        ∀ first second, before = first ++ second → second ≠ [] →
          pattern.ways (second ++ after) = [] := by
  induction text with
  | nil =>
      cases here : pattern.ways [] with
      | nil =>
          refine Or.inl fun before after split => ?_
          rw [(List.append_eq_nil_iff.mp split.symm).2, here]
      | cons one more =>
          refine Or.inr ⟨[], [], one, more, rfl, here, fun first second split nonempty => ?_⟩
          exact absurd (List.append_eq_nil_iff.mp split.symm).2 nonempty
  | cons symbol rest ih =>
      cases here : pattern.ways (symbol :: rest) with
      | cons one more =>
          refine Or.inr ⟨[], symbol :: rest, one, more, rfl, here, fun first second split nonempty => ?_⟩
          exact absurd (List.append_eq_nil_iff.mp split.symm).2 nonempty
      | nil =>
          rcases ih with nowhere | ⟨before, after, one, more, rfl, found, leftmost⟩
          · refine Or.inl fun before after split => ?_
            cases before with
            | nil => rw [← split.trans (List.nil_append after), here]
            | cons other before => exact nowhere before after (List.cons.inj split).2
          · refine Or.inr ⟨symbol :: before, after, one, more, rfl, found, ?_⟩
            intro first second split nonempty
            cases first with
            | nil =>
                rw [List.nil_append] at split
                rw [← split]
                exact here
            | cons other first => exact leftmost first second (List.cons.inj split).2 nonempty

theorem find_all_none (pattern : Pattern Symbol) (fuel : Nat) (ended : Bool)
    (text : List Symbol) (nowhere : find pattern text = none) :
    findAllFrom pattern fuel ended text = [] := by
  cases fuel with
  | zero => rfl
  | succ fuel => simp only [findAllFrom, nowhere]

theorem find_all_some (pattern : Pattern Symbol) (fuel : Nat) (ended : Bool)
    (text before : List Symbol) (one : Match Symbol)
    (found : find pattern text = some (before, one)) (taken : one.taken ≠ []) :
    findAllFrom pattern (fuel + 1) ended text = one :: findAllFrom pattern fuel true one.rest := by
  have nonempty : one.taken.isEmpty = false := by simpa using taken
  simp only [findAllFrom, found, nonempty, Bool.and_false, Bool.false_eq_true, ↓reduceIte]

end Practise.Regexp
