import Mathlib.Data.List.Infix

/-! Runs of a deterministic machine whose labels carry every choice of its
environment. A label the machine cannot take in a state is refused, so a run
exists only for label sequences that the environment can really produce.
Outputs are collected in order along the run. -/
namespace Practise.Machine
variable {State Label Output : Type}

abbrev Step (State Label Output : Type) := State → Label → Option (State × List Output)

def run (step : Step State Label Output) : State → List Label → Option (State × List Output)
  | state, [] => some (state, [])
  | state, label :: rest =>
      (step state label).bind fun taken =>
        (run step taken.1 rest).map fun final => (final.1, taken.2 ++ final.2)

def EveryPoint (step : Step State Label Output) (start : State)
    (good : State → List Output → Prop) (labels : List Label) : Prop :=
  ∀ past, past <+: labels → ∀ state outputs,
    run step start past = some (state, outputs) → good state outputs

def EveryStep (step : Step State Label Output) (start : State)
    (condition : State → Label → Prop) (labels : List Label) : Prop :=
  ∀ past label, past ++ [label] <+: labels → ∀ state outputs,
    run step start past = some (state, outputs) → condition state label

theorem run_cons (step : Step State Label Output) (start final : State)
    (label : Label) (rest : List Label) (outputs : List Output) :
    run step start (label :: rest) = some (final, outputs) ↔
      ∃ next first later, step start label = some (next, first) ∧
        run step next rest = some (final, later) ∧ outputs = first ++ later := by
  simp only [run, Option.bind_eq_some_iff, Option.map_eq_some_iff, Prod.exists, Prod.mk.injEq]
  constructor
  · rintro ⟨next, first, taken, last, later, tail, rfl, rfl⟩
    exact ⟨next, first, later, taken, tail, rfl⟩
  · rintro ⟨next, first, later, taken, tail, rfl⟩
    exact ⟨next, first, taken, final, later, tail, rfl, rfl⟩

theorem run_append (step : Step State Label Output) (start final : State)
    (before after : List Label) (outputs : List Output) :
    run step start (before ++ after) = some (final, outputs) ↔
      ∃ middle first later, run step start before = some (middle, first) ∧
        run step middle after = some (final, later) ∧ outputs = first ++ later := by
  induction before generalizing start outputs with
  | nil =>
      simp only [List.nil_append, run, Option.some.injEq, Prod.mk.injEq]
      constructor
      · intro taken
        exact ⟨start, [], outputs, ⟨rfl, rfl⟩, taken, rfl⟩
      · rintro ⟨middle, first, later, ⟨rfl, rfl⟩, taken, rfl⟩
        exact taken
  | cons label rest ih =>
      rw [List.cons_append, run_cons]
      constructor
      · rintro ⟨next, first, later, taken, tail, rfl⟩
        obtain ⟨middle, second, third, head, last, rfl⟩ := (ih next later).mp tail
        exact ⟨middle, first ++ second, third,
          (run_cons ..).mpr ⟨next, first, second, taken, head, rfl⟩, last,
          (List.append_assoc ..).symm⟩
      · rintro ⟨middle, first, later, head, last, rfl⟩
        obtain ⟨next, one, two, taken, tail, rfl⟩ := (run_cons ..).mp head
        exact ⟨next, one, two ++ later, taken,
          (ih next _).mpr ⟨middle, two, later, tail, last, rfl⟩, List.append_assoc ..⟩

theorem run_snoc (step : Step State Label Output) (start final : State)
    (past : List Label) (label : Label) (outputs : List Output) :
    run step start (past ++ [label]) = some (final, outputs) ↔
      ∃ middle first last, run step start past = some (middle, first) ∧
        step middle label = some (final, last) ∧ outputs = first ++ last := by
  rw [run_append]
  constructor
  · rintro ⟨middle, first, later, head, last, rfl⟩
    obtain ⟨next, one, two, taken, tail, rfl⟩ := (run_cons ..).mp last
    simp only [run, Option.some.injEq, Prod.mk.injEq] at tail
    obtain ⟨rfl, rfl⟩ := tail
    exact ⟨middle, first, one, head, taken, by simp⟩
  · rintro ⟨middle, first, last, head, taken, rfl⟩
    exact ⟨middle, first, last, head,
      (run_cons ..).mpr ⟨final, last, [], taken, rfl, (List.append_nil last).symm⟩, rfl⟩

theorem run_prefix (step : Step State Label Output) (start : State)
    (past labels : List Label) (reached : past <+: labels)
    (taken : (run step start labels).isSome) :
    ∃ state outputs, run step start past = some (state, outputs) := by
  obtain ⟨rest, rfl⟩ := reached
  obtain ⟨⟨final, outputs⟩, taken⟩ := Option.isSome_iff_exists.mp taken
  obtain ⟨middle, first, _, head, _, _⟩ := (run_append ..).mp taken
  exact ⟨middle, first, head⟩

theorem every_step_snoc (step : Step State Label Output) (start : State)
    (condition : State → Label → Prop) (past : List Label) (label : Label) :
    EveryStep step start condition (past ++ [label]) ↔
      EveryStep step start condition past ∧ ∀ state outputs,
        run step start past = some (state, outputs) → condition state label := by
  constructor
  · intro meets
    exact ⟨fun earlier other short =>
      meets earlier other (short.trans (List.prefix_append past [label])),
      meets past label (List.prefix_refl _)⟩
  · rintro ⟨before, last⟩ earlier other short
    rcases List.prefix_concat_iff.mp short with same | shorter
    · obtain ⟨rfl, rfl⟩ : earlier = past ∧ other = label := by
        simpa using List.append_inj' same rfl
      exact last
    · exact before earlier other shorter

theorem every_step_nil (step : Step State Label Output) (start : State)
    (condition : State → Label → Prop) : EveryStep step start condition [] := by
  intro past label reached
  simp at reached

theorem every_step_cons (step : Step State Label Output) (start next : State)
    (condition : State → Label → Prop) (label : Label) (rest : List Label)
    (outputs : List Output) (taken : step start label = some (next, outputs))
    (first : condition start label) (later : EveryStep step next condition rest) :
    EveryStep step start condition (label :: rest) := by
  intro past other reached state replies head
  cases past with
  | nil =>
      obtain ⟨rfl, -⟩ := List.cons_prefix_cons.mp reached
      simp only [run, Option.some.injEq, Prod.mk.injEq] at head
      exact head.1 ▸ first
  | cons earlier past =>
      obtain ⟨rfl, shorter⟩ := List.cons_prefix_cons.mp reached
      obtain ⟨middle, one, two, moved, tail, -⟩ := (run_cons ..).mp head
      obtain ⟨rfl, rfl⟩ : middle = next ∧ one = outputs := by
        simpa using moved.symm.trans taken
      exact later past other shorter state two tail

theorem every_step_append (step : Step State Label Output) (start middle : State)
    (condition : State → Label → Prop) (before after : List Label) (outputs : List Output)
    (taken : run step start before = some (middle, outputs))
    (first : EveryStep step start condition before)
    (later : EveryStep step middle condition after) :
    EveryStep step start condition (before ++ after) := by
  induction after using List.reverseRecOn with
  | nil => simpa using first
  | append_singleton after label ih =>
      obtain ⟨earlier, last⟩ := (every_step_snoc ..).mp later
      rw [← List.append_assoc]
      refine (every_step_snoc ..).mpr ⟨ih earlier, fun state replies reached => ?_⟩
      obtain ⟨next, one, two, head, tail, rfl⟩ := (run_append ..).mp reached
      obtain ⟨rfl, rfl⟩ : next = middle ∧ one = outputs := by
        simpa using head.symm.trans taken
      exact last state two tail

theorem run_total (step : Step State Label Output) (total : ∀ state label, (step state label).isSome)
    (start : State) (labels : List Label) :
    ∃ final outputs, run step start labels = some (final, outputs) := by
  induction labels generalizing start with
  | nil => exact ⟨start, [], rfl⟩
  | cons label rest ih =>
      obtain ⟨⟨next, first⟩, taken⟩ := Option.isSome_iff_exists.mp (total start label)
      obtain ⟨final, later, tail⟩ := ih next
      exact ⟨final, first ++ later, (run_cons ..).mpr ⟨next, first, later, taken, tail, rfl⟩⟩

theorem every_step_of_labels (step : Step State Label Output) (start : State)
    (allowed : Label → Prop) (labels : List Label)
    (all : ∀ label ∈ labels, allowed label) :
    EveryStep step start (fun _ => allowed) labels := by
  intro past label reached _ _ _
  exact all label (reached.subset (by simp))

/-- For a run that does not stop early it is also necessary. -/
theorem every_step_labels_iff (step : Step State Label Output) (start : State)
    (allowed : Label → Prop) (labels : List Label) (taken : (run step start labels).isSome) :
    EveryStep step start (fun _ => allowed) labels ↔ ∀ label ∈ labels, allowed label := by
  constructor
  · intro meets label member
    obtain ⟨past, rest, rfl⟩ := List.append_of_mem member
    have reached : past ++ [label] <+: past ++ label :: rest := ⟨rest, by simp⟩
    obtain ⟨state, outputs, head⟩ := run_prefix step start past _ (List.prefix_append past _) taken
    exact meets past label reached state outputs head
  · exact every_step_of_labels step start allowed labels

/-- Invariant rule. The invariant may speak of the outputs produced so far,
and each step may use the condition that the run is known to meet. -/
theorem run_invariant (step : Step State Label Output) (start : State)
    (condition : State → Label → Prop) (inv : State → List Output → Prop)
    (initial : inv start [])
    (kept : ∀ state past label next outputs, inv state past → condition state label →
      step state label = some (next, outputs) → inv next (past ++ outputs))
    (labels : List Label) (meets : EveryStep step start condition labels) :
    EveryPoint step start inv labels := by
  intro past
  induction past using List.reverseRecOn with
  | nil =>
      intro _ state outputs taken
      simp only [run, Option.some.injEq, Prod.mk.injEq] at taken
      obtain ⟨rfl, rfl⟩ := taken
      exact initial
  | append_singleton past label ih =>
      intro reached state outputs taken
      obtain ⟨middle, first, last, head, final, rfl⟩ := (run_snoc ..).mp taken
      have earlier := ih ((List.prefix_append past [label]).trans reached) middle first head
      exact kept middle first label state last earlier
        (meets past label reached middle first head) final

/-- The rule without a condition, for the state that a run ends in. -/
theorem run_keeps (step : Step State Label Output) (inv : State → Prop)
    (kept : ∀ state next label outputs, inv state →
      step state label = some (next, outputs) → inv next)
    (start final : State) (initial : inv start) (labels : List Label) (outputs : List Output)
    (taken : run step start labels = some (final, outputs)) : inv final := by
  refine run_invariant step start (fun _ _ => True) (fun state _ => inv state) initial ?_ labels
    (every_step_of_labels step start _ labels fun _ _ => trivial) labels (List.prefix_refl _) final
    outputs taken
  intro state _ label next outputs holds _ moved
  exact kept state next label outputs holds moved

/-- Exact condition rule. If the condition keeps the property and every step
that fails it destroys the property at once, then the property holds along a
run exactly when all its steps meet the condition. -/
theorem every_point_iff (step : Step State Label Output) (start : State)
    (admitted : Label → Prop) (condition : State → Label → Prop)
    (inv good : State → List Output → Prop) (initial : inv start [])
    (strong : ∀ state past, inv state past → good state past)
    (kept : ∀ state past label next outputs, inv state past → admitted label →
      condition state label → step state label = some (next, outputs) →
      inv next (past ++ outputs))
    (broken : ∀ state past label next outputs, inv state past → admitted label →
      ¬ condition state label → step state label = some (next, outputs) →
      ¬ good next (past ++ outputs))
    (labels : List Label) (all : ∀ label ∈ labels, admitted label)
    (taken : (run step start labels).isSome) :
    EveryPoint step start good labels ↔ EveryStep step start condition labels := by
  -- Up to any prefix that meets the condition the invariant holds.
  have invariant : ∀ past, past <+: labels → EveryStep step start condition past →
      EveryPoint step start inv past := by
    intro past reached meets
    refine run_invariant step start (fun state label => admitted label ∧ condition state label)
      inv initial (fun state past label next outputs holds both =>
        kept state past label next outputs holds both.1 both.2) past ?_
    intro earlier label short state outputs head
    exact ⟨all label ((short.trans reached).subset (by simp)),
      meets earlier label short state outputs head⟩
  constructor
  · intro holds
    -- By induction on the prefix: all earlier steps meet the condition, so the
    -- invariant is available just before the step under consideration.
    suffices meets : ∀ past, past <+: labels → EveryStep step start condition past from
      meets labels (List.prefix_refl _)
    intro past
    induction past using List.reverseRecOn with
    | nil =>
        intro _ earlier label reached
        simp at reached
    | append_singleton past label ih =>
        intro reached
        have before := ih ((List.prefix_append past [label]).trans reached)
        refine (every_step_snoc ..).mpr ⟨before, fun state first head => ?_⟩
        have earlier := invariant past ((List.prefix_append past [label]).trans reached) before
          past (List.prefix_refl _) state first head
        obtain ⟨next, outputs, total⟩ := run_prefix step start _ labels reached taken
        obtain ⟨middle, one, last, again, final, rfl⟩ := (run_snoc ..).mp total
        obtain ⟨rfl, rfl⟩ : middle = state ∧ one = first := by
          simpa using again.symm.trans head
        by_contra fails
        exact broken middle one label next last earlier (all label (reached.subset (by simp)))
          fails final (holds _ reached next _ total)
  · intro meets past reached state outputs taken
    exact strong state outputs
      (invariant labels (List.prefix_refl _) meets past reached state outputs taken)

/-- Projection rule. A relation is kept by taking a shown label on both sides
and by taking a hidden label on the left only, where it outputs nothing
shown. Then deleting the hidden labels from a run leaves a run of the same
machine with the same shown outputs. -/
theorem run_projected (step : Step State Label Output) (keep : Label → Bool)
    (shown : Output → Bool) (condition : State → Label → Prop)
    (related : State → State → Prop)
    (matched : ∀ left right label next outputs, related left right →
      condition left label → keep label = true → step left label = some (next, outputs) →
      ∃ after replies, step right label = some (after, replies) ∧ related next after ∧
        replies.filter shown = outputs.filter shown)
    (silent : ∀ left right label next outputs, related left right →
      condition left label → keep label = false → step left label = some (next, outputs) →
      related next right ∧ outputs.filter shown = [])
    (left right : State) (begun : related left right)
    (labels : List Label) (meets : EveryStep step left condition labels)
    (final : State) (outputs : List Output) (taken : run step left labels = some (final, outputs)) :
    ∃ last replies, run step right (labels.filter keep) = some (last, replies) ∧
      related final last ∧ replies.filter shown = outputs.filter shown := by
  induction labels using List.reverseRecOn generalizing final outputs with
  | nil =>
      simp only [run, Option.some.injEq, Prod.mk.injEq] at taken
      obtain ⟨rfl, rfl⟩ := taken
      exact ⟨right, [], rfl, begun, rfl⟩
  | append_singleton past label ih =>
      obtain ⟨before, here⟩ := (every_step_snoc ..).mp meets
      obtain ⟨middle, first, last, head, step, rfl⟩ := (run_snoc ..).mp taken
      obtain ⟨mirror, replies, follows, relation, same⟩ := ih before middle first head
      have allowed := here middle first head
      -- A shown label is taken by the mirror too, a hidden one is dropped.
      cases kept : keep label with
      | true =>
          obtain ⟨after, answer, moves, relation, equal⟩ :=
            matched middle mirror label final last relation allowed kept step
          refine ⟨after, replies ++ answer, ?_, relation, by simp [same, equal]⟩
          rw [List.filter_append, List.filter_cons_of_pos kept, List.filter_nil, run_snoc]
          exact ⟨mirror, replies, answer, follows, moves, rfl⟩
      | false =>
          obtain ⟨relation, quiet⟩ := silent middle mirror label final last relation allowed kept step
          refine ⟨mirror, replies, ?_, relation, by simp [same, quiet]⟩
          rw [List.filter_append, List.filter_cons_of_neg (by simp [kept]), List.filter_nil,
            List.append_nil]
          exact follows

/-- Simulation rule. If from related states every label that meets the
condition is taken by both machines with the same outputs, then the abstract
machine follows the concrete one along every run that meets the condition, and
no such run stops early. -/
theorem run_simulated {Abstract : Type} (step : Step State Label Output)
    (other : Step Abstract Label Output) (condition : State → Label → Prop)
    (related : State → Abstract → Prop)
    (moves : ∀ left right label, related left right → condition left label →
      ∃ next after outputs, step left label = some (next, outputs) ∧
        other right label = some (after, outputs) ∧ related next after)
    (left : State) (right : Abstract) (begun : related left right)
    (labels : List Label) (meets : EveryStep step left condition labels) :
    ∃ final last outputs, run step left labels = some (final, outputs) ∧
      run other right labels = some (last, outputs) ∧ related final last := by
  induction labels using List.reverseRecOn with
  | nil => exact ⟨left, right, [], rfl, rfl, begun⟩
  | append_singleton past label ih =>
      obtain ⟨before, here⟩ := (every_step_snoc ..).mp meets
      obtain ⟨middle, mirror, first, head, follows, relation⟩ := ih before
      obtain ⟨next, after, outputs, taken, answered, kept⟩ :=
        moves middle mirror label relation (here middle first head)
      exact ⟨next, after, first ++ outputs, (run_snoc ..).mpr ⟨middle, first, outputs, head, taken, rfl⟩,
        (run_snoc ..).mpr ⟨mirror, first, outputs, follows, answered, rfl⟩, kept⟩

/-- If the invariant allows every label that meets the condition and is kept by
it, then no run that meets the condition stops early. -/
theorem run_defined (step : Step State Label Output) (condition : State → Label → Prop)
    (inv : State → Prop)
    (moves : ∀ state label, inv state → condition state label →
      ∃ next outputs, step state label = some (next, outputs) ∧ inv next)
    (start : State) (initial : inv start) (labels : List Label)
    (meets : EveryStep step start condition labels) :
    ∃ final outputs, run step start labels = some (final, outputs) ∧ inv final := by
  induction labels using List.reverseRecOn with
  | nil => exact ⟨start, [], rfl, initial⟩
  | append_singleton past label ih =>
      obtain ⟨before, here⟩ := (every_step_snoc ..).mp meets
      obtain ⟨middle, first, head, holds⟩ := ih before
      obtain ⟨next, outputs, taken, kept⟩ := moves middle label holds (here middle first head)
      exact ⟨next, first ++ outputs, (run_snoc ..).mpr ⟨middle, first, outputs, head, taken, rfl⟩, kept⟩

end Practise.Machine
