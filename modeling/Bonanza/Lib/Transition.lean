import Mathlib

/-! # Runs of partial step functions

A system is given by a step function undefined on events that are not enabled. A run executes a list
of events in order. Every property of reachable states in this development is proved through
`Transition.run_invariant` or, where only some steps are allowed, through
`Transition.run_invariant_of_along`.
-/

namespace Transition

open List Option

variable {State Event : Type*} (step : State → Event → Option State)

/-- Execute a list of events, stopping at the first one that is not enabled. -/
def run : State → List Event → Option State
  | state, [] => some state
  | state, event :: events => (step state event).bind fun next => run next events

theorem run_cons (state : State) (event : Event) (events : List Event) :
    run step state (event :: events) =
      (step state event).bind fun next => run step next events := rfl

variable {state final : State} {events : List Event} {first second : List Event}

theorem run_cons_eq_some {event : Event} :
    run step state (event :: events) = some final ↔
      ∃ next, step state event = some next ∧ run step next events = some final := by
  rw [run_cons, bind_eq_some_iff]

theorem run_append (state : State) (first second : List Event) :
    run step state (first ++ second) =
      (run step state first).bind fun middle => run step middle second := by
  induction first generalizing state with
  | nil => rfl
  | cons event events ih =>
    rw [cons_append, run_cons, run_cons, bind_assoc]
    congr 1
    funext next
    exact ih next

theorem run_append_eq_some :
    run step state (first ++ second) = some final ↔
      ∃ middle, run step state first = some middle ∧ run step middle second = some final := by
  rw [run_append, bind_eq_some_iff]

/-- Every step taken along a run meets a condition on the state before it. -/
def Along (condition : State → Event → Prop) : State → List Event → Prop
  | _, [] => True
  | state, event :: events =>
    condition state event ∧ ∀ next, step state event = some next → Along condition next events

variable {step}

theorem Along.of_forall {condition : Event → Prop} (holds : ∀ event ∈ events, condition event)
    (state : State) :
    Along step (fun _ event => condition event) state events := by
  induction events generalizing state with
  | nil => trivial
  | cons event events ih =>
    exact ⟨holds event mem_cons_self, fun next _ => ih (forall_mem_cons.mp holds).2 next⟩

variable {condition : State → Event → Prop}

theorem Along.append {middle : State} (before : Along step condition state first)
    (reached : run step state first = some middle) (after : Along step condition middle second) :
    Along step condition state (first ++ second) := by
  induction first generalizing state with
  | nil =>
    cases reached
    exact after
  | cons event events ih =>
    obtain ⟨next, stepped, rest⟩ := (run_cons_eq_some step).mp reached
    refine ⟨before.1, fun other taken => ?_⟩
    cases stepped.symm.trans taken
    exact ih (before.2 next stepped) rest

/-- Whether the steps of a run meet a condition can be decided by executing it. -/
instance Along.decidable {condition : State → Event → Prop}
    [∀ state event, Decidable (condition state event)] (state : State) :
    (events : List Event) → Decidable (Along step condition state events)
  | [] => isTrue trivial
  | event :: events =>
    match stepped : step state event with
    | none => decidable_of_iff (condition state event)
        ⟨fun met => ⟨met, fun _ taken => nomatch stepped.symm.trans taken⟩, And.left⟩
    | some next =>
      have : Decidable (Along step condition next events) := Along.decidable next events
      decidable_of_iff (condition state event ∧ Along step condition next events)
        (and_congr_right fun _ => ⟨fun along _ taken =>
          some.inj (stepped.symm.trans taken) ▸ along, fun along => along next stepped⟩)

theorem run_invariant_of_along (invariant : State → Prop)
    (preserved : ∀ state event next, invariant state → condition state event →
      step state event = some next → invariant next) (start : invariant state)
    (along : Along step condition state events)
    (reached : run step state events = some final) : invariant final := by
  induction events generalizing state with
  | nil =>
    cases reached
    exact start
  | cons event events ih =>
    obtain ⟨next, stepped, rest⟩ := (run_cons_eq_some step).mp reached
    exact ih (preserved state event next start along.1 stepped) (along.2 next stepped) rest

/-- What every step preserves holds after a run. -/
theorem run_invariant (invariant : State → Prop)
    (preserved : ∀ state event next, invariant state → step state event = some next →
      invariant next) (start : invariant state) (reached : run step state events = some final) :
    invariant final := by
  have along : Along step (fun _ _ => True) state events :=
    Along.of_forall (fun _ _ => trivial) state
  exact run_invariant_of_along invariant
    (fun state event next holds _ => preserved state event next holds) start along reached

theorem run_history_invariant (invariant : List Event → State → Prop)
    (preserved : ∀ history state event next, invariant history state →
      step state event = some next → invariant (history ++ [event]) next)
    {history : List Event}
    (start : invariant history state) (reached : run step state events = some final) :
    invariant (history ++ events) final := by
  induction events generalizing history state with
  | nil =>
    cases reached
    rwa [append_nil]
  | cons event events ih =>
    obtain ⟨next, stepped, rest⟩ := (run_cons_eq_some step).mp reached
    rw [append_cons]
    exact ih (preserved history state event next start stepped) rest

/-- If a property is preserved by exactly the steps that meet a condition, it holds throughout
exactly the runs of such steps. -/
theorem along_iff_forall_run {invariant good : State → Prop}
    (total : ∀ state event, ∃ next, step state event = some next)
    (preserved : ∀ state event next, invariant state →
      step state event = some next → invariant next)
    (good_iff : ∀ state event next, invariant state → good state →
      step state event = some next → (good next ↔ condition state event)) (start : invariant state)
    (initially : good state) (events : List Event) :
    Along step condition state events ↔
      ∀ before after middle, events = before ++ after →
        run step state before = some middle → good middle := by
  induction events generalizing state with
  | nil =>
    refine ⟨fun _ before after middle split reached => ?_, fun _ => trivial⟩
    obtain ⟨rfl, rfl⟩ := append_eq_nil_iff.mp split.symm
    cases reached
    exact initially
  | cons event events ih =>
    obtain ⟨next, stepped⟩ := total state event
    have holds := preserved state event next start stepped
    have good_next := good_iff state event next start initially stepped
    constructor
    · rintro ⟨met, along⟩ before after middle split reached
      rcases before with _ | ⟨first, before⟩
      · cases reached
        exact initially
      · obtain ⟨rfl, rest⟩ := List.cons.inj split
        obtain ⟨other, taken, reached⟩ := (run_cons_eq_some step).mp reached
        cases stepped.symm.trans taken
        exact (ih holds (good_next.mpr met)).mp (along next stepped) before after middle rest
          reached
    · intro throughout
      have good_here := throughout [event] events next rfl
        ((run_cons_eq_some step).mpr ⟨next, stepped, rfl⟩)
      refine ⟨good_next.mp good_here, fun other taken => ?_⟩
      cases stepped.symm.trans taken
      refine (ih holds good_here).mpr fun before after middle split reached => ?_
      exact throughout (event :: before) after middle (congrArg (event :: ·) split)
        ((run_cons_eq_some step).mpr ⟨next, stepped, reached⟩)

end Transition
