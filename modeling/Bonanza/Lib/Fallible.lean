import Mathlib

/-! # Computations that may fail

How a computation in `Except` that succeeds is taken apart, and the rule for loops over
lists: what holds at the start and is kept by every iteration that succeeds holds after
a loop that succeeds.

`Meets` also says which errors a computation may fail with. `Refines` says that a
computation gives the results of an abstract one.
-/

namespace Fallible

open List

universe u v

variable {ε : Type u} {α β : Type v} {x : Except ε α} {list : List α} {state : β}
  {f : α → Except ε β}

theorem bind_eq_ok_iff {result : β} :
    x >>= f = .ok result ↔ ∃ value, x = .ok value ∧ f value = .ok result := by
  cases x with
  | error err => exact ⟨nofun, nofun⟩
  | ok value =>
    constructor
    · intro finished
      exact ⟨value, rfl, finished⟩
    · rintro ⟨_, ⟨⟩, finished⟩
      exact finished

theorem mapError_eq_ok_iff {ε' : Type u} {f : ε → ε'} {result : α} :
    x.mapError f = .ok result ↔ x = .ok result := by
  cases x with
  | error err => exact ⟨nofun, nofun⟩
  | ok value => exact ⟨fun same => congrArg _ (Except.ok.inj same), fun same => congrArg _
      (Except.ok.inj same)⟩

section

variable {f : β → α → Except ε β} (invariant : List α → β → Prop)
  (step : ∀ {done a state state'}, invariant done state → f state a = .ok state' →
    invariant (done ++ [a]) state') {state' : β}

include step

theorem invariant_append_of_foldlM {done : List α} (start : invariant done state)
    (finished : list.foldlM f state = .ok state') :
    invariant (done ++ list) state' := by
  induction list generalizing done state with
  | nil =>
    cases finished
    rwa [append_nil]
  | cons a list ih =>
    rw [foldlM_cons, bind_eq_ok_iff] at finished
    obtain ⟨next, stepped, rest⟩ := finished
    have later := ih (step start stepped) rest
    rwa [append_assoc] at later

theorem invariant_of_foldlM (start : invariant [] state)
    (finished : list.foldlM f state = .ok state') : invariant list state' :=
  invariant_append_of_foldlM invariant step start finished

end

/-! ## Computations of which all results are known -/

/-- If the computation succeeds, its result meets a postcondition, and otherwise the error. -/
def Meets (x : Except ε α) (post : α → Prop) (failure : ε → Prop) : Prop :=
  match x with
  | .ok value => post value
  | .error err => failure err

namespace Meets

variable {post : α → Prop} {failure : ε → Prop}

/-- Composition of computations that may fail. -/
theorem bind {after : β → Prop} (first : Meets x post failure)
    (second : ∀ value, post value → Meets (f value) after failure) :
    Meets (x >>= f) after failure := by
  cases x with
  | error err => exact first
  | ok value => exact second value first

variable (meets : Meets x post failure)

include meets

theorem mono {weaker : α → Prop} (weaken : ∀ value, post value → weaker value) :
    Meets x weaker failure := by
  cases x with
  | error err => exact meets
  | ok value => exact weaken value meets

theorem imp_failure {weaker : ε → Prop} (weaken : ∀ err, failure err → weaker err) :
    Meets x post weaker := by
  cases x with
  | error err => exact weaken err meets
  | ok value => exact meets

theorem of_eq_ok {value : α} (finished : x = .ok value) :
    post value := by
  subst finished
  exact meets

omit meets

/-- Loops that may fail keep an invariant. -/
theorem foldlM {f : β → α → Except ε β} {list : List α} (invariant : List α → β → Prop)
    (step : ∀ {done a rest state}, list = done ++ a :: rest → invariant done state →
      Meets (f state a) (invariant (done ++ [a])) failure)
    {state : β} (start : invariant [] state) :
    Meets (list.foldlM f state) (invariant list) failure := by
  have later : ∀ {done rest state}, list = done ++ rest → invariant done state →
      Meets (rest.foldlM f state) (invariant list) failure := by
    intro done rest
    induction rest generalizing done with
        intro state whole kept
    | nil =>
      rw [append_nil] at whole
      subst whole
      exact kept
    | cons a rest ih =>
      refine (step whole kept).bind fun next kept => ih ?_ kept
      rw [whole, append_assoc, singleton_append]
  exact later (nil_append list).symm start

end Meets

/-! ## Refinement -/

/-- If the computation succeeds, so does an abstract one, with a related result. Otherwise, the
abstract result, if any, is the reason. -/
def Refines {γ : Type*} (x : Except ε α) (expected : Option γ) (related : γ → α → Prop)
    (failure : γ → Prop) : Prop :=
  Meets x (fun value => ∃ c, expected = some c ∧ related c value)
    fun _ => ∀ c, expected = some c → failure c

namespace Refines

variable {γ δ : Type*} {related : γ → α → Prop} {failure : γ → Prop}

theorem error (err : ε) : Refines (.error err) none related failure := by
  rintro _ ⟨⟩

theorem of_meets {c : γ} (meets : Meets x (related c) fun _ => failure c) :
    Refines x (some c) related failure := by
  refine (meets.mono fun value holds => ⟨c, rfl, holds⟩).imp_failure ?_
  rintro - fails _ ⟨⟩
  exact fails

theorem bind {expected : Option γ} {g : γ → Option δ} {after : δ → β → Prop} {later : δ → Prop}
    (first : Refines x expected related failure)
    (second : ∀ c value, expected = some c → related c value → Refines (f value) (g c) after later)
    (fails : ∀ c d, failure c → g c = some d → later d) :
    Refines (x >>= f) (expected.bind g) after later := by
  cases x with
  | error err =>
    rintro d expected_eq
    obtain ⟨c, some_eq, last⟩ := Option.bind_eq_some_iff.mp expected_eq
    exact fails c d (first c some_eq) last
  | ok value =>
    obtain ⟨c, rfl, holds⟩ := first
    exact second c value rfl holds

end Refines

end Fallible
