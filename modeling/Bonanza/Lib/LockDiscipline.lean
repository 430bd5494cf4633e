import Mathlib

/-! # Commands that acquire and release a lock

The paths through a function are the traces of a command with nondeterministic choices. Whether all
of them acquire and release the lock properly can be computed (`LockDiscipline.safe`), as every
iteration of a loop has to end in the state of the lock in which it started.
-/

namespace LockDiscipline

/-- What a thread does with a lock or a channel. -/
inductive Action
  | enter
  | leave
  /-- Wait until something can be received from a channel. -/
  | wait
  | send
  deriving DecidableEq, Repr

/-- Code that acquires and releases a lock. -/
inductive Command
  | act (action : Action)
  | ret
  | skip
  | seq (first second : Command)
  | choose (left right : Command)
  /-- A loop that is only left by returning from the function. -/
  | loop (body : Command)
  /-- Call a function, of which the deferred part runs when it returns. -/
  | call (body deferred : Command)

/-- How far a command has come. -/
inductive Status
  | running
  | finished
  | returned
  deriving DecidableEq

/-- What a command may have done so far, and whether it has ended. -/
inductive Trace : Command → List Action → Status → Prop
  | running {command} : Trace command [] .running
  | act {action} : Trace (.act action) [action] .finished
  | ret : Trace .ret [] .returned
  | skip : Trace .skip [] .finished
  | first {first second actions status} (started : Trace first actions status)
      (ended : status ≠ .finished) : Trace (.seq first second) actions status
  | second {first second actions actions' status} (started : Trace first actions .finished)
      (continued : Trace second actions' status) :
      Trace (.seq first second) (actions ++ actions') status
  | left {left right actions status} (chosen : Trace left actions status) :
      Trace (.choose left right) actions status
  | right {left right actions status} (chosen : Trace right actions status) :
      Trace (.choose left right) actions status
  | iteration {body actions status} (started : Trace body actions status)
      (ended : status ≠ .finished) : Trace (.loop body) actions status
  | next {body actions actions' status} (started : Trace body actions .finished)
      (continued : Trace (.loop body) actions' status) :
      Trace (.loop body) (actions ++ actions') status
  | body {body deferred actions} (started : Trace body actions .running) :
      Trace (.call body deferred) actions .running
  | deferred {body deferred actions actions' status ending} (started : Trace body actions status)
      (ended : status ≠ .running) (continued : Trace deferred actions' ending) :
      Trace (.call body deferred) (actions ++ actions')
        (if ending = .running then .running else .finished)

/-- Whether the lock is held after some actions. -/
def after : Bool → List Action → Bool
  | held, [] => held
  | _, .enter :: actions => after true actions
  | _, .leave :: actions => after false actions
  | held, _ :: actions => after held actions

/-- The lock is only acquired if it is not held, only released if it is, and not held while waiting
or sending. -/
def Disciplined : Bool → List Action → Prop
  | _, [] => True
  | held, .enter :: actions => held = false ∧ Disciplined true actions
  | held, .leave :: actions => held = true ∧ Disciplined false actions
  | held, _ :: actions => held = false ∧ Disciplined held actions

theorem after_append (held : Bool) (actions actions' : List Action) :
    after held (actions ++ actions') = after (after held actions) actions' := by
  induction actions generalizing held with
  | nil => rfl
  | cons action actions ih => cases action <;> exact ih _

variable {held : Bool} {actions : List Action}

theorem disciplined_append {actions' : List Action} :
    Disciplined held (actions ++ actions') ↔
      Disciplined held actions ∧ Disciplined (after held actions) actions' := by
  induction actions generalizing held with
  | nil => exact (and_iff_right trivial).symm
  | cons action actions ih => cases action <;> exact (and_congr_right' ih).trans and_assoc.symm

/-- Whether all paths are disciplined, and finish and return in a permitted state of the lock. -/
def safe : Command → (Bool → Bool) → (Bool → Bool) → Bool → Bool
  | .act .enter, finished, _, held => !held && finished true
  | .act .leave, finished, _, held => held && finished false
  | .act _, finished, _, held => !held && finished held
  | .ret, _, returned, held => returned held
  | .skip, finished, _, held => finished held
  | .seq first second, finished, returned, held =>
    safe first (safe second finished returned) returned held
  | .choose left right, finished, returned, held =>
    safe left finished returned held && safe right finished returned held
  | .loop body, _, returned, held => safe body (· == held) returned held
  | .call body deferred, finished, _, held =>
    safe body (safe deferred finished finished) (safe deferred finished finished) held

/-- Safe commands do not misuse the lock. -/
theorem disciplined_of_safe {command : Command} {status : Status}
    (trace : Trace command actions status) {finished returned : Bool → Bool}
    (checked : safe command finished returned held = true) :
    Disciplined held actions ∧ (status = .finished → finished (after held actions) = true) ∧
      (status = .returned → returned (after held actions) = true) := by
  induction trace generalizing finished returned held with
  | running => exact ⟨trivial, nofun, nofun⟩
  | @act action =>
    cases action <;> simp only [safe, Bool.and_eq_true, Bool.not_eq_true'] at checked <;>
      exact ⟨⟨checked.1, trivial⟩, fun _ => checked.2, nofun⟩
  | ret => exact ⟨trivial, nofun, fun _ => checked⟩
  | skip => exact ⟨trivial, fun _ => checked, nofun⟩
  | first started ended ih =>
    obtain ⟨disciplined, -, returns⟩ := ih checked
    exact ⟨disciplined, fun finishes => absurd finishes ended, returns⟩
  | second started continued ih ih' =>
    obtain ⟨disciplined, finishes, -⟩ := ih checked
    rw [after_append, disciplined_append]
    obtain ⟨disciplined', later⟩ := ih' (finishes rfl)
    exact ⟨⟨disciplined, disciplined'⟩, later⟩
  | left chosen ih => exact ih (Bool.and_eq_true_iff.mp checked).1
  | right chosen ih => exact ih (Bool.and_eq_true_iff.mp checked).2
  | iteration started ended ih =>
    obtain ⟨disciplined, -, returns⟩ := ih checked
    exact ⟨disciplined, fun finishes => absurd finishes ended, returns⟩
  | next started continued ih ih' =>
    obtain ⟨disciplined, finishes, -⟩ := ih checked
    rw [after_append, disciplined_append, eq_of_beq (finishes rfl)]
    obtain ⟨disciplined', later⟩ := ih' checked
    exact ⟨⟨disciplined, disciplined'⟩, later⟩
  | body started ih => exact ⟨(ih checked).1, nofun, nofun⟩
  | @deferred body deferred actions actions' status ending started ended continued ih ih' =>
    obtain ⟨disciplined, finishes, returns⟩ := ih checked
    have remaining : safe deferred finished finished (after held actions) = true := by
      cases status with
      | running => exact absurd rfl ended
      | finished => exact finishes rfl
      | returned => exact returns rfl
    obtain ⟨disciplined', finishes', returns'⟩ := ih' remaining
    rw [after_append, disciplined_append]
    refine ⟨⟨disciplined, disciplined'⟩, ?_⟩
    cases ending with
    | running => exact ⟨nofun, nofun⟩
    | finished => exact ⟨fun _ => finishes' rfl, nofun⟩
    | returned => exact ⟨fun _ => returns' rfl, nofun⟩

end LockDiscipline
