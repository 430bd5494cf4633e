import Bonanza.Label.Canonical

/-! # Query expressions

`ComputeQueryResultValue` evaluates `bazel query` expressions over the dependencies between targets
known after loading. Values that are not available yet are skipped and noted, so that many are
requested before evaluation is restarted.

Sets of labels are finite sets, as no result depends on the order of iteration. Loops are given a
limit on the number of iterations. Expansion of target patterns, regular expressions and the values
of attributes are provided by the environment.
-/

namespace Bonanza.Query

open Label

/-- Binary operators. -/
inductive Operator where
  | union
  | except
  | intersect
  | other (value : Int)

/-- `QueryExpression`. A message may be absent, or its field left unset. The source calls the scope
universe. -/
inductive QueryExpression where
  | absent
  | unset
  | pattern (pattern : Text)
  | set (patterns : List Text)
  | binary (operator : Operator) (left right : QueryExpression)
  | deps (scope : QueryExpression) (depth : Int)
  | rdeps (scope targets : QueryExpression) (depth : Int)
  | kind (pattern : Text) (targets : QueryExpression)
  | filter (pattern : Text) (targets : QueryExpression)
  | attr (name pattern : Text) (targets : QueryExpression)

/-- `Target.Definition`, up to what `targetKind` looks at. -/
inductive TargetDefinition where
  | ruleTarget (ruleIdentifier : Text)
  | sourceFileTarget
  | predeclaredOutputFileTarget
  | alias
  | packageGroup
  | labelSetting
  | unset

/-- Why evaluation fails. The limit is that on the number of iterations. -/
inductive QueryError where
  | emptyExpression
  | unsupportedExpression
  | unsupportedOperator (value : Int)
  | expansionFailed (pattern : Text) (message : String)
  | invalidRegularExpression (function : String) (pattern : Text) (message : String)
  | missingDependency
  | limitExceeded

/-- What is available of the values on which queries depend. -/
structure Environment where
  /-- The targets that match a pattern, and whether some could not be determined. -/
  expandPattern : Text → Except String (Finset Text × Bool)
  getTargetDependenciesValue : Text → Option (List Text)
  getTargetValue : Text → Option TargetDefinition
  /-- `regexp.Compile`. -/
  compile : Text → Except String (Text → Bool)
  targetAttrMatches : Text → Text → (Text → Bool) → Option Bool

/-- Evaluation, with the field `missingDependencies`. -/
abbrev Evaluator := StateT Bool (Except QueryError)

variable (e : Environment)

/-- Note that a value is missing. -/
def note (missing : Bool) : Evaluator Unit :=
  modify (· || missing)

/-- The targets that match any of the patterns. -/
def expandPatterns : List Text → Evaluator (Finset Text)
  | [] => return ∅
  | pattern :: patterns => do
      match e.expandPattern pattern with
      | .error message => throw (.expansionFailed pattern message)
      | .ok (targets, missing) =>
        note missing
        return targets ∪ (← expandPatterns patterns)

/-- The dependencies of targets. -/
def dependenciesOf (labels : Finset Text) : Evaluator (Text → Finset Text) := do
  note (decide (∃ l ∈ labels, e.getTargetDependenciesValue l = none))
  return fun l =>
    if l ∈ labels then ((e.getTargetDependenciesValue l).getD []).toFinset else ∅

/-- The kind of a target, unless it is a label setting. -/
def TargetDefinition.kind : TargetDefinition → Option Text
  | .ruleTarget ruleIdentifier =>
    let name := (cutLast '%' ruleIdentifier).getD ruleIdentifier
    -- Anonymous rules are created by `testing.analysis_test()`.
    let name := if name = [] then "analysis_test".toList else name
    some (name ++ " rule".toList)
  | .sourceFileTarget => some "source file".toList
  | .predeclaredOutputFileTarget => some "generated file".toList
  | .alias => some "alias rule".toList
  | .packageGroup => some "package_group rule".toList
  | .labelSetting => none
  | .unset => none

/-- The kind of a target by label. -/
def targetKind (targetLabel : Text) : Option Text :=
  (e.getTargetValue targetLabel).bind TargetDefinition.kind

/-- Whether `queryEvaluator.targetKind` notes that a value is missing. -/
def targetMissing (targetLabel : Text) : Bool :=
  (e.getTargetValue targetLabel).isNone

/-- The set operators. -/
def combine (left right : Finset Text) : Operator → Evaluator (Finset Text)
  | .union => return left ∪ right
  | .except => return left \ right
  | .intersect => return left ∩ right
  | .other value => throw (.unsupportedOperator value)

/-- The loop of `queryEvaluator.evaluateDeps`. -/
def depsLoop (depth : Int) : (limit level : Nat) → (reached frontier : Finset Text) →
    Evaluator (Finset Text)
  | 0, _, _, _ => throw .limitExceeded
  | limit + 1, level, reached, frontier =>
    if frontier.Nonempty ∧ (depth < 0 ∨ level ≤ depth) then do
      let edges ← dependenciesOf e frontier
      let reached := reached ∪ frontier
      if depth ≥ 0 ∧ level = depth then
        return reached
      depsLoop depth limit (level + 1) reached (frontier.biUnion edges \ reached)
    else
      return reached

/-- The loop of `queryEvaluator.evaluateRdeps`. -/
def rdepsLoop (reverse : Text → Finset Text) (depth : Int) :
    (limit level : Nat) → (reached frontier : Finset Text) → Evaluator (Finset Text)
  | 0, _, _, _ => throw .limitExceeded
  | limit + 1, level, reached, frontier =>
    if frontier.Nonempty ∧ (depth < 0 ∨ level < depth) then
      let next := frontier.biUnion reverse \ reached
      rdepsLoop reverse depth limit (level + 1) (reached ∪ next) next
    else
      return reached

/-- The end of `queryEvaluator.evaluateRdeps`, given both arguments. -/
def walkRdeps (limit : Nat) (scope targets : Finset Text) (depth : Int) :
    Evaluator (Finset Text) := do
  let edges ← dependenciesOf e scope
  if ← get then
    return ∅
  let reverse := fun target => scope.filter fun source => target ∈ edges source
  rdepsLoop reverse depth limit 0 (targets ∩ scope) targets

/-- `regexp.Compile`, as called by one of the functions of the language. -/
def compilePattern (function : String) (pattern : Text) : Evaluator (Text → Bool) :=
  match e.compile pattern with
  | .error message => throw (.invalidRegularExpression function pattern message)
  | .ok re => return re

/-- The targets that an expression stands for. -/
def evaluate (limit : Nat) : QueryExpression → Evaluator (Finset Text)
  | .absent => throw .emptyExpression
  | .unset => throw .unsupportedExpression
  | .pattern pattern => expandPatterns e [pattern]
  | .set patterns => expandPatterns e patterns
  | .binary operator left right => do
      let left ← evaluate limit left
      let right ← evaluate limit right
      combine left right operator
  | .deps scope depth => do
      let scope ← evaluate limit scope
      depsLoop e depth limit 0 ∅ scope
  | .rdeps scope targets depth => do
      let scope ← evaluate limit scope
      let targets ← evaluate limit targets
      walkRdeps e limit scope targets depth
  | .kind pattern targets => do
      let targets ← evaluate limit targets
      let re ← compilePattern e "kind()" pattern
      note (decide (∃ l ∈ targets, targetMissing e l))
      return targets.filter fun l => (targetKind e l).any re
  | .filter pattern targets => do
      let targets ← evaluate limit targets
      let re ← compilePattern e "filter()" pattern
      return targets.filter fun l => re l
  | .attr name pattern targets => do
      let targets ← evaluate limit targets
      let re ← compilePattern e "attr()" pattern
      note (decide (∃ l ∈ targets, e.targetAttrMatches l name re = none))
      return targets.filter fun l => e.targetAttrMatches l name re = some true

/-- A target that is part of the result. -/
structure Target where
  label : Text
  kind : Text
  deriving DecidableEq

/-- Evaluate an expression, and sort the targets by label. -/
def computeQueryResultValue (limit : Nat) (expression : QueryExpression) :
    Except QueryError (List Target) := do
  let (labels, missingDependencies) ← (evaluate e limit expression).run false
  if missingDependencies then
    throw .missingDependency
  let sorted := labels.sort (· ≤ ·)
  let targets := sorted.filterMap fun l => (targetKind e l).map fun kind => ⟨l, kind⟩
  if sorted.any (targetMissing e) then
    throw .missingDependency
  return targets

end Bonanza.Query
