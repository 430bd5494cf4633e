import Bonanza.Lib.Levels
import Bonanza.Query.Evaluation

/-! # Query results are what expressions denote

Expressions denote sets of labels (`denote`). Once no value is missing, evaluation terminates and
lists the members of the set in order (`computeQueryResultValue_eq_denote`).

Walks in reverse only consider dependencies of targets in scope. Results are therefore only right if
targets in scope that have a path to one of the targets have one that does not leave the scope
(`Confined`). A target without a kind is not listed. This is exactly when the queries that an
expression consists of are all answered correctly.
-/

namespace Bonanza.Query

open List Option Label Levels Finset

/-! ## Evaluation without missing values -/

section

variable {α β : Type} {m : Evaluator α}

/-- Evaluation gives a value with some property, and nothing is missing. -/
def Gives (m : Evaluator α) (post : α → Prop) : Prop :=
  ∃ value, m.run false = .ok (value, false) ∧ post value

theorem Gives.pure {value : α} {post : α → Prop} (holds : post value) :
    Gives (Pure.pure value : Evaluator α) post :=
  ⟨value, rfl, holds⟩

/-- One step of evaluation after the other. -/
theorem Gives.bind {f : α → Evaluator β} {between : α → Prop} {post : β → Prop}
    (first : Gives m between) (second : ∀ value, between value → Gives (f value) post) :
    Gives (m >>= f) post := by
  obtain ⟨value, run_eq, holds⟩ := first
  obtain ⟨result, result_eq, final⟩ := second value holds
  refine ⟨result, ?_, final⟩
  rw [StateT.run_bind, run_eq]
  exact result_eq

theorem Gives.mono {strong weak : α → Prop} (gives : Gives m strong)
    (implies : ∀ value, strong value → weak value) : Gives m weak := by
  obtain ⟨value, run_eq, holds⟩ := gives
  exact ⟨value, run_eq, implies value holds⟩

theorem gives_note {missing : Bool} (complete : missing = false) :
    Gives (note missing) fun _ => True := by
  subst complete
  exact ⟨(), rfl, trivial⟩

theorem gives_get : Gives (get : Evaluator Bool) fun missing => missing = false := ⟨false, rfl, rfl⟩

end

/-! ## Denotations -/

section

variable (e : Environment)

/-- Direct dependencies. -/
def dependsOn (a b : Text) : Prop :=
  b ∈ (e.getTargetDependenciesValue a).getD []

/-- The targets that match a pattern. -/
def expansion (pattern : Text) : Set Text :=
  {l | ∃ targets missing, e.expandPattern pattern = .ok (targets, missing) ∧ l ∈ targets}

/-- Whether a pattern of a regular expression is valid and matches a string. -/
def matchesPattern (pattern text : Text) : Prop :=
  ∃ re, e.compile pattern = .ok re ∧ re text = true

/-- There is a walk along a limited number of edges. -/
def Within (edge : Text → Text → Prop) (depth : Int) (a b : Text) : Prop :=
  ∃ count : Nat, (depth < 0 ∨ count ≤ depth) ∧ Walk edge count a b

/-- The meaning of expressions. -/
def denote : QueryExpression → Set Text
  | .absent => ∅
  | .unset => ∅
  | .pattern pattern => expansion e pattern
  | .set patterns => {l | ∃ pattern ∈ patterns, l ∈ expansion e pattern}
  | .binary .union left right => denote left ∪ denote right
  | .binary .except left right => denote left \ denote right
  | .binary .intersect left right => denote left ∩ denote right
  | .binary (.other _) _ _ => ∅
  | .deps scope depth => {b | ∃ a ∈ denote scope, Within (dependsOn e) depth a b}
  | .rdeps scope targets depth =>
    {a | a ∈ denote scope ∧ ∃ b ∈ denote targets, Within (dependsOn e) depth a b}
  | .kind pattern targets =>
    {l | l ∈ denote targets ∧ ∃ kind, targetKind e l = some kind ∧ matchesPattern e pattern kind}
  | .filter pattern targets => {l | l ∈ denote targets ∧ matchesPattern e pattern l}
  | .attr name pattern targets =>
    {l | l ∈ denote targets ∧
      ∃ re, e.compile pattern = .ok re ∧ e.targetAttrMatches l name re = some true}

/-- Expressions whose operators are known, and whose patterns are valid and expand without any
missing values. -/
def Supported : QueryExpression → Prop
  | .absent => False
  | .unset => False
  | .pattern pattern => ∃ targets, e.expandPattern pattern = .ok (targets, false)
  | .set patterns => ∀ pattern ∈ patterns, ∃ targets, e.expandPattern pattern = .ok (targets, false)
  | .binary (.other _) _ _ => False
  | .binary _ left right => Supported left ∧ Supported right
  | .deps scope _ => Supported scope
  | .rdeps scope targets _ => Supported scope ∧ Supported targets
  | .kind pattern targets => Supported targets ∧ ∃ re, e.compile pattern = .ok re
  | .filter pattern targets => Supported targets ∧ ∃ re, e.compile pattern = .ok re
  | .attr _ pattern targets => Supported targets ∧ ∃ re, e.compile pattern = .ok re

/-- Targets in the scope of a walk in reverse do not need to leave it. -/
def Confined : QueryExpression → Prop
  | .absent => True
  | .unset => True
  | .pattern _ => True
  | .set _ => True
  | .binary _ left right => Confined left ∧ Confined right
  | .deps scope _ => Confined scope
  | .rdeps scope targets depth => Confined scope ∧ Confined targets ∧
      ∀ a ∈ denote e scope, ∀ b ∈ denote e targets, Within (dependsOn e) depth a b →
        ∃ c ∈ denote e targets, Within (fun s t => s ∈ denote e scope ∧ dependsOn e s t) depth a c
  | .kind _ targets => Confined targets
  | .filter _ targets => Confined targets
  | .attr _ _ targets => Confined targets

/-- The expression and all expressions that are part of it. -/
def parts : QueryExpression → List QueryExpression
  | .binary operator left right => .binary operator left right :: (parts left ++ parts right)
  | .deps scope depth => .deps scope depth :: parts scope
  | .rdeps scope targets depth => .rdeps scope targets depth :: (parts scope ++ parts targets)
  | .kind pattern targets => .kind pattern targets :: parts targets
  | .filter pattern targets => .filter pattern targets :: parts targets
  | .attr name pattern targets => .attr name pattern targets :: parts targets
  | expression => [expression]

/-- With enough iterations, the result lists the labels that the expression denotes in order, each
with its kind. -/
def Answers (expression : QueryExpression) : Prop :=
  ∃ bound, ∀ limit ≥ bound, ∃ targets,
    computeQueryResultValue e limit expression = .ok targets ∧
    (targets.map Target.label).Pairwise (· < ·) ∧
    (∀ l, l ∈ targets.map Target.label ↔ l ∈ denote e expression) ∧
    ∀ target ∈ targets, targetKind e target.label = some target.kind

/-- No value is missing, and there is a finite number of dependencies. -/
structure Environment.Complete : Prop where
  dependencies : ∀ l, e.getTargetDependenciesValue l ≠ none
  targets : ∀ l, e.getTargetValue l ≠ none
  attrs : ∀ l name re, e.targetAttrMatches l name re ≠ none
  finite : ∃ all : Finset Text, ∀ a b, dependsOn e a b → b ∈ all

end

/-! ## Loops -/

section

variable {e : Environment} (complete : e.Complete)
include complete

theorem gives_dependenciesOf (labels : Finset Text) :
    Gives (dependenciesOf e labels) fun edges =>
      ∀ l ∈ labels, edges l = ((e.getTargetDependenciesValue l).getD []).toFinset := by
  have available : decide (∃ l ∈ labels, e.getTargetDependenciesValue l = none) = false := by
    rw [decide_eq_false_iff_not]
    rintro ⟨l, -, missing⟩
    exact complete.dependencies l missing
  refine (gives_note available).bind fun _ _ => .pure ?_
  exact fun l member => if_pos member

end

/-- What has been reached before a level. -/
def before (successors : Text → Finset Text) (start : Finset Text) : Nat → Finset Text
  | 0 => ∅
  | level + 1 => ball successors start level

variable {depth : Int} {b : Text}

section

variable {successors : Text → Finset Text} {start : Finset Text} {level last limit : Nat}

theorem before_union_fresh (level : Nat) :
    before successors start level ∪ fresh successors start level = ball successors start level := by
  cases level with
  | zero => exact empty_union _
  | succ level => exact ball_succ_eq_union_fresh.symm

theorem mem_ball_of_before (inside : depth < 0 ∨ level ≤ depth)
    (member : b ∈ before successors start level) :
    ∃ count : Nat, (depth < 0 ∨ count ≤ depth) ∧ b ∈ ball successors start count := by
  cases level with
  | zero => exact absurd member (notMem_empty b)
  | succ level => exact ⟨level, by omega, member⟩

theorem gives_depsLoop {e : Environment} (complete : e.Complete)
    (successors_eq : ∀ l, successors l = ((e.getTargetDependenciesValue l).getD []).toFinset)
    (ends : fresh successors start last = ∅) (le : level ≤ last) (enough : last - level < limit)
    (inside : depth < 0 ∨ level ≤ depth) :
    Gives (depsLoop e depth limit level (before successors start level)
        (fresh successors start level)) fun reached =>
      ∀ b, b ∈ reached ↔
        ∃ count : Nat, (depth < 0 ∨ count ≤ depth) ∧ b ∈ ball successors start count := by
  induction limit generalizing level with
  | zero => omega
  | succ limit ih =>
    rw [depsLoop]
    by_cases continues : (fresh successors start level).Nonempty ∧ (depth < 0 ∨ level ≤ depth)
    · rw [if_pos continues]
      refine (gives_dependenciesOf complete _).bind fun edges edges_eq => ?_
      simp only [before_union_fresh]
      split_ifs with deepest
      · refine .pure fun b => ⟨fun member => ⟨level, inside, member⟩, ?_⟩
        rintro ⟨count, bounded, member⟩
        exact ball_mono (by omega) member
      · have next_eq : (fresh successors start level).biUnion edges \ ball successors start level =
            fresh successors start (level + 1) := by
          rw [fresh_succ_eq]
          congr 1
          refine biUnion_congr rfl fun l member => ?_
          rw [edges_eq l member, successors_eq]
        rw [next_eq]
        have lt : level < last := by
          refine lt_of_le_of_ne le fun same => ?_
          rw [same, ends] at continues
          exact not_nonempty_empty continues.1
        exact ih lt (by omega) (by omega)
    · rw [if_neg continues]
      have empty : fresh successors start level = ∅ := by
        rw [← not_nonempty_iff_eq_empty]
        exact fun nonempty => continues ⟨nonempty, inside⟩
      have all : before successors start level = ball successors start level := by
        rw [← before_union_fresh, empty, union_empty]
      refine .pure fun b => ⟨mem_ball_of_before inside, ?_⟩
      rintro ⟨count, -, member⟩
      rw [all]
      exact ball_subset_of_fresh_eq_empty empty count member

theorem gives_rdepsLoop {scope : Finset Text} (contained : ∀ l, successors l ⊆ scope)
    (ends : fresh successors start last = ∅) (le : level ≤ last) (enough : last - level < limit)
    (inside : depth < 0 ∨ level ≤ depth) :
    Gives (rdepsLoop successors depth limit level (ball successors start level ∩ scope)
        (fresh successors start level)) fun reached =>
      ∀ b, b ∈ reached ↔ b ∈ scope ∧
        ∃ count : Nat, (depth < 0 ∨ count ≤ depth) ∧ b ∈ ball successors start count := by
  induction limit generalizing level with
  | zero => omega
  | succ limit ih =>
    have fresh_scoped : fresh successors start (level + 1) ⊆ scope := by
      rw [fresh_succ_eq]
      exact sdiff_subset.trans (biUnion_subset.mpr fun l _ => contained l)
    rw [rdepsLoop]
    by_cases continues : (fresh successors start level).Nonempty ∧ (depth < 0 ∨ level < depth)
    · rw [if_pos continues]
      have next_eq : (fresh successors start level).biUnion successors \
          (ball successors start level ∩ scope) = fresh successors start (level + 1) := by
        rw [fresh_succ_eq]
        ext b
        have reached_scoped : b ∈ (fresh successors start level).biUnion successors → b ∈ scope :=
          fun member => biUnion_subset.mpr (fun l _ => contained l) member
        simp only [mem_sdiff, mem_inter]
        tauto
      have reached_eq : ball successors start level ∩ scope ∪ fresh successors start (level + 1) =
          ball successors start (level + 1) ∩ scope := by
        rw [ball_succ_eq_union_fresh, union_inter_distrib_right, inter_eq_left.mpr fresh_scoped]
      have lt : level < last := by
        refine lt_of_le_of_ne le fun same => ?_
        rw [same, ends] at continues
        exact not_nonempty_empty continues.1
      simp only [next_eq, reached_eq]
      exact ih lt (by omega) (by omega)
    · rw [if_neg continues]
      refine .pure fun b => ?_
      rw [mem_inter, and_comm]
      refine and_congr_right fun _ => ⟨fun member => ⟨level, inside, member⟩, ?_⟩
      rintro ⟨count, bounded, member⟩
      rw [not_and_or] at continues
      rcases continues with empty | deepest
      · exact ball_subset_of_fresh_eq_empty (not_nonempty_iff_eq_empty.mp empty) count member
      · exact ball_mono (by omega) member

end

/-! ## Expressions -/

/-- With enough iterations, evaluation gives a set. -/
def Determines (evaluation : Nat → Evaluator (Finset Text)) (set : Set Text) : Prop :=
  ∃ bound, ∀ limit ≥ bound, Gives (evaluation limit) fun labels => ∀ l, l ∈ labels ↔ l ∈ set

/-- The number of iterations needed may depend on what was evaluated before. -/
theorem Determines.bind {first : Nat → Evaluator (Finset Text)}
    {second : Nat → Finset Text → Evaluator (Finset Text)} {between final : Set Text}
    (determines : Determines first between)
    (continues : ∀ labels : Finset Text, (∀ l, l ∈ labels ↔ l ∈ between) →
      Determines (fun limit => second limit labels) final) :
    Determines (fun limit => first limit >>= second limit) final := by
  obtain ⟨bound, gives⟩ := determines
  obtain ⟨labels, -, labels_iff⟩ := gives bound (le_refl _)
  obtain ⟨other, secondGives⟩ := continues labels labels_iff
  refine ⟨max bound other, fun limit enough => ?_⟩
  refine (gives limit ((le_max_left _ _).trans enough)).bind fun found found_iff => ?_
  obtain rfl : found = labels := by
    ext l
    rw [found_iff, labels_iff]
  exact secondGives limit ((le_max_right _ _).trans enough)

theorem Determines.of_gives {evaluation : Evaluator (Finset Text)} {set : Set Text}
    (gives : Gives evaluation fun labels => ∀ l, l ∈ labels ↔ l ∈ set) :
    Determines (fun _ => evaluation) set :=
  ⟨0, fun _ _ => gives⟩

section

variable {e : Environment} (complete : e.Complete) {scope : QueryExpression}

theorem gives_expandPatterns {patterns : List Text}
    (supported : ∀ pattern ∈ patterns, ∃ targets, e.expandPattern pattern = .ok (targets, false)) :
    Gives (expandPatterns e patterns) fun labels =>
      ∀ l, l ∈ labels ↔ ∃ pattern ∈ patterns, l ∈ expansion e pattern := by
  induction patterns with
  | nil => exact .pure fun l => by simp
  | cons pattern patterns ih =>
    obtain ⟨targets, expanded⟩ := supported pattern mem_cons_self
    rw [expandPatterns, expanded]
    refine (gives_note rfl).bind fun _ _ => ?_
    refine (ih (forall_mem_cons.mp supported).2).bind
      fun rest rest_iff => .pure fun l => ?_
    have first : l ∈ expansion e pattern ↔ l ∈ targets := by
      simp [expansion, expanded]
    simp [rest_iff, first]

theorem gives_compilePattern {function : String} {pattern : Text} {re : Text → Bool}
    (compiled : e.compile pattern = .ok re) :
    Gives (compilePattern e function pattern) fun result => result = re := by
  rw [compilePattern, compiled]
  exact .pure rfl

include complete

theorem exists_closed (start : Finset Text) : ∃ all : Finset Text, start ⊆ all ∧
    ∀ a ∈ all, ((e.getTargetDependenciesValue a).getD []).toFinset ⊆ all := by
  obtain ⟨all, finite⟩ := complete.finite
  refine ⟨start ∪ all, subset_union_left, fun a _ b member => ?_⟩
  exact mem_union_right _ (finite a b (mem_toFinset.mp member))

/-- `deps()` gives the targets that can be reached. -/
theorem determines_deps (start : Finset Text) (depth : Int) :
    Determines (fun limit => depsLoop e depth limit 0 ∅ start)
      {b | ∃ a ∈ start, Within (dependsOn e) depth a b} := by
  obtain ⟨all, started, closed⟩ := exists_closed complete start
  obtain ⟨last, -, ends⟩ := exists_fresh_eq_empty started closed
  refine ⟨last + 1, fun limit enough => ?_⟩
  refine (gives_depsLoop complete (fun _ => rfl) ends (Nat.zero_le last) (by omega)
    (by omega)).mono fun reached reached_iff b => ?_
  rw [reached_iff]
  simp only [mem_ball_iff, List.mem_toFinset]
  constructor
  · rintro ⟨radius, bounded, count, le, a, member, walk⟩
    exact ⟨a, member, count, by omega, walk⟩
  · rintro ⟨a, member, count, bounded, walk⟩
    exact ⟨count, bounded, count, Nat.le_refl _, a, member, walk⟩

/-- `rdeps()` gives the targets in scope that depend on its argument, by walks that do not leave
the scope. -/
theorem determines_rdeps (scope targets : Finset Text) (depth : Int) :
    Determines (fun limit => walkRdeps e limit scope targets depth)
      {a | a ∈ scope ∧
        ∃ b ∈ targets, Within (fun s t => s ∈ scope ∧ dependsOn e s t) depth a b} := by
  -- The edges of targets in scope, in reverse.
  let sources (edges : Text → Finset Text) (target : Text) : Finset Text :=
    scope.filter fun source => target ∈ edges source
  let dependencies (a : Text) : Finset Text := ((e.getTargetDependenciesValue a).getD []).toFinset
  have contained : ∀ l, sources dependencies l ⊆ scope := fun l => Finset.filter_subset _ _
  obtain ⟨last, -, ends⟩ : ∃ last ≤ (targets ∪ scope).card,
      fresh (sources dependencies) targets last = ∅ :=
    exists_fresh_eq_empty Finset.subset_union_left
      fun l _ => (contained l).trans Finset.subset_union_right
  refine ⟨last + 1, fun limit enough => ?_⟩
  refine (gives_dependenciesOf complete scope).bind fun edges edges_eq => ?_
  refine gives_get.bind fun missing available => ?_
  subst available
  have same : sources edges = sources dependencies := by
    funext target
    refine Finset.filter_congr fun source member => ?_
    rw [edges_eq source member]
  change Gives (rdepsLoop (sources edges) depth limit 0 (targets ∩ scope) targets) _
  rw [same]
  refine (gives_rdepsLoop contained ends (Nat.zero_le last) (by omega) (by omega)).mono
    fun reached reached_iff a => ?_
  have reverse_iff : (fun b a : Text => a ∈ sources dependencies b) =
      fun b a => a ∈ scope ∧ dependsOn e a b := by
    funext b a
    simp only [sources, dependencies, Finset.mem_filter, List.mem_toFinset]
    rfl
  rw [reached_iff]
  simp only [mem_ball_iff, reverse_iff]
  refine and_congr_right fun _ => ⟨?_, ?_⟩
  · rintro ⟨radius, bounded, count, le, b, member, walk⟩
    exact ⟨b, member, count, by omega, walk.swap⟩
  · rintro ⟨b, member, count, bounded, walk⟩
    exact ⟨count, bounded, count, Nat.le_refl _, b, member, walk.swap⟩

theorem Determines.rdeps {scope targets : QueryExpression} {within found : Set Text}
    (ofScope : Determines (fun limit => evaluate e limit scope) within)
    (ofTargets : Determines (fun limit => evaluate e limit targets) found) (depth : Int) :
    Determines (fun limit => evaluate e limit (.rdeps scope targets depth))
      {a | a ∈ within ∧
        ∃ b ∈ found, Within (fun s t => s ∈ within ∧ dependsOn e s t) depth a b} := by
  refine ofScope.bind fun inside inside_iff => ?_
  refine ofTargets.bind fun reached reached_iff => ?_
  have rdeps := determines_rdeps complete inside reached depth
  simp only [inside_iff, reached_iff] at rdeps
  exact rdeps

omit complete in
theorem Supported.binary {operator : Operator} {left right : QueryExpression}
    (supported : Supported e (.binary operator left right)) :
    Supported e left ∧ Supported e right := by
  cases operator with
  | other value => exact supported.elim
  | _ => exact supported

/-- Evaluation gives what expressions denote. -/
theorem determines_evaluate {expression : QueryExpression} (supported : Supported e expression)
    (confined : Confined e expression) :
    Determines (fun limit => evaluate e limit expression) (denote e expression) := by
  induction expression with
  | absent => exact supported.elim
  | unset => exact supported.elim
  | pattern pattern =>
    refine .of_gives ((gives_expandPatterns (forall_mem_singleton.mpr supported)).mono
      fun labels labels_iff l => ?_)
    rw [labels_iff]
    simp [denote]
  | set patterns => exact .of_gives (gives_expandPatterns supported)
  | binary operator left right ihLeft ihRight =>
    have both := supported.binary
    refine (ihLeft both.1 confined.1).bind fun first first_iff => ?_
    refine (ihRight both.2 confined.2).bind fun second second_iff => .of_gives ?_
    cases operator with
    | union => exact .pure fun l => by simp [denote, first_iff, second_iff]
    | except => exact .pure fun l => by simp [denote, first_iff, second_iff]
    | intersect => exact .pure fun l => by simp [denote, first_iff, second_iff]
    | other value => exact supported.elim
  | deps scope depth ih =>
    refine (ih supported confined).bind fun start start_iff => ?_
    have same : denote e (.deps scope depth) =
        {b | ∃ a ∈ start, Within (dependsOn e) depth a b} := by
      simp [denote, start_iff]
    rw [same]
    exact determines_deps complete start depth
  | rdeps scope targets depth ihScope ihTargets =>
    obtain ⟨confinedScope, confinedTargets, stays⟩ := confined
    have same : denote e (.rdeps scope targets depth) = {a | a ∈ denote e scope ∧
        ∃ b ∈ denote e targets,
          Within (fun s t => s ∈ denote e scope ∧ dependsOn e s t) depth a b} := by
      ext a
      refine and_congr_right fun member => ⟨?_, ?_⟩
      · rintro ⟨b, target, walk⟩
        exact stays a member b target walk
      · rintro ⟨b, target, count, bounded, walk⟩
        exact ⟨b, target, count, bounded, walk.mono fun _ _ both => both.2⟩
    rw [same]
    exact .rdeps complete (ihScope supported.1 confinedScope)
      (ihTargets supported.2 confinedTargets) depth
  | kind pattern targets ih =>
    obtain ⟨supportedTargets, re, compiled⟩ := supported
    refine (ih supportedTargets confined).bind fun found found_iff => .of_gives ?_
    refine (gives_compilePattern compiled).bind fun _ same => ?_
    subst same
    refine (gives_note ?_).bind fun _ _ => .pure fun l => ?_
    · simp [targetMissing, complete.targets]
    · simp [denote, found_iff, matchesPattern, compiled, Option.any_eq_true]
  | filter pattern targets ih =>
    obtain ⟨supportedTargets, re, compiled⟩ := supported
    refine (ih supportedTargets confined).bind fun found found_iff => .of_gives ?_
    refine (gives_compilePattern compiled).bind fun _ same => .pure fun l => ?_
    subst same
    simp [denote, found_iff, matchesPattern, compiled]
  | attr name pattern targets ih =>
    obtain ⟨supportedTargets, re, compiled⟩ := supported
    refine (ih supportedTargets confined).bind fun found found_iff => .of_gives ?_
    refine (gives_compilePattern compiled).bind fun _ same => ?_
    subst same
    refine (gives_note ?_).bind fun _ _ => .pure fun l => ?_
    · simp [complete.attrs]
    · simp [denote, found_iff, compiled]

/-! ## Results -/

variable {expression : QueryExpression}

/-- The result lists the labels found that have a kind. -/
theorem computeQueryResultValue_eq {limit : Nat} {labels : Finset Text}
    (evaluated : (evaluate e limit expression).run false = .ok (labels, false)) :
    computeQueryResultValue e limit expression = .ok ((labels.sort (· ≤ ·)).filterMap fun l =>
      (targetKind e l).map fun kind => ⟨l, kind⟩) := by
  have available : (labels.sort (· ≤ ·)).any (targetMissing e) = false := by
    simp [targetMissing, complete.targets]
  rw [computeQueryResultValue, evaluated]
  change (if (labels.sort (· ≤ ·)).any (targetMissing e) = true then _ else _) = _
  rw [available]
  rfl

/-- Expressions are answered if walks in reverse need not leave their scope and all labels have a
kind. -/
theorem answers_of_confined (supported : Supported e expression) (confined : Confined e expression)
    (kinds : ∀ l ∈ denote e expression, targetKind e l ≠ none) : Answers e expression := by
  obtain ⟨bound, gives⟩ := determines_evaluate complete supported confined
  refine ⟨bound, fun limit enough => ?_⟩
  obtain ⟨labels, evaluated, labels_iff⟩ := gives limit enough
  have labelled : ((labels.sort (· ≤ ·)).filterMap fun l =>
      (targetKind e l).map fun kind => Target.mk l kind).map Target.label =
      labels.sort (· ≤ ·) := by
    rw [map_filterMap]
    refine (filterMap_congr fun l member => ?_).trans filterMap_some
    obtain ⟨kind, known⟩ := ne_none_iff_exists'.mp
      (kinds l ((labels_iff l).mp ((Finset.mem_sort _).mp member)))
    rw [known]
    rfl
  refine ⟨_, computeQueryResultValue_eq complete evaluated, ?_, ?_, ?_⟩
  · rw [labelled]
    exact labels.sortedLT_sort.pairwise
  · intro l
    rw [labelled, Finset.mem_sort, labels_iff]
  · intro target member
    obtain ⟨l, -, known⟩ := mem_filterMap.mp member
    obtain ⟨kind, kind_eq, rfl⟩ := map_eq_some_iff.mp known
    exact kind_eq

/-- What an expression denotes can only be listed if evaluation gives it. -/
theorem Answers.subset (answers : Answers e expression) {set : Set Text}
    (determines : Determines (fun limit => evaluate e limit expression) set) :
    denote e expression ⊆ set := by
  intro l member
  obtain ⟨bound, lists⟩ := answers
  obtain ⟨other, gives⟩ := determines
  obtain ⟨labels, evaluated, labels_iff⟩ := gives (max bound other) (le_max_right _ _)
  obtain ⟨targets, computed, -, listed_iff, -⟩ := lists (max bound other) (le_max_left _ _)
  cases (computeQueryResultValue_eq complete evaluated).symm.trans computed
  obtain ⟨target, listed, rfl⟩ := mem_map.mp ((listed_iff l).mpr member)
  obtain ⟨found, sorted, known⟩ := mem_filterMap.mp listed
  obtain ⟨kind, -, rfl⟩ := map_eq_some_iff.mp known
  exact (labels_iff found).mp ((Finset.mem_sort _).mp sorted)

omit complete in
/-- Parts of an expression meet the same conditions. -/
theorem of_mem_parts {part : QueryExpression} (supported : Supported e expression)
    (confined : Confined e expression) (member : part ∈ parts expression) :
    Supported e part ∧ Confined e part := by
  induction expression with
  | absent => exact supported.elim
  | unset => exact supported.elim
  | pattern | set =>
    obtain rfl := List.mem_singleton.mp member
    exact ⟨supported, confined⟩
  | binary operator left right ihLeft ihRight =>
    rcases List.mem_cons.mp member with rfl | member
    · exact ⟨supported, confined⟩
    rcases mem_append.mp member with member | member
    · exact ihLeft supported.binary.1 confined.1 member
    · exact ihRight supported.binary.2 confined.2 member
  | deps scope depth ih =>
    rcases List.mem_cons.mp member with rfl | member
    · exact ⟨supported, confined⟩
    · exact ih supported confined member
  | rdeps scope targets depth ihScope ihTargets =>
    rcases List.mem_cons.mp member with rfl | member
    · exact ⟨supported, confined⟩
    rcases mem_append.mp member with member | member
    · exact ihScope supported.1 confined.1 member
    · exact ihTargets supported.2 confined.2.1 member
  | kind pattern targets ih | filter pattern targets ih | attr name pattern targets ih =>
    rcases List.mem_cons.mp member with rfl | member
    · exact ⟨supported, confined⟩
    · exact ih supported.1 confined member

/-- If all parts of an expression are answered, walks in reverse need not leave their scope. -/
theorem confined_of_answers (supported : Supported e expression)
    (answers : ∀ part ∈ parts expression, Answers e part) : Confined e expression := by
  induction expression with
  | absent | unset | pattern | set => trivial
  | binary operator left right ihLeft ihRight =>
    rw [parts, List.forall_mem_cons, forall_mem_append] at answers
    exact ⟨ihLeft supported.binary.1 answers.2.1, ihRight supported.binary.2 answers.2.2⟩
  | deps scope depth ih => exact ih supported (List.forall_mem_cons.mp answers).2
  | rdeps scope targets depth ihScope ihTargets =>
    rw [parts, List.forall_mem_cons, forall_mem_append] at answers
    obtain ⟨whole, ofScope, ofTargets⟩ := answers
    have confinedScope := ihScope supported.1 ofScope
    have confinedTargets := ihTargets supported.2 ofTargets
    refine ⟨confinedScope, confinedTargets, fun a member b target walk => ?_⟩
    -- The target is part of the result, and can only get there by a walk that stays in scope.
    have found := whole.subset complete (.rdeps complete
      (determines_evaluate complete supported.1 confinedScope)
      (determines_evaluate complete supported.2 confinedTargets) depth) ⟨member, b, target, walk⟩
    exact found.2
  | kind pattern targets ih | filter pattern targets ih | attr name pattern targets ih =>
    exact ih supported.1 (List.forall_mem_cons.mp answers).2

/-- **Query results.** Once no value is missing, a query terminates and lists the labels that the
expression denotes in order, provided that walks in reverse need not leave their scope and that all
of the labels have a kind. Otherwise, some part of the expression is not answered correctly. -/
theorem computeQueryResultValue_eq_denote (supported : Supported e expression) :
    (Confined e expression → (∀ l ∈ denote e expression, targetKind e l ≠ none) →
      Answers e expression) ∧
    ((∀ part ∈ parts expression, Answers e part) ↔ Confined e expression ∧
      ∀ part ∈ parts expression, ∀ l ∈ denote e part, targetKind e l ≠ none) := by
  refine ⟨answers_of_confined complete supported, fun answers => ?_, ?_⟩
  · refine ⟨confined_of_answers complete supported answers, fun part member l denoted => ?_⟩
    obtain ⟨bound, lists⟩ := answers part member
    obtain ⟨targets, -, -, listed_iff, kinds⟩ := lists bound le_rfl
    obtain ⟨target, listed, rfl⟩ := mem_map.mp ((listed_iff l).mpr denoted)
    rw [kinds target listed]
    exact some_ne_none _
  · rintro ⟨confined, kinds⟩ part member
    obtain ⟨supportedPart, confinedPart⟩ := of_mem_parts supported confined member
    exact answers_of_confined complete supportedPart confinedPart (kinds part member)

omit complete in
theorem confined_rdeps {targets : QueryExpression} (confinedScope : Confined e scope)
    (confinedTargets : Confined e targets)
    (closed : ∀ a b, a ∈ denote e scope → dependsOn e a b → b ∈ denote e scope) :
    Confined e (.rdeps scope targets depth) := by
  refine ⟨confinedScope, confinedTargets, fun a member b target walk => ⟨b, target, ?_⟩⟩
  obtain ⟨count, bounded, walk⟩ := walk
  exact ⟨count, bounded, (walk.of_closed closed member).1⟩

omit complete in
theorem closed_deps (unlimited : depth < 0) (a b : Text) (member : a ∈ denote e (.deps scope depth))
    (edge : dependsOn e a b) :
    b ∈ denote e (.deps scope depth) := by
  obtain ⟨start, started, count, -, walk⟩ := member
  exact ⟨start, started, count + 1, .inl unlimited, .tail walk edge⟩

end

/-! ## An example

A target `a` depends on `b`, which depends on `c`. The label setting `d` has no dependencies. -/

/-- The targets of the example. -/
def exampleEnvironment : Environment where
  expandPattern pattern := .ok ({pattern}, false)
  getTargetDependenciesValue l :=
    some (if l = ['a'] then [['b']] else if l = ['b'] then [['c']] else [])
  getTargetValue l := some (if l = ['d'] then .labelSetting else .sourceFileTarget)
  compile _ := .error "Regular expressions are not supported"
  targetAttrMatches _ _ _ := some false

theorem dependsOn_exampleEnvironment_iff {a : Text} :
    dependsOn exampleEnvironment a b ↔ a = ['a'] ∧ b = ['b'] ∨ a = ['b'] ∧ b = ['c'] := by
  change b ∈ (if a = ['a'] then [['b']] else if a = ['b'] then [['c']] else []) ↔ _
  split_ifs with first second
  · simp [first]
  · simp [second]
  · simp [first, second]

theorem exampleEnvironment_complete : exampleEnvironment.Complete where
  dependencies _ := some_ne_none _
  targets _ := some_ne_none _
  attrs _ _ _ := some_ne_none _
  finite := by
    refine ⟨{['b'], ['c']}, fun a b edge => ?_⟩
    rcases dependsOn_exampleEnvironment_iff.mp edge with ⟨-, rfl⟩ | ⟨-, rfl⟩ <;> decide

/-- A query whose scope includes all dependencies is answered. -/
theorem computeQueryResultValue_of_closed_scope :
    Answers exampleEnvironment
      (.rdeps (.deps (.pattern ['a']) (-1)) (.pattern ['c']) (-1)) := by
  have supported : Supported exampleEnvironment
      (.rdeps (.deps (.pattern ['a']) (-1)) (.pattern ['c']) (-1)) := ⟨⟨_, rfl⟩, _, rfl⟩
  refine (computeQueryResultValue_eq_denote exampleEnvironment_complete supported).1
    (confined_rdeps trivial trivial (closed_deps (by decide))) ?_
  rintro l ⟨⟨a, ⟨_, _, expanded, started⟩, count, -, walk⟩, -⟩
  obtain ⟨rfl, -⟩ := Prod.mk.inj (Except.ok.inj expanded)
  obtain rfl := Finset.mem_singleton.mp started
  have inside : _ ∧ l ∈ ({l | l ≠ ['d']} : Set Text) := walk.of_closed ?_ (by decide)
  · have definition : exampleEnvironment.getTargetValue l = some .sourceFileTarget := by
      simp only [exampleEnvironment, show l ≠ ['d'] from inside.2, if_false]
    rw [targetKind, definition]
    exact some_ne_none _
  · intro a b _ edge
    rcases dependsOn_exampleEnvironment_iff.mp edge with ⟨-, rfl⟩ | ⟨-, rfl⟩ <;> decide

/-- A query misses a target in scope, because the target that it depends on is not in scope. Label
settings are not listed at all. -/
theorem computeQueryResultValue_misses_targets :
    exampleEnvironment.Complete ∧
      Supported exampleEnvironment (.rdeps (.pattern ['a']) (.pattern ['c']) (-1)) ∧
      ['a'] ∈ denote exampleEnvironment (.rdeps (.pattern ['a']) (.pattern ['c']) (-1)) ∧
      (∀ limit, computeQueryResultValue exampleEnvironment (limit + 2)
        (.rdeps (.pattern ['a']) (.pattern ['c']) (-1)) = .ok []) ∧
      ['d'] ∈ denote exampleEnvironment (.pattern ['d']) ∧
      ∀ limit, computeQueryResultValue exampleEnvironment limit (.pattern ['d']) = .ok [] := by
  have first := dependsOn_exampleEnvironment_iff.mpr (.inl ⟨rfl, rfl⟩)
  have second := dependsOn_exampleEnvironment_iff.mpr (.inr ⟨rfl, rfl⟩)
  refine ⟨exampleEnvironment_complete, ⟨⟨_, rfl⟩, _, rfl⟩, ?_, ?_, ?_, ?_⟩
  · refine ⟨⟨_, _, rfl, Finset.mem_singleton_self _⟩, ['c'],
      ⟨_, _, rfl, Finset.mem_singleton_self _⟩, 2, .inl (by decide), ?_⟩
    exact .tail (.tail (.refl _) first) second
  · intro limit
    have evaluated : (evaluate exampleEnvironment (limit + 2)
        (.rdeps (.pattern ['a']) (.pattern ['c']) (-1))).run false = .ok (∅, false) := rfl
    rw [computeQueryResultValue, evaluated]
    change (if ((∅ : Finset Text).sort (· ≤ ·)).any _ = true then _ else _) = _
    rw [Finset.sort_empty]
    rfl
  · exact ⟨_, _, rfl, Finset.mem_singleton_self _⟩
  · intro limit
    have evaluated : (evaluate exampleEnvironment limit (.pattern ['d'])).run false =
      .ok ({['d']}, false) := rfl
    rw [computeQueryResultValue, evaluated]
    change (if (({['d']} : Finset Text).sort (· ≤ ·)).any _ = true then _ else _) = _
    rw [Finset.sort_singleton]
    rfl

end Bonanza.Query
