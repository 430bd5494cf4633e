import Bonanza.Label.Canonical
import Bonanza.Lib.AssocList
import Bonanza.Lib.BinarySearch

/-! # Package groups

`NewPackageGroupFromVisibility` compiles the labels of a `visibility` attribute into a tree of
package name components, and encodes it as nested messages sorted by component.
`packageGroupContains` searches these messages for a package.

The tree is modelled as being kept inline. Messages that refer to another object are part of the
model, as `packageGroupContains` fails on them.
-/

namespace Bonanza.Visibility

open Label

/-! ## Messages -/

/-- `PackageGroup.Package`. -/
structure PackageOf (Subpackages : Type) where
  component : Text
  includePackage : Bool
  subpackages : Subpackages

/-- The `overrides` field of `PackageGroup.Subpackages`. -/
inductive OverridesOf (Subpackages : Type) where
  | none
  | overridesInline (packages : List (PackageOf Subpackages))
  | overridesExternal

/-- Whether packages are included, except for those below. -/
inductive Subpackages where
  | mk (includeSubpackages : Bool) (overrides : OverridesOf Subpackages)

/-- The packages for which targets are visible. -/
structure PackageGroup where
  tree : Subpackages
  includePackageGroups : List Text

/-! ## Construction -/

/-- `packageGroupNode`. The order of subpackages is of no importance. -/
inductive Node where
  | mk (includePackage includeSubpackages : Bool) (subpackages : List (Text × Node))

namespace Node

/-- Whether the package itself is included. -/
def includePackage : Node → Bool
  | mk includePackage _ _ => includePackage

/-- Whether packages below are included. -/
def includeSubpackages : Node → Bool
  | mk _ includeSubpackages _ => includeSubpackages

/-- The nodes of packages below. -/
def subpackages : Node → List (Text × Node)
  | mk _ _ subpackages => subpackages

/-- A node without any properties. -/
def new : Node := mk false false []

/-- `packageGroupNode.getOrCreate`, which panics if all children are included. -/
def getOrCreate (n : Node) (name : Text) : Except String Node :=
  if n.includeSubpackages then
    .error "attempted to look up node under node that already includes all children"
  else
    .ok ((AssocList.lookup n.subpackages name).getD new)

/-- Store a node under a name. -/
def set (n : Node) (name : Text) (child : Node) : Node :=
  mk n.includePackage n.includeSubpackages (AssocList.insert n.subpackages name child)

/-- The loop of `packageGroupNode.lookupPackage` and the update of its result, unless all packages
are included. -/
def updateBelow (update : Node → Node) : List Text → Node → Except String Node
  | [], n => if n.includeSubpackages then .ok n else .ok (update n)
  | name :: names, n =>
    if n.includeSubpackages then .ok n
    else do
      let child ← n.getOrCreate name
      let child ← updateBelow update names child
      return n.set name child

/-- `packageGroupNode.lookupPackage`, and what its caller does to the result. -/
def updatePackage (n : Node) (canonicalPackage : CanonicalPackage) (update : Node → Node) :
    Except String Node := do
  let child ← n.getOrCreate canonicalPackage.getCanonicalRepo
  let child ← child.updateBelow update (components canonicalPackage.getPackagePath)
  return n.set canonicalPackage.getCanonicalRepo child

/-- Include a single package. -/
def setIncludePackage (n : Node) : Node :=
  mk true n.includeSubpackages n.subpackages

/-- Include a package and all of its children. -/
def setIncludeSubpackages (_ : Node) : Node :=
  mk true true []

mutual

/-- `packageGroupNodeToProto`. -/
def toProto : Node → Subpackages
  | mk _ includeSubpackages subpackages =>
    .mk includeSubpackages
      (if subpackages.isEmpty then .none
      else
        .overridesInline ((toPackages subpackages).insertionSort fun a b =>
          a.component ≤ b.component))

/-- The messages of the children of a node. -/
def toPackages : List (Text × Node) → List (PackageOf Subpackages)
  | [] => []
  | (component, child) :: rest =>
    { component, includePackage := child.includePackage, subpackages := child.toProto } ::
      toPackages rest

end

end Node

/-- Remove duplicates from a sorted list. -/
def compact : List Text → List Text
  | [] => []
  | [a] => [a]
  | a :: b :: rest => if a = b then compact (b :: rest) else a :: compact (b :: rest)

/-- How the construction of a package group fails. -/
inductive CreationError where
  | invalid (message : String)
  | panic (message : String)

/-- Special labels under `//visibility`. -/
def isSpecial (name : String) (canonicalLabel : CanonicalLabel) : Prop :=
  canonicalLabel.getCanonicalPackage.getPackagePath = "visibility".toList ∧
    canonicalLabel.getTargetName = name.toList

instance (name : String) (canonicalLabel : CanonicalLabel) :
    Decidable (isSpecial name canonicalLabel) :=
  inferInstanceAs (Decidable (_ ∧ _))

/-- The loop of `NewPackageGroupFromVisibility`, with the number of labels so far. -/
def addLabels (count : Nat) :
    Node → List Text → List ResolvedLabel → Except CreationError PackageGroup
  | tree, includePackageGroups, [] =>
    .ok ⟨tree.toProto, compact (includePackageGroups.insertionSort (· ≤ ·))⟩
  | tree, includePackageGroups, resolvedLabel :: visibility =>
    match resolvedLabel.asCanonical with
    | .error _ => addLabels count tree includePackageGroups visibility
    | .ok canonicalLabel =>
      let canonicalPackage := canonicalLabel.getCanonicalPackage
      let targetName := canonicalLabel.getTargetName
      if isSpecial "private" canonicalLabel then
        if count > 1 then
          .error (.invalid "//visibility:private may not be combined with other labels")
        else
          .ok ⟨.mk false .none, []⟩
      else if isSpecial "public" canonicalLabel then
        if count > 1 then
          .error (.invalid "//visibility:public may not be combined with other labels")
        else
          .ok ⟨.mk true .none, []⟩
      else if targetName = "__pkg__".toList then
        match tree.updatePackage canonicalPackage Node.setIncludePackage with
        | .error message => .error (.panic message)
        | .ok tree => addLabels count tree includePackageGroups visibility
      else if targetName = "__subpackages__".toList then
        match tree.updatePackage canonicalPackage Node.setIncludeSubpackages with
        | .error message => .error (.panic message)
        | .ok tree => addLabels count tree includePackageGroups visibility
      else
        addLabels count tree (includePackageGroups ++ [canonicalLabel.value]) visibility

/-- Compile a list of labels. -/
def newPackageGroupFromVisibility (visibility : List ResolvedLabel) :
    Except CreationError PackageGroup :=
  addLabels visibility.length .new [] visibility

/-! ## Searching -/

/-- How searching a package group fails. -/
inductive SearchError where
  | missingDependency
  | invalid (message : String)

/-- The loop of `packageGroupContains` over the components of a package. -/
def containsDirectly : Subpackages → Text → List Text → Except SearchError Bool
  | .mk _ .overridesExternal, _, _ =>
    .error (.invalid
      "loading external overrides from an external object has not been implemented yet")
  | .mk includeSubpackages .none, _, _ => .ok includeSubpackages
  | .mk includeSubpackages (.overridesInline packages), component, rest =>
    match BinarySearch.lookup PackageOf.component packages component with
    | none => .ok includeSubpackages
    | some p =>
      match rest with
      | [] => .ok p.includePackage
      | next :: rest => containsDirectly p.subpackages next rest

/-- The loop of `packageGroupContains` over other package groups, as the environment has them. -/
def containsIncluded (e : Text → Text → Option Bool) (fromPackage : Text) :
    List Text → Except SearchError Bool
  | [] => .ok false
  | includePackageGroup :: rest =>
    match e includePackageGroup fromPackage with
    | none => .error .missingDependency
    | some true => .ok true
    | some false => containsIncluded e fromPackage rest

/-- Whether a package is included, directly or by another group. -/
def packageGroupContains (e : Text → Text → Option Bool) (packageGroup : PackageGroup)
    (fromPackage : CanonicalPackage) : Except SearchError Bool := do
  if ← containsDirectly packageGroup.tree fromPackage.getCanonicalRepo
      (components fromPackage.getPackagePath) then
    return true
  containsIncluded e fromPackage.value packageGroup.includePackageGroups

end Bonanza.Visibility
