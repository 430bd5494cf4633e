import Bonanza.Lib.BinarySearch
import Bonanza.Status

/-! # Walking directories

A `DirectoryComponentWalker` resolves paths in directories stored as objects. The directory at which
it is may not have been read yet. It follows the path, unless `OnUp()` is called while it is at a
root directory that has not been read: it then leaves the root without calling its handler, and has
no directory left to look into (`follows_iff`).
-/

namespace Bonanza.Filesystem

open List BinarySearch

/-- A field that holds a message, or refers to the object that does. -/
inductive Stored (ρ α : Type)
  | unset
  | external (reference : ρ)
  | inline (message : α)

/-- The files and symbolic links of a directory. -/
structure Leaves (φ : Type) where
  files : List (String × Option φ)
  symlinks : List (String × String)

/-- A node that holds the contents of a directory, or refers to them. -/
inductive Directory (ρ φ : Type)
  | unset
  | external (reference : ρ)
  | inline (directories : List (String × Directory ρ φ)) (leaves : Stored ρ (Leaves φ))

/-- The contents of a directory. -/
structure DirectoryContents (ρ φ : Type) where
  directories : List (String × Directory ρ φ)
  leaves : Stored ρ (Leaves φ)

/-- Access to objects in storage, which may fail. -/
structure DirectoryReaders (ρ φ : Type) where
  directoryContents : ρ → Except Status (DirectoryContents ρ φ)
  leaves : ρ → Except Status (Leaves φ)

variable {ρ φ : Type} (readers : DirectoryReaders ρ φ)

/-- The leaves of a directory, wherever they are stored. -/
def directoryGetLeaves (directory : DirectoryContents ρ φ) : Except Status (Leaves φ) :=
  match directory.leaves with
  | .external reference => readers.leaves reference
  | .inline leaves => .ok leaves
  | .unset => .error ⟨.invalidArgument, "Directory has no leaves"⟩

/-- The contents of a directory, wherever they are stored. -/
def directoryGetContents : Directory ρ φ → Except Status (DirectoryContents ρ φ)
  | .external reference => readers.directoryContents reference
  | .inline directories leaves => .ok ⟨directories, leaves⟩
  | .unset => .error ⟨.invalidArgument, "Directory node has no contents"⟩

/-- A position below a root directory. -/
structure DirectoryComponentWalker (ρ φ : Type) where
  currentDirectory : Option (Directory ρ φ)
  /-- The lowest directory comes first. -/
  directoriesStack : List (DirectoryContents ρ φ)
  fileProperties : Option φ

/-- What a call returns. -/
inductive Outcome
  /-- The walker is returned for the next component, or nothing after the last one. -/
  | continues
  | gotSymlink (target : String)
  | onUpHandler
  | error (err : Status)
  /-- An index is out of range. -/
  | panics

/-- The calls made while resolving a path. -/
inductive Call
  | onDirectory (name : String)
  | onTerminal (name : String)
  | onUp

/-- The walker at the start of a path. -/
def newDirectoryComponentWalker (currentDirectory : Option (Directory ρ φ))
    (directoriesStack : List (DirectoryContents ρ φ)) : DirectoryComponentWalker ρ φ :=
  ⟨currentDirectory, directoriesStack, none⟩

namespace DirectoryComponentWalker

variable (cw : DirectoryComponentWalker ρ φ)

/-- Read the directory that the walker is at, if this is still to be done. -/
def dereferenceCurrentDirectory : Except Status (DirectoryComponentWalker ρ φ) :=
  match cw.currentDirectory with
  | none => .ok cw
  | some directory => do
    let d ← directoryGetContents readers directory
    return { cw with currentDirectory := none, directoriesStack := d :: cw.directoriesStack }

/-- Look up a component in the lowest directory. -/
def onComponent (onFile : Option φ → Except Status φ) (name : String) :
    Outcome × DirectoryComponentWalker ρ φ :=
  match cw.dereferenceCurrentDirectory readers with
  | .error err => (.error err, cw)
  | .ok cw =>
    match cw.directoriesStack with
    | [] => (.panics, cw)
    | d :: _ =>
      match lookup Prod.fst d.directories name with
      | some (_, directory) => (.continues, { cw with currentDirectory := some directory })
      | none =>
        match directoryGetLeaves readers d with
        | .error err => (.error err, cw)
        | .ok leaves =>
          match lookup Prod.fst leaves.files name with
          | some (_, properties) =>
            match onFile properties with
            | .error err => (.error err, cw)
            | .ok properties => (.continues, { cw with fileProperties := some properties })
          | none =>
            match lookup Prod.fst leaves.symlinks name with
            | some (_, target) => (.gotSymlink target, cw)
            | none => (.error ⟨.notFound, "Path does not exist"⟩, cw)

/-- A component that is followed by others. -/
def onDirectory := cw.onComponent readers fun _ =>
  .error ⟨.invalidArgument, "Path resolves to a regular file, while a directory was expected"⟩

/-- The last component of a path. -/
def onTerminal := cw.onComponent readers fun
  | none => .error ⟨.invalidArgument, "Path resolves to file that does not have any properties"⟩
  | some properties => .ok properties

/-- A component `..`. -/
def onUp : Outcome × DirectoryComponentWalker ρ φ :=
  match cw.currentDirectory, cw.directoriesStack with
  | some _, _ => (.continues, { cw with currentDirectory := none })
  | none, [] => (.panics, cw)
  | none, [_] => (.onUpHandler, cw)
  | none, _ :: parents => (.continues, { cw with directoriesStack := parents })

/-- Make one of the calls. -/
def call : Call → Outcome × DirectoryComponentWalker ρ φ
  | .onDirectory name => cw.onDirectory readers name
  | .onTerminal name => cw.onTerminal readers name
  | .onUp => cw.onUp

/-! ## Positions -/

/-- What is read from a directory, and from those above it. -/
abbrev Path (ρ φ : Type) := List (Except Status (DirectoryContents ρ φ))

/-- Where the walker is. -/
def path : Path ρ φ :=
  (cw.currentDirectory.map (directoryGetContents readers)).toList ++ cw.directoriesStack.map .ok

/-- Where a call should lead to. -/
def next (path : Path ρ φ) : Call → Path ρ φ
  | .onDirectory name | .onTerminal name =>
    match path with
    | .ok d :: above =>
      match d.directories.find? (·.1 = name) with
      | some child => directoryGetContents readers child.2 :: .ok d :: above
      | none => .ok d :: above
    | path => path
  | .onUp =>
    match path with
    | _ :: parent :: above => parent :: above
    | path => path

/-- Calls do not panic, keep the walker at the right directory, and call the handler exactly when
going up from the root. -/
def Follows : Path ρ φ → DirectoryComponentWalker ρ φ → List Call → Prop
  | path, cw, [] => cw.path readers = path
  | path, cw, call :: calls => cw.path readers = path ∧ (cw.call readers call).1 ≠ .panics ∧
      ((cw.call readers call).1 = .onUpHandler ↔ call = .onUp ∧ path.length = 1) ∧
      Follows (next readers path call) (cw.call readers call).2 calls

/-- The entries of all directories that calls may lead to are sorted. -/
def Sorted (path : Path ρ φ) : Prop :=
  ∀ (calls : List Call) (d : DirectoryContents ρ φ),
    (calls.foldl (next readers) path).head? = some (.ok d) →
    d.directories.Pairwise fun a b => a.1 < b.1

variable {readers} {cw}

theorem onUp_spec (entered : cw.directoriesStack ≠ []) :
    cw.onUp.1 ≠ .panics ∧ (cw.onUp.1 = .onUpHandler ↔ (cw.path readers).length = 1) ∧
      cw.onUp.2.path readers = next readers (cw.path readers) .onUp ∧
      cw.onUp.2.directoriesStack ≠ [] := by
  obtain ⟨current, stack, properties⟩ := cw
  obtain ⟨d, above, rfl⟩ := exists_cons_of_ne_nil entered
  cases current with
  | some directory =>
    refine ⟨by rintro ⟨⟩, iff_of_false (by rintro ⟨⟩) ?_, rfl, entered⟩
    simp [path]
  | none =>
    cases above with
    | nil => exact ⟨by rintro ⟨⟩, iff_of_true rfl rfl, rfl, entered⟩
    | cons parent above =>
      refine ⟨by rintro ⟨⟩, iff_of_false (by rintro ⟨⟩) ?_, rfl, cons_ne_nil _ _⟩
      simp [path]

/-- Either the directory can be read, or the walker cannot look into it. -/
theorem dereference_spec (present : cw.path readers ≠ []) :
    (∃ err above, cw.path readers = .error err :: above ∧
      cw.dereferenceCurrentDirectory readers = .error err) ∨
    ∃ d above, cw.path readers = .ok d :: above.map .ok ∧
      cw.dereferenceCurrentDirectory readers = .ok ⟨none, d :: above, cw.fileProperties⟩ := by
  unfold dereferenceCurrentDirectory
  obtain ⟨_ | directory, stack, properties⟩ := cw
  · cases stack with
    | nil => exact absurd rfl present
    | cons d above => exact .inr ⟨d, above, rfl, rfl⟩
  · simp only [path, Option.map_some]
    cases directoryGetContents readers directory with
    | error err => exact .inl ⟨err, _, rfl, rfl⟩
    | ok d => exact .inr ⟨d, stack, rfl, rfl⟩

/-- Looking up a component calls no handler. If the directory cannot be read, the walker stays. -/
theorem call_spec (sorted : Sorted readers (cw.path readers)) (present : cw.path readers ≠ [])
    {call : Call} (down : call ≠ .onUp) :
    let after := cw.call readers call
    after.1 ≠ .panics ∧ after.1 ≠ .onUpHandler ∧
      after.2.path readers = next readers (cw.path readers) call ∧
      ((∃ err, (cw.path readers).head? = some (.error err)) ∧ after.2 = cw ∨
        (∃ d, (cw.path readers).head? = some (.ok d)) ∧ after.2.directoriesStack ≠ []) := by
  cases call with
  | onUp => exact absurd rfl down
  | _ name =>
    unfold call
    simp only [onDirectory, onTerminal]
    unfold onComponent
    rcases dereference_spec present with ⟨err, above, path_eq, failed⟩ | ⟨d, above, path_eq, read⟩
    · rw [failed]
      dsimp only
      rw [path_eq]
      exact ⟨by rintro ⟨⟩, by rintro ⟨⟩, rfl, .inl ⟨⟨err, rfl⟩, rfl⟩⟩
    · rw [path_eq] at sorted ⊢
      simp only [read, next, ← lookup_eq_find? (sorted [] d rfl)]
      cases lookup Prod.fst d.directories name
      all_goals
        dsimp only
        repeat' split
      all_goals exact ⟨by rintro ⟨⟩, by rintro ⟨⟩, rfl, .inr ⟨⟨d, rfl⟩, cons_ne_nil _ _⟩⟩

theorem path_ne_nil (entered : cw.directoriesStack ≠ []) : cw.path readers ≠ [] :=
  append_ne_nil_of_right_ne_nil _ (mt map_eq_nil_iff.mp entered)

/-- A walker follows the path if and only if it has read a directory, or a lookup reads the one it
starts at before it goes up. -/
theorem follows_iff (sorted : Sorted readers (cw.path readers)) (present : cw.path readers ≠ [])
    (calls : List Call) :
    Follows readers (cw.path readers) cw calls ↔ (cw.directoriesStack = [] → .onUp ∈ calls →
      calls.head? ≠ some .onUp ∧ ∃ d, (cw.path readers).head? = some (.ok d)) := by
  induction calls generalizing cw with
  | nil => exact iff_of_true rfl fun _ member => absurd member not_mem_nil
  | cons call calls ih =>
    have sorted' : Sorted readers (next readers (cw.path readers) call) :=
      fun calls => sorted (call :: calls)
    by_cases up : call = .onUp
    · subst up
      by_cases entered : cw.directoriesStack = []
      · refine iff_of_false ?_ fun condition => (condition entered mem_cons_self).1 rfl
        obtain ⟨_ | directory, stack, properties⟩ := cw
        · exact absurd entered (mt (congrArg _) present)
        · rintro ⟨-, -, handled, -⟩
          cases entered
          cases handled.mpr ⟨rfl, rfl⟩
      · obtain ⟨safe, handled, later, entered'⟩ := @onUp_spec _ _ readers _ entered
        rw [← later] at sorted'
        refine iff_of_true ⟨rfl, safe, handled.trans (and_iff_right rfl).symm, ?_⟩ (absurd · entered)
        rw [← later]
        exact (ih sorted' (path_ne_nil entered')).mpr (absurd · entered')
    · obtain ⟨safe, unhandled, later, kept⟩ := call_spec sorted present up
      rw [← later] at sorted'
      rw [Follows, and_iff_right rfl, and_iff_right safe,
        and_iff_right (iff_of_false unhandled fun both => up both.1), ← later]
      rcases kept with ⟨⟨err, failed⟩, same⟩ | ⟨⟨d, read⟩, entered⟩
      · rw [same, ih sorted present]
        simp [failed, Ne.symm up]
      · rw [ih sorted' (path_ne_nil entered)]
        refine iff_of_true (absurd · entered) fun _ _ => ⟨?_, d, read⟩
        exact fun same => up (Option.some.inj same)

/-- Storage from which no object can be read. -/
def unavailable : DirectoryReaders Nat Nat :=
  ⟨fun _ => .error ⟨.unavailable, "Offline"⟩, fun _ => .error ⟨.unavailable, "Offline"⟩⟩

/-- A walker at a root directory with a subdirectory and a file, which has not been read. -/
def unreadRoot : DirectoryComponentWalker Nat Nat :=
  newDirectoryComponentWalker
    (some (.inline [("a", .inline [] (.inline ⟨[], []⟩))] (.inline ⟨[("f", some 1)], []⟩))) []

/-- The paths that calls may lead to. -/
def samplePaths : List (Path Nat Nat) :=
  [unreadRoot.path unavailable,
    .ok ⟨[], .inline ⟨[], []⟩⟩ :: unreadRoot.path unavailable]

theorem foldl_next_mem_samplePaths (calls : List Call) {path : Path Nat Nat}
    (member : path ∈ samplePaths) : calls.foldl (next unavailable) path ∈ samplePaths := by
  induction calls generalizing path with
  | nil => exact member
  | cons call calls ih =>
    refine ih ?_
    rcases mem_pair.mp member with rfl | rfl
    · cases call with
      | onUp => exact mem_cons_self
      | onDirectory name | onTerminal name =>
        by_cases same : "a" = name
        · subst same
          exact mem_cons_of_mem _ mem_cons_self
        · simp [next, unreadRoot, newDirectoryComponentWalker, DirectoryComponentWalker.path,
            directoryGetContents, samplePaths, same]
    · cases call with
      | onUp => exact mem_cons_self
      | onDirectory name | onTerminal name => exact mem_cons_of_mem _ mem_cons_self

/-- The root is looked into before going up. -/
theorem follows_unreadRoot :
    Follows unavailable (unreadRoot.path unavailable) unreadRoot
      [.onDirectory "a", .onUp, .onTerminal "f", .onUp] := by
  refine (follows_iff (fun calls d head => ?_) (by rintro ⟨⟩) _).mpr fun _ _ =>
    ⟨by rintro ⟨⟩, _, rfl⟩
  rcases mem_pair.mp (foldl_next_mem_samplePaths calls mem_cons_self) with root | below
  · rw [root] at head
    cases head
    exact pairwise_singleton _ _
  · rw [below] at head
    cases head
    exact .nil

/-- Going up from a root that has not been read does not call the handler, and the next lookup
panics. -/
theorem onUp_unreadRoot_panics :
    (unreadRoot.call unavailable .onUp).1 = .continues ∧
      ((unreadRoot.call unavailable .onUp).2.call unavailable (.onDirectory "a")).1 = .panics :=
  ⟨rfl, rfl⟩

end DirectoryComponentWalker

end Bonanza.Filesystem
