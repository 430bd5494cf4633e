import Mathlib

/-! # Reading of .bazelrc files

`BazelRCReader` splits a file into lines, and lines into fields. Fields written in quotes are read
back, regardless of blank lines, comments, and newlines that are escaped (`returns_write`).
-/

namespace Bonanza.Arguments

open List

/-- Text, as a sequence of runes. -/
abbrev Text := List Char

/-- The code points that `unicode.IsSpace` accepts. -/
def isSpace (c : Char) : Bool :=
  c.val ∈ [0x20, 0x85, 0xa0, 0x1680, 0x2028, 0x2029, 0x202f, 0x205f, 0x3000] ||
    0x09 ≤ c.val && c.val ≤ 0x0d || 0x2000 ≤ c.val && c.val ≤ 0x200a

/-- Single and double quotes. -/
def isQuote (c : Char) : Bool := c.val = 0x22 || c.val = 0x27

/-- The loop of `Read` that obtains the next rune. -/
inductive Loop
  | parseField
  | comment
  | quoted (quote : Char)
  | quotedEscape (quote : Char)
  | escape

/-- The ways in which `Read` fails. -/
inductive ReadError
  | eof
  | unexpectedEOF

/-- Complete a field, if one was started. -/
def addField (fields : List Text) (field : Text) (hasField : Bool) : List Text :=
  if hasField then fields ++ [field] else fields

/-- Go on with `Read` after having read up to a given loop. -/
def readFrom (fields : List Text) (field : Text) (hasField : Bool) :
    Loop → Text → Except ReadError (List Text × Text)
  | .parseField, [] | .comment, [] =>
    let fields := addField fields field hasField
    if fields.length > 0 then .ok (fields, []) else .error .eof
  | _, [] => .error .unexpectedEOF
  | loop, c :: input =>
    let endOfLine :=
      let fields := addField fields field hasField
      if fields.length > 0 then .ok (fields, input) else readFrom fields [] false .parseField input
    match loop with
    | .parseField =>
      if c = '#' then readFrom fields field hasField .comment input
      else if isQuote c then readFrom fields field true (.quoted c) input
      else if c = '\\' then readFrom fields field hasField .escape input
      else if c = '\n' then endOfLine
      else if isSpace c then readFrom (addField fields field hasField) [] false .parseField input
      else readFrom fields (field ++ [c]) true .parseField input
    | .comment => if c = '\n' then endOfLine else readFrom fields field hasField .comment input
    | .quoted quote =>
      if c = quote then readFrom fields field hasField .parseField input
      else if c = '\\' then readFrom fields field hasField (.quotedEscape quote) input
      else readFrom fields (field ++ [c]) hasField (.quoted quote) input
    | .quotedEscape quote => readFrom fields (field ++ [c]) hasField (.quoted quote) input
    | .escape =>
      if c = '\n' then readFrom fields field hasField .parseField input
      else readFrom fields (field ++ [c]) true .parseField input

/-- `Read`, which also returns what remains of the file. -/
def read : Text → Except ReadError (List Text × Text) := readFrom [] [] false .parseField

/-! ## Writing -/

/-- Text written in quotes. -/
structure Quoted where
  mark : Char
  quotes : isQuote mark
  text : Text

/-- A field as it is written, with quotes and backslashes escaped. -/
def Quoted.write (field : Quoted) : Text :=
  field.mark :: (field.text.flatMap (fun c =>
    if c = field.mark ∨ c = '\\' then ['\\', c] else [c]) ++ [field.mark])

/-- A sequence of spaces, and of newlines that are escaped. -/
def separator (spaces : List Bool) : Text :=
  spaces.flatMap fun space => if space then [' '] else ['\\', '\n']

/-- Further fields, each with the separator that precedes it. -/
abbrev Others := List ({spaces : List Bool // true ∈ spaces} × Quoted)

/-- Fields with what separates them. -/
def writeFields (first : Quoted) : Others → Text
  | [] => first.write
  | (spaces, next) :: others => first.write ++ (separator spaces ++ writeFields next others)

/-- A line of a file. -/
inductive Line
  | blank (spaces : List Bool)
  | comment (text : Text) (single : '\n' ∉ text)
  | fields (first : Quoted) (others : Others)

/-- A line as it is written. -/
def Line.write : Line → Text
  | blank spaces => separator spaces
  | comment text _ => '#' :: text
  | fields first others => writeFields first others

/-- The fields of a line, unless it is blank or a comment. -/
def Line.lists : Line → List (List Text)
  | fields first others => [first.text :: others.map (·.2.text)]
  | _ => []

/-- A file, of which the last line need not be terminated. -/
def write (lines : List Line) (last : Option Line) : Text :=
  lines.flatMap (·.write ++ ['\n']) ++ last.elim [] Line.write

/-- Repeated calls return all lists, and then the end of the file. -/
def Returns : List (List Text) → Text → Prop
  | [], input => read input = .error .eof
  | fields :: lists, input => ∃ rest, read input = .ok (fields, rest) ∧ Returns lists rest

/-! ## Reading what was written -/

variable {fields : List Text} {field input : Text} {hasField : Bool}

/-- Fields in quotes are read back. -/
theorem readFrom_quoted (field : Quoted) :
    readFrom fields [] false .parseField (field.write ++ input) =
      readFrom fields field.text true .parseField input := by
  obtain ⟨mark, quotes, text⟩ := field
  have mark_ne : mark ≠ '#' ∧ mark ≠ '\\' := by
    constructor <;> rintro rfl <;> cases quotes
  have quoted : ∀ field, readFrom fields field true (.quoted mark) (text.flatMap (fun c =>
      if c = mark ∨ c = '\\' then ['\\', c] else [c]) ++ mark :: input) =
      readFrom fields (field ++ text) true .parseField input := by
    induction text with
    | nil => simp [readFrom]
    | cons c text ih =>
      intro field
      rw [flatMap_cons, append_assoc]
      split
      · simp [readFrom, mark_ne.2.symm, ih]
      · next plain =>
        rw [not_or] at plain
        simp [readFrom, plain, ih]
  simpa [Quoted.write, readFrom, mark_ne.1, quotes] using quoted []

theorem readFrom_separator (spaces : List Bool) :
    readFrom fields [] false .parseField (separator spaces ++ input) =
      readFrom fields [] false .parseField input := by
  induction spaces with
  | nil => rfl
  | cons space spaces ih => cases space <;> exact ih

theorem readFrom_separator_of_mem {spaces : List Bool} (separated : true ∈ spaces) :
    readFrom fields field hasField .parseField (separator spaces ++ input) =
      readFrom (addField fields field hasField) [] false .parseField input := by
  induction spaces with
  | nil => cases separated
  | cons space spaces ih =>
    cases space with
    | true => exact readFrom_separator spaces
    | false => exact ih (by simpa using separated)

theorem readFrom_comment {text : Text} (single : '\n' ∉ text) :
    readFrom fields field hasField .comment (text ++ input) =
      readFrom fields field hasField .comment input := by
  induction text with
  | nil => rfl
  | cons c text ih =>
    rw [mem_cons, not_or] at single
    rw [cons_append, readFrom, if_neg (Ne.symm single.1), ih single.2]

theorem readFrom_fields (first : Quoted) (others : Others) :
    ∃ before field, first.text :: others.map (·.2.text) = before ++ [field] ∧
      ∀ input, readFrom fields [] false .parseField (writeFields first others ++ input) =
        readFrom (fields ++ before) field true .parseField input := by
  induction others generalizing first fields with
  | nil => exact ⟨[], first.text, rfl, fun input => by simp [writeFields, readFrom_quoted]⟩
  | cons other others ih =>
    obtain ⟨spaces, next⟩ := other
    obtain ⟨before, field, fields_eq, reads⟩ := @ih (fields ++ [first.text]) next
    refine ⟨first.text :: before, field, congrArg _ fields_eq, fun input => ?_⟩
    simp only [writeFields, append_assoc, readFrom_quoted, readFrom_separator_of_mem spaces.2,
      addField, if_true, reads]
    simp

/-- A line gives its fields, or is skipped. -/
theorem read_line (line : Line) (input : Text) :
    line.lists = [] ∧ read (line.write ++ '\n' :: input) = read input ∧
        read (line.write ++ []) = .error .eof ∨
      ∃ fields, line.lists = [fields] ∧ read (line.write ++ '\n' :: input) = .ok (fields, input) ∧
        read (line.write ++ []) = .ok (fields, []) := by
  cases line with
  | blank spaces => exact .inl ⟨rfl, readFrom_separator spaces, readFrom_separator spaces⟩
  | comment text single => exact .inl ⟨rfl, readFrom_comment single, readFrom_comment single⟩
  | fields first others =>
    obtain ⟨before, field, fields_eq, reads⟩ := @readFrom_fields [] first others
    refine .inr ⟨_, congrArg ([·]) fields_eq, (reads _).trans ?_, (reads []).trans ?_⟩
    · simp [readFrom, addField, show isQuote '\n' = false from rfl]
    · simp [readFrom, addField]

theorem returns_congr {lists : List (List Text)} {other : Text} (same : read input = read other) :
    Returns lists input ↔ Returns lists other := by
  cases lists <;> simp only [Returns, same]

/-- **Reading back what was written.** For all lines, the reader returns the arguments of each of
them, whether or not the last one ends with a newline. -/
theorem returns_write (lines : List Line) (last : Option Line) :
    Returns ((lines ++ last.toList).flatMap Line.lists) (write lines last) := by
  induction lines with
  | nil =>
    cases last with
    | none => rfl
    | some line =>
      rw [write, flatMap_nil, nil_append, nil_append, Option.toList_some, flatMap_singleton,
        Option.elim_some, ← append_nil line.write]
      rcases read_line line [] with ⟨lists, -, eof⟩ | ⟨fields, lists, -, ok⟩
      · exact lists ▸ eof
      · exact lists ▸ ⟨_, ok, rfl⟩
  | cons line lines ih =>
    have write_eq : write (line :: lines) last = line.write ++ '\n' :: write lines last := by
      simp [write]
    rw [write_eq, cons_append, flatMap_cons]
    rcases read_line line (write lines last) with ⟨lists, skips, -⟩ | ⟨fields, lists, ok, -⟩
    · rw [lists]
      exact (returns_congr skips).mpr ih
    · rw [lists]
      exact ⟨_, ok, ih⟩

theorem readFrom_consumes {loop : Loop} {result : List Text} {rest : Text}
    (returns : readFrom fields field hasField loop input = .ok (result, rest)) :
    result ≠ [] ∧ rest <:+ input.tail := by
  have suffix : ∀ c {rest input : Text}, rest <:+ input.tail → rest <:+ (c :: input).tail :=
    fun _ _ _ shorter => shorter.trans (tail_suffix _)
  fun_induction readFrom fields field hasField loop input <;> grind

/-- A call that succeeds returns at least one field, and what remains is shorter. -/
theorem read_consumes {rest : Text} (returns : read input = .ok (fields, rest)) :
    fields ≠ [] ∧ rest <:+ input ∧ rest.length < input.length := by
  obtain ⟨nonempty, shorter⟩ := readFrom_consumes returns
  refine ⟨nonempty, shorter.trans (tail_suffix _), ?_⟩
  cases input with
  | nil => cases returns
  | cons c input => exact Nat.lt_succ_of_le shorter.length_le

theorem read_consumes_word : ['b'] <:+ ['a', '\n', 'b'] :=
  (@read_consumes [['a']] _ _ rfl).2.1

end Bonanza.Arguments
