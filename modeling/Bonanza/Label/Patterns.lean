import Bonanza.Label.Canonical
import Bonanza.Lib.Regex

/-! # Patterns of labels and target patterns

The regular expressions of `pkg/label`. Texts are matched as a whole. Classes of characters only
distinguish characters that are part of ASCII.
-/

namespace Bonanza.Label

open Regex

/-- Patterns for texts. -/
abbrev Pattern := Regex Char

/-- A fixed text. -/
abbrev exactly (text : String) : Pattern := literal text.toList

/-! ## Repos -/

/-- `[a-z]`. -/
def isLower (c : Char) : Bool := 'a' ≤ c && c ≤ 'z'

/-- `[a-zA-Z]`. -/
def isLetter (c : Char) : Bool := isLower c || 'A' ≤ c && c ≤ 'Z'

/-- `[0-9]`. -/
def isDecimal (c : Char) : Bool := '0' ≤ c && c ≤ '9'

/-- The class `\w`. -/
def isWord (c : Char) : Bool := isLetter c || isDecimal c || c == '_'

/-- Names of modules. -/
def validModulePattern : Pattern :=
  seq (satisfying isLower) (optional (seq
    (star (satisfying fun c => isLower c || isDecimal c || c == '.' || c == '_' || c == '-'))
    (satisfying fun c => isLower c || isDecimal c)))

/-- Either a number without leading zeros, or characters that are not all digits. -/
def identifierPattern (isNonDigit : Char → Bool) : Pattern :=
  alt (exactly "0") (alt
    (seq (satisfying fun c => '1' ≤ c && c ≤ '9') (star (satisfying isDecimal)))
    (seq (star (satisfying isDecimal)) (seq (satisfying isNonDigit)
      (star (satisfying fun c => isDecimal c || isNonDigit c)))))

/-- Identifiers in a version. -/
def versionIdentifierPattern : Pattern := identifierPattern isLetter

/-- Identifiers in the prerelease part of a version. -/
def prereleaseIdentifierPattern : Pattern := identifierPattern fun c => isLetter c || c == '-'

/-- Versions without build metadata. -/
def canonicalModuleVersionPattern : Pattern :=
  seq (sepBy versionIdentifierPattern (exactly "."))
    (optional (seq (exactly "-") (sepBy prereleaseIdentifierPattern (exactly "."))))

/-- Modules with an optional version. -/
def validModuleInstancePattern : Pattern :=
  seq validModulePattern (seq (exactly "+") (optional canonicalModuleVersionPattern))

/-- Identifiers in Starlark. -/
def validStarlarkIdentifierPattern : Pattern :=
  seq (satisfying fun c => isLetter c || c == '_') (star (satisfying isWord))

/-- Names of repos that are yet to be resolved. -/
def validApparentRepoPattern : Pattern :=
  alt (seq (satisfying isLetter) (star (satisfying fun c => c == '-' || c == '.' || isWord c)))
    (exactly "_builtins")

/-- Module instances, or repos declared by their extensions. -/
def validCanonicalRepoPattern : Pattern :=
  seq validModuleInstancePattern (optional (seq (exactly "+")
    (seq validStarlarkIdentifierPattern (seq (exactly "+") validApparentRepoPattern))))

/-- Repos of either kind. -/
def validApparentOrCanonicalRepoPattern : Pattern :=
  seq (exactly "@") (alt validApparentRepoPattern (seq (exactly "@") validCanonicalRepoPattern))

/-! ## Packages and targets -/

/-- The class `[:cntrl:]`. -/
def isControl (c : Char) : Bool := c.toNat < 0x20 || c.toNat == 0x7f

/-- The characters of `validPackageTargetNameCharacterPattern`. -/
def isNameCharacter (c : Char) : Bool := !isControl c && c != '/' && c != ':' && c != '\\'

/-- Characters in names of packages and targets. -/
def validPackageTargetNameCharacterPattern : Pattern := satisfying isNameCharacter

/-- Characters other than dots. -/
def validPackageTargetNameNonDotCharacterPattern : Pattern :=
  satisfying fun c => isNameCharacter c && c != '.'

/-- Components that do not only consist of dots. -/
def validPackageNameComponentPattern : Pattern :=
  seq (star validPackageTargetNameCharacterPattern)
    (seq validPackageTargetNameNonDotCharacterPattern (star validPackageTargetNameCharacterPattern))

/-- Paths of packages other than the root. -/
def validNonEmptyPackageNamePattern : Pattern :=
  sepBy validPackageNameComponentPattern (exactly "/")

/-- Components of names of targets, including multiple dots. -/
def validTargetNameComponentPattern : Pattern :=
  alt validPackageNameComponentPattern (seq (exactly ".") (plus (satisfying (· == '.'))))

/-- Names of targets. -/
def validTargetNamePattern : Pattern := sepBy validTargetNameComponentPattern (exactly "/")

/-! ## Labels -/

/-- Labels without a repo. -/
def validAbsoluteLabelPattern : Pattern :=
  seq (exactly "//") (alt
    (seq (exactly ":") validTargetNamePattern)
    (seq validNonEmptyPackageNamePattern (optional (seq (exactly ":") validTargetNamePattern))))

/-- What may follow a repo. -/
def validMaybeAbsoluteLabelPattern : Pattern := optional validAbsoluteLabelPattern

/-- Labels with a canonical repo. -/
def validCanonicalLabelPattern : Pattern :=
  seq (exactly "@@") (seq validCanonicalRepoPattern validMaybeAbsoluteLabelPattern)

/-- Labels whose repo may be an error message. -/
def validResolvedLabelPattern : Pattern :=
  alt validCanonicalLabelPattern
    (seq (exactly "@@[") (seq (plus (satisfying (· != ']')))
      (seq (exactly "]") validAbsoluteLabelPattern)))

/-- Labels with a repo of any kind. -/
def validApparentLabelPattern : Pattern :=
  alt (seq validApparentOrCanonicalRepoPattern validMaybeAbsoluteLabelPattern)
    (seq (exactly "@@") validAbsoluteLabelPattern)

/-- Packages in canonical repos. -/
def validCanonicalPackagePattern : Pattern :=
  seq (exactly "@@") (seq validCanonicalRepoPattern
    (optional (seq (exactly "//") validNonEmptyPackageNamePattern)))

/-- Labels that do not depend on the package. -/
def validApparentOrAbsoluteLabelPattern : Pattern :=
  alt validApparentLabelPattern validAbsoluteLabelPattern

/-- Labels relative to a package. -/
def validRelativeTargetNameLabelPattern : Pattern :=
  seq (optional (seq (optional validNonEmptyPackageNamePattern) (exactly ":")))
    validTargetNamePattern

/-! ## Target patterns -/

/-- Patterns for packages below another. -/
def validRelativeRecursiveTargetPatternPattern : Pattern :=
  seq (star (seq validPackageNameComponentPattern (exactly "/")))
    (seq (exactly "...")
      (optional (seq (exactly ":") (alt (exactly "all") (alt (exactly "all-targets")
        (exactly "*"))))))

/-- Target patterns without a repo. -/
def validAbsoluteTargetPatternPattern : Pattern :=
  seq (exactly "//") (alt
    (seq (exactly ":") validTargetNamePattern)
    (alt
      (seq validNonEmptyPackageNamePattern (optional (seq (exactly ":") validTargetNamePattern)))
      validRelativeRecursiveTargetPatternPattern))

/-- What may follow the repo of a target pattern. -/
def validMaybeAbsoluteTargetPatternPattern : Pattern := optional validAbsoluteTargetPatternPattern

/-- Target patterns with a canonical repo. -/
def validCanonicalTargetPatternPattern : Pattern :=
  seq (exactly "@@") (seq validCanonicalRepoPattern validMaybeAbsoluteTargetPatternPattern)

/-- Target patterns with a repo of any kind. -/
def validApparentTargetPatternPattern : Pattern :=
  alt (seq validApparentOrCanonicalRepoPattern validMaybeAbsoluteTargetPatternPattern)
    (seq (exactly "@@") validAbsoluteTargetPatternPattern)

/-- Target patterns that do not depend on the package. -/
def validApparentOrAbsoluteTargetPatternPattern : Pattern :=
  alt validApparentTargetPatternPattern validAbsoluteTargetPatternPattern

/-- Target patterns relative to a package. -/
def validRelativeTargetNameTargetPatternPattern : Pattern :=
  alt validRelativeTargetNameLabelPattern validRelativeRecursiveTargetPatternPattern

end Bonanza.Label
