/-!
# Flags of a regular expression

Flags are given beside an expression or inside it. They are listed in one order wherever they are
shown.
-/

namespace PixelUnit.Regex

/-- How an expression is to be read and matched. -/
structure Flags where
  /-- Letters match up to case. -/
  ignoreCase : Bool := false
  /-- Line starts and line ends count as text starts and text ends. -/
  multiLine : Bool := false
  /-- The dot matches line feeds too. -/
  dotAll : Bool := false
  /-- Blanks and comments in the expression are skipped. -/
  verbose : Bool := false
  /-- Classes and case know ASCII only. -/
  ascii : Bool := false
  /-- Nothing can be repeated. -/
  template : Bool := false
deriving DecidableEq

namespace Flags

/-- The flags set in either. -/
def union (a b : Flags) : Flags :=
  ⟨a.ignoreCase || b.ignoreCase, a.multiLine || b.multiLine, a.dotAll || b.dotAll,
    a.verbose || b.verbose, a.ascii || b.ascii, a.template || b.template⟩

/-- The flags set in the first and not in the second. -/
def without (a b : Flags) : Flags :=
  ⟨a.ignoreCase && !b.ignoreCase, a.multiLine && !b.multiLine, a.dotAll && !b.dotAll,
    a.verbose && !b.verbose, a.ascii && !b.ascii, a.template && !b.template⟩

/-- The flag that a letter stands for. -/
def ofLetter? : Char → Option Flags
  | 'i' => some { ignoreCase := true }
  | 'm' => some { multiLine := true }
  | 's' => some { dotAll := true }
  | 'x' => some { verbose := true }
  | _ => none

/-- The letters of the flags, in their order. -/
def letters (f : Flags) : String :=
  String.ofList <|
    (if f.ignoreCase then ['i'] else []) ++ (if f.multiLine then ['m'] else []) ++
      (if f.dotAll then ['s'] else []) ++ (if f.verbose then ['x'] else [])

/-- The long names of the flags, in their order. -/
def names (f : Flags) : List String :=
  (if f.template then ["re.TEMPLATE"] else []) ++
    (if f.ignoreCase then ["re.IGNORECASE"] else []) ++
    (if f.multiLine then ["re.MULTILINE"] else []) ++ (if f.dotAll then ["re.DOTALL"] else []) ++
    (if f.verbose then ["re.VERBOSE"] else []) ++ (if f.ascii then ["re.ASCII"] else [])

end Flags

end PixelUnit.Regex
