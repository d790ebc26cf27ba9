import PixelUnit.Text.Quoted

/-!
# Faults of regular expressions

Why a text is not a regular expression, and at which of its characters that shows.
-/

namespace PixelUnit.Regex

/-- What is wrong with an expression. -/
inductive Fault.Cause where
  | danglingEscape
  | incompleteEscape (text : String)
  | badEscape (text : String)
  | octalTooLarge (text : String)
  | missingBrace
  | unknownCharacterName (name : String)
  | openGroup
  | groupBehind
  | unknownGroup (index : Nat)
  | unterminatedSet
  | badRange (first last : String)
  | boundsSwapped
  | nothingToRepeat
  | repeatedRepeat
  | tooManyRepeats
  | endOfPattern
  | missingName (what : String)
  | unterminatedName (terminator : Char)
  | badGroupName (name : String)
  | unknownGroupName (name : String)
  | groupNamedTwice (name : String) (index previous : Nat)
  | badGroupNumber
  | unknownExtension (text : String)
  | unterminatedComment
  | unterminatedGroup
  | unbalancedGroup
  | thirdBranch
  | lateFlags
  | localeFlag
  | incompatibleFlags
  | typeFlagOff
  | globalFlagOn
  | globalFlagOff
  | flagOnAndOff
  | unknownFlag
  | missing (what : String)
  | variableLookBehind
  | farLookBehind
  | repeatInTemplate (sign : String)
  | numberTooLong
  | clashingFlags
deriving DecidableEq

/-- A cause in words. -/
def Fault.Cause.message : Fault.Cause → String
  | .danglingEscape => "bad escape (end of pattern)"
  | .incompleteEscape s => "incomplete escape " ++ s
  | .badEscape s => "bad escape " ++ s
  | .octalTooLarge s => "octal escape value " ++ s ++ " outside of range 0-0o377"
  | .missingBrace => "missing \x7b"
  | .unknownCharacterName s => "undefined character name " ++ Text.quoted s
  | .openGroup => "cannot refer to an open group"
  | .groupBehind => "cannot refer to group defined in the same lookbehind subpattern"
  | .unknownGroup n => "invalid group reference " ++ toString n
  | .unterminatedSet => "unterminated character set"
  | .badRange a b => "bad character range " ++ a ++ "-" ++ b
  | .boundsSwapped => "min repeat greater than max repeat"
  | .nothingToRepeat => "nothing to repeat"
  | .repeatedRepeat => "multiple repeat"
  | .tooManyRepeats => "the repetition number is too large"
  | .endOfPattern => "unexpected end of pattern"
  | .missingName what => "missing " ++ what
  | .unterminatedName c => "missing " ++ c.toString ++ ", unterminated name"
  | .badGroupName s => "bad character in group name " ++ Text.quoted s
  | .unknownGroupName s => "unknown group name " ++ Text.quoted s
  | .groupNamedTwice s n m =>
    "redefinition of group name " ++ Text.quoted s ++ " as group " ++ toString n ++
      "; was group " ++ toString m
  | .badGroupNumber => "bad group number"
  | .unknownExtension s => "unknown extension " ++ s
  | .unterminatedComment => "missing ), unterminated comment"
  | .unterminatedGroup => "missing ), unterminated subpattern"
  | .unbalancedGroup => "unbalanced parenthesis"
  | .thirdBranch => "conditional backref with more than two branches"
  | .lateFlags => "global flags not at the start of the expression"
  | .localeFlag => "bad inline flags: cannot use 'L' flag with a str pattern"
  | .incompatibleFlags => "bad inline flags: flags 'a', 'u' and 'L' are incompatible"
  | .typeFlagOff => "bad inline flags: cannot turn off flags 'a', 'u' and 'L'"
  | .globalFlagOn => "bad inline flags: cannot turn on global flag"
  | .globalFlagOff => "bad inline flags: cannot turn off global flag"
  | .flagOnAndOff => "bad inline flags: flag turned on and off"
  | .unknownFlag => "unknown flag"
  | .missing what => "missing " ++ what
  | .variableLookBehind => "look-behind requires fixed-width pattern"
  | .farLookBehind => "looks too much behind"
  | .repeatInTemplate sign => "internal: unsupported template operator " ++ sign
  | .numberTooLong => "a number has too many digits"
  | .clashingFlags => "ASCII and UNICODE flags are incompatible"

/-- Whether a cause makes the text no regular expression. The others are errors of another kind:
a number in the expression is too large to be counted or too long to be read, or flags that hold for
the whole of it contradict each other. -/
def Fault.Cause.isSyntax : Fault.Cause → Bool
  | .tooManyRepeats | .numberTooLong | .clashingFlags => false
  | _ => true

/-- Something wrong with an expression, and where if at one place. -/
structure Fault where
  cause : Fault.Cause
  index : Option Nat
deriving DecidableEq

/-- A fault of `source` in words; an expression of several lines has its places by line too. -/
def Fault.message (source : List Char) (f : Fault) : String :=
  match f.index with
  | none => f.cause.message
  | some i =>
    let passed := source.take i
    let text := f.cause.message ++ " at position " ++ toString i
    if source.contains '\n' then
      text ++ " (line " ++ toString (passed.count '\n' + 1) ++ ", column " ++
        toString ((passed.reverse.takeWhile (· != '\n')).length + 1) ++ ")"
    else text

end PixelUnit.Regex
