import PixelUnit.Command.Call
import PixelUnit.Settings.Warning

/-!
# Front ends

What stands between the command and its user. A front end reads the arguments, looking at paths on
the way, and either calls the command with what they say or answers by itself. It also gives what
the command has to say the form in which the user gets it. The command is written for any front end;
what it relies on are the laws that come with one (`Frontend`).
-/

namespace PixelUnit.Command

/-- A value that depends on the kinds of what is at some paths, looked up one after the other. -/
inductive Inquiry (α : Type) where
  | answer (a : α)
  | look (path : String) (next : Kind → Inquiry α)

namespace Inquiry

variable {α : Type}

/-- The value for given kinds. -/
def answerOn (kinds : String → Kind) : Inquiry α → α
  | answer a => a
  | look path next => (next (kinds path)).answerOn kinds

/-- Looks at the paths. -/
def run {m : Type → Type} [Monad m] [Host m] : Inquiry α → m α
  | answer a => return a
  | look path next => do
    let e ← Host.look path
    (next e.kind).run

end Inquiry

/-- What arguments ask for. -/
inductive Request where
  | call (c : Call)
  /-- Something that the front end prints, such as an explanation of the switches. -/
  | print (text : String)
  /-- Nothing that can be done; the user is told why. -/
  | misuse (text : String)

/-- Front ends. -/
class Frontend where
  /-- Reads arguments. -/
  read : List String → Inquiry Request
  /-- A text as it is printed, if it can be printed. -/
  echo : String → Option String
  /-- What the user is told if a call cannot be carried out, for some reason. -/
  misuse : String → String
  /-- What the user is told if something that is given cannot be used, for some reason. -/
  refusal : String → String
  /-- A line with marks for its colour as the user is told it, if the marks can be read. -/
  display : String → Option String
  /-- What the user is told of the warnings that a command gives. -/
  warn : List Settings.Warning → String
  /-- The command is called with paths that are in order. -/
  checked : ∀ {arguments : List String} {kinds : String → Kind} {c : Call},
    (read arguments).answerOn kinds = .call c → c.Checked kinds
  /-- The reason is told as it is. -/
  refusal_eq : ∀ reason, refusal reason = "Error: " ++ reason ++ "\n"
  /-- Without a warning, nothing is told. -/
  warn_nil : warn [] = ""

end PixelUnit.Command
