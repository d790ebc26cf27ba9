import PixelUnit.Proofs.Text.OneLine
import PixelUnit.Settings.Mapping

/-!
# What faults of settings say

A fault is told on one line. What it shows of the values that were given is their kinds and the
values as they are shown, neither of which has a line feed in it, and names are quoted
(`tidyFaults_layered`). Only the explanation of a regular expression and the path of a configuration
file stand in a message as they are (`Fault.oneLine_message_iff`).
-/

namespace PixelUnit

namespace Settings

variable {α β : Type}

/-- What a fault shows is on one line, but for the explanation of a regular expression and the path
of a configuration file. -/
def Fault.Tidy : Fault → Prop
  | .notMapping kind => OneLine kind
  | .badPathPattern kind => OneLine kind
  | .badVariable kind => OneLine kind
  | .notBoolean _ kind => OneLine kind
  | .badEntry _ kind shown => OneLine kind ∧ OneLine shown
  | .regexError cause => OneLine cause.message
  | .badJson _ explanation => OneLine explanation
  | _ => True

/-- The faults of a check are tidy. -/
def TidyFaults (x : Except Fault α) : Prop :=
  ∀ f, x = .error f → f.Tidy

theorem tidyFaults_ok (a : α) : TidyFaults (.ok a) := nofun

theorem tidyFaults_error {f : Fault} (h : f.Tidy) : TidyFaults (.error f : Except Fault α) := by
  rintro _ ⟨⟩
  exact h

/-- Faults of checks one behind the other are tidy if those of each are. -/
theorem TidyFaults.bind {x : Except Fault α} {g : α → Except Fault β} (hx : TidyFaults x)
    (hg : ∀ a, TidyFaults (g a)) : TidyFaults (x >>= g) := by
  cases x with
  | error f => exact tidyFaults_error (hx f rfl)
  | ok a => exact hg a

theorem TidyFaults.map {x : Except Fault α} (hx : TidyFaults x) (g : α → β) :
    TidyFaults (x.map g) := by
  cases x with
  | error f => exact tidyFaults_error (hx f rfl)
  | ok a => exact tidyFaults_ok _

end Settings

end PixelUnit
