import NinetySix.Normal.Derivation
import NinetySix.Text.Blank
import NinetySix.Tier

set_option autoImplicit false

/-! # Compile options

Options override the backend preference of a descriptor, bound the sweeps of normalisation and say
whether a model is compiled ahead of its runs. `Options.ofSettings` reads them from texts; a text
that cannot be read leaves the default in place.
-/

namespace NinetySix

structure Options where
  preference : Option Preference := none
  maxSweeps : Nat := defaultSweeps
  compiled : Bool := true
  deriving DecidableEq, Repr

namespace Options

/-- The texts of the settings that options are read from, where they are set. -/
structure Settings where
  backend : Option String
  maxSweeps : Option String
  deriving DecidableEq, Repr

/-- The bound on sweeps that a text gives: a positive number, blanks around it allowed. -/
def readMaxSweeps? (s : String) : Option Nat :=
  (Text.word64? (Text.trim s)).filter (0 < ·)

/-- The options that the settings give. -/
def ofSettings (s : Settings) : Options where
  preference := s.backend.bind fun b => (Preference.read b).toOption
  maxSweeps := (s.maxSweeps.bind readMaxSweeps?).getD defaultSweeps
  compiled := true

end Options

end NinetySix
