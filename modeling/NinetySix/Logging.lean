import NinetySix.Text.Blank
import NinetySix.Text.Numeral

set_option autoImplicit false

/-! # Logging

How log lines are filtered and laid out, and the time below which a measured span is not worth a
line. `Logging.ofSettings` starts from the profile for a terminal or for continuous integration
and overlays what the other settings say; a text that cannot be read changes nothing.
-/

namespace NinetySix

/-- The layout of log lines. -/
inductive LogFormat where
  | compact
  | pretty
  | json
  deriving DecidableEq, Repr

namespace LogFormat

def name : LogFormat → String
  | .compact => "compact"
  | .pretty => "pretty"
  | .json => "json"

/-- The layout with a name, in any case and with blanks around it. -/
def read? (s : String) : Option LogFormat :=
  let s := Text.lowerAscii (Text.trim s)
  if s = "compact" then some .compact
  else if s = "pretty" then some .pretty
  else if s = "json" then some .json
  else none

end LogFormat

structure Logging where
  directives : Option String := none
  defaultDirective : String := "info"
  targets : Bool := true
  ansi : Bool
  format : LogFormat
  thresholdMicros : Option Nat := none
  deriving DecidableEq, Repr

namespace Logging

/-- Coloured and spread over lines, for a terminal. -/
def terminal : Logging where
  ansi := true
  format := .pretty

/-- Machine readable, for continuous integration. -/
def integration : Logging where
  ansi := false
  format := .json

/-- The texts of the settings, where they are set. -/
structure Settings where
  profile : Option String
  directives : Option String
  format : Option String
  threshold : Option String
  deriving DecidableEq, Repr

/-- The profile with a name in any case; all names but one are that of the terminal. -/
def ofProfile (name : String) : Logging :=
  if Text.lowerAscii name = "ci" then integration else terminal

/-- Sets the layout; machine readable lines have no colours. -/
def withFormat (c : Logging) (f : LogFormat) : Logging :=
  { c with format := f, ansi := c.ansi && f != .json }

/-- The configuration that the settings give. -/
def ofSettings (s : Settings) : Logging :=
  let c := (s.profile.map ofProfile).getD terminal
  let c := { c with directives := s.directives.filter fun d => !Text.allBlank d }
  let c := match s.format.bind LogFormat.read? with
    | some f => c.withFormat f
    | none => c
  { c with thresholdMicros := s.threshold.bind fun t => Text.word64? (Text.trim t) }

end Logging

/-! ## The default threshold -/

/-- The default threshold in microseconds, kept in one word of 64 bits. The greatest word stands for
no threshold. -/
structure Threshold where
  word : UInt64
  deriving DecidableEq, Repr

namespace Threshold

/-- The word for no threshold. -/
def noneWord : UInt64 := UInt64.ofNat (UInt64.size - 1)

def set (micros : Option UInt64) : Threshold := ⟨micros.getD noneWord⟩

def get (t : Threshold) : Option UInt64 := if t.word = noneWord then none else some t.word

end Threshold

/-- A measured span of work. -/
structure Span where
  name : String
  threshold : Option UInt64
  deriving DecidableEq, Repr

/-- A span with the default threshold, unless it has its own. -/
def Span.start (name : String) (own : Option UInt64) (default : Threshold) : Span :=
  ⟨name, own.or default.get⟩

end NinetySix
