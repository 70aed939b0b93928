import CommandShell.Text.Blank

/-! # Settings: switches that the shell is started with

A setting is a text from outside, or absent. It is on when its text, without blanks around it and in
small letters, is one of four words. -/

namespace CommandShell

/-- The texts of the settings. -/
structure Settings where
  trace : Option String
  multiline : Option String
deriving DecidableEq, Repr

namespace Settings

/-- No setting is given. -/
def unset : Settings := ⟨none, none⟩

/-- The name of the variable that says whether failures are traced. -/
def traceVariable : String := "KESTREL_DEBUG_PY_TRACE"

/-- The name of the variable that holds the mode to start in. -/
def multilineVariable : String := "KESTREL_MULTILINE"

/-- The words that turn a setting on. -/
def onWords : List String := ["1", "true", "yes", "on"]

/-- Does the text turn a setting on? -/
def isOn (text : Option String) : Bool :=
  onWords.contains (String.ofList ((Text.trimBlanks (text.getD "").toList).map Char.toLower))

/-- Are failures traced? -/
def tracing (s : Settings) : Bool := isOn s.trace

/-- Does the shell start in multi-line mode? -/
def startsMultiline (s : Settings) : Bool := isOn s.multiline

/-- Turns the tracing of failures on or off. -/
def setTracing (s : Settings) (on : Bool) : Settings :=
  { s with trace := if on then some "1" else none }

/-- Gives the variable of a name a text or takes it away; other variables are no settings. -/
def set (s : Settings) (name : String) (text : Option String) : Settings :=
  if name = traceVariable then { s with trace := text }
  else if name = multilineVariable then { s with multiline := text }
  else s

end Settings

end CommandShell
