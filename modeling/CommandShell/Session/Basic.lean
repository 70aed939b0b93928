import CommandShell.Brackets
import CommandShell.Diagnostic.Log
import CommandShell.Session.Control
import CommandShell.Session.Event
import CommandShell.Session.Reader
import CommandShell.Session.Settings
import CommandShell.Text.Lines

/-! # Sessions: lines gathered into buffers

A session gathers lines until they make a buffer, and hands the buffer to a reader. In single-line
mode a buffer is complete when its brackets are balanced; in multi-line mode an empty line completes
it. Pending lines and open brackets are always dropped together. A line that is a control steers the
session instead, but only while no line is pending. -/

namespace CommandShell

/-- How lines are gathered. -/
inductive Mode where
  | single | multi
deriving DecidableEq, Repr

/-- The name of a mode. -/
def Mode.label : Mode → String
  | .single => "single-line"
  | .multi => "multi-line"

/-- The other mode. -/
def Mode.toggled : Mode → Mode
  | .single => .multi
  | .multi => .single

/-- The mode that a session starts in unless it is told otherwise. -/
def Settings.mode (s : Settings) : Mode := if s.startsMultiline then .multi else .single

/-- The state of a session. -/
structure Session where
  mode : Mode
  pending : List String
  brackets : Brackets
  log : Log
  running : Bool
  settings : Settings

/-- A session after a step, with the events of the step. -/
abbrev Session.Step := Session × List Event

namespace Session

/-- A new session. -/
def start (settings : Settings) (mode : Option Mode) : Session :=
  ⟨mode.getD settings.mode, [], .empty, .empty, true, settings⟩

/-- The prompt for the next line. -/
def prompt (s : Session) : String := if s.pending.isEmpty then ">>> " else "... "

/-- The pending lines as one text. -/
def pendingText (s : Session) : String := Text.unlines s.pending

/-- Drops the pending lines and the open brackets. -/
def reset (s : Session) : Session := { s with pending := [], brackets := .empty }

/-- Shows a failure of the input, with a trace if failures are traced. A stack without levels is
none and ends the step. -/
def showFailure (s : Session) (f : Failure) : Step :=
  match f.diagnostic? with
  | some d =>
    ({ s with log := s.log.add d }, .diagnostic d :: if s.settings.tracing then [.trace f] else [])
  | none => (s, [.exhausted])

/-- Hands a buffer to the reader and shows what comes of it. Nothing stays pending. -/
def submit (reader : Reader) (s : Session) (source : String) : Step :=
  let b := reader source
  let events := b.items.map .ofItem
  let s := { s.reset with log := s.log.flush.addAll (events.filterMap (·.diagnostic?)) }
  match b.failure with
  | none => (s, .buffer source :: events)
  | some f =>
    let (s, last) := s.showFailure f
    (s, .buffer source :: events ++ last)

/-- The end of the input: hands over what is pending. -/
def finish (reader : Reader) (s : Session) : Step :=
  if s.pending.isEmpty then (s, []) else s.submit reader s.pendingText

/-! ### Controls -/

/-- The message about a new mode. -/
def modeMessage (mode : Mode) : String :=
  let hint := if mode = .multi then " (empty line runs the buffer)" else ""
  s!"Input mode: {mode.label}{hint}"

/-- The message about the state of the session. -/
def statusMessage (s : Session) : String :=
  s!"mode: {s.mode.label}, errors: {s.log.errorCount}, warnings: {s.log.warningCount}"

/-- Does what a control says. -/
def obey (s : Session) : Control → Step
  | .multiline =>
    let mode := s.mode.toggled
    ({ s.reset with mode }, [.message (modeMessage mode)])
  | .clear => (s, [.clear])
  | .status => (s, [.message s.statusMessage])
  | .traceback =>
    let settings := s.settings.setTracing (!s.settings.tracing)
    let state := if settings.tracing then "on" else "off"
    ({ s with settings }, [.message s!"Python traceback: {state}"])
  | .help => (s, Control.all.map fun c => .message c.helpLine)
  | .quit => ({ s with running := false }, [])

/-- Does what a line says if it is a control. -/
def command? (s : Session) (line : String) : Option Step := (Control.ofLine? line).map s.obey

/-! ### Lines -/

/-- Gathers a line in single-line mode. A line that cannot be split into tokens drops what is
pending. A closer that fits no open bracket hands over its line alone, so that the reader tells what
is wrong with it. -/
def gatherSingle (reader : Reader) (s : Session) (line : String) : Step :=
  if s.pending.isEmpty && Text.isBlankLine line then (s, [])
  else
    match tokenize line with
    | .error e =>
      let s := s.reset
      { s with log := s.log.flush }.showFailure (.lex e)
    | .ok ts =>
      match s.brackets.scan ts with
      | (.malformed _, _) => s.submit reader line
      | (.needsMore, brackets) => ({ s with pending := s.pending ++ [line], brackets }, [])
      | (.balanced, _) => s.submit reader (Text.unlines (s.pending ++ [line]))

/-- Gathers a line in multi-line mode. -/
def gatherMulti (reader : Reader) (s : Session) (line : String) : Step :=
  if Text.isBlankLine line then s.finish reader
  else ({ s with pending := s.pending ++ [line] }, [])

/-- Gathers a line. -/
def gather (reader : Reader) (s : Session) (line : String) : Step :=
  match s.mode with
  | .single => s.gatherSingle reader line
  | .multi => s.gatherMulti reader line

/-- Takes one line of input. -/
def feed (reader : Reader) (s : Session) (line : String) : Step :=
  let line := dropInvisible line
  match if s.pending.isEmpty then s.command? line else none with
  | some step => step
  | none => s.gather reader line

end Session

end CommandShell
