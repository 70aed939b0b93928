import CommandShell.Diagnostic.Basic
import CommandShell.Text.Quoted

/-! # The log: diagnostics recorded and counted

A log keeps the diagnostics since it was last flushed and counts, over its whole life, those that
are warnings and those that are not. -/

namespace CommandShell

/-- The diagnostics since the last flush, oldest first, and the counts of all. -/
structure Log where
  recorded : List Diagnostic
  errorCount : Nat
  warningCount : Nat
deriving DecidableEq, Repr

namespace Log

/-- The log that has recorded nothing. -/
def empty : Log := ⟨[], 0, 0⟩

/-- Records a diagnostic. -/
def add (log : Log) (d : Diagnostic) : Log :=
  if d.isWarning then ⟨log.recorded ++ [d], log.errorCount, log.warningCount + 1⟩
  else ⟨log.recorded ++ [d], log.errorCount + 1, log.warningCount⟩

/-- Records diagnostics in order. -/
def addAll (log : Log) (ds : List Diagnostic) : Log := ds.foldl add log

/-- Forgets the recorded diagnostics, keeping the counts. -/
def flush (log : Log) : Log := { log with recorded := [] }

/-- The recorded diagnostics that are no warnings. -/
def errors (log : Log) : List Diagnostic := log.recorded.filter fun d => !d.isWarning

/-- The recorded warnings. -/
def warnings (log : Log) : List Diagnostic := log.recorded.filter (·.isWarning)

/-- Was anything but warnings ever recorded? -/
def hasErrors (log : Log) : Bool := log.errorCount > 0

end Log

/-- The diagnostic as a warning, whatever its severity was. -/
def Diagnostic.asWarning (d : Diagnostic) : Diagnostic := { d with severity := .warning }

/-- Something offered to a log as fatal. A log takes faults of the input and refuses all else. -/
inductive Report where
  | failure (f : Failure)
  | foreign (name message : String)
deriving DecidableEq, Repr

/-- The text of the refusal of something with a name and a message. -/
def Report.refusal (name message : String) : String :=
  s!"not a parse or lex error: {name}({Text.quoted message})"

/-- The fatal diagnostic to record, or the text of the refusal. -/
def Report.diagnostic? : Report → Except String Diagnostic
  | .failure f => f.diagnostic?.elim (.error (refusal "RecursionError" f.text)) .ok
  | .foreign name message => .error (refusal name message)

end CommandShell
