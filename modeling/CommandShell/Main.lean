import CommandShell.Program.Batch
import CommandShell.Program.Dialogue

/-! # The program: a shell at a terminal, a batch run elsewhere

Without arguments and with a terminal as its input, the program holds a dialogue; in all other cases
it runs a text. -/

open CommandShell

/-- Writes events where they belong. What ends the program is written as the last line of its
trace. -/
def showEvents (events : List Event) : IO Unit := do
  for e in events do
    if e.isClear then IO.print "\x1b[2J\x1b[H"
    if e.isExhausted then IO.eprint Failure.exhausted.traceLine
    match e.written? with
    | some (.output, text) => IO.print text
    | some (.error, text) => IO.eprint text
    | none => pure ()
  (← IO.getStdout).flush

/-- The settings of the environment. -/
def readSettings : IO Settings := do
  return ⟨← IO.getEnv Settings.traceVariable, ← IO.getEnv Settings.multilineVariable⟩

/-- What is left of a stream. -/
partial def readRest (input : IO.FS.Stream) (read : String) : IO String := do
  let line ← input.getLine
  if line.isEmpty then return read else readRest input (read ++ line)

/-- The bytes of the file at a path, if there is one. -/
def readFile? (path : String) : IO (Option (List UInt8)) := do
  try
    let bytes ← IO.FS.readBinFile (Batch.plainPath path)
    return some bytes.toList
  catch _ => return none

/-- Runs a text, and gives the status of the program. -/
def runBatch (settings : Settings) (args : List String) : IO UInt32 := do
  let (input, file?) ← match Batch.Invocation.ofArgs args with
    | .error _ => pure ("", none)
    | .ok i =>
      if i.readsInput then pure (← readRest (← IO.getStdin) "", none)
      else pure ("", ← readFile? (i.argument.getD ""))
  let (events, exit) := Batch.execute settings args input fun _ => file?
  showEvents events
  match exit with
  | .status code => return code.toUInt32
  | .message text => IO.eprintln text
  | .undecodable e => IO.eprintln e.message
  | .exhausted => pure ()
  return 1

/-- Reads lines at the keyboard and lets the session answer, until one of them ends it; gives the
status of the program. -/
partial def holdDialogue (s : Session) : IO UInt32 := do
  IO.print s.prompt
  (← IO.getStdout).flush
  let line ← (← IO.getStdin).getLine
  let typed : Typed :=
    if line.isEmpty then .endOfInput else .line (String.ofList (line.toList.filter (· ≠ '\n')))
  let (next, events) := Dialogue.react .standard s typed
  showEvents events
  match next with
  | some s => holdDialogue s
  | none => return if exhausts events then 1 else 0

/-- The program. -/
def main (args : List String) : IO UInt32 := do
  let settings ← readSettings
  if args.isEmpty && (← (← IO.getStdin).isTty) then
    showEvents [.message Dialogue.banner]
    return ← holdDialogue (Session.start settings none)
  runBatch settings args
