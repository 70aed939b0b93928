import CommandShell.Command.Reading

/-! # Events: what a session shows

Commands and messages go to the output, diagnostics and traces to the error output. A stack without
levels shows nothing: it ends the step, and nothing in the session catches it. -/

namespace CommandShell

/-- What a session does that can be seen from outside: a buffer handed to the reader, a command, a
diagnostic, a message, the trace of a failure, the screen cleared, and the end of a step for which
the stack has no level left. -/
inductive Event where
  | buffer (source : String)
  | command (c : Command)
  | diagnostic (d : Diagnostic)
  | message (text : String)
  | trace (f : Failure)
  | clear
  | exhausted

/-- Where text is written. -/
inductive Channel where
  | output | error
deriving DecidableEq, Repr

/-- The last line of a trace. -/
def Failure.traceLine : Failure → String
  | .lex e => s!"kestrel_shell.lexer_rd.LexError: {e.text}\n"
  | .parse e => s!"kestrel_shell.errors.ParseError: {e.text}\n"
  | .exhausted => s!"RecursionError: {Failure.exhausted.text}\n"

namespace Event

/-- The event of an item of a buffer. -/
def ofItem : Item → Event
  | .diagnostic d => .diagnostic d
  | .command c => .command c

/-- The text that an event writes, and where. -/
def written? : Event → Option (Channel × String)
  | .buffer _ | .clear | .exhausted => none
  | .command c => some (.output, c.text)
  | .diagnostic d => some (.error, d.text ++ "\n")
  | .message text => some (.output, text ++ "\n")
  | .trace f => some (.error, "\nPython traceback:\n" ++ f.traceLine)

/-- Does the event clear the screen? -/
def isClear : Event → Bool
  | .clear => true
  | _ => false

/-- Does the event end all that runs? -/
def isExhausted : Event → Bool
  | .exhausted => true
  | _ => false

/-- The diagnostic that an event shows, if it is one. -/
def diagnostic? : Event → Option Diagnostic
  | .diagnostic d => some d
  | _ => none

end Event

/-- All that the events write to a channel. -/
def writtenTo (channel : Channel) (events : List Event) : String :=
  String.join <| events.filterMap fun e =>
    match e.written? with
    | some (c, text) => if c = channel then some text else none
    | none => none

/-- Do the events end all that runs? -/
def exhausts (events : List Event) : Bool := events.any (·.isExhausted)

/-- How often the events clear the screen. -/
def clearCount (events : List Event) : Nat := events.countP (·.isClear)

end CommandShell
