import CommandShell.Session.Basic

/-! # Dialogues: a session at the keyboard

The shell shows a prompt and reads a line, until the input ends, a line makes it stop or a line
cannot be dealt with as the stack has no level left. An interrupt drops what is pending. -/

namespace CommandShell

/-- What is typed at a prompt. -/
inductive Typed where
  | line (text : String)
  | interrupt
  | endOfInput
deriving DecidableEq, Repr

/-- A dialogue: its prompts, its events and what was typed after its end. -/
structure Dialogue where
  prompts : List String
  events : List Event
  unread : List Typed

namespace Dialogue

/-- The greeting. -/
def banner : String := "kestrel shell: Ctrl-D to exit, /help for commands"

/-- What follows one thing typed: the session to go on with, if it goes on, and the events. -/
def react (reader : Reader) (s : Session) : Typed → Option Session × List Event
  | .line text =>
    let (s, events) := s.feed reader text
    (if s.running && !exhausts events then some s else none, events)
  | .interrupt => (some s.reset, [.message "KeyboardInterrupt"])
  | .endOfInput => (none, [.message ""])

/-- The dialogue of a session with what is typed; the end of the list is the end of the input. -/
def converse (reader : Reader) (s : Session) : List Typed → Dialogue
  | [] => ⟨[s.prompt], (react reader s .endOfInput).2, []⟩
  | typed :: rest =>
    match react reader s typed with
    | (none, events) => ⟨[s.prompt], events, rest⟩
    | (some next, events) =>
      let d := converse reader next rest
      ⟨s.prompt :: d.prompts, events ++ d.events, d.unread⟩

/-- A whole dialogue. -/
def run (settings : Settings) (mode : Option Mode) (script : List Typed) : Dialogue :=
  let d := converse .standard (Session.start settings mode) script
  { d with events := .message banner :: d.events }

end Dialogue

end CommandShell
