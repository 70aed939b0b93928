import CommandShell.Session.Basic
import CommandShell.Text.Utf8

/-! # Batch runs: a text fed line by line

A text is fed to a session as if it were typed, and what is pending at its end is handed over. A
stack without levels ends the run, as nothing catches it. The text comes from a file, from the
arguments themselves or from the standard input. -/

namespace CommandShell

/-- Feeds lines to a session until one makes it stop or cannot be dealt with; at the end of the lines
the input ends. -/
def Session.feedAll (reader : Reader) (s : Session) : List String → Session.Step
  | [] => s.finish reader
  | line :: rest =>
    let (s, events) := s.feed reader line
    if s.running && !exhausts events then
      let (s, later) := s.feedAll reader rest
      (s, events ++ later)
    else (s, events)

namespace Batch

/-- Runs a text in a new session. -/
def run (settings : Settings) (mode : Option Mode) (source : String) : Session.Step :=
  (Session.start settings mode).feedAll .standard (Text.lines source)

/-! ### Arguments -/

/-- What the arguments ask for. -/
structure Invocation where
  mode : Option Mode
  argument : Option String
deriving DecidableEq, Repr

/-- Adds arguments to an invocation. There may be one besides the switch. -/
def Invocation.add (i : Invocation) : List String → Except String Invocation
  | [] => .ok i
  | a :: rest =>
    if a = "--multiline" then { i with mode := some .multi }.add rest
    else
      match i.argument with
      | none => { i with argument := some a }.add rest
      | some _ => .error s!"Unexpected argument: {a}"

/-- The invocation of some arguments. -/
def Invocation.ofArgs (args : List String) : Except String Invocation :=
  Invocation.add ⟨none, none⟩ args

/-- Does the invocation read the standard input? -/
def Invocation.readsInput (i : Invocation) : Bool :=
  match i.argument with
  | none => true
  | some a => a = "" || a = "-"

/-! ### Files -/

/-- A path without empty parts and without parts that stay where they are. -/
def plainPath (path : String) : String :=
  let parts := (path.splitOn "/").filter fun p => p ≠ "" && p ≠ "."
  let plain := String.intercalate "/" parts
  if path.startsWith "/" then "/" ++ plain else plain

/-- Named files, as bytes. -/
structure Folder where
  files : List (String × List UInt8)

/-- The bytes of the file at a path. -/
def Folder.find? (folder : Folder) (path : String) : Option (List UInt8) :=
  folder.files.lookup (plainPath path)

/-! ### Runs -/

/-- How a run ends: with a status, with a message, because a file is no text or because the stack
has no level left. -/
inductive Exit where
  | status (code : Nat)
  | message (text : String)
  | undecodable (e : Text.Utf8Error)
  | exhausted
deriving DecidableEq, Repr

/-- The text to run, given the standard input and the files. An argument that names no file is the
text itself. -/
def Invocation.source (i : Invocation) (input : String) (find? : String → Option (List UInt8)) :
    Except Exit String :=
  if i.readsInput then
    if input = "" then .error (.message "No input provided on stdin") else .ok input
  else
    let argument := i.argument.getD ""
    match find? argument with
    | none => .ok argument
    | some bytes =>
      match Text.decodeUtf8 bytes with
      | .error e => .error (.undecodable e)
      | .ok text => .ok (String.ofList (Text.plainLineEnds text.toList))

/-- A run of the program: its events and its end. -/
def execute (settings : Settings) (args : List String) (input : String)
    (find? : String → Option (List UInt8)) : List Event × Exit :=
  match Invocation.ofArgs args with
  | .error text => ([], .message text)
  | .ok i =>
    match i.source input find? with
    | .error exit => ([], exit)
    | .ok source =>
      let (s, events) := run settings i.mode source
      (events, if exhausts events then .exhausted else .status (if s.log.hasErrors then 1 else 0))

end Batch

end CommandShell
