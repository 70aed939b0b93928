import CommandShell.Main
import CommandShell.Command.Printable
import CommandShell.Grammar.Cursor
import CommandShell.Program.Editing
import CommandShell.Proofs.Sessions.Agreement
import CommandShell.Token.Display
import CommandShell.Proofs.Lexing.Layout
import CommandShell.Proofs.Commands.Reports
import CommandShell.Proofs.Parsing.Completeness
import CommandShell.Proofs.Commands.Precedence
import CommandShell.Proofs.Commands.Lookahead
import CommandShell.Proofs.Sessions.Malformed
import CommandShell.Proofs.Sessions.Reference
import CommandShell.Proofs.Sessions.Accounting
import CommandShell.Proofs.Commands.Partition
import CommandShell.Proofs.Commands.Statements
import CommandShell.Proofs.Commands.Unfinished
import CommandShell.Proofs.Commands.Places
import CommandShell.Proofs.Commands.Sharing
import CommandShell.Proofs.Lexing.Comments
import CommandShell.Proofs.Lexing.Touching
import CommandShell.Proofs.Sessions.Steering
import CommandShell.Proofs.Sessions.WellNested
import CommandShell.Proofs.Sessions.Cutting
import CommandShell.Proofs.Commands.Depth
import CommandShell.Proofs.Commands.Codes
import CommandShell.Proofs.Parsing.Layers
import CommandShell.Proofs.Commands.Wording
