import CommandShell.Proofs.Commands.Words
import CommandShell.Proofs.Parsing.Precedence

/-! # Precedence in commands

All expressions in a command are ordered, so that whatever is read from a text follows the table of
precedence at any depth (`ordered_of_text`). -/

namespace CommandShell

open CommandShell.Parser CommandShell.Grammar

namespace Command

variable {levels : Nat} {ts : Tokens} {i j : Nat} {ds : List Diagnostic}

theorem ordered_operands {es : List Expr} (hes : Separated ts (OperandRun levels ts) i es j ds) :
    AllOrdered (exprsParts es) := by
  rw [exprsParts_eq]
  exact allOrdered_flatMap (forall_mem_of_separated ordered_expr_of_runs hes)

theorem ordered_moreOperands {es : List Expr}
    (hes : Collected (MoreRound ts (OperandRun levels ts)) i es j ds) :
    AllOrdered (exprsParts es) := by
  rw [exprsParts_eq]
  refine allOrdered_flatMap (forall_mem_of_collected ?_ hes)
  intro i e j ds hround
  cases hround with
  | more _ he => exact ordered_expr_of_runs he

theorem ordered_tail {e : Expr} {r : Request} (he : AllOrdered e.parts) :
    TailRun levels ts e i r j ds → AllOrdered r.parts
  | .value _ => he
  | .terminated _ _ => he
  | .assignment _ _ hv _ => he.append (ordered_expr_of_runs hv)
  | .compound _ _ _ hv _ => he.append (ordered_expr_of_runs hv)
  | .parallel _ hothers _ _ _ _ hvalues _ =>
    .append (.append he (ordered_moreOperands hothers)) (ordered_operands hvalues)

/-- **All expressions in a command are ordered.** -/
theorem ordered_command {c : Command} : CommandRun levels ts i c j ds → AllOrdered c.request.parts
  | .mk _ (.statement _ hs) _ => ordered_stmt_of_runs hs
  | .mk _ (.expression _ he htail) _ => ordered_tail (ordered_expr_of_runs he) htail

end Command

/-- Each command of a buffer is read somewhere in its tokens. -/
theorem runs_of_mem_commands {levels : Nat} {ts : Tokens} {c : Command} : ∀ {rounds i : Nat},
    c ∈ (Buffer.readFrom levels ts rounds i).commands →
      ∃ i j ds, Runs (Command.readRound levels) ts i (some c) j ds
  | 0, i, hmem => by cases hmem
  | rounds + 1, i, hmem => by
    simp only [Buffer.commands, Buffer.readFrom] at hmem
    split at hmem
    · rw [commands_diagnostics] at hmem
      cases hmem
    · rw [commands_diagnostics] at hmem
      cases hmem
    · next c' hc =>
      rw [List.filterMap_append, commands_diagnostics] at hmem
      rcases List.mem_cons.mp hmem with rfl | hmem
      · exact ⟨i, _, _, runs_iff.mpr ⟨hc, rfl, rfl⟩⟩
      · exact runs_of_mem_commands hmem

/-- **What is read follows the table of precedence.** In an expression, a primary expression, a
statement, a command and the commands of a buffer that are read from a text, every expression at any
depth has operands of the forms that it asks for, and what binds looser than it is delimited. -/
theorem ordered_of_text (levels : Nat) (s : String) :
    (∀ i,
      (∀ e, (enter levels .expr (Stream.ofText s).tokens i).outcome = .ok e →
        ∀ part ∈ e.parts, part.Ordered) ∧
      (∀ e, (enter levels .primary (Stream.ofText s).tokens i).outcome = .ok e →
        ∀ part ∈ e.parts, part.Ordered) ∧
      (∀ st, (enter levels .stmt (Stream.ofText s).tokens i).outcome = .ok st →
        ∀ part ∈ st.parts, part.Ordered) ∧
      ∀ c, (Command.read levels (Stream.ofText s).tokens i).outcome = .ok c →
        ∀ part ∈ c.request.parts, part.Ordered) ∧
    ∀ c ∈ (Buffer.ofTokens levels (Stream.ofText s).tokens).commands,
      ∀ part ∈ c.request.parts, part.Ordered := by
  have hlexed : (Stream.ofText s).tokens.Lexed := Tokens.lexed_ofChars s.toList
  refine ⟨fun i => ⟨fun e he => ?_, fun e he => ?_, fun st hst => ?_, fun c hc => ?_⟩,
    fun c hc => ?_⟩
  · obtain ⟨ds, hrun⟩ := runs_of_enter he
    exact ordered_expr_of_runs hrun
  · obtain ⟨ds, hrun⟩ := runs_of_enter he
    exact ordered_primary_of_runs hrun
  · obtain ⟨ds, hrun⟩ := runs_of_enter hst
    exact ordered_stmt_of_runs hrun
  · have hrun := runs_iff.mpr ⟨hc, rfl, rfl⟩
    exact Command.ordered_command ((Command.runs_read hlexed).mp hrun)
  · obtain ⟨i, j, ds, hrun⟩ := runs_of_mem_commands hc
    rcases (Command.runs_readRound hlexed).mp hrun with ⟨-, hnone, -⟩ | ⟨-, c, hcommand, hsome⟩
    · cases hnone
    · cases hsome
      exact Command.ordered_command hcommand

/-- In `a-b-c**d?e:f??g` the signs group to the left, the power holds together as their operand, and
the default stands as what is chosen otherwise; the function of the command `h=fn(){return 1+2*3;};`
has its own expression. -/
theorem ordered_of_choice_and_function :
    let atom := fun (name : String) (column : Int) => Expr.atom ⟨.ident, name, 1, column⟩
    let number := fun (lexeme : String) (column : Int) => Expr.atom ⟨.number, lexeme, 1, column⟩
    let choice := Expr.ternary
      (.binary (.binary (atom "a" 1) ⟨.minus, "-", 1, 2⟩ (atom "b" 3)) ⟨.minus, "-", 1, 4⟩
        (.binary (atom "c" 5) ⟨.power, "**", 1, 6⟩ (atom "d" 8)))
      (atom "e" 10) (.binary (atom "f" 12) ⟨.nullish, "??", 1, 13⟩ (atom "g" 15))
    let sum := Expr.binary (number "1" 15) ⟨.plus, "+", 1, 16⟩
      (.binary (number "2" 17) ⟨.star, "*", 1, 18⟩ (number "3" 19))
    (∀ part ∈ choice.parts, part.Ordered) ∧
      ∀ part ∈ (Expr.lambda [] [.exitWith .returning sum]).parts, part.Ordered := by
  intro atom number choice sum
  have hchoice := ((ordered_of_text 20 "a-b-c**d?e:f??g").1 0).1 choice rfl
  have hcommand := (ordered_of_text 30 "h=fn(){return 1+2*3;};").2
    ⟨.assignment (atom "h" 1) (.lambda [] [.exitWith .returning sum]), ⟨1, 1, 1, 23⟩⟩
    (List.Mem.head [])
  exact ⟨hchoice, fun part hpart => hcommand part (List.mem_append_right _ hpart)⟩

end CommandShell
