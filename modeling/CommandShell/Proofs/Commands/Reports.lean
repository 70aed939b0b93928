import CommandShell.Proofs.Commands.Buffers
import CommandShell.Proofs.Parsing.Reports

/-! # Reports of commands

A command reports the violations of its request as well (`reports_command`), so that whatever is
read from a text reports what the walk over it tells (`reports_of_text`). -/

namespace CommandShell

open CommandShell.Parser CommandShell.Grammar

section
variable (look : Nat → Token)

/-- The violations in a request. The targets of a parallel assignment are judged behind the last of
them, and its sides are compared in the end. -/
def Request.violations (i : Nat) : Request → List Diagnostic
  | .statement s => s.violations look i
  | .expression e true => e.violations look i ++ effectReports e
  | .expression e false => e.violations look i
  | .assignment t v =>
    t.violations look i ++ (targetReports t ++ v.violations look (i + t.pieces.length + 1))
  | .compound t _ v =>
    t.violations look i ++ (targetReports t ++ v.violations look (i + t.pieces.length + 1))
  | .parallel ts _ vs =>
    let sign := i + (Piece.separated .comma (exprPieces ts)).length
    exprsViolations look i ts ++ (ts.flatMap targetReports ++
      (exprsViolations look (sign + 1) vs ++ Command.arityReports ts (look sign) vs))

end

namespace Command

variable {levels : Nat} {ts : Tokens} {i j : Nat} {ds : List Diagnostic} (h : ts.Lexed)
include h

theorem reports_operand (i : Nat) (e : Expr) (j : Nat) (ds : List Diagnostic)
    (he : OperandRun levels ts i e j ds) :
    ts.Reads i e.pieces j ∧ ds = e.violations ts.look i :=
  have hreports := reports_expr_of_runs h he
  ⟨hreports.reads, hreports.found⟩

theorem found_operands {es : List Expr} (hes : Separated ts (OperandRun levels ts) i es j ds) :
    ds = exprsViolations ts.look i es := found_exprs (reports_operand h) hes

theorem found_moreOperands {es : List Expr}
    (hes : Collected (MoreRound ts (OperandRun levels ts)) i es j ds) :
    ds = exprsViolations ts.look (i + 1) es :=
  found_collected (reports_operand h) (fun _ => rfl) (fun _ _ _ => rfl) hes

/-- The targets of a parallel assignment, of which the first begins at `start`. -/
theorem found_targets {e : Expr} {others : List Expr} {start : Nat} {ds₁ ds₂ : List Diagnostic}
    (he : ReportsExpr ts .expr start e i ds₁)
    (hothers : Collected (MoreRound ts (OperandRun levels ts)) i others j ds₂) :
    j = start + (Piece.separated .comma (exprPieces (e :: others))).length ∧
      ds₁ ++ ds₂ = exprsViolations ts.look start (e :: others) := by
  have hfound := found_moreOperands h hothers
  have hreads := (he.reads.append (reads_moreOperands h hothers)).eq_add
  rw [he.next_eq] at hfound
  refine ⟨?_, ?_⟩
  · rw [hreads, exprPieces, Piece.separated, exprPieces_eq, List.flatMap_map]
  · rw [he.found, hfound]
    rfl

/-- What follows the first expression of a request, which begins at `start`, reports the rest. -/
theorem found_tail {e : Expr} {start : Nat} {r : Request} {ds₁ ds₂ : List Diagnostic}
    (he : ReportsExpr ts .expr start e i ds₁) (htail : TailRun levels ts e i r j ds₂) :
    ds₁ ++ ds₂ = r.violations ts.look start := by
  have hnext := he.next_eq
  have hfirst := he.found
  cases htail with
  | value _ => rw [hfirst]; exact List.append_nil _
  | terminated _ _ => rw [hfirst]; rfl
  | assignment _ _ hv _ | compound _ _ _ hv _ =>
    have hvalue := (reports_expr_of_runs h hv).found
    rw [hnext] at hvalue
    rw [hfirst, hvalue]
    rfl
  | @parallel _ others k ds₃ sign values _ ds₄ _ hothers _ hsign hassign _ hvalues _ =>
    obtain ⟨hk, htargets⟩ := found_targets h he hothers
    have hlook := h.look_eq hsign (by simp [hassign])
    have hfound := found_operands h hvalues
    rw [← List.append_assoc, htargets, hfound, ← hlook, hk]
    rfl

theorem found_request {r : Request} : RequestRun levels ts i r j ds → ds = r.violations ts.look i
  | .statement _ hs => (reports_stmt_of_runs h hs).found_free rfl
  | .expression _ he htail => found_tail h (reports_expr_of_runs h he) htail

/-- **A command reports the violations of its request, and nothing else.** -/
theorem found_command {c : Command} :
    CommandRun levels ts i c j ds → ds = c.request.violations ts.look i
  | .mk _ hr _ => found_request h hr

end Command

/-- **What is reported is what is wrong.** An expression, a primary expression, a statement and a
command that are read from a text report their violations, each once and in the order of the walk
over them, and report nothing else. -/
theorem found_of_text (levels : Nat) (s : String) (i : Nat) :
    (∀ e, (enter levels .expr (Stream.ofText s).tokens i).outcome = .ok e →
      (enter levels .expr (Stream.ofText s).tokens i).found =
        e.violations (Stream.ofText s).tokens.look i) ∧
    (∀ e, (enter levels .primary (Stream.ofText s).tokens i).outcome = .ok e →
      (enter levels .primary (Stream.ofText s).tokens i).found =
        e.violations (Stream.ofText s).tokens.look i) ∧
    (∀ st, (enter levels .stmt (Stream.ofText s).tokens i).outcome = .ok st →
      (enter levels .stmt (Stream.ofText s).tokens i).found =
        st.violations (Stream.ofText s).tokens.look i) ∧
    ∀ c, (Command.read levels (Stream.ofText s).tokens i).outcome = .ok c →
      (Command.read levels (Stream.ofText s).tokens i).found =
        c.request.violations (Stream.ofText s).tokens.look i := by
  have hlexed : (Stream.ofText s).tokens.Lexed := Tokens.lexed_ofChars s.toList
  refine ⟨fun e he => ?_, fun e he => ?_, fun st hst => ?_, fun c hc => ?_⟩
  · have hrun := runs_iff.mpr ⟨he, rfl, rfl⟩
    exact (reports_expr_of_runs hlexed (runs_enter.mp hrun).2).found
  · have hrun := runs_iff.mpr ⟨he, rfl, rfl⟩
    exact (reports_primary_of_runs hlexed (runs_enter.mp hrun).2).found
  · have hrun := runs_iff.mpr ⟨hst, rfl, rfl⟩
    exact (reports_stmt_of_runs hlexed (runs_enter.mp hrun).2).found_free rfl
  · have hrun := runs_iff.mpr ⟨hc, rfl, rfl⟩
    exact Command.found_command hlexed ((Command.runs_read hlexed).mp hrun)

/-- In `a, 1 = 2, 3, 4;` the second target cannot be assigned to, and the sides do not match; the
empty statement of `if (b) ; else 5;` gets a warning before the number behind it. -/
theorem found_of_parallel_and_choice :
    (Command.read 20 (Stream.ofText "a,1=2,3,4;").tokens 0).found =
      [.badTarget (.atom ⟨.number, "1", 1, 3⟩), .badArity 3 2 ⟨.assign, "=", 1, 4⟩] ∧
    (enter 20 .stmt (Stream.ofText "if(b);else 5;").tokens 0).found =
      [.emptyBody .ifKw ⟨.semicolon, ";", 1, 6⟩, .noEffect (.atom ⟨.number, "5", 1, 12⟩)] := by
  have hcommand := (found_of_text 20 "a,1=2,3,4;" 0).2.2.2
    ⟨.parallel [.atom ⟨.ident, "a", 1, 1⟩, .atom ⟨.number, "1", 1, 3⟩] ⟨.assign, "=", 1, 4⟩
      [.atom ⟨.number, "2", 1, 5⟩, .atom ⟨.number, "3", 1, 7⟩, .atom ⟨.number, "4", 1, 9⟩],
      ⟨1, 1, 1, 11⟩⟩ rfl
  have hstatement := (found_of_text 20 "if(b);else 5;" 0).2.2.1
    (.ifElse (.group (.atom ⟨.ident, "b", 1, 4⟩)) (.empty ⟨.semicolon, ";", 1, 6⟩)
      (.expression (.atom ⟨.number, "5", 1, 12⟩))) rfl
  exact ⟨hcommand, hstatement⟩

end CommandShell
