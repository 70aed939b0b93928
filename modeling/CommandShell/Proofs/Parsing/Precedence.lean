import CommandShell.Proofs.Parsing.Levels
import CommandShell.Proofs.Phrases.Precedence

/-! # Precedence: what the rules read is ordered

Each rule of expressions reads expressions of one form (`Rule.Level`), and every part of what a rule
reads has operands of the forms that it asks for (`ordered_of_runs`).

The chain of operators that bind to the left needs more. Before each round what is read so far
reaches the precedence of the operator at the place: in the beginning it is a single operand, and
after a round the right operand has stopped at an operator that is not tighter than the one just
taken (`Rule.StopsAt`). -/

namespace CommandShell

/-- What a rule of expressions reads has a form. -/
def Rule.Level (e : Expr) : Rule Expr → Prop
  | .expr | .ternary => True
  | .nullish => e.isTernary = false
  | .binary p => e.reaches p
  | .unary | .power => e.isUnary
  | .access | .primary | .construction => e.isPostfix
  | _ => True

/-- A chain of operators stops at a place where no operator of its power stands. -/
def Rule.StopsAt (ts : Tokens) (j : Nat) : Rule Expr → Prop
  | .binary p => ∀ t, ts.At j t → ∀ q ∈ t.kind.precedence?, q < p
  | _ => True

namespace Grammar

open CommandShell.Parser

variable {ts : Tokens}

/-- What is known of an expression that a rule has read. -/
structure OrderedExpr (ts : Tokens) (rule : Rule Expr) (e : Expr) (j : Nat) : Prop where
  level : rule.Level e
  parts : AllOrdered e.parts
  stops : rule.StopsAt ts j

/-- All that is known: whatever is read is ordered, expressions on the level of their rule. -/
abbrev ordered (ts : Tokens) : Calls :=
  .bySort (fun rule _ e j _ => OrderedExpr ts rule e j)
    (fun _ _ es _ _ => AllOrdered (exprsParts es))
    (fun _ _ s _ _ => AllOrdered s.parts) (fun _ body _ _ => AllOrdered (stmtsParts body))
    (fun _ _ d _ _ => AllOrdered d.parts) (ParamsRun ts)

/-! ### Lists -/

section
variable {α : Type} {P : α → Prop} {i j : Nat} {ds : List Diagnostic}

theorem forall_mem_of_collected {round : Shape (Option α)} {as : List α}
    (hround : ∀ {i a j ds}, round i (some a) j ds → P a) (has : Collected round i as j ds) :
    ∀ a ∈ as, P a := by
  induction has with
  | stop => nofun
  | more ha _ ih => exact List.forall_mem_cons.mpr ⟨hround ha, ih⟩

theorem forall_mem_of_separated {item : Shape α} {as : List α}
    (hitem : ∀ {i a j ds}, item i a j ds → P a) : Separated ts item i as j ds → ∀ a ∈ as, P a
  | .mk ha has _ => by
    refine List.forall_mem_cons.mpr ⟨hitem ha, forall_mem_of_collected ?_ has⟩
    intro i a j ds hround
    cases hround with
    | more _ ha => exact hitem ha

end

variable {i j : Nat} {ds : List Diagnostic}

theorem ordered_args {closer : Kind} {es : List Expr} :
    ArgsRun (ordered ts) ts closer i es j ds → AllOrdered (exprsParts es)
  | .none _ => nofun
  | .some _ hes _ => by
    rw [exprsParts_eq]
    exact allOrdered_flatMap (forall_mem_of_separated OrderedExpr.parts hes)

/-! ### Expressions -/

/-- What a chain of operators makes of its left operand. -/
theorem ordered_binaryChain {power n : Nat} {left e : Expr}
    (hchain : Chained (BinaryRound (ordered ts) ts power) n left i e j ds)
    (hlevel : left.reaches power) (hparts : AllOrdered left.parts)
    (hnext : ∀ t, ts.At i t → ∀ p ∈ t.kind.precedence?, left.reaches p) :
    OrderedExpr ts (.binary power) e j := by
  induction hchain with
  | stop hround =>
    cases hround with
    | stop ht hlt => exact ⟨hlevel, hparts, fun u hu => ht.unique hu ▸ hlt⟩
  | more hround _ ih =>
    cases hround with
    | @more _ op p right _ _ hop hp hle hright =>
      have hjoins : op.kind.Joins _ right := .precedence hp (hnext op hop p hp) hright.level
      refine ih (Expr.reaches_binary hp hle)
        (.of_tail hjoins (.append hparts hright.parts)) fun t ht q hq => ?_
      -- The right operand has taken all that is tighter than the operator before it.
      have hlt : q < p + 1 := hright.stops t ht q hq
      exact Expr.reaches_binary hp (Nat.le_of_lt_succ hlt)

/-- What accesses, calls and steps make of their target. -/
theorem ordered_accessChain {n : Nat} {target e : Expr}
    (hchain : Chained (AccessRound (ordered ts) ts) n target i e j ds)
    (hlevel : target.isPostfix) (hparts : AllOrdered target.parts) :
    OrderedExpr ts .access e j := by
  induction hchain with
  | stop hround => cases hround; exact ⟨hlevel, hparts, trivial⟩
  | more hround _ ih =>
    cases hround with
    | member => exact ih rfl (.of_tail hlevel hparts)
    | call _ _ hargs => exact ih rfl (.of_tail hlevel (.append hparts hargs))
    | index _ _ _ hargs => exact ih rfl (.of_tail hlevel (.append hparts hargs))
    | post => exact ih rfl (.of_tail hlevel hparts)

theorem ordered_expr {rule : Rule Expr} {e : Expr} (hrun : ExprRun (ordered ts) ts rule i e j ds) :
    OrderedExpr ts rule e j := by
  cases hrun with
  | expr he => exact ⟨trivial, he.parts, trivial⟩
  | ternaryPlain he => exact ⟨trivial, he.parts, trivial⟩
  | ternary hc _ hy _ hn =>
    have hoperands := AllOrdered.append hc.parts (.append hy.parts hn.parts)
    exact ⟨trivial, .of_tail hc.level hoperands, trivial⟩
  | nullishPlain he => exact ⟨Expr.isTernary_of_reaches he.level, he.parts, trivial⟩
  | nullish hl _ hk hr =>
    exact ⟨rfl, .of_tail (.nullish hk hl.level hr.level) (.append hl.parts hr.parts), trivial⟩
  | binary he _ hchain =>
    have hreaches := Expr.reaches_of_isUnary he.level
    exact ordered_binaryChain hchain (hreaches _) he.parts fun _ _ p _ => hreaches p
  | sign _ _ he => exact ⟨rfl, .of_tail he.level he.parts, trivial⟩
  | pre _ _ he => exact ⟨rfl, .of_tail he.level he.parts, trivial⟩
  | unaryPlain _ _ he => exact ⟨he.level, he.parts, trivial⟩
  | powerPlain he => exact ⟨Expr.isUnary_of_isPostfix he.level, he.parts, trivial⟩
  | power hb _ hk he =>
    have hoperands := AllOrdered.append hb.parts he.parts
    exact ⟨beq_iff_eq.mpr hk, .of_tail (.power hk hb.level he.level) hoperands, trivial⟩
  | access he _ hchain => exact ordered_accessChain hchain he.level he.parts
  | atom => exact ⟨rfl, .of_tail trivial nofun, trivial⟩
  | group _ he => exact ⟨rfl, .of_tail trivial he.parts, trivial⟩
  | array _ hes => exact ⟨rfl, .of_tail trivial hes, trivial⟩
  | new _ he => exact ⟨he.level, he.parts, trivial⟩
  | lambda _ _ hbody => exact ⟨rfl, .of_tail trivial hbody, trivial⟩
  | construction _ _ _ _ _ _ hargs => exact ⟨rfl, .of_tail trivial hargs, trivial⟩

/-! ### Statements -/

theorem ordered_declarator {keyword : Token} {d : Declarator} :
    DeclaratorRun (ordered ts) ts keyword i d j ds → AllOrdered d.parts
  | .plain _ _ _ _ => nofun
  | .valued _ _ _ he => he.parts

theorem ordered_block {body : List Stmt} :
    BlockRun (ordered ts) ts i body j ds → AllOrdered (stmtsParts body)
  | .mk _ hbody _ _ => by
    rw [stmtsParts_eq]
    refine allOrdered_flatMap (forall_mem_of_collected ?_ hbody)
    intro i s j ds hround
    cases hround with
    | more _ _ hs => exact hs

theorem ordered_handlers {rescues last : List Handler} {k l : Nat} {ds' : List Diagnostic}
    (hrescues : Collected (RescueRound (ordered ts) ts) i rescues j ds)
    (hlast : AlwaysRun (ordered ts) ts k last l ds') :
    AllOrdered (handlersParts (rescues ++ last)) := by
  rw [handlersParts_eq, List.flatMap_append]
  refine .append (allOrdered_flatMap (forall_mem_of_collected ?_ hrescues)) ?_
  · intro i handler j ds hround
    cases hround with
    | more _ _ hbody => exact hbody
  · cases hlast with
    | none => nofun
    | some _ hbody =>
      rw [List.flatMap_singleton]
      exact hbody

theorem ordered_stmt {rule : Rule Stmt} {s : Stmt} (hrun : StmtRun (ordered ts) ts rule i s j ds) :
    AllOrdered s.parts := by
  cases hrun with
  | expressionLike _ hs => exact hs
  | block _ hbody => exact hbody
  | empty | jump | jumpTo | exit => nofun
  | keyword _ hrule hs =>
    exact stmt_of_rule (S := fun _ _ s _ _ => AllOrdered s.parts) hrule hs
  | label _ _ hs => exact hs
  | forwarding _ _ _ hs => exact hs
  | body hs => exact hs
  | declaration _ _ hds _ =>
    show AllOrdered (declaratorsParts _)
    rw [declaratorsParts_eq]
    exact allOrdered_flatMap (forall_mem_of_separated id hds)
  | function _ _ _ _ hbody => exact hbody
  | ifThen _ hc hs _ => exact .append hc.parts hs
  | ifElse _ hc hs _ ho => exact .append hc.parts (.append hs ho)
  | whileLoop _ hc hs => exact .append hc.parts hs
  | doLoop _ hs _ hc _ => exact .append hs hc.parts
  | forLoop _ _ _ _ he hs => exact .append he.parts hs
  | exitWith _ _ _ he _ => exact he.parts
  | attempt _ hbody hrescues _ hlast _ => exact .append hbody (ordered_handlers hrescues hlast)
  | labeled _ _ _ hs => exact hs
  | forward _ _ _ _ hargs _ => exact hargs
  | assign ht _ hv _ => exact .append ht.parts hv.parts
  | compound ht _ _ hv _ => exact .append ht.parts hv.parts
  | expression he _ => exact he.parts

/-! ### All runs -/

theorem ordered_closed (ts : Tokens) : Closed ts (fun rule _ e j _ => OrderedExpr ts rule e j)
    (fun _ _ es _ _ => AllOrdered (exprsParts es)) (fun _ _ s _ _ => AllOrdered s.parts)
    (fun _ body _ _ => AllOrdered (stmtsParts body)) (fun _ _ d _ _ => AllOrdered d.parts) where
  expr := ordered_expr
  args := ordered_args
  stmt := ordered_stmt
  block := ordered_block
  declarator := ordered_declarator

/-- **What a rule reads is ordered, an expression on the level of its rule.** -/
theorem ordered_of_runs {α : Type} {levels : Nat} {rule : Rule α} {a : α} (hfits : rule.Fits ts i)
    (hrun : Runs (parse levels rule) ts i a j ds) : ordered ts α rule i a j ds :=
  (ordered_closed ts).parse levels hfits hrun

section
variable {levels : Nat}

theorem ordered_expr_of_runs {e : Expr} (hrun : Runs (parse levels .expr) ts i e j ds) :
    AllOrdered e.parts := (ordered_of_runs (show Rule.expr.Fits ts i from trivial) hrun).parts

theorem ordered_primary_of_runs {e : Expr} (hrun : Runs (parse levels .primary) ts i e j ds) :
    AllOrdered e.parts := (ordered_of_runs (show Rule.primary.Fits ts i from trivial) hrun).parts

theorem ordered_stmt_of_runs {s : Stmt} (hrun : Runs (parse levels .stmt) ts i s j ds) :
    AllOrdered s.parts := ordered_of_runs (show Rule.stmt.Fits ts i from trivial) hrun

end

end Grammar

end CommandShell
