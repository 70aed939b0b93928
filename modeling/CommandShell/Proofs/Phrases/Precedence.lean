import CommandShell.Command.Basic
import CommandShell.Proofs.Phrases.Ranks

/-! # Precedence: which operands an expression may have

The operands of an expression are told by the form that they must have: a step, an access or a call
goes on after a primary expression or after another of them, a sign stands before what binds like a
sign, an operator that binds to the left takes operators of its own precedence on its left side and
only tighter ones on its right side (`Expr.OperandsFit`). Where they have it, an operand without
brackets or signs on both sides of it never has a lower rank than the expression that it belongs to
(`rank_le_of_mem_bare`), so that whatever binds looser is delimited. The parts of a phrase are all
expressions in it, at any depth. -/

namespace CommandShell

/-! ### The forms of operands -/

/-- Is the expression primary, or an access, a call or a step after an operand? -/
def Expr.isPostfix : Expr → Bool
  | .pre _ _ | .unary _ _ | .binary _ _ _ | .ternary _ _ _ => false
  | _ => true

/-- Is it one of these, a sign or a step before an operand, or a power? -/
def Expr.isUnary : Expr → Bool
  | .pre _ _ | .unary _ _ => true
  | .binary _ op _ => op.kind == .power
  | e => e.isPostfix

/-- Is it one of these, or an operator of at least the precedence? -/
def Expr.reaches (p : Nat) : Expr → Bool
  | .binary _ op _ => op.kind == .power || op.kind.precedence?.any (p ≤ ·)
  | e => e.isUnary

/-- Is it a conditional? -/
def Expr.isTernary : Expr → Bool
  | .ternary _ _ _ => true
  | _ => false

/-- May the operator stand between the operands? -/
inductive Kind.Joins (op : Kind) (l r : Expr) : Prop
  | precedence {p} : op.precedence? = some p → l.reaches p → r.reaches (p + 1) → Joins op l r
  | power : op = .power → l.isPostfix → r.isUnary → Joins op l r
  | nullish : op = .nullish → l.reaches 1 → r.isTernary = false → Joins op l r

/-- The operands of the expression have the forms that it asks for. -/
def Expr.OperandsFit : Expr → Prop
  | .member _ e _ | .call _ e _ | .index _ e _ | .post _ e => e.isPostfix
  | .pre _ e | .unary _ e => e.isUnary
  | .binary l op r => op.kind.Joins l r
  | .ternary c _ _ => c.isTernary = false
  | _ => True

/-- The operands that nothing delimits on both sides. -/
def Expr.bare : Expr → List Expr
  | .member _ e _ | .call _ e _ | .index _ e _ | .post _ e | .pre _ e | .unary _ e => [e]
  | .binary l _ r => [l, r]
  | .ternary c _ n => [c, n]
  | _ => []

/-- The operands of the expression follow the table of precedence. -/
structure Expr.Ordered (e : Expr) : Prop where
  operands : e.OperandsFit
  bare_le : ∀ operand ∈ e.bare, e.rank ≤ operand.rank

theorem Expr.isUnary_of_isPostfix {e : Expr} (h : e.isPostfix) : e.isUnary := by
  cases e <;> first | rfl | cases h

theorem Expr.reaches_of_isUnary {e : Expr} (h : e.isUnary) (p : Nat) : e.reaches p := by
  cases e with
  | binary l op r => exact Bool.or_eq_true_iff.mpr (Or.inl h)
  | _ => exact h

theorem Expr.isTernary_of_reaches {e : Expr} {p : Nat} (h : e.reaches p) : e.isTernary = false := by
  cases e <;> first | rfl | cases h

/-- An operator reaches its own precedence and all below it. -/
theorem Expr.reaches_binary {l r : Expr} {op : Token} {p q : Nat}
    (hop : op.kind.precedence? = some p) (hle : q ≤ p) : (Expr.binary l op r).reaches q := by
  simp [reaches, hop, hle]

/-! ### Forms and ranks -/

theorem Expr.rank_binary {l r : Expr} {op : Token} {n : Nat} (hop : op.kind.joins? = some n) :
    (Expr.binary l op r).rank = n := by
  show op.kind.joins?.getD 0 = n
  rw [hop]
  rfl

theorem Expr.rank_of_isPostfix {e : Expr} (h : e.isPostfix) : 13 ≤ e.rank := by
  unfold isPostfix at h
  unfold rank
  cases e <;> simp at h ⊢

theorem Expr.rank_of_isUnary {e : Expr} (h : e.isUnary) : 12 ≤ e.rank := by
  by_cases hpostfix : e.isPostfix
  · have hrank := rank_of_isPostfix hpostfix
    omega
  · cases e with
    | pre | unary => exact Nat.le_refl 12
    | binary l op r =>
      have hop : op.kind = .power := by simpa [isUnary] using h
      exact Nat.le_of_eq (rank_binary (by rw [hop]; rfl)).symm
    | _ => exact absurd h hpostfix

theorem Expr.rank_of_reaches {e : Expr} {p : Nat} (hp : p ≤ 11) (h : e.reaches p) :
    p + 1 ≤ e.rank := by
  by_cases hunary : e.isUnary
  · have hrank := rank_of_isUnary hunary
    omega
  · cases e with
    | binary l op r =>
      have hop : op.kind ≠ .power := by simpa [isUnary] using hunary
      have hany : op.kind.precedence?.any (p ≤ ·) := by simpa [reaches, hop] using h
      obtain ⟨q, hq, hle⟩ := (Option.any_eq_true _ _).mp hany
      rw [rank_binary (joins?_of_precedence hq)]
      simpa using hle
    | _ => exact absurd h hunary

theorem Expr.rank_of_not_ternary {e : Expr} (h : e.OperandsFit) (hne : e.isTernary = false) :
    1 ≤ e.rank := by
  cases e with
  | ternary => cases hne
  | binary l op r =>
    cases h with
    | @precedence p hp => rw [rank_binary (joins?_of_precedence hp)]; omega
    | power hk => rw [rank_binary (n := 12) (by rw [hk]; rfl)]; omega
    | nullish hk => exact Nat.le_of_eq (rank_binary (by rw [hk]; rfl)).symm
  | _ => simp [rank]

/-- **Whatever binds looser is delimited.** -/
theorem Expr.rank_le_of_mem_bare {e operand : Expr} (h : e.OperandsFit)
    (hoperand : operand.OperandsFit) (hmem : operand ∈ e.bare) : e.rank ≤ operand.rank := by
  cases e with
  | member _ e _ | call _ e _ | index _ e _ | post _ e =>
    rw [List.mem_singleton.mp hmem]
    exact rank_of_isPostfix h
  | pre _ e | unary _ e =>
    rw [List.mem_singleton.mp hmem]
    exact rank_of_isUnary h
  | ternary => exact Nat.zero_le _
  | binary l op r =>
    have hmem : operand = l ∨ operand = r := by simpa [bare] using hmem
    cases h with
    | @precedence p hp hl hr =>
      have hbounds := precedence_bounds hp
      have hleft := rank_of_reaches (by omega) hl
      have hright := rank_of_reaches (by omega) hr
      rw [rank_binary (joins?_of_precedence hp)]
      rcases hmem with rfl | rfl <;> omega
    | power hk hl hr =>
      have hleft := rank_of_isPostfix hl
      have hright := rank_of_isUnary hr
      rw [rank_binary (n := 12) (by rw [hk]; rfl)]
      rcases hmem with rfl | rfl <;> omega
    | nullish hk hl hr =>
      rw [rank_binary (n := 1) (by rw [hk]; rfl)]
      rcases hmem with rfl | rfl
      · have hleft := rank_of_reaches (by omega) hl
        omega
      · exact rank_of_not_ternary hoperand hr
  | _ => cases hmem

/-! ### The parts of a phrase -/

mutual

/-- The expression and all expressions in it. -/
def Expr.parts : Expr → List Expr
  | .atom t => [.atom t]
  | .group e => .group e :: e.parts
  | .array items => .array items :: exprsParts items
  | .new path args => .new path args :: exprsParts args
  | .lambda params body => .lambda params body :: stmtsParts body
  | .member safe e name => .member safe e name :: e.parts
  | .call safe e args => .call safe e args :: (e.parts ++ exprsParts args)
  | .index safe e args => .index safe e args :: (e.parts ++ exprsParts args)
  | .post step e => .post step e :: e.parts
  | .pre step e => .pre step e :: e.parts
  | .unary op e => .unary op e :: e.parts
  | .binary l op r => .binary l op r :: (l.parts ++ r.parts)
  | .ternary c y n => .ternary c y n :: (c.parts ++ (y.parts ++ n.parts))

/-- All expressions in some expressions. -/
def exprsParts : List Expr → List Expr
  | [] => []
  | e :: es => e.parts ++ exprsParts es

/-- All expressions in a statement. -/
def Stmt.parts : Stmt → List Expr
  | .empty _ | .jump _ _ | .exit _ => []
  | .block body => stmtsParts body
  | .declare _ ds => declaratorsParts ds
  | .function _ _ body => stmtsParts body
  | .ifThen c s => c.parts ++ s.parts
  | .ifElse c s o => c.parts ++ (s.parts ++ o.parts)
  | .whileLoop c s => c.parts ++ s.parts
  | .doLoop s c => s.parts ++ c.parts
  | .forLoop _ e s => e.parts ++ s.parts
  | .exitWith _ e => e.parts
  | .attempt body hs => stmtsParts body ++ handlersParts hs
  | .labeled _ s => s.parts
  | .forward _ args => exprsParts args
  | .assign t v => t.parts ++ v.parts
  | .compound t _ v => t.parts ++ v.parts
  | .expression e => e.parts

/-- All expressions in some statements. -/
def stmtsParts : List Stmt → List Expr
  | [] => []
  | s :: ss => s.parts ++ stmtsParts ss

/-- All expressions in a declarator. -/
def Declarator.parts : Declarator → List Expr
  | .plain _ => []
  | .valued _ e => e.parts

/-- All expressions in some declarators. -/
def declaratorsParts : List Declarator → List Expr
  | [] => []
  | d :: ds => d.parts ++ declaratorsParts ds

/-- All expressions in a handler. -/
def Handler.parts : Handler → List Expr
  | .rescue _ _ body => stmtsParts body
  | .always body => stmtsParts body

/-- All expressions in some handlers. -/
def handlersParts : List Handler → List Expr
  | [] => []
  | h :: hs => h.parts ++ handlersParts hs

end

/-- All expressions in a request. -/
def Request.parts : Request → List Expr
  | .statement s => s.parts
  | .expression e _ => e.parts
  | .assignment t v => t.parts ++ v.parts
  | .compound t _ v => t.parts ++ v.parts
  | .parallel ts _ vs => exprsParts ts ++ exprsParts vs

theorem exprsParts_eq (es : List Expr) : exprsParts es = es.flatMap Expr.parts := by
  induction es with
  | nil => rfl
  | cons e es ih => rw [exprsParts, List.flatMap_cons, ih]

theorem stmtsParts_eq (ss : List Stmt) : stmtsParts ss = ss.flatMap Stmt.parts := by
  induction ss with
  | nil => rfl
  | cons s ss ih => rw [stmtsParts, List.flatMap_cons, ih]

theorem declaratorsParts_eq (ds : List Declarator) :
    declaratorsParts ds = ds.flatMap Declarator.parts := by
  induction ds with
  | nil => rfl
  | cons d ds ih => rw [declaratorsParts, List.flatMap_cons, ih]

theorem handlersParts_eq (hs : List Handler) : handlersParts hs = hs.flatMap Handler.parts := by
  induction hs with
  | nil => rfl
  | cons h hs ih => rw [handlersParts, List.flatMap_cons, ih]

theorem Expr.mem_parts (e : Expr) : e ∈ e.parts := by
  cases e <;> exact List.mem_cons_self

theorem Expr.parts_eq (e : Expr) : e.parts = e :: e.parts.tail := by
  cases e <;> rfl

theorem Expr.bare_subset (e : Expr) : e.bare ⊆ e.parts.tail := by
  cases e <;> simp [bare, parts, mem_parts]

/-! ### Order throughout -/

/-- All of some expressions are ordered. -/
abbrev AllOrdered (parts : List Expr) : Prop := ∀ part ∈ parts, part.Ordered

/-- An expression whose operands fit is ordered throughout if its proper parts are. -/
theorem AllOrdered.of_tail {e : Expr} (he : e.OperandsFit) (h : AllOrdered e.parts.tail) :
    AllOrdered e.parts := by
  have hself : e.Ordered :=
    ⟨he, fun _ hbare => Expr.rank_le_of_mem_bare he (h _ (e.bare_subset hbare)).operands hbare⟩
  rw [e.parts_eq]
  exact List.forall_mem_cons.mpr ⟨hself, h⟩

theorem AllOrdered.append {parts parts' : List Expr} (h : AllOrdered parts)
    (h' : AllOrdered parts') : AllOrdered (parts ++ parts') :=
  List.forall_mem_append.mpr ⟨h, h'⟩

theorem allOrdered_flatMap {α : Type} {parts : α → List Expr} {as : List α}
    (h : ∀ a ∈ as, AllOrdered (parts a)) : AllOrdered (as.flatMap parts) := by
  intro part hpart
  obtain ⟨a, ha, hpart⟩ := List.mem_flatMap.mp hpart
  exact h a ha part hpart

end CommandShell
