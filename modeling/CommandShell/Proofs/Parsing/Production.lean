import CommandShell.Grammar.Basic
import CommandShell.Proofs.Parsing.Runs

/-! # Productions: the shapes of the runs of a rule

What a rule reads when it succeeds, production by production: the tokens that are there, the tokens
that must not follow, and the runs of the rules that it calls. The called rules are given by their
runs `calls`, so that the productions do not depend on the levels that are left. There is one family
for each sort of phrase; `runs_produce` says that the runs of the rules are these shapes and no
others.

Three rules take their first or second token unseen, because the statement rule has looked at it
before it calls them; `Rule.Fits` says what they rely on. -/

namespace CommandShell

namespace Grammar

open CommandShell.Parser

/-- The runs of called rules. -/
abbrev Calls : Type 1 := ∀ α : Type, Rule α → Shape α

/-- The kinds that are a primary expression alone. -/
def atoms : List Kind :=
  [.number, .string, .trueKw, .falseKw, .nullKw, .ident, .thisKw, .baseKw]

/-- The signs before an operand. -/
def signs : List Kind := [.minus, .plus, .bang]

/-- The rule of the statements that a keyword begins. -/
def statementRule? : Kind → Option (Rule Stmt)
  | .varKw | .constKw => some .declaration
  | .fnKw => some .function
  | .ifKw => some .choice
  | .whileKw => some .whileLoop
  | .doKw => some .doLoop
  | .forKw => some .forLoop
  | .breakKw | .continueKw => some .jump
  | .returnKw | .throwKw => some .exit
  | .tryKw => some .attempt
  | _ => none

section
variable (calls : Calls) (ts : Tokens)

/-! ### Lists -/

/-- One more item behind a comma. -/
inductive MoreRound {α : Type} (item : Shape α) : Shape (Option α)
  | stop {i} : ts.Lacks i .comma → MoreRound item i none i []
  | more {i a j ds} : ts.Has i .comma → item (i + 1) a j ds → MoreRound item i (some a) j ds

/-- Items with commas between them. -/
inductive Separated {α : Type} (item : Shape α) : Shape (List α)
  | mk {i a j as k ds₁ ds₂} : item i a j ds₁ → Collected (MoreRound ts item) j as k ds₂ →
      as.length ≤ ts.items.size → Separated item i (a :: as) k (ds₁ ++ ds₂)

/-- One name. -/
def NameRun : Shape Token := fun i t j ds =>
  ts.At i t ∧ t.kind = .ident ∧ j = i + 1 ∧ ds = []

/-- The names of parameters in parentheses. -/
inductive ParamsRun : Shape (List Token)
  | none {i} : ts.Has i .lparen → ts.Has (i + 1) .rparen → ParamsRun i [] (i + 2) []
  | some {i names j ds} : ts.Has i .lparen → ts.Lacks (i + 1) .rparen →
      Separated ts (NameRun ts) (i + 1) names j ds → ts.Has j .rparen → ParamsRun i names (j + 1) ds

/-- One more name of a type. -/
inductive PathRound : Shape (Option Token)
  | stop {i} : ts.Lacks i .dot → PathRound i none i []
  | more {i t} : ts.Has i .dot → ts.At (i + 1) t → t.kind = .ident →
      PathRound i (some t) (i + 2) []

/-- Arguments and the closing bracket. -/
inductive ArgsRun (closer : Kind) : Shape (List Expr)
  | none {i} : ts.Has i closer → ArgsRun closer i [] (i + 1) []
  | some {i es j ds} : ts.Lacks i closer → Separated ts (calls _ .expr) i es j ds →
      ts.Has j closer → ArgsRun closer i es (j + 1) ds

/-! ### Expressions -/

/-- One more operator of at least the power. -/
inductive BinaryRound (power : Nat) (left : Expr) : Shape (Option Expr)
  | stop {i t} : ts.At i t → (∀ p ∈ t.kind.precedence?, p < power) →
      BinaryRound power left i none i []
  | more {i op p right j ds} : ts.At i op → op.kind.precedence? = some p → power ≤ p →
      calls _ (.binary (p + 1)) (i + 1) right j ds →
      BinaryRound power left i (some (.binary left op right)) j ds

/-- The kind of an access form. -/
def dotKind (safe : Bool) : Kind := if safe then .safeDot else .dot

/-- The kind of the sign of a call. -/
def callKind (safe : Bool) : Kind := if safe then .safeLparen else .lparen

/-- The kind of the sign of an element. -/
def indexKind (safe : Bool) : Kind := if safe then .safeLsquare else .lsquare

/-- The kinds that go on after an operand. -/
def accessKinds : List Kind :=
  [.dot, .safeDot, .lparen, .safeLparen, .lsquare, .safeLsquare, .increment, .decrement]

/-- The report of a check. -/
def targetReports (e : Expr) : List Diagnostic := if e.isTarget then [] else [.badTarget e]

/-- The report of a check. -/
def effectReports (e : Expr) : List Diagnostic := if e.hasEffect then [] else [.noEffect e]

/-- One more access, call or step. -/
inductive AccessRound (target : Expr) : Shape (Option Expr)
  | stop {i t} : ts.At i t → t.kind ∉ accessKinds → AccessRound target i none i []
  | member {i t} (safe : Bool) : ts.Has i (dotKind safe) → ts.At (i + 1) t → t.kind = .ident →
      AccessRound target i (some (.member safe target t)) (i + 2) []
  | call {i args j ds} (safe : Bool) : ts.Has i (callKind safe) →
      calls _ (.args .rparen) (i + 1) args j ds →
      AccessRound target i (some (.call safe target args)) j ds
  | index {i args j ds} (safe : Bool) : ts.Has i (indexKind safe) → ts.Lacks (i + 1) .rsquare →
      calls _ (.args .rsquare) (i + 1) args j ds →
      AccessRound target i (some (.index safe target args)) j ds
  | post {i} (step : Step) : ts.Has i step.kind →
      AccessRound target i (some (.post step target)) (i + 1) (targetReports target)

/-- The runs of the rules of expressions. -/
inductive ExprRun : Rule Expr → Shape Expr
  | expr {i e j ds} : calls _ .ternary i e j ds → ExprRun .expr i e j ds
  | ternaryPlain {i e j ds} : calls _ .nullish i e j ds → ts.Lacks j .question →
      ExprRun .ternary i e j ds
  | ternary {i c j ds₁ y k ds₂ n l ds₃} : calls _ .nullish i c j ds₁ → ts.Has j .question →
      calls _ .expr (j + 1) y k ds₂ → ts.Has k .colon → calls _ .ternary (k + 1) n l ds₃ →
      ExprRun .ternary i (.ternary c y n) l (ds₁ ++ (ds₂ ++ ds₃))
  | nullishPlain {i e j ds} : calls _ (.binary 1) i e j ds → ts.Lacks j .nullish →
      ExprRun .nullish i e j ds
  | nullish {i left j ds₁ op right k ds₂} : calls _ (.binary 1) i left j ds₁ → ts.At j op →
      op.kind = .nullish → calls _ .nullish (j + 1) right k ds₂ →
      ExprRun .nullish i (.binary left op right) k (ds₁ ++ ds₂)
  | binary {power i left j ds₁ n e k ds₂} : calls _ .unary i left j ds₁ → n ≤ ts.items.size →
      Chained (BinaryRound calls ts power) n left j e k ds₂ →
      ExprRun (.binary power) i e k (ds₁ ++ ds₂)
  | sign {i op e j ds} : ts.At i op → op.kind ∈ signs → calls _ .unary (i + 1) e j ds →
      ExprRun .unary i (.unary op e) j ds
  | pre {i e j ds} (step : Step) : ts.Has i step.kind → calls _ .unary (i + 1) e j ds →
      ExprRun .unary i (.pre step e) j (ds ++ targetReports e)
  | unaryPlain {i t e j ds} : ts.At i t → t.kind ∉ signs ++ [.increment, .decrement] →
      calls _ .power i e j ds → ExprRun .unary i e j ds
  | powerPlain {i e j ds} : calls _ .access i e j ds → ts.Lacks j .power → ExprRun .power i e j ds
  | power {i base j ds₁ op exponent k ds₂} : calls _ .access i base j ds₁ → ts.At j op →
      op.kind = .power → calls _ .unary (j + 1) exponent k ds₂ →
      ExprRun .power i (.binary base op exponent) k (ds₁ ++ ds₂)
  | access {i target j ds₁ n e k ds₂} : calls _ .primary i target j ds₁ → n ≤ ts.items.size →
      Chained (AccessRound calls ts) n target j e k ds₂ → ExprRun .access i e k (ds₁ ++ ds₂)
  | atom {i t} : ts.At i t → t.kind ∈ atoms → ExprRun .primary i (.atom t) (i + 1) []
  | group {i e j ds} : ts.Has i .lparen → calls _ .expr (i + 1) e j ds → ts.Has j .rparen →
      ExprRun .primary i (.group e) (j + 1) ds
  | array {i es j ds} : ts.Has i .lsquare → calls _ (.args .rsquare) (i + 1) es j ds →
      ExprRun .primary i (.array es) j ds
  | new {i e j ds} : ts.Has i .newKw → calls _ .construction i e j ds → ExprRun .primary i e j ds
  | lambda {i names j ds₁ body k ds₂} : ts.Has i .fnKw →
      calls _ .params (i + 1) names j ds₁ → calls _ .block j body k ds₂ → ExprRun .primary i (.lambda names body) k (ds₁ ++ ds₂)
  | construction {i head tail j ds₁ args k ds₂} : ts.Has i .newKw → ts.At (i + 1) head →
      head.kind = .ident → Collected (PathRound ts) (i + 2) tail j ds₁ →
      tail.length ≤ ts.items.size → ts.Has j .lparen → calls _ (.args .rparen) (j + 1) args k ds₂ →
      ExprRun .construction i (.new (head :: tail) args) k (ds₁ ++ ds₂)

/-! ### Statements -/

/-- One name of a declaration. -/
inductive DeclaratorRun (keyword : Token) : Shape Declarator
  | plain {i t} : ts.At i t → t.kind = .ident → ts.Lacks (i + 1) .assign →
      keyword.kind ≠ .constKw → DeclaratorRun keyword i (.plain t) (i + 1) []
  | valued {i t e j ds} : ts.At i t → t.kind = .ident → ts.Has (i + 1) .assign →
      calls _ .expr (i + 2) e j ds → DeclaratorRun keyword i (.valued t e) j ds

/-- One more statement of a block. -/
inductive BlockRound : Shape (Option Stmt)
  | stop {i t} : ts.At i t → t.kind ∈ [Kind.rbrace, .eof] → BlockRound i none i []
  | more {i t s j ds} : ts.At i t → t.kind ∉ [Kind.rbrace, .eof] → calls _ .stmt i s j ds →
      BlockRound i (some s) j ds

/-- Statements in braces. -/
inductive BlockRun : Shape (List Stmt)
  | mk {i body j ds} : ts.Has i .lbrace → Collected (BlockRound calls ts) (i + 1) body j ds →
      body.length ≤ ts.items.size → ts.Has j .rbrace → BlockRun i body (j + 1) ds

/-- The type and the name of what a handler takes. -/
inductive RescueHead : Nat → Option Token → Option Token → Nat → Prop
  | type {i t} : ts.Has i .lparen → ts.At (i + 1) t → t.kind = .ident → ts.Has (i + 2) .rparen →
      RescueHead i (some t) none (i + 3)
  | typeAndName {i t n} : ts.Has i .lparen → ts.At (i + 1) t → t.kind = .ident → ts.At (i + 2) n →
      n.kind = .ident → ts.Has (i + 3) .rparen → RescueHead i (some t) (some n) (i + 4)
  | name {i n} : ts.At i n → n.kind = .ident → RescueHead i none (some n) (i + 1)
  | bare {i t} : ts.At i t → t.kind ∉ [Kind.lparen, .ident] → RescueHead i none none i

/-- One more `catch`. -/
inductive RescueRound : Shape (Option Handler)
  | stop {i} : ts.Lacks i .catchKw → RescueRound i none i []
  | more {i type name j body k ds} : ts.Has i .catchKw → RescueHead ts (i + 1) type name j →
      calls _ .block j body k ds → RescueRound i (some (.rescue type name body)) k ds

/-- A `finally`, if there is one. -/
inductive AlwaysRun : Shape (List Handler)
  | none {i} : ts.Lacks i .finallyKw → AlwaysRun i [] i []
  | some {i body j ds} : ts.Has i .finallyKw → calls _ .block (i + 1) body j ds →
      AlwaysRun i [.always body] j ds

/-- The warning about an empty body. -/
def emptyReports (owner : Kind) : Stmt → List Diagnostic
  | .empty semicolon => [.emptyBody owner semicolon]
  | _ => []

/-- The runs of the rules of statements. -/
inductive StmtRun : Rule Stmt → Shape Stmt
  | expressionLike {i s j ds} : Runs opening ts i .expression i [] → calls _ .expression i s j ds →
      StmtRun .stmt i s j ds
  | block {i body j ds} : ts.Has i .lbrace → calls _ .block i body j ds →
      StmtRun .stmt i (.block body) j ds
  | empty {i t} : ts.At i t → t.kind = .semicolon → StmtRun .stmt i (.empty t) (i + 1) []
  | keyword {i t rule s j ds} : ts.At i t → statementRule? t.kind = some rule →
      calls _ rule i s j ds → StmtRun .stmt i s j ds
  | label {i s j ds} : ts.Has i .ident → ts.Has (i + 1) .colon → calls _ .labeled i s j ds →
      StmtRun .stmt i s j ds
  | forwarding {i t s j ds} : ts.Has i .newKw → ts.At (i + 1) t → t.kind.isReceiver = true →
      calls _ .forward i s j ds → StmtRun .stmt i s j ds
  | body {owner i s j ds} : calls _ .stmt i s j ds →
      StmtRun (.body owner) i s j (ds ++ emptyReports owner s)
  | declaration {i keyword declarators j ds} : ts.At i keyword →
      statementRule? keyword.kind = some .declaration →
      Separated ts (calls _ (.declarator keyword)) (i + 1) declarators j ds → ts.Has j .semicolon →
      StmtRun .declaration i (.declare keyword declarators) (j + 1) ds
  | function {i name names j ds₁ body k ds₂} : ts.Has i .fnKw → ts.At (i + 1) name →
      name.kind = .ident → calls _ .params (i + 2) names j ds₁ → calls _ .block j body k ds₂ →
      StmtRun .function i (.function name names body) k (ds₁ ++ ds₂)
  | ifThen {i c j ds₁ s k ds₂} : ts.Has i .ifKw → calls _ .expr (i + 1) c j ds₁ →
      calls _ (.body .ifKw) j s k ds₂ → ts.Lacks k .elseKw →
      StmtRun .choice i (.ifThen c s) k (ds₁ ++ ds₂)
  | ifElse {i c j ds₁ s k ds₂ o l ds₃} : ts.Has i .ifKw → calls _ .expr (i + 1) c j ds₁ →
      calls _ (.body .ifKw) j s k ds₂ → ts.Has k .elseKw → calls _ (.body .elseKw) (k + 1) o l ds₃ →
      StmtRun .choice i (.ifElse c s o) l (ds₁ ++ (ds₂ ++ ds₃))
  | whileLoop {i c j ds₁ s k ds₂} : ts.Has i .whileKw → calls _ .expr (i + 1) c j ds₁ →
      calls _ (.body .whileKw) j s k ds₂ → StmtRun .whileLoop i (.whileLoop c s) k (ds₁ ++ ds₂)
  | doLoop {i s j ds₁ c k ds₂} : ts.Has i .doKw → calls _ .stmt (i + 1) s j ds₁ →
      ts.Has j .whileKw → calls _ .expr (j + 1) c k ds₂ → ts.Has k .semicolon →
      StmtRun .doLoop i (.doLoop s c) (k + 1) (ds₁ ++ ds₂)
  | forLoop {i name e j ds₁ s k ds₂} : ts.Has i .forKw → ts.At (i + 1) name → name.kind = .ident →
      ts.Has (i + 2) .inKw → calls _ .expr (i + 3) e j ds₁ → calls _ (.body .forKw) j s k ds₂ →
      StmtRun .forLoop i (.forLoop name e s) k (ds₁ ++ ds₂)
  | jump {i} (way : Jump) : ts.Has i way.kind → ts.Has (i + 1) .semicolon →
      StmtRun .jump i (.jump way none) (i + 2) []
  | jumpTo {i label} (way : Jump) : ts.Has i way.kind → ts.At (i + 1) label → label.kind = .ident →
      ts.Has (i + 2) .semicolon → StmtRun .jump i (.jump way (some label)) (i + 3) []
  | exit {i} (way : Exit) : ts.Has i way.kind → ts.Has (i + 1) .semicolon →
      StmtRun .exit i (.exit way) (i + 2) []
  | exitWith {i e j ds} (way : Exit) : ts.Has i way.kind → ts.Lacks (i + 1) .semicolon →
      calls _ .expr (i + 1) e j ds → ts.Has j .semicolon →
      StmtRun .exit i (.exitWith way e) (j + 1) ds
  | attempt {i body j ds₁ rescues k ds₂ last l ds₃} : ts.Has i .tryKw →
      calls _ .block (i + 1) body j ds₁ → Collected (RescueRound calls ts) j rescues k ds₂ →
      rescues.length ≤ ts.items.size → AlwaysRun calls ts k last l ds₃ → rescues ++ last ≠ [] →
      StmtRun .attempt i (.attempt body (rescues ++ last)) l (ds₁ ++ (ds₂ ++ ds₃))
  | labeled {i label s j ds} : ts.At i label → label.kind = .ident → ts.Has (i + 1) .colon →
      calls _ .stmt (i + 2) s j ds → StmtRun .labeled i (.labeled label s) j ds
  | forward {i receiver args j ds} : ts.Has i .newKw → ts.At (i + 1) receiver →
      receiver.kind.isReceiver = true → ts.Has (i + 2) .lparen →
      calls _ (.args .rparen) (i + 3) args j ds → ts.Has j .semicolon →
      StmtRun .forward i (.forward receiver args) (j + 1) ds
  | assign {i t j ds₁ v k ds₂} : calls _ .expr i t j ds₁ → ts.Has j .assign →
      calls _ .expr (j + 1) v k ds₂ → ts.Has k .semicolon →
      StmtRun .expression i (.assign t v) (k + 1) (ds₁ ++ (targetReports t ++ ds₂))
  | compound {i t j ds₁ op v k ds₂} : calls _ .expr i t j ds₁ → ts.At j op →
      op.kind.compoundOp?.isSome = true → calls _ .expr (j + 1) v k ds₂ → ts.Has k .semicolon →
      StmtRun .expression i (.compound t op v) (k + 1) (ds₁ ++ (targetReports t ++ ds₂))
  | expression {i e j ds} : calls _ .expr i e j ds → ts.Has j .semicolon →
      StmtRun .expression i (.expression e) (j + 1) (ds ++ effectReports e)

end

end Grammar

end CommandShell
