import CommandShell.Grammar.Statement

/-! # The grammar: all rules together

Rules call each other, and each call goes one level deeper. `Grammar.parse` is given the number of
levels that are left; an input that needs more is nested too deeply. Chains and lists repeat on one
level, so that their length does not count. Levels count rules only: what a check inside a rule needs
to find the token that it reports does not count either. -/

namespace CommandShell

namespace Grammar

/-- The parser of a rule over the parsers of the rules that it calls. -/
def produce (call : Call) : ∀ {α : Type}, Rule α → Parser α
  | _, .expr => call .ternary
  | _, .ternary => ternary call
  | _, .nullish => nullish call
  | _, .binary power => binary call power
  | _, .unary => unary call
  | _, .power => power call
  | _, .access => access call
  | _, .primary => primary call
  | _, .construction => construction call
  | _, .args closer => args call closer
  | _, .params => params
  | _, .stmt => stmt call
  | _, .block => block call
  | _, .body owner => body call owner
  | _, .declaration => declaration call
  | _, .declarator keyword => declarator call keyword
  | _, .function => function call
  | _, .choice => choice call
  | _, .whileLoop => whileLoop call
  | _, .doLoop => doLoop call
  | _, .forLoop => forLoop call
  | _, .jump => jump
  | _, .exit => exit call
  | _, .attempt => attempt call
  | _, .labeled => labeled call
  | _, .forward => forward call
  | _, .expression => expression call

/-- The parser of a rule with some levels left. -/
def parse {α : Type} : Nat → Rule α → Parser α
  | 0, _ => Parser.tooDeep
  | levels + 1, rule => produce (fun r => parse levels r) rule

/-- Where the reading of an expression or statement began, a stack without levels becomes an error:
the input is nested too deeply, from the first token on. -/
def placeFailure (start : Token) : Failure → Failure
  | .exhausted => .parse ⟨.nestedTooDeeply, some start⟩
  | f => f

/-- Reads what a rule describes. After a failure the place is where the reading began. -/
def enter {α : Type} (levels : Nat) (rule : Rule α) : Parser α := do
  let start ← Parser.current
  fun ts i =>
    let r := parse levels rule ts i
    match r.outcome with
    | .ok a => ⟨.ok a, r.next, r.found, r.reach⟩
    | .error f => ⟨.error (placeFailure start f), i, r.found, r.reach⟩

/-- The levels of rules that an input may need. -/
def nestingLimit : Nat := 1000

end Grammar

end CommandShell
