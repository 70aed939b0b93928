import CommandShell.Proofs.Parsing.Limits
import CommandShell.Proofs.Phrases.Unplaced

/-! # Blind parsers: the places of the tokens are not looked at

Nothing that the grammar decides depends on where a token stands. On tokens without places a rule
does the same: it takes and asks for the same tokens, and what it reads, reports or fails with is
the same, only without places (`blind_parse`).

Two parsers are compared, since the tokens that have been read stand in what is still to be read:
the first goes on with a phrase, the second with the phrase without places (`Blind`). Every way to
build a parser keeps this. -/

namespace CommandShell

open CommandShell.Parser CommandShell.Grammar

/-! ### What has a place -/

/-- The lexical fault without its place. -/
def LexError.unplaced (e : LexError) : LexError := ⟨e.fault, 0, 0⟩

/-- The parse error about the token without its place. -/
def ParseError.unplaced (e : ParseError) : ParseError := ⟨e.fault, e.token.map Token.unplaced⟩

/-- The failure without its place. -/
def Failure.unplaced : Failure → Failure
  | .lex e => .lex e.unplaced
  | .parse e => .parse e.unplaced
  | .exhausted => .exhausted

/-- The report without its place. -/
def Diagnostic.unplaced (d : Diagnostic) : Diagnostic := { d with line := 0, column := 0 }

/-- The tokens without their places. -/
def Tokens.unplaced (ts : Tokens) : Tokens :=
  ⟨ts.items.map Token.unplaced, (ts.ending.map Token.unplaced).mapError LexError.unplaced⟩

/-- What a parser does without places, where `u` takes them from what it reads. -/
def Parsed.unplaced {α : Type} (u : α → α) (r : Parsed α) : Parsed α :=
  ⟨(r.outcome.map u).mapError Failure.unplaced, r.next, r.found.map Diagnostic.unplaced, r.reach⟩

theorem Diagnostic.at?_unplaced (code : Code) (message : String) (token : Option Token)
    (severity : Severity) : Diagnostic.at? code message (token.map Token.unplaced) severity =
      (Diagnostic.at? code message token severity).unplaced := by
  cases token <;> rfl

theorem Diagnostic.badTarget_unplaced (e : Expr) :
    Diagnostic.badTarget e.unplaced = (Diagnostic.badTarget e).unplaced := by
  rw [badTarget, e.firstToken?_unplaced, at?_unplaced]
  rfl

theorem Diagnostic.noEffect_unplaced (e : Expr) :
    Diagnostic.noEffect e.unplaced = (Diagnostic.noEffect e).unplaced := by
  rw [noEffect, e.firstToken?_unplaced, at?_unplaced]
  rfl

namespace Tokens

variable (ts : Tokens)

@[simp] theorem size_unplaced : ts.unplaced.items.size = ts.items.size := Array.size_map

theorem get_unplaced (i : Nat) :
    ts.unplaced.get i = ((ts.get i).map Token.unplaced).mapError LexError.unplaced := by
  unfold Tokens.get
  by_cases h : i < ts.items.size
  · rw [dif_pos h, dif_pos (ts.size_unplaced.symm ▸ h)]
    simp [Tokens.unplaced, Except.map, Except.mapError]
  · rw [dif_neg h, dif_neg (ts.size_unplaced.symm ▸ h)]
    rfl

/-- Tokens with the same words are the same without their places. -/
theorem unplaced_eq {us : Tokens} {t u : Token}
    (hitems : ts.items.toList.map Token.word = us.items.toList.map Token.word)
    (ht : ts.ending = .ok t) (hu : us.ending = .ok u) (hending : t.word = u.word) :
    ts.unplaced = us.unplaced := by
  have hlist : ts.items.toList.map Token.unplaced = us.items.toList.map Token.unplaced := by
    have hword : Token.unplaced = (fun w => ⟨w.1, w.2, 0, 0⟩) ∘ Token.word := rfl
    rw [hword, ← List.map_map, ← List.map_map, hitems]
  rw [Tokens.unplaced, Tokens.unplaced, ht, hu, Except.map, Except.map, unplaced_of_word hending]
  congr 1
  rw [← Array.toList_inj, Array.toList_map, Array.toList_map, hlist]

end Tokens

namespace Parser

variable {α β : Type}

/-- On the tokens without places the second parser does what the first does on the tokens, up to
places. -/
def Blind (u : α → α) (p q : Parser α) (ts : Tokens) : Prop :=
  ∀ i, q ts.unplaced i = (p ts i).unplaced u

section
variable {u : α → α} {v : β → β} {ts : Tokens} {p q : Parser α}

/-! ### One parser after the other -/

theorem Blind.bind {f g : α → Parser β} (hp : Blind u p q ts)
    (hf : ∀ a, Blind v (f a) (g (u a)) ts) : Blind v (p >>= f) (q >>= g) ts := by
  intro i
  cases h : (p ts i).outcome with
  | error e =>
    have hq : (q ts.unplaced i).outcome = .error e.unplaced := by
      rw [hp i, Parsed.unplaced, h]
      rfl
    rw [bind_of_error h, bind_of_error hq, hp i]
    rfl
  | ok a =>
    have hq : (q ts.unplaced i).outcome = .ok (u a) := by
      rw [hp i, Parsed.unplaced, h]
      rfl
    have hnext : (q ts.unplaced i).next = (p ts i).next := by
      rw [hp i]
      rfl
    rw [bind_of_ok h, bind_of_ok hq, hnext, hf a (p ts i).next, hp i]
    simp [Parsed.unplaced]

theorem blind_pure {a b : α} (h : b = u a) : Blind u (pure a) (pure b) ts := by
  rw [h]
  exact fun _ => rfl

theorem Blind.map {f g : α → β} (hp : Blind u p q ts) (h : ∀ a, g (u a) = v (f a)) :
    Blind v (f <$> p) (g <$> q) ts := hp.bind fun a => blind_pure (h a)

theorem Blind.ite {p' q' : Parser α} {c : Prop} [Decidable c] (hp : Blind u p q ts)
    (hq : Blind u p' q' ts) : Blind u (if c then p else p') (if c then q else q') ts := by
  split
  · exact hp
  · exact hq

/-- What goes on in the same way behind either of two parsers. -/
theorem Blind.join {p' q' : Parser α} {c : Prop} [Decidable c] {f g : α → Parser β}
    (hp : Blind u p q ts) (hq : Blind u p' q' ts) (hf : ∀ a, Blind v (f a) (g (u a)) ts) :
    Blind v (if c then p >>= f else p' >>= f) (if c then q >>= g else q' >>= g) ts :=
  .ite (hp.bind hf) (hq.bind hf)

/-! ### Failures and reports -/

theorem blind_fail {f : Failure} : Blind u (fail f : Parser α) (fail f.unplaced) ts := fun _ => rfl

theorem blind_failAt {fault : ParseFault} {t : Token} :
    Blind u (failAt fault t : Parser α) (failAt fault t.unplaced) ts := fun _ => rfl

theorem blind_tooDeep : Blind u (tooDeep : Parser α) tooDeep ts := fun _ => rfl

theorem blind_report {d : Diagnostic} : Blind id (report d) (report d.unplaced) ts := fun _ => rfl

/-! ### Tokens -/

theorem blind_peek {ahead : Nat} : Blind Token.unplaced (peek ahead) (peek ahead) ts := by
  intro i
  unfold peek
  rw [Tokens.get_unplaced]
  cases ts.get (i + ahead) <;> rfl

theorem blind_current : Blind Token.unplaced current current ts := blind_peek

theorem blind_previous : Blind (Option.map Token.unplaced) previous previous ts := by
  intro i
  cases i with
  | zero => rfl
  | succ i =>
    unfold previous
    simp only
    rw [Tokens.get_unplaced]
    cases ts.get i <;> rfl

theorem blind_advance : Blind Token.unplaced advance advance ts :=
  blind_current.bind fun _ => .ite (blind_pure rfl) <|
    Blind.bind (u := id) (p := move) (q := move) (fun _ => rfl) fun _ => blind_pure rfl

theorem blind_sees {k : Kind} : Blind id (sees k) (sees k) ts := blind_current.map fun _ => rfl

theorem blind_seesAny {ks : List Kind} : Blind id (seesAny ks) (seesAny ks) ts :=
  blind_current.map fun _ => rfl

theorem blind_accept {k : Kind} : Blind id (accept k) (accept k) ts :=
  blind_sees.bind fun _ => .ite (blind_advance.bind fun _ => blind_pure rfl) (blind_pure rfl)

theorem blind_opening : Blind id opening opening ts :=
  blind_current.bind fun _ => .ite (blind_pure rfl) <| .ite (blind_peek.map fun _ => rfl) <|
    .ite (blind_peek.map fun _ => rfl) (blind_pure rfl)

theorem blind_failHere {fault : ParseFault} :
    Blind u (failHere fault : Parser α) (failHere fault) ts := by
  have hfault : Blind ParseError.unplaced (faultHere fault) (faultHere fault) ts :=
    blind_current.map fun t => by
      rw [apply_ite ParseError.unplaced]
      rfl
  exact hfault.bind fun _ => blind_fail

theorem blind_expectAs {k : Kind} {w : Wanted} :
    Blind Token.unplaced (expectAs k w) (expectAs k w) ts :=
  blind_sees.bind fun _ => .ite blind_advance blind_failHere

theorem blind_expectSemicolon : Blind Token.unplaced expectSemicolon expectSemicolon ts :=
  blind_current.bind fun _ => .ite blind_advance blind_failAt

/-! ### Checks -/

theorem blind_checkTarget {e : Expr} : Blind id (checkTarget e) (checkTarget e.unplaced) ts := by
  unfold checkTarget
  rw [e.isTarget_unplaced, Diagnostic.badTarget_unplaced]
  exact .ite (blind_pure rfl) blind_report

theorem blind_checkEffect {e : Expr} : Blind id (checkEffect e) (checkEffect e.unplaced) ts := by
  unfold checkEffect
  rw [e.hasEffect_unplaced, Diagnostic.noEffect_unplaced]
  exact .ite (blind_pure rfl) blind_report

theorem blind_warnIfEmpty {owner : Kind} {s : Stmt} :
    Blind id (warnIfEmpty owner s) (warnIfEmpty owner s.unplaced) ts := by
  cases s with
  | empty semicolon => exact blind_report
  | _ => exact blind_pure rfl

/-! ### Repetitions -/

theorem Blind.collect {p q : Parser (Option α)} (h : Blind (Option.map u) p q ts) :
    Blind (List.map u) (collect p) (collect q) ts := by
  have hrounds : ∀ rounds, Blind (List.map u) (collectUpTo p rounds) (collectUpTo q rounds) ts := by
    intro rounds
    induction rounds with
    | zero => exact blind_tooDeep
    | succ rounds ih =>
      refine h.bind fun a? => ?_
      cases a? with
      | none => exact blind_pure rfl
      | some a => exact ih.map fun _ => rfl
  intro i
  unfold Parser.collect
  rw [Tokens.size_unplaced]
  exact hrounds _ i

theorem Blind.chain {f g : α → Parser (Option α)}
    (h : ∀ a, Blind (Option.map u) (f a) (g (u a)) ts) (a : α) :
    Blind u (chain f a) (chain g (u a)) ts := by
  have hrounds : ∀ rounds a, Blind u (chainUpTo f rounds a) (chainUpTo g rounds (u a)) ts := by
    intro rounds
    induction rounds with
    | zero => exact fun _ => blind_tooDeep
    | succ rounds ih =>
      intro a
      refine (h a).bind fun b? => ?_
      cases b? with
      | none => exact blind_pure rfl
      | some b => exact ih b
  intro i
  unfold Parser.chain
  rw [Tokens.size_unplaced]
  exact hrounds _ a i

theorem Blind.more (h : Blind u p q ts) : Blind (List.map u) (more p) (more q) ts :=
  Blind.collect (blind_accept.bind fun _ => .ite (h.map fun _ => rfl) (blind_pure rfl))

theorem Blind.separated (h : Blind u p q ts) :
    Blind (List.map u) (separated p) (separated q) ts :=
  h.bind fun _ => h.more.map fun _ => rfl

end

end Parser

/-! ### Rules -/

/-- The rule without the place of the token that it is given. -/
def Rule.unplaced : ∀ {α : Type}, Rule α → Rule α
  | _, .declarator keyword => .declarator keyword.unplaced
  | _, rule => rule

/-- Takes the places from what a rule reads. -/
def Rule.forget : ∀ {α : Type}, Rule α → α → α
  | _, .expr | _, .ternary | _, .nullish | _, .binary _ | _, .unary | _, .power | _, .access
  | _, .primary | _, .construction => Expr.unplaced
  | _, .args _ => List.map Expr.unplaced
  | _, .params => List.map Token.unplaced
  | _, .block => List.map Stmt.unplaced
  | _, .declarator _ => Declarator.unplaced
  | _, .stmt | _, .body _ | _, .declaration | _, .function | _, .choice | _, .whileLoop
  | _, .doLoop | _, .forLoop | _, .jump | _, .exit | _, .attempt | _, .labeled | _, .forward
  | _, .expression => Stmt.unplaced

namespace Grammar

section
variable {ts : Tokens}

theorem blind_params : Blind (List.map Token.unplaced) params params ts :=
  blind_expectAs.bind fun _ => blind_sees.bind fun _ =>
    .join (u := List.map Token.unplaced) (blind_pure rfl) blind_expectAs.separated fun _ =>
      blind_expectAs.map fun _ => rfl

theorem blind_pathRound : Blind (Option.map Token.unplaced) pathRound pathRound ts :=
  blind_accept.bind fun _ => .ite (blind_expectAs.map fun _ => rfl) (blind_pure rfl)

theorem blind_jump : Blind Stmt.unplaced jump jump ts :=
  blind_advance.bind fun _ => blind_sees.bind fun _ =>
    .join (u := Option.map Token.unplaced) (blind_advance.map fun _ => rfl) (blind_pure rfl)
      fun _ => blind_expectSemicolon.map fun _ => rfl

theorem blind_rescueHead :
    Blind (Prod.map (Option.map Token.unplaced) (Option.map Token.unplaced)) rescueHead rescueHead
      ts := by
  refine blind_accept.bind fun _ => .ite ?_ (blind_sees.bind fun _ => .ite ?_ (blind_pure rfl))
  · exact blind_expectAs.bind fun _ => blind_sees.bind fun _ =>
      .join (u := Option.map Token.unplaced) (blind_advance.map fun _ => rfl) (blind_pure rfl)
        fun _ => blind_expectAs.map fun _ => rfl
  · exact blind_advance.map fun _ => rfl

variable {call : Call}
  (h : ∀ {α : Type} (rule : Rule α), Blind rule.forget (call rule) (call rule.unplaced) ts)
include h

theorem blind_ternary : Blind Expr.unplaced (ternary call) (ternary call) ts :=
  (h .nullish).bind fun _ => blind_accept.bind fun _ => .ite
    ((h .expr).bind fun _ => blind_expectAs.bind fun _ => (h .ternary).map fun _ => rfl)
    (blind_pure rfl)

theorem blind_nullish : Blind Expr.unplaced (nullish call) (nullish call) ts :=
  (h (.binary 1)).bind fun _ => blind_sees.bind fun _ => .ite
    (blind_advance.bind fun _ => (h .nullish).map fun _ => rfl) (blind_pure rfl)

theorem blind_binaryRound (power : Nat) (left : Expr) : Blind (Option.map Expr.unplaced)
    (binaryRound call power left) (binaryRound call power left.unplaced) ts := by
  refine blind_current.bind fun t => ?_
  simp only [Token.kind_unplaced]
  split
  · exact blind_pure rfl
  · exact .ite (blind_pure rfl)
      (blind_advance.bind fun _ => (h (.binary _)).map fun _ => rfl)

theorem blind_binary (power : Nat) :
    Blind Expr.unplaced (binary call power) (binary call power) ts :=
  (h .unary).bind fun left => Blind.chain (blind_binaryRound h power) left

theorem blind_unary : Blind Expr.unplaced (unary call) (unary call) ts := by
  have hsign : Blind Expr.unplaced (do
      let op ← advance
      let operand ← call .unary
      return Expr.unary op operand) (do
      let op ← advance
      let operand ← call .unary
      return Expr.unary op operand) ts :=
    blind_advance.bind fun _ => (h .unary).map fun _ => rfl
  have hstep : ∀ step, Blind Expr.unplaced (stepBefore call step) (stepBefore call step) ts :=
    fun _ => blind_advance.bind fun _ => (h .unary).bind fun _ =>
      blind_checkTarget.map fun _ => rfl
  refine blind_current.bind fun t => ?_
  simp only [Token.kind_unplaced]
  split
  · exact hsign
  · exact hsign
  · exact hsign
  · exact hstep .up
  · exact hstep .down
  · exact h .power

theorem blind_power : Blind Expr.unplaced (power call) (power call) ts :=
  (h .access).bind fun _ => blind_sees.bind fun _ => .ite
    (blind_advance.bind fun _ => (h .unary).map fun _ => rfl) (blind_pure rfl)

theorem blind_accessRound (target : Expr) : Blind (Option.map Expr.unplaced)
    (accessRound call target) (accessRound call target.unplaced) ts := by
  have hmember : ∀ safe, Blind (Option.map Expr.unplaced) (memberAfter safe target)
      (memberAfter safe target.unplaced) ts := fun _ =>
    blind_advance.bind fun _ => blind_expectAs.map fun _ => rfl
  have hcall : ∀ safe, Blind (Option.map Expr.unplaced) (callAfter call safe target)
      (callAfter call safe target.unplaced) ts := fun _ =>
    blind_advance.bind fun _ => (h (.args .rparen)).map fun _ => by
      simp [Rule.forget, Expr.unplaced]
  have hindex : ∀ safe, Blind (Option.map Expr.unplaced) (indexAfter call safe target)
      (indexAfter call safe target.unplaced) ts := fun safe => by
    have hrest : Blind (Option.map Expr.unplaced) (do
        let args ← call (.args .rsquare)
        return some (Expr.index safe target args)) (do
        let args ← call (.args .rsquare)
        return some (Expr.index safe target.unplaced args)) ts :=
      (h (.args .rsquare)).map fun _ => by simp [Rule.forget, Expr.unplaced]
    exact blind_advance.bind fun _ => blind_current.bind fun _ =>
      .ite (Blind.bind (u := id) blind_failAt fun _ => hrest) hrest
  have hstep : ∀ step, Blind (Option.map Expr.unplaced) (stepAfter step target)
      (stepAfter step target.unplaced) ts := fun _ =>
    blind_advance.bind fun _ => blind_checkTarget.map fun _ => rfl
  refine blind_current.bind fun t => ?_
  simp only [Token.kind_unplaced]
  split
  · exact hmember false
  · exact hmember true
  · exact hcall false
  · exact hcall true
  · exact hindex false
  · exact hindex true
  · exact hstep .up
  · exact hstep .down
  · exact blind_pure rfl

theorem blind_access : Blind Expr.unplaced (access call) (access call) ts :=
  (h .primary).bind fun target => Blind.chain (blind_accessRound h) target

theorem blind_args (closer : Kind) :
    Blind (List.map Expr.unplaced) (args call closer) (args call closer) ts :=
  blind_sees.bind fun _ =>
    .join (u := List.map Expr.unplaced) (blind_pure rfl) (h .expr).separated fun _ =>
      blind_expectAs.map fun _ => rfl

theorem blind_primary : Blind Expr.unplaced (primary call) (primary call) ts := by
  refine blind_current.bind fun t => ?_
  simp only [Token.kind_unplaced]
  split
  all_goals try exact blind_advance.map fun _ => rfl
  · exact blind_advance.bind fun _ => (h .expr).bind fun _ => blind_expectAs.map fun _ => rfl
  · exact blind_advance.bind fun _ => (h (.args .rsquare)).map fun _ => by
      simp [Rule.forget, Expr.unplaced]
  · exact h .construction
  · exact blind_advance.bind fun _ => (h .params).bind fun _ => (h .block).map fun _ => by
      simp [Rule.forget, Expr.unplaced]
  · exact blind_failHere

theorem blind_construction : Blind Expr.unplaced (construction call) (construction call) ts := by
  have hrest : Blind Expr.unplaced (do
      let head ← expectAs .ident (.typeName "new")
      let tail ← collect pathRound
      let _ ← expectAs .lparen .typeArguments
      let args ← call (.args .rparen)
      return Expr.new (head :: tail) args) (do
      let head ← expectAs .ident (.typeName "new")
      let tail ← collect pathRound
      let _ ← expectAs .lparen .typeArguments
      let args ← call (.args .rparen)
      return Expr.new (head :: tail) args) ts :=
    blind_expectAs.bind fun _ => blind_pathRound.collect.bind fun _ =>
      blind_expectAs.bind fun _ => (h (.args .rparen)).map fun _ => by
        simp [Rule.forget, Expr.unplaced]
  exact blind_expectAs.bind fun _ => blind_current.bind fun _ =>
    .ite (Blind.bind (u := id) blind_failAt fun _ => hrest) hrest

theorem blind_stmt : Blind Stmt.unplaced (stmt call) (stmt call) ts := by
  refine blind_opening.bind fun opens => ?_
  cases opens with
  | expression => exact h .expression
  | statement =>
    refine blind_current.bind fun t => ?_
    simp only [Token.kind_unplaced]
    split
    · exact (h .block).map fun _ => by simp [Rule.forget, Stmt.unplaced]
    · exact blind_advance.map fun _ => rfl
    · exact h .declaration
    · exact h .declaration
    · exact h .function
    · exact h .choice
    · exact h .whileLoop
    · exact h .doLoop
    · exact h .forLoop
    · exact h .jump
    · exact h .jump
    · exact h .exit
    · exact h .exit
    · exact h .attempt
    · exact h .labeled
    · exact h .forward
    · exact blind_failHere

theorem blind_block : Blind (List.map Stmt.unplaced) (block call) (block call) ts := by
  have hround : Blind (Option.map Stmt.unplaced) (blockRound call) (blockRound call) ts :=
    blind_seesAny.bind fun _ => .ite (blind_pure rfl) ((h .stmt).map fun _ => rfl)
  exact blind_expectAs.bind fun _ => hround.collect.bind fun _ => blind_expectAs.map fun _ => rfl

theorem blind_body (owner : Kind) : Blind Stmt.unplaced (body call owner) (body call owner) ts :=
  (h .stmt).bind fun _ => blind_warnIfEmpty.map fun _ => rfl

theorem blind_declaration : Blind Stmt.unplaced (declaration call) (declaration call) ts :=
  blind_advance.bind fun keyword => (h (.declarator keyword)).separated.bind fun _ =>
    blind_expectSemicolon.map fun _ => by simp [Rule.forget, Stmt.unplaced]

theorem blind_declarator (keyword : Token) : Blind Declarator.unplaced (declarator call keyword)
    (declarator call keyword.unplaced) ts :=
  blind_expectAs.bind fun _ => blind_accept.bind fun _ => .ite ((h .expr).map fun _ => rfl) <|
    .ite (Blind.bind (u := id) blind_failAt fun _ => blind_pure rfl) (blind_pure rfl)

theorem blind_function : Blind Stmt.unplaced (function call) (function call) ts :=
  blind_expectAs.bind fun _ => blind_expectAs.bind fun _ => (h .params).bind fun _ =>
    (h .block).map fun _ => by simp [Rule.forget, Stmt.unplaced]

theorem blind_choice : Blind Stmt.unplaced (choice call) (choice call) ts :=
  blind_expectAs.bind fun _ => (h .expr).bind fun _ => (h (.body .ifKw)).bind fun _ =>
    blind_accept.bind fun _ => .ite ((h (.body .elseKw)).map fun _ => rfl) (blind_pure rfl)

theorem blind_whileLoop : Blind Stmt.unplaced (whileLoop call) (whileLoop call) ts :=
  blind_expectAs.bind fun _ => (h .expr).bind fun _ => (h (.body .whileKw)).map fun _ => rfl

theorem blind_doLoop : Blind Stmt.unplaced (doLoop call) (doLoop call) ts :=
  blind_expectAs.bind fun _ => (h .stmt).bind fun _ => blind_expectAs.bind fun _ =>
    (h .expr).bind fun _ => blind_expectSemicolon.map fun _ => rfl

theorem blind_forLoop : Blind Stmt.unplaced (forLoop call) (forLoop call) ts :=
  blind_expectAs.bind fun _ => blind_expectAs.bind fun _ => blind_expectAs.bind fun _ =>
    (h .expr).bind fun _ => (h (.body .forKw)).map fun _ => rfl

theorem blind_exit : Blind Stmt.unplaced (exit call) (exit call) ts :=
  blind_advance.bind fun _ => blind_sees.bind fun _ => .ite
    (blind_expectSemicolon.map fun _ => rfl)
    ((h .expr).bind fun _ => blind_expectSemicolon.map fun _ => rfl)

theorem blind_attempt : Blind Stmt.unplaced (attempt call) (attempt call) ts := by
  have hround : Blind (Option.map Handler.unplaced) (rescueRound call) (rescueRound call) ts :=
    blind_accept.bind fun _ => .ite (blind_rescueHead.bind fun _ => (h .block).map fun _ => by
      simp [Rule.forget, Handler.unplaced]) (blind_pure rfl)
  have hlast : Blind (List.map Handler.unplaced) (always call) (always call) ts :=
    blind_accept.bind fun _ => .ite ((h .block).map fun _ => by
      simp [Rule.forget, Handler.unplaced]) (blind_pure rfl)
  refine blind_expectAs.bind fun keyword => (h .block).bind fun body =>
    hround.collect.bind fun rescues => hlast.bind fun last => ?_
  have hempty : (rescues.map Handler.unplaced ++ last.map Handler.unplaced).isEmpty =
      (rescues ++ last).isEmpty := by cases rescues <;> simp
  have hrest : Stmt.attempt (body.map Stmt.unplaced)
      (rescues.map Handler.unplaced ++ last.map Handler.unplaced) =
        (Stmt.attempt body (rescues ++ last)).unplaced := by simp [Stmt.unplaced]
  simp only [hempty]
  exact .ite (Blind.bind (u := id) blind_failAt fun _ => blind_pure hrest) (blind_pure hrest)

theorem blind_labeled : Blind Stmt.unplaced (labeled call) (labeled call) ts :=
  blind_expectAs.bind fun _ => blind_expectAs.bind fun _ => (h .stmt).map fun _ => rfl

theorem blind_forward : Blind Stmt.unplaced (forward call) (forward call) ts :=
  blind_expectAs.bind fun _ => blind_advance.bind fun _ => blind_expectAs.bind fun _ =>
    (h (.args .rparen)).bind fun _ => blind_expectSemicolon.map fun _ => by
      simp [Rule.forget, Stmt.unplaced]

theorem blind_expression : Blind Stmt.unplaced (expression call) (expression call) ts := by
  refine (h .expr).bind fun e => blind_accept.bind fun _ => .ite ?_ ?_
  · exact blind_checkTarget.bind fun _ => (h .expr).bind fun _ =>
      blind_expectSemicolon.map fun _ => rfl
  · refine blind_current.bind fun t => .ite ?_ ?_
    · exact blind_advance.bind fun _ => blind_checkTarget.bind fun _ => (h .expr).bind fun _ =>
        blind_expectSemicolon.map fun _ => rfl
    · exact blind_expectSemicolon.bind fun _ => blind_checkEffect.map fun _ => rfl

/-- **A rule is blind to places, if the rules are that it calls.** -/
theorem blind_produce {α : Type} (rule : Rule α) :
    Blind rule.forget (produce call rule) (produce call rule.unplaced) ts := by
  cases rule with
  | expr => exact h .ternary
  | ternary => exact blind_ternary h
  | nullish => exact blind_nullish h
  | binary power => exact blind_binary h power
  | unary => exact blind_unary h
  | power => exact blind_power h
  | access => exact blind_access h
  | primary => exact blind_primary h
  | construction => exact blind_construction h
  | args closer => exact blind_args h closer
  | params => exact blind_params
  | stmt => exact blind_stmt h
  | block => exact blind_block h
  | body owner => exact blind_body h owner
  | declaration => exact blind_declaration h
  | declarator keyword => exact blind_declarator h keyword
  | function => exact blind_function h
  | choice => exact blind_choice h
  | whileLoop => exact blind_whileLoop h
  | doLoop => exact blind_doLoop h
  | forLoop => exact blind_forLoop h
  | jump => exact blind_jump
  | exit => exact blind_exit h
  | attempt => exact blind_attempt h
  | labeled => exact blind_labeled h
  | forward => exact blind_forward h
  | expression => exact blind_expression h

end

/-- **A rule is blind to places**, with any levels left. -/
theorem blind_parse {ts : Tokens} : ∀ (levels : Nat) {α : Type} (rule : Rule α),
    Blind rule.forget (parse levels rule) (parse levels rule.unplaced) ts
  | 0, _, _ => blind_tooDeep
  | levels + 1, _, rule => blind_produce (fun rule => blind_parse levels rule) rule

theorem placeFailure_unplaced (start : Token) (f : Failure) :
    placeFailure start.unplaced f.unplaced = (placeFailure start f).unplaced := by
  cases f <;> rfl

theorem blind_enter {ts : Tokens} (levels : Nat) {α : Type} (rule : Rule α) :
    Blind rule.forget (enter levels rule) (enter levels rule.unplaced) ts := by
  refine blind_current.bind fun start i => ?_
  simp only [blind_parse levels rule i]
  cases h : (parse levels rule ts i).outcome with
  | ok a =>
    simp only [Parsed.unplaced, h]
    rfl
  | error f =>
    simp only [Parsed.unplaced, h]
    exact congrArg (fun g => (⟨.error g, i, _, _⟩ : Parsed α)) (placeFailure_unplaced start f)

end Grammar

end CommandShell
