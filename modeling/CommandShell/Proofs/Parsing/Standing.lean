import CommandShell.Proofs.Parsing.Walks

/-! # Standing: where a parser is when it fails

A parser only goes on from token to token, and does not leave the tokens. Where it fails it stands
at the token that the failure is about, except if that was taken before it turned out to be wrong,
or if no level is left (`Stands`).

Every way to build a parser keeps this, and so do all rules (`stands_parse`). It tells that what a
failure is about is the first token that has not been taken. A parser that puts the place back
where another began may pass on what that one fails about; such failures are named by a predicate
of their own on the place and the failure. -/

namespace CommandShell

open CommandShell.Parser

/-- Is the failure about the token with the index, unless it is one about a token taken before, or
about the nesting? -/
def Failure.IsAt (ts : Tokens) (k : Nat) : Failure → Prop
  | .lex _ | .exhausted => True
  | .parse e => e.fault.isBelated = true ∨ e.fault = .nestedTooDeeply ∨
    ∃ t, e.token = some t ∧ ts.At k t

namespace Parser

variable {α β : Type}

/-- At the place the parser does not move back and does not leave the tokens, and where it fails it
stands at what it fails about, or where an inner failure begins. -/
structure StandsAt (inner : Nat → Failure → Prop) (p : Parser α) (ts : Tokens) (i : Nat) :
    Prop where
  le_next : i ≤ (p ts i).next
  next_le : i ≤ ts.items.size → (p ts i).next ≤ ts.items.size
  stands {f : Failure} : (p ts i).outcome = .error f →
    f.IsAt ts (p ts i).next ∨ inner (p ts i).next f

/-- The parser does so at every place. -/
def Stands (inner : Nat → Failure → Prop) (p : Parser α) (ts : Tokens) : Prop :=
  ∀ i, StandsAt inner p ts i

section
variable {inner : Nat → Failure → Prop} {ts : Tokens} {i : Nat} {p q : Parser α}

/-! ### One parser after the other -/

theorem StandsAt.bind {f : α → Parser β} (hp : StandsAt inner p ts i)
    (hf : ∀ {a j ds}, Runs p ts i a j ds → StandsAt inner (f a) ts j) :
    StandsAt inner (p >>= f) ts i := by
  cases h : (p ts i).outcome with
  | error e =>
    refine ⟨?_, ?_, fun {e'} he => ?_⟩ <;> rw [bind_of_error h] at *
    · exact hp.le_next
    · exact hp.next_le
    · cases he
      exact hp.stands h
  | ok a =>
    have hrest := hf (runs_iff.mpr ⟨h, rfl, rfl⟩)
    refine ⟨?_, fun hi => ?_, fun {e} he => ?_⟩ <;> rw [bind_of_ok h] at *
    · exact Nat.le_trans hp.le_next hrest.le_next
    · exact hrest.next_le (hp.next_le hi)
    · exact hrest.stands he

theorem Stands.bind {f : α → Parser β} (hp : Stands inner p ts) (hf : ∀ a, Stands inner (f a) ts) :
    Stands inner (p >>= f) ts := fun i => (hp i).bind fun {a j _} _ => hf a j

/-- What succeeds and stays where it is stands. -/
theorem stands_stay (hok : ∀ i, ∃ a, (p ts i).outcome = .ok a) (hnext : ∀ i, (p ts i).next = i) :
    Stands inner p ts := fun i => by
  obtain ⟨a, ha⟩ := hok i
  refine ⟨Nat.le_of_eq (hnext i).symm, fun hi => (hnext i).symm ▸ hi, fun {f} hf => ?_⟩
  rw [ha] at hf
  cases hf

theorem stands_pure {a : α} : Stands inner (pure a) ts :=
  stands_stay (fun _ => ⟨a, rfl⟩) fun _ => rfl

theorem stands_report {d : Diagnostic} : Stands inner (report d) ts :=
  stands_stay (fun _ => ⟨(), rfl⟩) fun _ => rfl

theorem Stands.map {f : α → β} (hp : Stands inner p ts) : Stands inner (f <$> p) ts :=
  hp.bind fun _ => stands_pure

theorem Stands.ite {c : Prop} [Decidable c] (hp : Stands inner p ts) (hq : Stands inner q ts) :
    Stands inner (if c then p else q) ts := by
  split
  · exact hp
  · exact hq

/-- What goes on in the same way behind either of two parsers. -/
theorem Stands.join {c : Prop} [Decidable c] {f : α → Parser β} (hp : Stands inner p ts)
    (hq : Stands inner q ts) (hf : ∀ a, Stands inner (f a) ts) :
    Stands inner (if c then p >>= f else q >>= f) ts := .ite (hp.bind hf) (hq.bind hf)

/-! ### Failures -/

theorem standsAt_fail {f : Failure} (hf : f.IsAt ts i) :
    StandsAt inner (fail f : Parser α) ts i :=
  ⟨Nat.le_refl i, id, fun h => by cases h; exact .inl hf⟩

/-- A failure about the token at the place. -/
theorem standsAt_failAt {t : Token} {fault : ParseFault} (ht : ts.At i t) :
    StandsAt inner (failAt fault t : Parser α) ts i := standsAt_fail (.inr (.inr ⟨t, rfl, ht⟩))

/-- A failure about a token that was taken. -/
theorem stands_belated {t : Token} {fault : ParseFault} (hfault : fault.isBelated = true) :
    Stands inner (failAt fault t : Parser α) ts := fun _ => standsAt_fail (.inl hfault)

theorem stands_tooDeep : Stands inner (tooDeep : Parser α) ts :=
  fun _ => standsAt_fail trivial

/-! ### Tokens -/

theorem stands_peek {ahead : Nat} : Stands inner (peek ahead) ts := by
  intro i
  refine ⟨Nat.le_refl i, id, fun {f} hf => ?_⟩
  unfold peek at hf
  cases hget : ts.get (i + ahead) <;> rw [hget] at hf <;> cases hf
  exact .inl trivial

/-- Looking at the token at the place, and going on with it. -/
theorem stands_bindCurrent {f : Token → Parser α}
    (hf : ∀ {t i}, ts.At i t → StandsAt inner (f t) ts i) : Stands inner (current >>= f) ts := by
  refine fun i => (stands_peek i).bind fun {t j ds} hrun => ?_
  obtain ⟨ht, rfl, -⟩ := runs_current.mp hrun
  exact hf ht

theorem stands_current : Stands inner current ts := stands_peek

theorem stands_sees {k : Kind} : Stands inner (sees k) ts := stands_current.map

theorem stands_seesAny {ks : List Kind} : Stands inner (seesAny ks) ts := stands_current.map

theorem stands_opening : Stands inner opening ts := by
  refine stands_current.bind fun t => .ite stands_pure (.ite ?_ (.ite ?_ stands_pure))
  · exact stands_peek.map
  · exact stands_peek.map

theorem stands_failHere {fault : ParseFault} : Stands inner (failHere fault : Parser α) ts := by
  unfold failHere faultHere
  rw [bind_bind]
  refine stands_bindCurrent fun {t i} ht => ?_
  rw [pure_bind]
  refine standsAt_fail (.inr (.inr ⟨t, ?_, ht⟩))
  split <;> rfl

section
variable (hlexed : ts.Lexed)
include hlexed

theorem stands_advance : Stands inner advance ts := by
  refine stands_bindCurrent fun {t i} ht => ?_
  split
  · exact stands_pure i
  · next hk =>
    have hlt := hlexed.lt_size ht (by simpa [Token.isEof] using hk)
    have hmove : StandsAt inner move ts i :=
      ⟨Nat.le_succ i, fun _ => hlt, fun {f} hf => by cases hf⟩
    exact hmove.bind fun _ => stands_pure _

theorem stands_accept {k : Kind} : Stands inner (accept k) ts :=
  stands_sees.bind fun _ => .ite ((stands_advance hlexed).bind fun _ => stands_pure) stands_pure

theorem stands_expectAs {k : Kind} {w : Wanted} : Stands inner (expectAs k w) ts :=
  stands_sees.bind fun _ => .ite (stands_advance hlexed) stands_failHere

theorem stands_expectSemicolon : Stands inner expectSemicolon ts :=
  stands_bindCurrent fun {t i} ht => by
    split
    · exact stands_advance hlexed i
    · exact standsAt_failAt ht

end

/-! ### Checks -/

theorem stands_checkTarget {e : Expr} : Stands inner (checkTarget e) ts := by
  unfold checkTarget
  exact .ite stands_pure stands_report

theorem stands_checkEffect {e : Expr} : Stands inner (checkEffect e) ts := by
  unfold checkEffect
  exact .ite stands_pure stands_report

theorem stands_warnIfEmpty {owner : Kind} {s : Stmt} : Stands inner (warnIfEmpty owner s) ts := by
  unfold warnIfEmpty
  split
  · exact stands_report
  · exact stands_pure

/-! ### Repetitions -/

theorem Stands.collect {item? : Parser (Option α)} (h : Stands inner item? ts) :
    Stands inner (collect item?) ts := by
  have hrounds : ∀ rounds, Stands inner (collectUpTo item? rounds) ts := by
    intro rounds
    induction rounds with
    | zero => exact stands_tooDeep
    | succ rounds ih =>
      refine h.bind fun a? => ?_
      cases a? with
      | none => exact stands_pure
      | some a => exact ih.map
  exact fun i => ⟨(hrounds _ i).le_next, (hrounds _ i).next_le, (hrounds _ i).stands⟩

theorem Stands.chain {grow? : α → Parser (Option α)} (h : ∀ a, Stands inner (grow? a) ts) (a : α) :
    Stands inner (chain grow? a) ts := by
  have hrounds : ∀ rounds a, Stands inner (chainUpTo grow? rounds a) ts := by
    intro rounds
    induction rounds with
    | zero => exact fun _ => stands_tooDeep
    | succ rounds ih =>
      refine fun a => (h a).bind fun b? => ?_
      cases b? with
      | none => exact stands_pure
      | some b => exact ih b
  exact fun i => ⟨(hrounds _ a i).le_next, (hrounds _ a i).next_le, (hrounds _ a i).stands⟩

theorem Stands.more {item : Parser α} (hlexed : ts.Lexed) (h : Stands inner item ts) :
    Stands inner (more item) ts :=
  Stands.collect ((stands_accept hlexed).bind fun _ => .ite h.map stands_pure)

theorem Stands.separated {item : Parser α} (hlexed : ts.Lexed) (h : Stands inner item ts) :
    Stands inner (separated item) ts := h.bind fun _ => (h.more hlexed).map

end

end Parser

namespace Grammar

/-! ### Rules -/

section
variable {inner : Nat → Failure → Prop} {call : Call} {ts : Tokens} (hlexed : ts.Lexed)
  (h : ∀ {α : Type} (rule : Rule α), Stands inner (call rule) ts)

section
include hlexed

theorem stands_params : Stands inner params ts :=
  (stands_expectAs hlexed).bind fun _ => stands_sees.bind fun _ =>
    .join stands_pure ((stands_expectAs hlexed).separated hlexed) fun _ =>
      (stands_expectAs hlexed).map

theorem stands_pathRound : Stands inner pathRound ts :=
  (stands_accept hlexed).bind fun _ => .ite (stands_expectAs hlexed).map stands_pure

theorem stands_jump : Stands inner jump ts :=
  (stands_advance hlexed).bind fun _ => stands_sees.bind fun _ =>
    .join (stands_advance hlexed).map stands_pure fun _ => (stands_expectSemicolon hlexed).map

theorem stands_rescueHead : Stands inner rescueHead ts := by
  refine (stands_accept hlexed).bind fun _ => .ite ?_
    (stands_sees.bind fun _ => .ite ?_ stands_pure)
  · exact (stands_expectAs hlexed).bind fun _ => stands_sees.bind fun _ =>
      .join (stands_advance hlexed).map stands_pure fun _ => (stands_expectAs hlexed).map
  · exact (stands_advance hlexed).map

end

include hlexed h

theorem stands_ternary : Stands inner (ternary call) ts :=
  (h .nullish).bind fun _ => (stands_accept hlexed).bind fun _ => .ite
    ((h .expr).bind fun _ => (stands_expectAs hlexed).bind fun _ => (h .ternary).map) stands_pure

theorem stands_nullish : Stands inner (nullish call) ts :=
  (h (.binary 1)).bind fun _ => stands_sees.bind fun _ => .ite
    ((stands_advance hlexed).bind fun _ => (h .nullish).map) stands_pure

theorem stands_binary (power : Nat) : Stands inner (binary call power) ts := by
  refine (h .unary).bind fun left => Stands.chain (fun left => ?_) left
  refine stands_current.bind fun t => ?_
  split
  · exact stands_pure
  · exact .ite stands_pure ((stands_advance hlexed).bind fun _ => (h (.binary _)).map)

theorem stands_unary : Stands inner (unary call) ts := by
  have hsign : Stands inner (do
      let op ← advance
      let operand ← call .unary
      return Expr.unary op operand) ts := (stands_advance hlexed).bind fun _ => (h .unary).map
  have hstep : ∀ step, Stands inner (stepBefore call step) ts := fun _ =>
    (stands_advance hlexed).bind fun _ => (h .unary).bind fun _ => stands_checkTarget.map
  refine stands_current.bind fun t => ?_
  split
  · exact hsign
  · exact hsign
  · exact hsign
  · exact hstep .up
  · exact hstep .down
  · exact h .power

theorem stands_power : Stands inner (power call) ts :=
  (h .access).bind fun _ => stands_sees.bind fun _ => .ite
    ((stands_advance hlexed).bind fun _ => (h .unary).map) stands_pure

theorem stands_accessRound (target : Expr) : Stands inner (accessRound call target) ts := by
  have hmember : ∀ safe, Stands inner (memberAfter safe target) ts := fun _ =>
    (stands_advance hlexed).bind fun _ => (stands_expectAs hlexed).map
  have hcall : ∀ safe, Stands inner (callAfter call safe target) ts := fun _ =>
    (stands_advance hlexed).bind fun _ => (h (.args .rparen)).map
  have hindex : ∀ safe, Stands inner (indexAfter call safe target) ts := by
    refine fun safe => (stands_advance hlexed).bind fun _ => stands_bindCurrent fun ht => ?_
    split
    · exact (standsAt_failAt ht).bind fun hrun => absurd hrun not_runs_failAt
    · exact (h (.args .rsquare)).map _
  have hstep : ∀ step, Stands inner (stepAfter step target) ts := fun _ =>
    (stands_advance hlexed).bind fun _ => stands_checkTarget.map
  refine stands_current.bind fun t => ?_
  split
  · exact hmember false
  · exact hmember true
  · exact hcall false
  · exact hcall true
  · exact hindex false
  · exact hindex true
  · exact hstep .up
  · exact hstep .down
  · exact stands_pure

theorem stands_access : Stands inner (access call) ts :=
  (h .primary).bind fun target => Stands.chain (stands_accessRound hlexed h) target

theorem stands_args (closer : Kind) : Stands inner (args call closer) ts :=
  stands_sees.bind fun _ =>
    .join stands_pure ((h .expr).separated hlexed) fun _ => (stands_expectAs hlexed).map

theorem stands_primary : Stands inner (primary call) ts := by
  refine stands_current.bind fun t => ?_
  split
  all_goals try exact (stands_advance hlexed).map
  · exact (stands_advance hlexed).bind fun _ => (h .expr).bind fun _ =>
      (stands_expectAs hlexed).map
  · exact (stands_advance hlexed).bind fun _ => (h (.args .rsquare)).map
  · exact h .construction
  · exact (stands_advance hlexed).bind fun _ => (h .params).bind fun _ => (h .block).map
  · exact stands_failHere

theorem stands_construction : Stands inner (construction call) ts := by
  refine (stands_expectAs hlexed).bind fun keyword => stands_current.bind fun t => ?_
  have hrest : Stands inner (do
      let head ← expectAs .ident (.typeName "new")
      let tail ← collect pathRound
      let _ ← expectAs .lparen .typeArguments
      let args ← call (.args .rparen)
      return Expr.new (head :: tail) args) ts :=
    (stands_expectAs hlexed).bind fun _ => (stands_pathRound hlexed).collect.bind fun _ =>
      (stands_expectAs hlexed).bind fun _ => (h (.args .rparen)).map
  exact .ite ((stands_belated rfl).bind fun _ => hrest) hrest

theorem stands_block : Stands inner (block call) ts := by
  have hround : Stands inner (blockRound call) ts :=
    stands_seesAny.bind fun _ => .ite stands_pure (h .stmt).map
  exact (stands_expectAs hlexed).bind fun _ => hround.collect.bind fun _ =>
    (stands_expectAs hlexed).map

theorem stands_stmt : Stands inner (stmt call) ts := by
  refine stands_opening.bind fun opens => ?_
  cases opens with
  | expression => exact h .expression
  | statement =>
    refine stands_current.bind fun t => ?_
    dsimp only
    split
    · exact (h .block).map
    · exact (stands_advance hlexed).map
    · exact h .declaration
    · exact h .declaration
    · exact h .function
    · exact h .choice
    · exact h .whileLoop
    · exact h .doLoop
    · exact h .forLoop
    · exact h .jump
    · exact h .jump
    · exact h .exit
    · exact h .exit
    · exact h .attempt
    · exact h .labeled
    · exact h .forward
    · exact stands_failHere

omit hlexed in
theorem stands_body (owner : Kind) : Stands inner (body call owner) ts :=
  (h .stmt).bind fun _ => stands_warnIfEmpty.map

theorem stands_declaration : Stands inner (declaration call) ts :=
  (stands_advance hlexed).bind fun keyword =>
    ((h (.declarator keyword)).separated hlexed).bind fun _ => (stands_expectSemicolon hlexed).map

theorem stands_declarator (keyword : Token) : Stands inner (declarator call keyword) ts :=
  (stands_expectAs hlexed).bind fun _ => (stands_accept hlexed).bind fun _ => .ite (h .expr).map
    (.ite ((stands_belated rfl).bind fun _ => stands_pure) stands_pure)

theorem stands_function : Stands inner (function call) ts :=
  (stands_expectAs hlexed).bind fun _ => (stands_expectAs hlexed).bind fun _ =>
    (h .params).bind fun _ => (h .block).map

theorem stands_choice : Stands inner (choice call) ts :=
  (stands_expectAs hlexed).bind fun _ => (h .expr).bind fun _ => (h (.body .ifKw)).bind fun _ =>
    (stands_accept hlexed).bind fun _ => .ite (h (.body .elseKw)).map stands_pure

theorem stands_whileLoop : Stands inner (whileLoop call) ts :=
  (stands_expectAs hlexed).bind fun _ => (h .expr).bind fun _ => (h (.body .whileKw)).map

theorem stands_doLoop : Stands inner (doLoop call) ts :=
  (stands_expectAs hlexed).bind fun _ => (h .stmt).bind fun _ =>
    (stands_expectAs hlexed).bind fun _ => (h .expr).bind fun _ =>
      (stands_expectSemicolon hlexed).map

theorem stands_forLoop : Stands inner (forLoop call) ts :=
  (stands_expectAs hlexed).bind fun _ => (stands_expectAs hlexed).bind fun _ =>
    (stands_expectAs hlexed).bind fun _ => (h .expr).bind fun _ => (h (.body .forKw)).map

theorem stands_exit : Stands inner (exit call) ts :=
  (stands_advance hlexed).bind fun _ => stands_sees.bind fun _ => .ite
    (stands_expectSemicolon hlexed).map
    ((h .expr).bind fun _ => (stands_expectSemicolon hlexed).map)

theorem stands_attempt : Stands inner (attempt call) ts := by
  have hround : Stands inner (rescueRound call) ts :=
    (stands_accept hlexed).bind fun _ => .ite
      ((stands_rescueHead hlexed).bind fun _ => (h .block).map) stands_pure
  have hlast : Stands inner (always call) ts :=
    (stands_accept hlexed).bind fun _ => .ite (h .block).map stands_pure
  exact (stands_expectAs hlexed).bind fun _ => (h .block).bind fun _ => hround.collect.bind fun _ =>
    hlast.bind fun _ => .ite ((stands_belated rfl).bind fun _ => stands_pure) stands_pure

theorem stands_labeled : Stands inner (labeled call) ts :=
  (stands_expectAs hlexed).bind fun _ => (stands_expectAs hlexed).bind fun _ => (h .stmt).map

theorem stands_forward : Stands inner (forward call) ts :=
  (stands_expectAs hlexed).bind fun _ => (stands_advance hlexed).bind fun _ =>
    (stands_expectAs hlexed).bind fun _ => (h (.args .rparen)).bind fun _ =>
      (stands_expectSemicolon hlexed).map

theorem stands_expression : Stands inner (expression call) ts := by
  refine (h .expr).bind fun e => (stands_accept hlexed).bind fun _ => .ite ?_ ?_
  · exact stands_checkTarget.bind fun _ => (h .expr).bind fun _ =>
      (stands_expectSemicolon hlexed).map
  · refine stands_current.bind fun t => .ite ?_ ?_
    · exact (stands_advance hlexed).bind fun _ => stands_checkTarget.bind fun _ =>
        (h .expr).bind fun _ => (stands_expectSemicolon hlexed).map
    · exact (stands_expectSemicolon hlexed).bind fun _ => stands_checkEffect.map

/-- **A rule stands at what it fails about, if the rules do that it calls.** -/
theorem stands_produce {α : Type} (rule : Rule α) : Stands inner (produce call rule) ts := by
  cases rule with
  | expr => exact h .ternary
  | ternary => exact stands_ternary hlexed h
  | nullish => exact stands_nullish hlexed h
  | binary power => exact stands_binary hlexed h power
  | unary => exact stands_unary hlexed h
  | power => exact stands_power hlexed h
  | access => exact stands_access hlexed h
  | primary => exact stands_primary hlexed h
  | construction => exact stands_construction hlexed h
  | args closer => exact stands_args hlexed h closer
  | params => exact stands_params hlexed
  | stmt => exact stands_stmt hlexed h
  | block => exact stands_block hlexed h
  | body owner => exact stands_body h owner
  | declaration => exact stands_declaration hlexed h
  | declarator keyword => exact stands_declarator hlexed h keyword
  | function => exact stands_function hlexed h
  | choice => exact stands_choice hlexed h
  | whileLoop => exact stands_whileLoop hlexed h
  | doLoop => exact stands_doLoop hlexed h
  | forLoop => exact stands_forLoop hlexed h
  | jump => exact stands_jump hlexed
  | exit => exact stands_exit hlexed h
  | attempt => exact stands_attempt hlexed h
  | labeled => exact stands_labeled hlexed h
  | forward => exact stands_forward hlexed h
  | expression => exact stands_expression hlexed h

end

/-- **A rule stands at what it fails about**, with any levels left. -/
theorem stands_parse {inner : Nat → Failure → Prop} {ts : Tokens} (hlexed : ts.Lexed) :
    ∀ (levels : Nat) {α : Type} (rule : Rule α), Stands inner (parse levels rule) ts
  | 0, _, _ => stands_tooDeep
  | levels + 1, _, rule => stands_produce hlexed (fun rule => stands_parse hlexed levels rule) rule

end Grammar

end CommandShell
