import CommandShell.Proofs.Parsing.Levels
import CommandShell.Proofs.Phrases.Weight

/-! # Weights of what is read: how many levels a reading needs

What a rule reads at some number of levels it reads at every number that the weight of the result
allows: nine levels for each unit of weight, less those that lie between an expression and the rule
(`weighed_closed`). For an operand, an access or an argument is read at most nine levels below the
expression that it is a part of, and what a chain goes on from is read on the level of the chain.

The levels that are enough are carried through the productions (`Closed`); a rule has one more level
than the rules that it calls. -/

namespace CommandShell

open CommandShell.Parser

/-! ### Rounds -/

namespace Parser

variable {α : Type} {i j : Nat} {ds : List Diagnostic}

theorem Collected.imp_mem {round round' : Shape (Option α)} {as : List α}
    (hstop : ∀ {i j ds}, round i none j ds → round' i none j ds)
    (hmore : ∀ a ∈ as, ∀ {i j ds}, round i (some a) j ds → round' i (some a) j ds)
    (h : Collected round i as j ds) : Collected round' i as j ds := by
  induction h with
  | stop hr => exact .stop (hstop hr)
  | more hr _ ih =>
    exact .more (hmore _ List.mem_cons_self hr) (ih fun a ha => hmore a (List.mem_cons_of_mem _ ha))

end Parser

namespace Grammar

variable {α : Type} {ts : Tokens} {i j : Nat} {ds : List Diagnostic}

theorem Separated.imp_mem {item item' : Shape α} {as : List α}
    (h : ∀ a ∈ as, ∀ {i j ds}, item i a j ds → item' i a j ds) :
    Separated ts item i as j ds → Separated ts item' i as j ds
  | .mk ha has hlen => by
    refine .mk (h _ List.mem_cons_self ha) (has.imp_mem (fun | .stop hl => .stop hl) ?_) hlen
    intro a hmem _ _ _ hround
    cases hround with
    | more hcomma ha => exact .more hcomma (h a (List.mem_cons_of_mem _ hmem) ha)

/-- In the rounds of a chain the weight only grows. So levels that are enough for what the chain
leads to are enough for every round. -/
theorem chained_of_weight {round : Expr → Shape (Option Expr)}
    {round' : Nat → Expr → Shape (Option Expr)} {slack : Nat}
    (hstop : ∀ {a i j ds levels}, round a i none j ds → round' levels a i none j ds)
    (hmore : ∀ {a i b j ds}, round a i (some b) j ds → a.weight ≤ b.weight ∧
      ∀ levels, 9 * b.weight ≤ levels + slack → round' levels a i (some b) j ds)
    {n : Nat} {a b : Expr} (h : Chained round n a i b j ds) :
    a.weight ≤ b.weight ∧
      ∀ levels, 9 * b.weight ≤ levels + slack → Chained (round' levels) n a i b j ds := by
  induction h with
  | stop hr => exact ⟨Nat.le_refl _, fun _ _ => .stop (hstop hr)⟩
  | more hr _ ih =>
    obtain ⟨hle, hround⟩ := hmore hr
    obtain ⟨hle', hchain⟩ := ih
    exact ⟨Nat.le_trans hle hle', fun levels hlevels =>
      .more (hround levels (by omega)) (hchain levels hlevels)⟩

/-! ### Enough levels -/

/-- How many levels lie between an expression and what one of its rules reads. -/
@[grind =] def slack : Rule Expr → Nat
  | .expr => 0
  | .ternary => 1
  | .nullish => 2
  | .binary _ => 3
  | .unary => 4
  | .power => 5
  | .access => 6
  | .primary => 7
  | _ => 8

/-- The levels that are enough for a rule of statements to read what has the weight. -/
@[grind =] def stmtLevels (weight : Nat) : Rule Stmt → Nat
  | .stmt => 9 * weight
  | .body _ => 9 * weight + 1
  | _ => 9 * weight - 1

theorem slack_le (rule : Rule Expr) : slack rule ≤ 8 := by
  unfold slack
  split <;> decide

/-- The rule reads the same at every number of levels that is enough. -/
def RunsAbove (enough : Nat) (ts : Tokens) (rule : Rule α) : Shape α := fun i a j ds =>
  rule.Fits ts i → ∀ levels ≥ enough, Runs (parse levels rule) ts i a j ds

/-- A rule has one more level than those that its production calls. -/
theorem runsAbove_of_rule {enough : Nat} {rule : Rule α} {a : α} (hpos : 0 < enough)
    (h : rule.Fits ts i → ∀ levels, enough ≤ levels + 1 →
      RuleRun (runsOf (parse levels) ts) ts α rule i a j ds) :
    RunsAbove enough ts rule i a j ds
  | _, 0, hle => absurd hle (by omega)
  | hfits, levels + 1, hle => runsOf_succ hfits (h hfits levels hle)

/-- An expression is read with nine levels for each unit of its weight, less the slack of the
rule. -/
abbrev ExprAbove (ts : Tokens) (rule : Rule Expr) : Shape Expr := fun i e j ds =>
  RunsAbove (9 * e.weight - slack rule) ts rule i e j ds

/-- Arguments are read one level above the expressions among them, and so are the statements of a
block. -/
abbrev ArgsAbove (ts : Tokens) (closer : Kind) : Shape (List Expr) := fun i es j ds =>
  RunsAbove (9 * exprsWeight es + 1) ts (.args closer) i es j ds

abbrev StmtAbove (ts : Tokens) (rule : Rule Stmt) : Shape Stmt := fun i s j ds =>
  RunsAbove (stmtLevels s.weight rule) ts rule i s j ds

abbrev BlockAbove (ts : Tokens) : Shape (List Stmt) := fun i body j ds =>
  RunsAbove (9 * stmtsWeight body + 1) ts .block i body j ds

abbrev DeclaratorAbove (ts : Tokens) (keyword : Token) : Shape Declarator := fun i d j ds =>
  RunsAbove (9 * d.weight) ts (.declarator keyword) i d j ds

/-- All that is known: whatever is read is read with the levels that its weight asks for. -/
abbrev weighed (ts : Tokens) : Calls :=
  .bySort (ExprAbove ts) (ArgsAbove ts) (StmtAbove ts) (BlockAbove ts) (DeclaratorAbove ts)
    (ParamsRun ts)

/-- The names of parameters take one level. -/
theorem params_of_pos {names : List Token} (h : ParamsRun ts i names j ds) {levels : Nat}
    (hpos : 0 < levels) : runsOf (parse levels) ts _ .params i names j ds := by
  obtain ⟨levels, rfl⟩ : ∃ n, levels = n + 1 := ⟨levels - 1, by omega⟩
  exact runsOf_succ trivial h

/-! ### Rules of expressions -/

theorem binary_of_weight {power n : Nat} {left e : Expr}
    (h : Chained (BinaryRound (weighed ts) ts power) n left i e j ds) :
    left.weight ≤ e.weight ∧ ∀ levels, 9 * e.weight ≤ levels + 4 →
      Chained (BinaryRound (runsOf (parse levels) ts) ts power) n left i e j ds := by
  refine chained_of_weight (fun | .stop ht hlt => .stop ht hlt) (fun hround => ?_) h
  cases hround with
  | more ht hp hle hright =>
    have hop := Option.isSome_of_mem hp
    exact ⟨by grind, fun levels hlevels => .more ht hp hle (hright trivial levels (by grind))⟩

theorem access_of_weight {n : Nat} {target e : Expr}
    (h : Chained (AccessRound (weighed ts) ts) n target i e j ds) :
    target.weight ≤ e.weight ∧ ∀ levels, 9 * e.weight ≤ levels + 7 →
      Chained (AccessRound (runsOf (parse levels) ts) ts) n target i e j ds := by
  refine chained_of_weight (fun | .stop ht hk => .stop ht hk) (fun hround => ?_) h
  cases hround with
  | member safe hdot hname hk =>
    exact ⟨by grind, fun _ _ => .member safe hdot hname hk⟩
  | call safe hopen hargs =>
    exact ⟨by grind, fun levels hlevels =>
      .call safe hopen (hargs (fits_args (by decide)) levels (by grind))⟩
  | index safe hopen hlacks hargs =>
    exact ⟨by grind, fun levels hlevels =>
      .index safe hopen hlacks (hargs (fits_args (by decide)) levels (by grind))⟩
  | post step hstep => exact ⟨by grind, fun _ _ => .post step hstep⟩

theorem expr_of_weight {rule : Rule Expr} {e : Expr} (h : ExprRun (weighed ts) ts rule i e j ds) :
    ExprAbove ts rule i e j ds := by
  have hpos := e.weight_pos
  have hslack := slack_le rule
  refine runsAbove_of_rule (by omega) fun _ levels hle => ?_
  cases h with
  | expr he => exact .expr (he trivial _ (by grind))
  | ternaryPlain he hl => exact .ternaryPlain (he trivial _ (by grind)) hl
  | ternary hc hq hy hcolon hn =>
    exact .ternary (hc trivial _ (by grind)) hq (hy trivial _ (by grind)) hcolon
      (hn trivial _ (by grind))
  | nullishPlain he hl => exact .nullishPlain (he trivial _ (by grind)) hl
  | nullish hl hop hk hr =>
    have hplain : Kind.nullish.precedence? = none := rfl
    exact .nullish (hl trivial _ (by grind)) hop hk (hr trivial _ (by grind))
  | binary he hn hchain =>
    obtain ⟨hleft, hchain⟩ := binary_of_weight hchain
    exact .binary (he trivial _ (by grind)) hn (hchain _ (by grind))
  | sign hop hk he => exact .sign hop hk (he trivial _ (by grind))
  | pre step hstep he => exact .pre step hstep (he trivial _ (by grind))
  | unaryPlain ht hk he => exact .unaryPlain ht hk (he trivial _ (by grind))
  | powerPlain he hl => exact .powerPlain (he trivial _ (by grind)) hl
  | power hb hop hk he =>
    have hplain : Kind.power.precedence? = none := rfl
    exact .power (hb trivial _ (by grind)) hop hk (he trivial _ (by grind))
  | access he hn hchain =>
    obtain ⟨htarget, hchain⟩ := access_of_weight hchain
    exact .access (he trivial _ (by grind)) hn (hchain _ (by grind))
  | atom ht hk => exact .atom ht hk
  | group hopen he hclose => exact .group hopen (he trivial _ (by grind)) hclose
  | array hopen hes => exact .array hopen (hes (fits_args (by decide)) _ (by grind))
  | new hnew he => exact .new hnew (he trivial _ (by grind))
  | lambda hfn hnames hbody =>
    exact .lambda hfn (params_of_pos hnames (by grind)) (hbody trivial _ (by grind))
  | construction hnew hhead hk htail hlen hopen hargs =>
    exact .construction hnew hhead hk htail hlen hopen (hargs (fits_args (by decide)) _ (by grind))

theorem args_of_weight {closer : Kind} {es : List Expr}
    (h : ArgsRun (weighed ts) ts closer i es j ds) :
    ArgsAbove ts closer i es j ds := by
  refine runsAbove_of_rule (by omega) fun _ levels hle => ?_
  cases h with
  | none hclose => exact .none hclose
  | some hlacks hes hclose =>
    refine .some hlacks (Separated.imp_mem (fun e he _ _ _ hrun => ?_) hes) hclose
    have hweight := weight_le_exprsWeight he
    exact hrun trivial _ (by grind)

/-! ### Rules of statements -/

theorem block_of_weight {body : List Stmt} (h : BlockRun (weighed ts) ts i body j ds) :
    BlockAbove ts i body j ds := by
  refine runsAbove_of_rule (by omega) fun _ levels hle => ?_
  cases h with
  | mk hopen hbody hlen hclose =>
    refine .mk hopen (hbody.imp_mem (fun | .stop ht hk => .stop ht hk) ?_) hlen hclose
    intro s hs _ _ _ hround
    have hweight := weight_le_stmtsWeight hs
    cases hround with
    | more ht hk hrun => exact .more ht hk (hrun trivial _ (by grind))

theorem declarator_of_weight {keyword : Token} {d : Declarator}
    (h : DeclaratorRun (weighed ts) ts keyword i d j ds) :
    DeclaratorAbove ts keyword i d j ds := by
  refine runsAbove_of_rule (by cases d <;> grind) fun _ levels hle => ?_
  cases h with
  | plain ht hk hl hvar => exact .plain ht hk hl hvar
  | valued ht hk hassign he => exact .valued ht hk hassign (he trivial _ (by grind))

theorem handlers_of_weight {rescues last : List Handler} {k : Nat} {ds' : List Diagnostic}
    {levels : Nat} (hlevels : 9 * handlersWeight (rescues ++ last) ≤ levels)
    (hrescues : Collected (RescueRound (weighed ts) ts) i rescues j ds)
    (hlast : AlwaysRun (weighed ts) ts j last k ds') :
    Collected (RescueRound (runsOf (parse levels) ts) ts) i rescues j ds ∧
      AlwaysRun (runsOf (parse levels) ts) ts j last k ds' := by
  constructor
  · refine hrescues.imp_mem (fun | .stop hl => .stop hl) ?_
    intro handler hmem _ _ _ hround
    have hweight := weight_le_handlersWeight (List.mem_append_left last hmem)
    cases hround with
    | more hcatch hhead hbody => exact .more hcatch hhead (hbody trivial _ (by grind))
  · cases hlast with
    | none hl => exact .none hl
    | @some _ body _ _ hfinally hbody =>
      have hmem : Handler.always body ∈ rescues ++ [.always body] := by simp
      have hweight := weight_le_handlersWeight hmem
      exact .some hfinally (hbody trivial _ (by grind))

/-- What a keyword begins is read one level below the statement. -/
theorem stmtLevels_of_rule {k : Kind} {rule : Rule Stmt} (h : statementRule? k = some rule)
    (weight : Nat) : stmtLevels weight rule = 9 * weight - 1 := by
  unfold statementRule? at h
  split at h <;> cases h <;> rfl

theorem stmt_of_weight {rule : Rule Stmt} {s : Stmt} (h : StmtRun (weighed ts) ts rule i s j ds) :
    StmtAbove ts rule i s j ds := by
  have hpos := s.weight_pos
  have henough : 0 < stmtLevels s.weight rule := by unfold stmtLevels; split <;> omega
  refine runsAbove_of_rule henough fun _ levels hle => ?_
  cases h with
  | expressionLike hopens hs => exact .expressionLike hopens (hs trivial _ (by grind))
  | block hopen hbody => exact .block hopen (hbody trivial _ (by grind))
  | empty ht hk => exact .empty ht hk
  | keyword ht hrule hs =>
    have henough := stmtLevels_of_rule hrule s.weight
    exact .keyword ht hrule (stmt_of_rule hrule hs (fits_of_rule ht hrule) _ (by grind))
  | label hident hcolon hs => exact .label hident hcolon (hs trivial _ (by grind))
  | forwarding hnew ht hk hs => exact .forwarding hnew ht hk (hs ⟨_, ht, hk⟩ _ (by grind))
  | body hs => exact .body (hs trivial _ (by grind))
  | declaration ht hrule hds hsemicolon =>
    refine .declaration ht hrule (Separated.imp_mem (fun d hd _ _ _ hrun => ?_) hds) hsemicolon
    have hweight := weight_le_declaratorsWeight hd
    exact hrun trivial _ (by grind)
  | function hfn hname hk hnames hbody =>
    exact .function hfn hname hk (params_of_pos hnames (by grind)) (hbody trivial _ (by grind))
  | ifThen hif hc hs hl => exact .ifThen hif (hc trivial _ (by grind)) (hs trivial _ (by grind)) hl
  | ifElse hif hc hs helse ho =>
    exact .ifElse hif (hc trivial _ (by grind)) (hs trivial _ (by grind)) helse
      (ho trivial _ (by grind))
  | whileLoop hwhile hc hs =>
    exact .whileLoop hwhile (hc trivial _ (by grind)) (hs trivial _ (by grind))
  | doLoop hdo hs hwhile hc hsemicolon =>
    exact .doLoop hdo (hs trivial _ (by grind)) hwhile (hc trivial _ (by grind)) hsemicolon
  | forLoop hfor hname hk hin he hs =>
    exact .forLoop hfor hname hk hin (he trivial _ (by grind)) (hs trivial _ (by grind))
  | jump way hway hsemicolon => exact .jump way hway hsemicolon
  | jumpTo way hway hlabel hk hsemicolon => exact .jumpTo way hway hlabel hk hsemicolon
  | exit way hway hsemicolon => exact .exit way hway hsemicolon
  | exitWith way hway hl he hsemicolon =>
    exact .exitWith way hway hl (he trivial _ (by grind)) hsemicolon
  | attempt htry hbody hrescues hlen hlast hne =>
    obtain ⟨hrescues, hlast⟩ := handlers_of_weight (by grind : _ ≤ levels) hrescues hlast
    exact .attempt htry (hbody trivial _ (by grind)) hrescues hlen hlast hne
  | labeled hlabel hk hcolon hs => exact .labeled hlabel hk hcolon (hs trivial _ (by grind))
  | forward hnew ht hk hopen hargs hsemicolon =>
    exact .forward hnew ht hk hopen (hargs (fits_args (by decide)) _ (by grind)) hsemicolon
  | assign ht hassign hv hsemicolon =>
    exact .assign (ht trivial _ (by grind)) hassign (hv trivial _ (by grind)) hsemicolon
  | compound ht hop hk hv hsemicolon =>
    exact .compound (ht trivial _ (by grind)) hop hk (hv trivial _ (by grind)) hsemicolon
  | expression he hsemicolon => exact .expression (he trivial _ (by grind)) hsemicolon

/-! ### All rules -/

/-- **What is read is read with the levels that its weight asks for.** -/
theorem weighed_closed (ts : Tokens) : Closed ts (ExprAbove ts) (ArgsAbove ts) (StmtAbove ts)
    (BlockAbove ts) (DeclaratorAbove ts) where
  expr := expr_of_weight
  args := args_of_weight
  stmt := stmt_of_weight
  block := block_of_weight
  declarator := declarator_of_weight

end Grammar

end CommandShell
