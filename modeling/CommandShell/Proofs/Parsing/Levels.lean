import CommandShell.Proofs.Parsing.Statements

/-! # Levels: from the productions to all runs of the grammar

A run of a rule with some levels left is a run of its production, where the rules that it calls run
with one level less (`runs_produce`). So what every production hands on from the rules that it calls
to the rule itself holds of all runs, at any number of levels (`Closed.parse`); for one, which token
an expression begins with (`firsts_closed`). -/

namespace CommandShell

open CommandShell.Parser

/-- What a rule relies on where it is called: the tokens that it takes unseen. -/
def Rule.Fits (ts : Tokens) (i : Nat) : ∀ {α : Type}, Rule α → Prop
  | _, .args closer => closer ≠ .eof
  | _, .declaration => ∃ t, ts.At i t ∧ Grammar.statementRule? t.kind = some .declaration
  | _, .jump => ∃ t, ts.At i t ∧ Grammar.statementRule? t.kind = some .jump
  | _, .exit => ∃ t, ts.At i t ∧ Grammar.statementRule? t.kind = some .exit
  | _, .forward => ∃ t, ts.At (i + 1) t ∧ t.kind.isReceiver = true
  | _, _ => True

namespace Grammar

variable {ts : Tokens} {i j : Nat} {ds : List Diagnostic}

/-- The statement rule calls the rule of a keyword where it fits. -/
theorem fits_of_rule {t : Token} {rule : Rule Stmt} (ht : ts.At i t)
    (hrule : statementRule? t.kind = some rule) : rule.Fits ts i := by
  have h := hrule
  unfold statementRule? at h
  split at h <;> cases h
  all_goals first | exact ⟨t, ht, hrule⟩ | exact trivial

theorem fits_args {closer : Kind} (h : closer ≠ .eof) : (Rule.args closer).Fits ts i := h

/-- What is known of the runs of rules, given by the sorts of phrases that they read. -/
def Calls.bySort (expr : Rule Expr → Shape Expr) (args : Kind → Shape (List Expr))
    (stmt : Rule Stmt → Shape Stmt) (block : Shape (List Stmt))
    (declarator : Token → Shape Declarator) (params : Shape (List Token)) : Calls
  | _, .expr => expr .expr
  | _, .ternary => expr .ternary
  | _, .nullish => expr .nullish
  | _, .binary power => expr (.binary power)
  | _, .unary => expr .unary
  | _, .power => expr .power
  | _, .access => expr .access
  | _, .primary => expr .primary
  | _, .construction => expr .construction
  | _, .args closer => args closer
  | _, .params => params
  | _, .stmt => stmt .stmt
  | _, .block => block
  | _, .body owner => stmt (.body owner)
  | _, .declaration => stmt .declaration
  | _, .declarator keyword => declarator keyword
  | _, .function => stmt .function
  | _, .choice => stmt .choice
  | _, .whileLoop => stmt .whileLoop
  | _, .doLoop => stmt .doLoop
  | _, .forLoop => stmt .forLoop
  | _, .jump => stmt .jump
  | _, .exit => stmt .exit
  | _, .attempt => stmt .attempt
  | _, .labeled => stmt .labeled
  | _, .forward => stmt .forward
  | _, .expression => stmt .expression

/-- What a keyword begins is a statement. -/
theorem stmt_of_rule {E : Rule Expr → Shape Expr} {A : Kind → Shape (List Expr)}
    {S : Rule Stmt → Shape Stmt} {B : Shape (List Stmt)} {D : Token → Shape Declarator}
    {N : Shape (List Token)} {kind : Kind} {rule : Rule Stmt} {s : Stmt} (hrule : statementRule? kind = some rule)
    (hs : Calls.bySort E A S B D N Stmt rule i s j ds) : S rule i s j ds := by
  unfold statementRule? at hrule
  split at hrule <;> cases hrule <;> exact hs

/-- The runs of the rules as their productions list them. -/
def RuleRun (calls : Calls) (ts : Tokens) : Calls :=
  .bySort (ExprRun calls ts) (ArgsRun calls ts) (StmtRun calls ts) (BlockRun calls ts)
    (DeclaratorRun calls ts) (ParamsRun ts)

/-- **A rule runs as its production lists.** -/
theorem runs_produce {α : Type} {call : Call} {rule : Rule α} {a : α} (hfits : rule.Fits ts i) :
    Runs (produce call rule) ts i a j ds ↔ RuleRun (runsOf call ts) ts α rule i a j ds := by
  cases rule with
  | expr => exact ⟨fun h => .expr h, fun | .expr h => h⟩
  | ternary => exact runs_ternary
  | nullish => exact runs_nullish
  | binary => exact runs_binary
  | unary => exact runs_unary
  | power => exact runs_power
  | access => exact runs_access
  | primary => exact runs_primary
  | construction => exact runs_construction
  | args => exact runs_args hfits
  | params => exact runs_params
  | stmt => exact runs_stmt
  | block => exact runs_block
  | body => exact runs_body
  | declaration => obtain ⟨t, ht, hrule⟩ := hfits; exact runs_declaration ht hrule
  | declarator => exact runs_declarator
  | function => exact runs_function
  | choice => exact runs_choice
  | whileLoop => exact runs_whileLoop
  | doLoop => exact runs_doLoop
  | forLoop => exact runs_forLoop
  | jump => obtain ⟨t, ht, hrule⟩ := hfits; exact runs_jump ht hrule
  | exit => obtain ⟨t, ht, hrule⟩ := hfits; exact runs_exit ht hrule
  | attempt => exact runs_attempt
  | labeled => exact runs_labeled
  | forward => obtain ⟨t, ht, hk⟩ := hfits; exact runs_forward ht hk
  | expression => exact runs_expression

/-- A production whose rules run with some levels left runs with one more. -/
theorem runsOf_succ {α : Type} {levels : Nat} {rule : Rule α} {a : α} (hfits : rule.Fits ts i)
    (hrun : RuleRun (runsOf (parse levels) ts) ts α rule i a j ds) :
    runsOf (parse (levels + 1)) ts α rule i a j ds := (runs_produce hfits).mpr hrun

/-- Entering a rule reads what the rule reads. -/
theorem runs_enter {α : Type} {levels : Nat} {rule : Rule α} {a : α} :
    Runs (enter levels rule) ts i a j ds ↔
      (∃ t, ts.At i t) ∧ Runs (parse levels rule) ts i a j ds := by
  refine runs_bindCurrent.trans (Iff.trans (exists_congr fun t => and_congr_right fun _ => ?_)
    exists_and_right)
  unfold Runs
  dsimp only
  rcases parse levels rule ts i with ⟨_ | b, next, found, reach⟩ <;> simp

/-! ### Runs of called rules that imply others -/

section
variable {calls calls' : Calls} {α : Type}

/-- Where a rule fits, what one knows of its runs implies what the other knows. -/
def Calls.Implies (calls calls' : Calls) (ts : Tokens) : Prop :=
  ∀ {α : Type} {rule : Rule α} {i : Nat} {a : α} {j : Nat} {ds : List Diagnostic},
    rule.Fits ts i → calls α rule i a j ds → calls' α rule i a j ds

theorem MoreRound.imp {item item' : Shape α} {a? : Option α}
    (h : ∀ {i a j ds}, item i a j ds → item' i a j ds) :
    MoreRound ts item i a? j ds → MoreRound ts item' i a? j ds
  | .stop hl => .stop hl
  | .more hcomma ha => .more hcomma (h ha)

theorem Separated.imp {item item' : Shape α} {as : List α}
    (h : ∀ {i a j ds}, item i a j ds → item' i a j ds) :
    Separated ts item i as j ds → Separated ts item' i as j ds
  | .mk ha has hlen => .mk (h ha) (has.imp (MoreRound.imp h)) hlen

variable (h : calls.Implies calls' ts)
include h

theorem ArgsRun.imp {closer : Kind} {es : List Expr} :
    ArgsRun calls ts closer i es j ds → ArgsRun calls' ts closer i es j ds
  | .none hclose => .none hclose
  | .some hlacks hes hclose => .some hlacks (hes.imp (h trivial)) hclose

theorem BinaryRound.imp {power : Nat} {left : Expr} {e? : Option Expr} :
    BinaryRound calls ts power left i e? j ds → BinaryRound calls' ts power left i e? j ds
  | .stop ht hlt => .stop ht hlt
  | .more ht hp hle hright => .more ht hp hle (h trivial hright)

theorem AccessRound.imp {target : Expr} {e? : Option Expr} :
    AccessRound calls ts target i e? j ds → AccessRound calls' ts target i e? j ds
  | .stop ht hk => .stop ht hk
  | .member safe hdot hname hk => .member safe hdot hname hk
  -- Arguments are called with a closer that the call names, so that it is not the end.
  | .call safe hopen hargs => .call safe hopen (h (fits_args (by decide)) hargs)
  | .index safe hopen hlacks hargs => .index safe hopen hlacks (h (fits_args (by decide)) hargs)
  | .post step hstep => .post step hstep

theorem ExprRun.imp {rule : Rule Expr} {e : Expr} :
    ExprRun calls ts rule i e j ds → ExprRun calls' ts rule i e j ds
  | .expr he => .expr (h trivial he)
  | .ternaryPlain he hl => .ternaryPlain (h trivial he) hl
  | .ternary hc hq hy hcolon hn => .ternary (h trivial hc) hq (h trivial hy) hcolon (h trivial hn)
  | .nullishPlain he hl => .nullishPlain (h trivial he) hl
  | .nullish hl hop hk hr => .nullish (h trivial hl) hop hk (h trivial hr)
  | .binary he hn hchain => .binary (h trivial he) hn (hchain.imp (BinaryRound.imp h))
  | .sign hop hk he => .sign hop hk (h trivial he)
  | .pre step hstep he => .pre step hstep (h trivial he)
  | .unaryPlain ht hk he => .unaryPlain ht hk (h trivial he)
  | .powerPlain he hl => .powerPlain (h trivial he) hl
  | .power hb hop hk he => .power (h trivial hb) hop hk (h trivial he)
  | .access he hn hchain => .access (h trivial he) hn (hchain.imp (AccessRound.imp h))
  | .atom ht hk => .atom ht hk
  | .group hopen he hclose => .group hopen (h trivial he) hclose
  | .array hopen hes => .array hopen (h (fits_args (by decide)) hes)
  | .new hnew he => .new hnew (h trivial he)
  | .lambda hfn hnames hbody => .lambda hfn (h trivial hnames) (h trivial hbody)
  | .construction hnew hhead hk htail hlen hopen hargs =>
    .construction hnew hhead hk htail hlen hopen (h (fits_args (by decide)) hargs)

theorem DeclaratorRun.imp {keyword : Token} {d : Declarator} :
    DeclaratorRun calls ts keyword i d j ds → DeclaratorRun calls' ts keyword i d j ds
  | .plain ht hk hl hvar => .plain ht hk hl hvar
  | .valued ht hk hassign he => .valued ht hk hassign (h trivial he)

theorem BlockRound.imp {s? : Option Stmt} :
    BlockRound calls ts i s? j ds → BlockRound calls' ts i s? j ds
  | .stop ht hk => .stop ht hk
  | .more ht hk hs => .more ht hk (h trivial hs)

theorem BlockRun.imp {body : List Stmt} :
    BlockRun calls ts i body j ds → BlockRun calls' ts i body j ds
  | .mk hopen hbody hlen hclose => .mk hopen (hbody.imp (BlockRound.imp h)) hlen hclose

theorem RescueRound.imp {h? : Option Handler} :
    RescueRound calls ts i h? j ds → RescueRound calls' ts i h? j ds
  | .stop hl => .stop hl
  | .more hcatch hhead hbody => .more hcatch hhead (h trivial hbody)

theorem AlwaysRun.imp {last : List Handler} :
    AlwaysRun calls ts i last j ds → AlwaysRun calls' ts i last j ds
  | .none hl => .none hl
  | .some hfinally hbody => .some hfinally (h trivial hbody)

theorem StmtRun.imp {rule : Rule Stmt} {s : Stmt} :
    StmtRun calls ts rule i s j ds → StmtRun calls' ts rule i s j ds
  | .expressionLike hopens hs => .expressionLike hopens (h trivial hs)
  | .block hopen hbody => .block hopen (h trivial hbody)
  | .empty ht hk => .empty ht hk
  | .keyword ht hrule hs => .keyword ht hrule (h (fits_of_rule ht hrule) hs)
  | .label hident hcolon hs => .label hident hcolon (h trivial hs)
  | .forwarding hnew ht hk hs => .forwarding hnew ht hk (h ⟨_, ht, hk⟩ hs)
  | .body hs => .body (h trivial hs)
  | .declaration ht hrule hds hsemicolon => .declaration ht hrule (hds.imp (h trivial)) hsemicolon
  | .function hfn hname hk hnames hbody =>
    .function hfn hname hk (h trivial hnames) (h trivial hbody)
  | .ifThen hif hc hs hl => .ifThen hif (h trivial hc) (h trivial hs) hl
  | .ifElse hif hc hs helse ho => .ifElse hif (h trivial hc) (h trivial hs) helse (h trivial ho)
  | .whileLoop hwhile hc hs => .whileLoop hwhile (h trivial hc) (h trivial hs)
  | .doLoop hdo hs hwhile hc hsemicolon =>
    .doLoop hdo (h trivial hs) hwhile (h trivial hc) hsemicolon
  | .forLoop hfor hname hk hin he hs => .forLoop hfor hname hk hin (h trivial he) (h trivial hs)
  | .jump way hway hsemicolon => .jump way hway hsemicolon
  | .jumpTo way hway hlabel hk hsemicolon => .jumpTo way hway hlabel hk hsemicolon
  | .exit way hway hsemicolon => .exit way hway hsemicolon
  | .exitWith way hway hl he hsemicolon => .exitWith way hway hl (h trivial he) hsemicolon
  | .attempt htry hbody hrescues hlen hlast hne =>
    .attempt htry (h trivial hbody) (hrescues.imp (RescueRound.imp h)) hlen (hlast.imp h) hne
  | .labeled hlabel hk hcolon hs => .labeled hlabel hk hcolon (h trivial hs)
  | .forward hnew ht hk hopen hargs hsemicolon =>
    .forward hnew ht hk hopen (h (fits_args (by decide)) hargs) hsemicolon
  | .assign ht hassign hv hsemicolon => .assign (h trivial ht) hassign (h trivial hv) hsemicolon
  | .compound ht hop hk hv hsemicolon => .compound (h trivial ht) hop hk (h trivial hv) hsemicolon
  | .expression he hsemicolon => .expression (h trivial he) hsemicolon

theorem RuleRun.imp {rule : Rule α} {a : α} :
    RuleRun calls ts α rule i a j ds → RuleRun calls' ts α rule i a j ds := by
  cases rule with
  | args => exact ArgsRun.imp h
  | params => exact id
  | block => exact BlockRun.imp h
  | declarator => exact DeclaratorRun.imp h
  | expr | ternary | nullish | binary | unary | power | access | primary | construction =>
    exact ExprRun.imp h
  | _ => exact StmtRun.imp h

end

/-! ### All levels -/

/-- Every production hands on what is known of the runs of the rules that it calls. -/
structure Closed (ts : Tokens) (E : Rule Expr → Shape Expr) (A : Kind → Shape (List Expr))
    (S : Rule Stmt → Shape Stmt) (B : Shape (List Stmt)) (D : Token → Shape Declarator) : Prop where
  expr {rule i e j ds} : ExprRun (.bySort E A S B D (ParamsRun ts)) ts rule i e j ds → E rule i e j ds
  args {closer i es j ds} : ArgsRun (.bySort E A S B D (ParamsRun ts)) ts closer i es j ds → A closer i es j ds
  stmt {rule i s j ds} : StmtRun (.bySort E A S B D (ParamsRun ts)) ts rule i s j ds → S rule i s j ds
  block {i body j ds} : BlockRun (.bySort E A S B D (ParamsRun ts)) ts i body j ds → B i body j ds
  declarator {keyword i d j ds} :
    DeclaratorRun (.bySort E A S B D (ParamsRun ts)) ts keyword i d j ds → D keyword i d j ds

section
variable {E : Rule Expr → Shape Expr} {A : Kind → Shape (List Expr)} {S : Rule Stmt → Shape Stmt}
  {B : Shape (List Stmt)} {D : Token → Shape Declarator}

theorem Closed.rule {α : Type} {rule : Rule α} {a : α} (h : Closed ts E A S B D) :
    RuleRun (.bySort E A S B D (ParamsRun ts)) ts α rule i a j ds → Calls.bySort E A S B D (ParamsRun ts) α rule i a j ds := by
  cases rule with
  | args => exact h.args
  | params => exact id
  | block => exact h.block
  | declarator => exact h.declarator
  | expr | ternary | nullish | binary | unary | power | access | primary | construction =>
    exact h.expr
  | _ => exact h.stmt

/-- **What the productions hand on holds of all runs.** -/
theorem Closed.parse (h : Closed ts E A S B D) : ∀ (levels : Nat) {α : Type} {rule : Rule α}
    {i : Nat} {a : α} {j : Nat} {ds : List Diagnostic}, rule.Fits ts i →
      Runs (parse levels rule) ts i a j ds → Calls.bySort E A S B D (ParamsRun ts) α rule i a j ds
  | 0, _, _, _, _, _, _, _, hrun => absurd hrun not_runs_fail
  -- The rules that a production calls have one level less, so that the induction is on the levels.
  | levels + 1, _, _, _, _, _, _, hfits, hrun =>
    h.rule (((runs_produce hfits).mp hrun).imp (h.parse levels))

end

/-! ### First tokens -/

/-- The kinds that a primary expression begins with. -/
def primaryFirsts : List Kind := atoms ++ [.lparen, .lsquare, .newKw, .fnKw]

/-- The kinds that what a rule reads begins with. Signs and steps stand before operands only. -/
def firsts : Rule Expr → List Kind
  | .power | .access | .primary | .construction => primaryFirsts
  | _ => signs ++ [.increment, .decrement] ++ primaryFirsts

/-- **An expression begins with one of the kinds of its rule.** -/
theorem firsts_closed (ts : Tokens) :
    Closed ts (fun rule i _ _ _ => ∃ t, ts.At i t ∧ t.kind ∈ firsts rule)
      (fun _ _ _ _ _ => True) (fun _ _ _ _ _ => True) (fun _ _ _ _ => True)
      (fun _ _ _ _ _ => True) where
  expr := by
    intro rule i e j ds hrun
    cases hrun with
    | expr he | ternaryPlain he | ternary he | nullishPlain he | nullish he | binary he
    | powerPlain he | power he | access he | new _ he => exact he
    | unaryPlain _ _ he =>
      obtain ⟨t, ht, hk⟩ := he
      exact ⟨t, ht, List.mem_append_right _ hk⟩
    | sign hop hk =>
      have hsign := List.mem_append_left [Kind.increment, .decrement] hk
      exact ⟨_, hop, List.mem_append_left primaryFirsts hsign⟩
    | pre step hstep =>
      obtain ⟨t, ht, hk⟩ := hstep
      exact ⟨t, ht, by rw [hk]; cases step <;> decide⟩
    | atom ht hk => exact ⟨_, ht, List.mem_append_left _ hk⟩
    | group ht | array ht | lambda ht | construction ht =>
      obtain ⟨t, ht, hk⟩ := ht
      exact ⟨t, ht, by rw [hk]; decide⟩
  args _ := trivial
  stmt _ := trivial
  block _ := trivial
  declarator _ := trivial

end Grammar

end CommandShell
