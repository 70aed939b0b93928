import CommandShell.Proofs.Parsing.Yield
import CommandShell.Proofs.Phrases.Violations

/-! # Reports: a rule reports the violations of what it reads

What a rule has reported when it succeeds is what the walk over its phrase tells, in the same order
(`reports_of_runs`). A rule calls others one after the other, and each begins where the one before
it stopped; since a phrase is read from its own pieces, that is where the walk takes the part to
begin. The rule for the statement that a keyword governs adds the warning about an empty one. -/

namespace CommandShell

open CommandShell.Parser CommandShell.Grammar

namespace Tokens

variable {ts : Tokens} {i : Nat}

/-- The token of a kind other than the end is the one that is looked up. -/
theorem Lexed.look_eq (h : ts.Lexed) {t : Token} (ht : ts.At i t) (hk : t.kind ≠ .eof) :
    ts.look i = t := by
  have hget : ts.items[i]? = some t := by simpa using h.getElem? ht hk
  rw [look, Array.getD_eq_getD_getElem?, hget]
  rfl

end Tokens

/-- The keyword of the rule for the statement that a keyword governs. -/
def Rule.owner? : ∀ {α : Type}, Rule α → Option Kind
  | _, .body owner => some owner
  | _, _ => none

namespace Grammar

theorem owner?_of_rule {kind : Kind} {rule : Rule Stmt} (hrule : statementRule? kind = some rule) :
    rule.owner? = none := by
  unfold statementRule? at hrule
  split at hrule <;> cases hrule <;> rfl

/-! ### What is known of the rules that are called -/

section
variable (ts : Tokens)

/-- An expression is read from its pieces, and its violations are reported. -/
structure ReportsExpr (rule : Rule Expr) (i : Nat) (e : Expr) (j : Nat) (ds : List Diagnostic) :
    Prop where
  reads : ts.Reads i e.pieces j
  found : ds = e.violations ts.look i

/-- So are arguments. -/
structure ReportsArgs (closer : Kind) (i : Nat) (es : List Expr) (j : Nat) (ds : List Diagnostic) :
    Prop where
  reads : readArgs ts closer i es j ds
  found : ds = exprsViolations ts.look i es

/-- So is a statement. The token of an empty statement is where the statement begins. -/
structure ReportsStmt (rule : Rule Stmt) (i : Nat) (s : Stmt) (j : Nat) (ds : List Diagnostic) :
    Prop where
  reads : ts.Reads i s.pieces j
  semicolon : ∀ t, s = .empty t → ts.look i = t
  found : ds = s.violations ts.look i ++ rule.owner?.elim [] (s.emptiness ts.look i)

/-- So is a block. -/
structure ReportsBlock (i : Nat) (body : List Stmt) (j : Nat) (ds : List Diagnostic) : Prop where
  reads : readBlock ts i body j ds
  found : ds = stmtsViolations ts.look (i + 1) body

/-- So is a declarator. -/
structure ReportsDeclarator (keyword : Token) (i : Nat) (d : Declarator) (j : Nat)
    (ds : List Diagnostic) : Prop where
  reads : ts.Reads i d.pieces j
  found : ds = d.violations ts.look i

/-- All that is known. -/
abbrev reports : Calls :=
  .bySort (ReportsExpr ts) (ReportsArgs ts) (ReportsStmt ts) (ReportsBlock ts)
    (ReportsDeclarator ts) (ParamsRun ts)

end

variable {ts : Tokens} {i j : Nat} {ds : List Diagnostic}

theorem reports_implies_reads : Calls.Implies (reports ts) (reads ts) ts := by
  intro α rule i a j ds _ hrun
  cases rule with
  | args => exact ReportsArgs.reads hrun
  | params => exact hrun
  | block => exact ReportsBlock.reads hrun
  | declarator => exact ReportsDeclarator.reads hrun
  | expr | ternary | nullish | binary | unary | power | access | primary | construction =>
    exact ReportsExpr.reads hrun
  | _ => exact ReportsStmt.reads hrun

theorem ReportsExpr.next_eq {rule : Rule Expr} {e : Expr} (he : ReportsExpr ts rule i e j ds) :
    j = i + e.pieces.length := he.reads.eq_add

theorem ReportsStmt.next_eq {rule : Rule Stmt} {s : Stmt} (hs : ReportsStmt ts rule i s j ds) :
    j = i + s.pieces.length := hs.reads.eq_add

/-- Where no keyword governs it, a statement reports its violations only. -/
theorem ReportsStmt.found_free {rule : Rule Stmt} {s : Stmt} (hs : ReportsStmt ts rule i s j ds)
    (hrule : rule.owner? = none) : ds = s.violations ts.look i := by
  have hfound := hs.found
  rwa [hrule, Option.elim_none, List.append_nil] at hfound

/-! ### Lists -/

section
variable {α : Type} {item : Shape α} {pieces : α → List Piece} {one : Nat → α → List Diagnostic}
  {all : Nat → List α → List Diagnostic}
  (hitem : ∀ i a j ds, item i a j ds → ts.Reads i (pieces a) j ∧ ds = one i a)
  (hnil : ∀ i, all i [] = [])
  (hcons : ∀ i a as, all i (a :: as) = one i a ++ all (i + (pieces a).length + 1) as)
include hitem hnil hcons

theorem found_collected : ∀ {i : Nat} {as : List α} {j : Nat} {ds : List Diagnostic},
    Collected (MoreRound ts item) i as j ds → ds = all (i + 1) as
  | i, _, _, _, .stop (.stop _) => (hnil (i + 1)).symm
  | i, a :: as, _, _, .more (.more _ ha) has => by
    obtain ⟨hreads, rfl⟩ := hitem _ _ _ _ ha
    have hnext := hreads.eq_add
    have hrest := found_collected has
    rw [hcons, hrest, hnext]

/-- In a list with commas each item begins one token behind the one before it. -/
theorem found_separated {as : List α} : Separated ts item i as j ds → ds = all i as
  | .mk ha has _ => by
    obtain ⟨hreads, rfl⟩ := hitem _ _ _ _ ha
    have hnext := hreads.eq_add
    have hrest := found_collected hitem hnil hcons has
    rw [hcons, hrest, hnext]

end

theorem found_exprs {item : Shape Expr} {es : List Expr}
    (hitem : ∀ i e j ds, item i e j ds → ts.Reads i e.pieces j ∧ ds = e.violations ts.look i)
    (hes : Separated ts item i es j ds) : ds = exprsViolations ts.look i es :=
  found_separated hitem (fun _ => rfl) (fun _ _ _ => rfl) hes

theorem found_path : ∀ {i : Nat} {tail : List Token} {j : Nat} {ds : List Diagnostic},
    Collected (PathRound ts) i tail j ds → ds = []
  | _, _, _, _, .stop (.stop _) => rfl
  | _, _, _, _, .more (.more _ _ _) htail => found_path htail

theorem found_names : ∀ {i : Nat} {names : List Token} {j : Nat} {ds : List Diagnostic},
    Collected (MoreRound ts (NameRun ts)) i names j ds → ds = []
  | _, _, _, _, .stop (.stop _) => rfl
  | _, _, _, _, .more (.more _ ⟨_, _, _, hnone⟩) hnames => by
    rw [hnone, found_names hnames]
    rfl

theorem found_params {names : List Token} (hnames : ParamsRun ts i names j ds) : ds = [] := by
  cases hnames with
  | none => rfl
  | some _ _ hnames _ =>
    obtain ⟨⟨-, -, -, hnone⟩, hmore, -⟩ := hnames
    rw [hnone, found_names hmore]
    rfl

variable (h : ts.Lexed)
include h

theorem next_of_params {names : List Token} (hnames : ParamsRun ts i names j ds) :
    j = i + (Piece.ofParams names).length := (reads_params h hnames).eq_add

/-! ### Productions -/

omit h in
theorem found_args {closer : Kind} {es : List Expr} :
    ArgsRun (reports ts) ts closer i es j ds → ds = exprsViolations ts.look i es
  | .none _ => rfl
  | .some _ hes _ => found_exprs (fun _ _ _ _ he => ⟨he.reads, he.found⟩) hes

/-- A chain of operators: the violations in the left operand, and then those in each right one. -/
theorem found_binaryChain {power start n i : Nat} {left e : Expr} {j : Nat}
    {ds₁ ds₂ : List Diagnostic}
    (hchain : Chained (BinaryRound (reports ts) ts power) n left i e j ds₂)
    (hleft : ReportsExpr ts .unary start left i ds₁) :
    ds₁ ++ ds₂ = e.violations ts.look start := by
  induction hchain generalizing ds₁ with
  | stop hround =>
    cases hround
    rw [List.append_nil]
    exact hleft.found
  | more hround _ ih =>
    cases hround with
    | more ht hp _ hright =>
      have hreads := hleft.reads.append
        (h.reads_token ht (kind_ne_eof_of_precedence hp) (ReportsExpr.reads hright))
      have hfound := ReportsExpr.found hright
      rw [hleft.next_eq] at hfound
      rw [← List.append_assoc]
      exact ih ⟨hreads, by rw [hleft.found, hfound]; rfl⟩

/-- What an access, a call or a step adds to the violations in its target. -/
theorem found_accessRound {start i : Nat} {target e : Expr} {j : Nat} {ds₁ ds₂ : List Diagnostic}
    (hround : AccessRound (reports ts) ts target i (some e) j ds₂)
    (htarget : ReportsExpr ts .access start target i ds₁) :
    ReportsExpr ts .access start e j (ds₁ ++ ds₂) := by
  have hreads := reads_accessRound h (hround.imp reports_implies_reads) htarget.reads
  refine ⟨hreads, ?_⟩
  have hnext := htarget.next_eq
  rw [htarget.found]
  cases hround with
  | member safe _ _ _ => exact List.append_nil _
  | call safe _ hargs => rw [ReportsArgs.found hargs, hnext]; rfl
  | index safe _ _ hargs => rw [ReportsArgs.found hargs, hnext]; rfl
  | post step _ => rfl

theorem found_accessChain {start n i : Nat} {target e : Expr} {j : Nat} {ds₁ ds₂ : List Diagnostic}
    (hchain : Chained (AccessRound (reports ts) ts) n target i e j ds₂)
    (htarget : ReportsExpr ts .access start target i ds₁) :
    ds₁ ++ ds₂ = e.violations ts.look start := by
  induction hchain generalizing ds₁ with
  | stop hround =>
    cases hround
    rw [List.append_nil]
    exact htarget.found
  | more hround _ ih =>
    rw [← List.append_assoc]
    exact ih (found_accessRound h hround htarget)

theorem found_expr {rule : Rule Expr} {e : Expr} (hrun : ExprRun (reports ts) ts rule i e j ds) :
    ds = e.violations ts.look i := by
  cases hrun with
  | expr he => exact ReportsExpr.found he
  | ternaryPlain he _ => exact ReportsExpr.found he
  | ternary hc _ hy _ hn =>
    have hyes := ReportsExpr.found hy
    have hno := ReportsExpr.found hn
    rw [ReportsExpr.next_eq hy, ReportsExpr.next_eq hc] at hno
    rw [ReportsExpr.next_eq hc] at hyes
    rw [ReportsExpr.found hc, hyes, hno]
    rfl
  | nullishPlain he _ => exact ReportsExpr.found he
  | nullish hl _ _ hr =>
    have hright := ReportsExpr.found hr
    rw [ReportsExpr.next_eq hl] at hright
    rw [ReportsExpr.found hl, hright]
    rfl
  | binary he _ hchain => exact found_binaryChain h hchain he
  | sign _ _ he => rw [ReportsExpr.found he]; rfl
  | pre step _ he => rw [ReportsExpr.found he]; rfl
  | unaryPlain _ _ he => exact ReportsExpr.found he
  | powerPlain he _ => exact ReportsExpr.found he
  | power hb _ _ he =>
    have hexponent := ReportsExpr.found he
    rw [ReportsExpr.next_eq hb] at hexponent
    rw [ReportsExpr.found hb, hexponent]
    rfl
  | access he _ hchain =>
    exact found_accessChain h hchain ⟨ReportsExpr.reads he, ReportsExpr.found he⟩
  | atom _ _ => rfl
  | group _ he _ => rw [ReportsExpr.found he]; rfl
  | array _ hes => exact ReportsArgs.found hes
  | new _ he => exact ReportsExpr.found he
  | lambda _ hnames hbody =>
    have hblock := ReportsBlock.found hbody
    rw [next_of_params h hnames] at hblock
    rw [found_params hnames, hblock, List.nil_append, Expr.violations]
    congr 1
    omega
  | @construction _ head tail j _ args _ _ _ hhead hk htail _ _ hargs =>
    have hnext := (h.reads_token hhead (by simp [hk]) (reads_path h htail)).eq_add
    have hpath : Piece.token head :: tail.flatMap (fun t => [.fixed .dot, .token t]) =
        Piece.separated .dot ((head :: tail).map ([.token ·])) := by
      simp [Piece.separated, List.flatMap_map]
    rw [hpath] at hnext
    have hargs := ReportsArgs.found hargs
    rw [hnext] at hargs
    rw [found_path htail, hargs, List.nil_append, Expr.violations]
    congr 1
    omega

omit h in
theorem found_declarator {keyword : Token} {d : Declarator} :
    DeclaratorRun (reports ts) ts keyword i d j ds → ds = d.violations ts.look i
  | .plain _ _ _ _ => rfl
  | .valued _ _ _ he => ReportsExpr.found he

omit h in
theorem found_declarators {keyword : Token} {declarators : List Declarator}
    (hds : Separated ts (ReportsDeclarator ts keyword) i declarators j ds) :
    ds = declaratorsViolations ts.look i declarators := by
  have hitem : ∀ i d j ds, ReportsDeclarator ts keyword i d j ds →
      ts.Reads i d.pieces j ∧ ds = d.violations ts.look i :=
    fun _ _ _ _ hd => ⟨hd.reads, hd.found⟩
  exact found_separated hitem (fun _ => rfl) (fun _ _ _ => rfl) hds

omit h in
theorem found_stmts {i : Nat} {body : List Stmt} {j : Nat} {ds : List Diagnostic}
    (hbody : Collected (BlockRound (reports ts) ts) i body j ds) :
    ds = stmtsViolations ts.look i body := by
  induction hbody with
  | stop hround => cases hround; rfl
  | more hround _ ih =>
    cases hround with
    | more _ _ hs =>
      rw [ReportsStmt.next_eq hs] at ih
      rw [ReportsStmt.found_free hs rfl, ih]
      rfl

omit h in
theorem found_block {body : List Stmt} :
    BlockRun (reports ts) ts i body j ds → ds = stmtsViolations ts.look (i + 1) body
  | .mk _ hbody _ _ => found_stmts hbody

omit h in
theorem next_of_rescueHead {type name : Option Token} :
    RescueHead ts i type name j → j = i + rescueWidth type name
  | .type _ _ _ _ | .typeAndName _ _ _ _ _ _ | .name _ _ | .bare _ _ => rfl

theorem found_rescues {i : Nat} {rescues : List Handler} {j : Nat} {ds : List Diagnostic}
    (hrescues : Collected (RescueRound (reports ts) ts) i rescues j ds) :
    ds = handlersViolations ts.look i rescues := by
  induction hrescues with
  | stop hround => cases hround; rfl
  | more hround _ ih =>
    cases hround with
    | more hcatch hhead hbody =>
      have hnext := (reads_rescue h hcatch (ReportsBlock.reads hbody) hhead).eq_add
      have hblock := ReportsBlock.found hbody
      rw [next_of_rescueHead hhead] at hblock
      rw [hnext] at ih
      rw [hblock, ih]
      rfl

omit h in
theorem found_always {last : List Handler} :
    AlwaysRun (reports ts) ts i last j ds → ds = handlersViolations ts.look i last
  | .none _ => rfl
  | .some _ hbody => by
    rw [ReportsBlock.found hbody]
    exact (List.append_nil _).symm

omit h in
/-- The warning about an empty statement stands at its semicolon. -/
theorem emptyReports_eq {owner : Kind} {s : Stmt} (hs : ReportsStmt ts .stmt i s j ds) :
    emptyReports owner s = s.emptiness ts.look i owner := by
  cases s with
  | empty t => rw [emptyReports, Stmt.emptiness, hs.semicolon t rfl]
  | _ => rfl

omit h in
/-- The statement that a keyword governs, with the warning. -/
theorem ReportsStmt.found_governed {owner : Kind} {s : Stmt}
    (hs : ReportsStmt ts (.body owner) i s j ds) :
    ds = s.violations ts.look i ++ s.emptiness ts.look i owner := hs.found

theorem found_stmt {rule : Rule Stmt} {s : Stmt} (hrun : StmtRun (reports ts) ts rule i s j ds)
    (hfree : rule.owner? = none) : ds = s.violations ts.look i := by
  cases hrun with
  | expressionLike _ hs => exact ReportsStmt.found_free hs rfl
  | block _ hbody => rw [ReportsBlock.found hbody]; rfl
  | empty _ _ => rfl
  | keyword _ hrule hs =>
    have hs := stmt_of_rule (S := ReportsStmt ts) hrule hs
    exact hs.found_free (owner?_of_rule hrule)
  | label _ _ hs => exact ReportsStmt.found_free hs rfl
  | forwarding _ _ _ hs => exact ReportsStmt.found_free hs rfl
  | body _ => cases hfree
  | declaration _ _ hds _ => exact found_declarators hds
  | function _ _ _ hnames hbody =>
    have hblock := ReportsBlock.found hbody
    rw [next_of_params h hnames] at hblock
    rw [found_params hnames, hblock, List.nil_append, Stmt.violations]
    congr 1
    omega
  | ifThen _ hc hs _ =>
    have hbody := ReportsStmt.found_governed hs
    rw [ReportsExpr.next_eq hc] at hbody
    rw [ReportsExpr.found hc, hbody]
    rfl
  | ifElse _ hc hs _ ho =>
    have hbody := ReportsStmt.found_governed hs
    have hother := ReportsStmt.found_governed ho
    rw [ReportsStmt.next_eq hs, ReportsExpr.next_eq hc] at hother
    rw [ReportsExpr.next_eq hc] at hbody
    rw [ReportsExpr.found hc, hbody, hother]
    rfl
  | whileLoop _ hc hs =>
    have hbody := ReportsStmt.found_governed hs
    rw [ReportsExpr.next_eq hc] at hbody
    rw [ReportsExpr.found hc, hbody]
    rfl
  | doLoop _ hs _ hc _ =>
    have hcond := ReportsExpr.found hc
    rw [ReportsStmt.next_eq hs] at hcond
    rw [ReportsStmt.found_free hs rfl, hcond]
    rfl
  | forLoop _ _ _ _ he hs =>
    have hbody := ReportsStmt.found_governed hs
    rw [ReportsExpr.next_eq he] at hbody
    rw [ReportsExpr.found he, hbody]
    rfl
  | jump | jumpTo | exit => rfl
  | exitWith _ _ _ he _ => rw [ReportsExpr.found he]; rfl
  | attempt _ hbody hrescues _ hlast _ =>
    have hnext := (ReportsBlock.reads hbody).eq_add
    have hrescued := (reads_rescues h (hrescues.imp (RescueRound.imp reports_implies_reads))).eq_add
    have hfirst := found_rescues h hrescues
    have hfinal := found_always hlast
    rw [hrescued, hnext] at hfinal
    rw [hnext] at hfirst
    rw [ReportsBlock.found hbody, hfirst, hfinal, ← handlersViolations_append]
    rfl
  | labeled _ _ _ hs => rw [ReportsStmt.found_free hs rfl]; rfl
  | forward _ _ _ _ hargs _ => rw [ReportsArgs.found hargs]; rfl
  | assign ht _ hv _ =>
    have hvalue := ReportsExpr.found hv
    rw [ReportsExpr.next_eq ht] at hvalue
    rw [ReportsExpr.found ht, hvalue]
    rfl
  | compound ht _ _ hv _ =>
    have hvalue := ReportsExpr.found hv
    rw [ReportsExpr.next_eq ht] at hvalue
    rw [ReportsExpr.found ht, hvalue]
    rfl
  | expression he _ => rw [ReportsExpr.found he]; rfl

theorem semicolon_stmt {rule : Rule Stmt} {t : Token}
    (hrun : StmtRun (reports ts) ts rule i (.empty t) j ds) : ts.look i = t := by
  cases hrun with
  | expressionLike _ hs => exact ReportsStmt.semicolon hs t rfl
  | empty ht hk => exact h.look_eq ht (by simp [hk])
  | keyword _ hrule hs => exact (stmt_of_rule (S := ReportsStmt ts) hrule hs).semicolon t rfl
  | label _ _ hs => exact ReportsStmt.semicolon hs t rfl
  | forwarding _ _ _ hs => exact ReportsStmt.semicolon hs t rfl
  | body hs => exact ReportsStmt.semicolon hs t rfl

theorem reports_stmt {rule : Rule Stmt} {s : Stmt} (hrun : StmtRun (reports ts) ts rule i s j ds) :
    ReportsStmt ts rule i s j ds where
  reads := reads_stmt h (hrun.imp reports_implies_reads)
  semicolon := by rintro t rfl; exact semicolon_stmt h hrun
  found := by
    cases howner : rule.owner? with
    | none => rw [Option.elim_none, List.append_nil]; exact found_stmt h hrun howner
    | some owner =>
      cases hrun with
      | body hs =>
        cases howner
        rw [ReportsStmt.found_free hs rfl, emptyReports_eq hs]
        rfl
      | _ => cases howner

theorem reports_closed :
    Closed ts (ReportsExpr ts) (ReportsArgs ts) (ReportsStmt ts) (ReportsBlock ts)
      (ReportsDeclarator ts) where
  expr hrun := ⟨reads_expr h (hrun.imp reports_implies_reads), found_expr h hrun⟩
  args hrun :=
    ⟨fun hcloser => reads_args h hcloser (hrun.imp reports_implies_reads), found_args hrun⟩
  stmt := reports_stmt h
  block hrun := ⟨reads_block h (hrun.imp reports_implies_reads), found_block hrun⟩
  declarator hrun := ⟨reads_declarator h (hrun.imp reports_implies_reads), found_declarator hrun⟩

/-- **A rule reports the violations of what it reads, and nothing else.** -/
theorem reports_of_runs {α : Type} {levels : Nat} {rule : Rule α} {i : Nat} {a : α} {j : Nat}
    {ds : List Diagnostic} (hfits : rule.Fits ts i) (hrun : Runs (parse levels rule) ts i a j ds) :
    reports ts α rule i a j ds := (reports_closed h).parse levels hfits hrun

section
variable {levels i j : Nat} {ds : List Diagnostic}

theorem reports_expr_of_runs {e : Expr} (hrun : Runs (parse levels .expr) ts i e j ds) :
    ReportsExpr ts .expr i e j ds := reports_of_runs h (show Rule.expr.Fits ts i from trivial) hrun

theorem reports_primary_of_runs {e : Expr} (hrun : Runs (parse levels .primary) ts i e j ds) :
    ReportsExpr ts .primary i e j ds :=
  reports_of_runs h (show Rule.primary.Fits ts i from trivial) hrun

theorem reports_stmt_of_runs {s : Stmt} (hrun : Runs (parse levels .stmt) ts i s j ds) :
    ReportsStmt ts .stmt i s j ds := reports_of_runs h (show Rule.stmt.Fits ts i from trivial) hrun

end

end Grammar

end CommandShell
