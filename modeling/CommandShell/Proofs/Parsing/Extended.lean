import CommandShell.Proofs.Parsing.Extending

/-! # Extended: statements and all runs within more tokens

A statement stops behind a token of its own, so that only what may still belong to it is looked for
behind it: `else` after a choice, `catch` and `finally` after an attempt. None of them follows where
the part ends. Together with the expressions this gives all runs at any number of levels
(`moves_of_runs`). -/

namespace CommandShell

open CommandShell.Parser CommandShell.Grammar

namespace Grammar

section
variable {calls : Calls} {us ts : Tokens} {d i j : Nat} {k : Int} {ds : List Diagnostic}
  (h : us.Extends ts d k)
include h

/-! ### Beginnings and ends -/

theorem MovesStmt.agree {rule : Rule Stmt} {s : Stmt}
    (hs : MovesStmt calls us ts d k rule i s j ds) : us.Agree ts d i := by
  obtain ⟨hij, hj⟩ := hs.reads.lt s.pieces_ne_nil
  exact h.agree_of_lt (Nat.lt_of_lt_of_le hij hj)

theorem MovesBlock.agree {body : List Stmt} (hbody : MovesBlock calls ts d k i body j ds) :
    us.Agree ts d i := by
  obtain ⟨hij, hj⟩ := Tokens.Reads.lt hbody.reads (by simp [Piece.enclosed])
  exact h.agree_of_lt (Nat.lt_of_lt_of_le hij hj)

theorem MovesDeclarator.agree {keyword : Token} {dr : Declarator}
    (hdr : MovesDeclarator calls us ts d k keyword i dr j ds) (hj : us.Agree ts d j) :
    us.Agree ts d i :=
  h.agree_of_le (Nat.le_of_lt (hdr.reads.lt (by cases dr <;> simp [Declarator.pieces])).1) hj

theorem opening_extended (hi : us.Agree ts d (i + 1))
    (hopens : Runs opening ts i .expression i []) :
    Runs opening us (d + i) .expression (d + i) [] := by
  obtain ⟨-, -, t, ht, hb, hident, hnew⟩ := runs_opening_expression.mp hopens
  obtain ⟨u, hu, hk⟩ := (h.agree_of_le (Nat.le_succ i) hi).exists_at ht
  refine runs_opening_expression.mpr ⟨rfl, rfl, u, hu, by rwa [hk], fun hku => ?_, fun hku => ?_⟩
  · exact hi.lacks (hident (hk ▸ hku))
  · obtain ⟨v, hv, hreceiver⟩ := hnew (hk ▸ hku)
    obtain ⟨w, hw, hkind⟩ := hi.exists_at hv
    exact ⟨w, hw, by rwa [hkind]⟩

theorem opening_statement_extended (hopens : Runs opening ts i .statement i []) :
    Runs opening us (d + i) .statement (d + i) [] := by
  obtain ⟨-, -, t, ht, hk⟩ := runs_opening_statement.mp hopens
  have hne : t.kind ≠ .eof := fun heof => by
    rcases hk with hb | ⟨hk, -⟩ | ⟨hk, -⟩
    · rw [heof] at hb; cases hb
    · rw [heof] at hk; cases hk
    · rw [heof] at hk; cases hk
  refine runs_opening_statement.mpr ⟨rfl, rfl, _, h.at_down ht hne, ?_⟩
  rcases hk with hb | ⟨hk, hcolon⟩ | ⟨hk, u, hu, hreceiver⟩
  · exact Or.inl hb
  · exact Or.inr (Or.inl ⟨hk, h.has hcolon (by decide)⟩)
  · have hu := h.at_down hu fun heof => by rw [heof] at hreceiver; cases hreceiver
    exact Or.inr (Or.inr ⟨hk, _, hu, hreceiver⟩)

/-! ### Parts of statements -/

theorem declarator_extended {keyword : Token} {dr : Declarator} (hj : us.Agree ts d j) :
    DeclaratorRun (moves calls us ts d k) ts keyword i dr j ds →
      DeclaratorRun calls us (keyword.down k) (d + i) (dr.down k) (d + j) (ds.map (.down k))
  | .plain ht hk hl hvar =>
    .plain (h.at_down ht (kind_ne_eof hk (by decide))) hk (hj.lacks hl) hvar
  | .valued ht hk hassign he => by
    have ht := h.at_down ht (kind_ne_eof hk (by decide))
    exact .valued ht hk (h.has hassign (by decide)) (MovesExpr.moved he hj)

/-- A declarator among others. -/
theorem declarators_extended (keyword : Token) (i : Nat) (dr : Declarator) (j : Nat)
    (ds : List Diagnostic) (hdr : MovesDeclarator calls us ts d k keyword i dr j ds)
    (hj : us.Agree ts d j) : us.Agree ts d i ∧
      calls _ (.declarator (keyword.down k)) (d + i) (dr.down k) (d + j) (ds.map (.down k)) :=
  ⟨hdr.agree h hj, hdr.moved hj⟩

theorem blockRound_extended : ∀ i s? j ds, BlockRound (moves calls us ts d k) ts i s? j ds →
    us.Agree ts d j →
      us.Agree ts d i ∧ BlockRound calls us (d + i) (s?.map (.down k)) (d + j) (ds.map (.down k))
  | _, _, _, _, .stop ht hk, hj => by
    obtain ⟨u, hu, hkind⟩ := hj.exists_at ht
    exact ⟨hj, .stop hu (by rwa [hkind])⟩
  | _, _, _, _, .more (t := t) ht hk hs, _ => by
    have hne : t.kind ≠ .eof := fun heof => by simp [heof] at hk
    exact ⟨h.agree ht hne, .more (h.at_down ht hne) hk (MovesStmt.moved hs)⟩

theorem block_extended {body : List Stmt} : BlockRun (moves calls us ts d k) ts i body j ds →
    BlockRun calls us (d + i) (stmtsDown k body) (d + j) (ds.map (.down k))
  | .mk hopen hbody hlen hclose => by
    have hstop := h.agree_of_has hclose (by decide)
    obtain ⟨-, hbody⟩ := collected_extended (blockRound_extended h) hbody hstop
    rw [stmtsDown_eq]
    exact .mk (h.has hopen (by decide)) hbody (h.length_le hlen) (h.has hclose (by decide))

theorem rescueHead_extended {type name : Option Token} (hj : us.Agree ts d j) :
    RescueHead ts i type name j →
      RescueHead us (d + i) (type.map (.down k)) (name.map (.down k)) (d + j)
  | .type hopen ht hk hclose => by
    have ht := h.at_down ht (kind_ne_eof hk (by decide))
    exact .type (h.has hopen (by decide)) ht hk (h.has hclose (by decide))
  | .typeAndName hopen ht hk hn hk' hclose => by
    have ht := h.at_down ht (kind_ne_eof hk (by decide))
    have hn := h.at_down hn (kind_ne_eof hk' (by decide))
    exact .typeAndName (h.has hopen (by decide)) ht hk hn hk' (h.has hclose (by decide))
  | .name hn hk => .name (h.at_down hn (kind_ne_eof hk (by decide))) hk
  | .bare ht hk => by
    obtain ⟨u, hu, hkind⟩ := hj.exists_at ht
    exact .bare hu (by rwa [hkind])

theorem rescueRound_extended : ∀ i h? j ds, RescueRound (moves calls us ts d k) ts i h? j ds →
    j ≤ ts.items.size → i ≤ ts.items.size ∧
      RescueRound calls us (d + i) (h?.map (.down k)) (d + j) (ds.map (.down k))
  | _, _, _, _, .stop hl, hj => ⟨hj, .stop (h.lacks_follower hj (by decide) hl)⟩
  | _, _, _, _, .more hcatch hhead hbody, _ => by
    have hhead := rescueHead_extended h (MovesBlock.agree h hbody) hhead
    exact ⟨(h.agree_of_has hcatch (by decide)).1,
      .more (h.has hcatch (by decide)) hhead (MovesBlock.moved hbody)⟩

theorem always_extended {last : List Handler} (hj : j ≤ ts.items.size) :
    AlwaysRun (moves calls us ts d k) ts i last j ds → i ≤ ts.items.size ∧
      AlwaysRun calls us (d + i) (last.map (.down k)) (d + j) (ds.map (.down k))
  | .none hl => ⟨hj, .none (h.lacks_follower hj (by decide) hl)⟩
  | .some hfinally hbody =>
    ⟨(h.agree_of_has hfinally (by decide)).1,
      .some (h.has hfinally (by decide)) (MovesBlock.moved hbody)⟩

/-! ### Statements -/

theorem stmt_extended {rule : Rule Stmt} {s : Stmt} (hj : j ≤ ts.items.size)
    (hrun : StmtRun (moves calls us ts d k) ts rule i s j ds) :
    StmtRun calls us rule (d + i) (s.down k) (d + j) (ds.map (.down k)) := by
  cases hrun with
  | expressionLike hopens hs =>
    exact .expressionLike (opening_extended h (MovesStmt.second hs rfl) hopens) (MovesStmt.moved hs)
  | block hopen hbody => exact .block (h.has hopen (by decide)) (MovesBlock.moved hbody)
  | empty ht hk => exact .empty (h.at_down ht (kind_ne_eof hk (by decide))) hk
  | keyword ht hrule hs =>
    have hs := stmt_of_rule hrule hs
    exact .keyword (h.at_down ht (kind_ne_eof_of_rule hrule)) hrule (MovesStmt.moved hs)
  | label hident hcolon hs =>
    exact .label (h.has hident (by decide)) (h.has hcolon (by decide)) (MovesStmt.moved hs)
  | forwarding hnew ht hk hs =>
    have ht := h.at_down ht fun heof => by rw [heof] at hk; cases hk
    exact .forwarding (h.has hnew (by decide)) ht hk (MovesStmt.moved hs)
  | body hs =>
    rw [List.map_append, ← emptyReports_down _ (MovesStmt.placed hs)]
    exact .body (MovesStmt.moved hs)
  | declaration ht hrule hds hsemicolon =>
    obtain ⟨-, hds⟩ := separated_extended h (declarators_extended h _) hds
      (h.agree_of_has hsemicolon (by decide))
    rw [Stmt.down, declaratorsDown_eq]
    exact .declaration (h.at_down ht (kind_ne_eof_of_rule hrule)) hrule hds
      (h.has hsemicolon (by decide))
  | function hfn hname hk hnames hbody =>
    have hname := h.at_down hname (kind_ne_eof hk (by decide))
    have hnames := MovesParams.moved hnames
    rw [List.map_append]
    exact .function (h.has hfn (by decide)) hname hk hnames (MovesBlock.moved hbody)
  | ifThen hif hc hs hl =>
    have hc := MovesExpr.moved hc (MovesStmt.agree h hs)
    -- The statement may stop where the part ends, and `else` must not follow there.
    have hl := h.lacks_follower hj (by decide) hl
    rw [List.map_append]
    exact .ifThen (h.has hif (by decide)) hc (MovesStmt.moved hs) hl
  | ifElse hif hc hs helse ho =>
    have hc := MovesExpr.moved hc (MovesStmt.agree h hs)
    rw [List.map_append, List.map_append]
    exact .ifElse (h.has hif (by decide)) hc (MovesStmt.moved hs) (h.has helse (by decide))
      (MovesStmt.moved ho)
  | whileLoop hwhile hc hs =>
    have hc := MovesExpr.moved hc (MovesStmt.agree h hs)
    rw [List.map_append]
    exact .whileLoop (h.has hwhile (by decide)) hc (MovesStmt.moved hs)
  | doLoop hdo hs hwhile hc hsemicolon =>
    have hc := MovesExpr.moved hc (h.agree_of_has hsemicolon (by decide))
    have hs := MovesStmt.moved hs
    rw [List.map_append]
    exact .doLoop (h.has hdo (by decide)) hs (h.has hwhile (by decide)) hc
      (h.has hsemicolon (by decide))
  | forLoop hfor hname hk hin he hs =>
    have hname := h.at_down hname (kind_ne_eof hk (by decide))
    have he := MovesExpr.moved he (MovesStmt.agree h hs)
    rw [List.map_append]
    exact .forLoop (h.has hfor (by decide)) hname hk (h.has hin (by decide)) he (MovesStmt.moved hs)
  | jump way hway hsemicolon =>
    exact .jump way (h.has hway (by cases way <;> decide)) (h.has hsemicolon (by decide))
  | jumpTo way hway hlabel hk hsemicolon =>
    have hlabel := h.at_down hlabel (kind_ne_eof hk (by decide))
    exact .jumpTo way (h.has hway (by cases way <;> decide)) hlabel hk
      (h.has hsemicolon (by decide))
  | exit way hway hsemicolon =>
    exact .exit way (h.has hway (by cases way <;> decide)) (h.has hsemicolon (by decide))
  | exitWith way hway hl he hsemicolon =>
    have hstop := h.agree_of_has hsemicolon (by decide)
    have hl := (MovesExpr.agree h he hstop).lacks hl
    exact .exitWith way (h.has hway (by cases way <;> decide)) hl (MovesExpr.moved he hstop)
      (h.has hsemicolon (by decide))
  | attempt htry hbody hrescues hlen hlast hne =>
    -- From the back: the other handlers stop where the last one begins.
    obtain ⟨hm, hlast⟩ := always_extended h hj hlast
    obtain ⟨-, hrescues⟩ := collected_extended (rescueRound_extended h) hrescues hm
    have hbody := MovesBlock.moved hbody
    rw [List.map_append, List.map_append, Stmt.down, handlersDown_eq, List.map_append]
    refine .attempt (h.has htry (by decide)) hbody hrescues (h.length_le hlen)
      hlast ?_
    rw [← List.map_append]
    exact fun hnil => hne (List.map_eq_nil_iff.mp hnil)
  | labeled hlabel hk hcolon hs =>
    have hlabel := h.at_down hlabel (kind_ne_eof hk (by decide))
    exact .labeled hlabel hk (h.has hcolon (by decide)) (MovesStmt.moved hs)
  | forward hnew ht hk hopen hargs hsemicolon =>
    have ht := h.at_down ht fun heof => by rw [heof] at hk; cases hk
    exact .forward (h.has hnew (by decide)) ht hk (h.has hopen (by decide)) (MovesArgs.moved hargs)
      (h.has hsemicolon (by decide))
  | assign ht hassign hv hsemicolon =>
    have hv := MovesExpr.moved hv (h.agree_of_has hsemicolon (by decide))
    have hmoved := MovesExpr.moved ht (h.agree_of_has hassign (by decide))
    rw [List.map_append, List.map_append, ← targetReports_down (h.placed (MovesExpr.reads ht))]
    exact .assign hmoved (h.has hassign (by decide)) hv (h.has hsemicolon (by decide))
  | compound ht hop hk hv hsemicolon =>
    have hne := kind_ne_eof_of_compound hk
    have hv := MovesExpr.moved hv (h.agree_of_has hsemicolon (by decide))
    have hmoved := MovesExpr.moved ht (h.agree hop hne)
    rw [List.map_append, List.map_append, ← targetReports_down (h.placed (MovesExpr.reads ht))]
    exact .compound hmoved (h.at_down hop hne) hk hv (h.has hsemicolon (by decide))
  | expression he hsemicolon =>
    have hmoved := MovesExpr.moved he (h.agree_of_has hsemicolon (by decide))
    rw [List.map_append, ← effectReports_down (h.placed (MovesExpr.reads he))]
    exact .expression hmoved (h.has hsemicolon (by decide))

/-- A production whose statement is empty has read a semicolon. -/
theorem placed_of_stmt {rule : Rule Stmt} {s : Stmt}
    (hrun : StmtRun (moves calls us ts d k) ts rule i s j ds) (t : Token) (hs : s = .empty t) :
    1 ≤ t.line := by
  cases hrun with
  | empty ht hk => cases hs; exact h.line_pos ht (kind_ne_eof hk (by decide))
  | keyword _ hrule hs' => exact MovesStmt.placed (stmt_of_rule hrule hs') t hs
  | expressionLike _ hs' | label _ _ hs' | forwarding _ _ _ hs' => exact MovesStmt.placed hs' t hs
  | body hs' => exact MovesStmt.placed hs' t hs
  | _ => cases hs

/-- Behind the expression that a statement begins with something of the statement is left. -/
theorem second_of_stmt {rule : Rule Stmt} {s : Stmt}
    (hrun : StmtRun (moves calls us ts d k) ts rule i s j ds) (hrule : rule = .expression) :
    us.Agree ts d (i + 1) := by
  cases hrun with
  | assign ht hassign =>
    have hlt := (MovesExpr.reads ht).lt (Expr.pieces_ne_nil _)
    exact h.agree_of_le hlt.1 (h.agree_of_has hassign (by decide))
  | compound ht hop hk =>
    have hlt := (MovesExpr.reads ht).lt (Expr.pieces_ne_nil _)
    exact h.agree_of_le hlt.1 (h.agree hop (kind_ne_eof_of_compound hk))
  | expression he hsemicolon =>
    have hlt := (MovesExpr.reads he).lt (Expr.pieces_ne_nil _)
    exact h.agree_of_le hlt.1 (h.agree_of_has hsemicolon (by decide))
  | _ => cases hrule

/-! ### All runs -/

variable {levels : Nat}

/-- A run of a statement's production is a run of its rule in the longer text, where it fits. -/
theorem moves_of_stmt {rule : Rule Stmt} {s : Stmt} (hreads : ts.Reads i s.pieces j)
    (hrun : StmtRun (moves (runsOf (parse levels) us) us ts d k) ts rule i s j ds)
    (hruns : StmtRun (runsOf (parse levels) us) us rule (d + i) (s.down k) (d + j)
      (ds.map (.down k)) → runsOf (parse (levels + 1)) us _ rule (d + i) (s.down k) (d + j)
        (ds.map (.down k))) :
    MovesStmt (runsOf (parse (levels + 1)) us) us ts d k rule i s j ds where
  reads := hreads
  placed := placed_of_stmt h hrun
  second := second_of_stmt h hrun
  moved := hruns (stmt_extended h (hreads.lt s.pieces_ne_nil).2 hrun)

/-- **Every production is read from the longer text if the rules that it calls are.** -/
theorem moves_of_production {α : Type} {rule : Rule α} {a : α} (hfits : rule.Fits ts i)
    (hreads : reads ts α rule i a j ds)
    (hrun : RuleRun (moves (runsOf (parse levels) us) us ts d k) ts α rule i a j ds) :
    moves (runsOf (parse (levels + 1)) us) us ts d k α rule i a j ds := by
  cases rule with
  | args => exact ⟨hreads, runsOf_succ hfits (args_extended h hfits hrun)⟩
  | params => exact ⟨hrun, runsOf_succ trivial (params_extended h hrun)⟩
  | block => exact ⟨hreads, runsOf_succ trivial (block_extended h hrun)⟩
  | declarator => exact ⟨hreads, fun hj => runsOf_succ trivial (declarator_extended h hj hrun)⟩
  | expr | ternary | nullish | binary | unary | power | access | primary | construction =>
    exact ⟨hreads, fun hj => runsOf_succ trivial (expr_extended h hrun hj)⟩
  -- These rules take a keyword unseen, so that it must stand in the longer text too.
  | declaration | jump | exit =>
    obtain ⟨t, ht, hrule⟩ := hfits
    have ht := h.at_down ht (kind_ne_eof_of_rule hrule)
    exact moves_of_stmt h hreads hrun fun hs => runsOf_succ ⟨_, ht, hrule⟩ hs
  | forward =>
    obtain ⟨t, ht, hk⟩ := hfits
    have ht := h.at_down ht fun heof => by rw [heof] at hk; cases hk
    exact moves_of_stmt h hreads hrun fun hs => runsOf_succ ⟨_, ht, hk⟩ hs
  | _ => exact moves_of_stmt h hreads hrun fun hs => runsOf_succ trivial hs

/-- **All runs are runs in the longer text**, at the same number of levels. -/
theorem moves_of_runs : ∀ (levels : Nat) {α : Type} {rule : Rule α} {i : Nat} {a : α} {j : Nat}
    {ds : List Diagnostic}, rule.Fits ts i → Runs (parse levels rule) ts i a j ds →
      moves (runsOf (parse levels) us) us ts d k α rule i a j ds
  | 0, _, _, _, _, _, _, _, hrun => absurd hrun not_runs_fail
  | levels + 1, _, _, _, _, _, _, hfits, hrun => by
    have hproduction := ((runs_produce hfits).mp hrun).imp (moves_of_runs levels)
    exact moves_of_production h hfits (reads_of_runs h.lexed hfits hrun) hproduction

theorem runs_expr_extended {e : Expr} (hrun : Runs (parse levels .expr) ts i e j ds)
    (hj : us.Agree ts d j) :
    Runs (parse levels .expr) us (d + i) (e.down k) (d + j) (ds.map (.down k)) :=
  MovesExpr.moved (moves_of_runs h levels (show Rule.expr.Fits ts i from trivial) hrun) hj

theorem runs_stmt_extended {s : Stmt} (hrun : Runs (parse levels .stmt) ts i s j ds) :
    Runs (parse levels .stmt) us (d + i) (s.down k) (d + j) (ds.map (.down k)) :=
  MovesStmt.moved (moves_of_runs h levels (show Rule.stmt.Fits ts i from trivial) hrun)

end

end Grammar

end CommandShell
