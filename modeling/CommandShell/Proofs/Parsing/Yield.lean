import CommandShell.Proofs.Lexing.Reading
import CommandShell.Proofs.Parsing.Levels
import CommandShell.Proofs.Phrases.Pieces
import Mathlib.Data.List.Forall2

/-! # Yield: a phrase is read from its own pieces

The tokens between the place where a rule begins and the place where it stops are the pieces of what
it read, in order and with nothing between them. This holds of every production if it holds of the
rules that it calls, and so of all runs (`reads_of_runs`). A phrase has at least one piece, so that
reading one moves on. -/

namespace CommandShell

/-- From `i` up to `j` the tokens stand for the pieces, one for one. -/
def Tokens.Reads (ts : Tokens) (i : Nat) (ps : List Piece) (j : Nat) : Prop :=
  ∃ window, ts.items.toList.drop i = window ++ ts.items.toList.drop j ∧ j = i + window.length ∧
    List.Forall₂ Piece.Fits ps window

theorem kept_sublist_of_fits {ps : List Piece} {window : List Token}
    (h : List.Forall₂ Piece.Fits ps window) : (Piece.kept ps).Sublist window := by
  induction h with
  | nil => exact .slnil
  | @cons p t ps window hp _ ih =>
    cases p with
    | fixed => exact ih.cons t
    | token => rw [show t = _ from hp]; exact ih.cons_cons _

namespace Tokens

variable {ts : Tokens} {i j k : Nat} {ps qs : List Piece}

theorem Reads.nil : ts.Reads i [] i := ⟨[], rfl, rfl, .nil⟩

theorem Reads.append (hp : ts.Reads i ps j) (hq : ts.Reads j qs k) : ts.Reads i (ps ++ qs) k := by
  obtain ⟨w, hw, rfl, hps⟩ := hp
  obtain ⟨v, hv, rfl, hqs⟩ := hq
  refine ⟨w ++ v, ?_, by simp; omega, List.rel_append hps hqs⟩
  rw [hw, hv, List.append_assoc]

theorem at_of_lt {t : Token} (hi : i < ts.items.size) : ts.At i t ↔ ts.items[i] = t := by
  rw [At, get, dif_pos hi, Except.ok.injEq]

/-- A token before the end stands among the items. -/
theorem Lexed.getElem? (h : ts.Lexed) {t : Token} (ht : ts.At i t) (hk : t.kind ≠ .eof) :
    ts.items.toList[i]? = some t := by
  unfold At get at ht
  split at ht
  · next hi => cases ht; simp [hi]
  · exact absurd (h.ending_eof t ht) hk

theorem Lexed.lt_size (h : ts.Lexed) {t : Token} (ht : ts.At i t) (hk : t.kind ≠ .eof) :
    i < ts.items.size := by
  simpa using (List.getElem?_eq_some_iff.mp (h.getElem? ht hk)).1

/-- Only the end of the items has the end token. -/
theorem Lexed.size_le_of_eof (h : ts.Lexed) (heof : ts.Has i .eof) : ts.items.size ≤ i := by
  obtain ⟨t, ht, hk⟩ := heof
  by_contra hlt
  have hi : i < ts.items.size := Nat.lt_of_not_le hlt
  rw [At, get, dif_pos hi] at ht
  cases ht
  exact (h.proper _ (by simp)).kind_ne_eof hk

theorem Lexed.reads_one (h : ts.Lexed) {p : Piece} {t : Token} (ht : ts.At i t) (hk : t.kind ≠ .eof)
    (hp : p.Fits t) : ts.Reads i [p] (i + 1) := by
  refine ⟨[t], ?_, rfl, .cons hp .nil⟩
  obtain ⟨hlt, hget⟩ := List.getElem?_eq_some_iff.mp (h.getElem? ht hk)
  rw [List.drop_eq_getElem_cons hlt, hget]
  rfl

theorem Lexed.reads_token (h : ts.Lexed) {t : Token} (ht : ts.At i t) (hk : t.kind ≠ .eof)
    (hq : ts.Reads (i + 1) qs k) : ts.Reads i (.token t :: qs) k :=
  (h.reads_one ht hk (show (Piece.token t).Fits t from rfl)).append hq

/-- A token of a kind with one spelling is the piece of its kind. -/
theorem Lexed.reads_fixed (h : ts.Lexed) {kind : Kind} (hkind : kind.spelling ≠ "")
    (ht : ts.Has i kind) (hq : ts.Reads (i + 1) qs k) : ts.Reads i (.fixed kind :: qs) k := by
  obtain ⟨t, ht, rfl⟩ := ht
  have hne : t.kind ≠ .eof := fun heof => hkind (by rw [heof]; rfl)
  have hproper := h.proper t (List.mem_of_getElem? (h.getElem? ht hne))
  have hfits : (Piece.fixed t.kind).Fits t := congrArg _ (hproper.lexeme_eq hkind)
  exact (h.reads_one ht hne hfits).append hq

theorem Lexed.reads_last (h : ts.Lexed) {kind : Kind} (hkind : kind.spelling ≠ "")
    (ht : ts.Has i kind) : ts.Reads i [.fixed kind] (i + 1) := h.reads_fixed hkind ht .nil

theorem Lexed.reads_enclosed (h : ts.Lexed) {opener closer : Kind} (hopener : opener.spelling ≠ "")
    (hcloser : closer.spelling ≠ "") (ho : ts.Has i opener) (hp : ts.Reads (i + 1) ps j)
    (hc : ts.Has j closer) : ts.Reads i (Piece.enclosed opener closer ps) (j + 1) :=
  h.reads_fixed hopener ho (hp.append (h.reads_last hcloser hc))

theorem Reads.eq_add (hp : ts.Reads i ps j) : j = i + ps.length := by
  obtain ⟨w, -, rfl, hps⟩ := hp
  rw [hps.length_eq]

/-- Where there are pieces, reading them moves on and stays among the items. -/
theorem Reads.lt (hp : ts.Reads i ps j) (hne : ps ≠ []) : i < j ∧ j ≤ ts.items.size := by
  obtain ⟨w, hw, rfl, hps⟩ := hp
  have hlen := congrArg List.length hw
  have hpos : w ≠ [] := fun h => hne (by rw [h] at hps; exact List.forall₂_nil_right_iff.mp hps)
  have hpos := List.length_pos_iff.mpr hpos
  simp only [List.length_append, List.length_drop, Array.length_toList] at hlen
  omega

/-- The tokens that the pieces keep are among the items. -/
theorem Reads.mem_items (hp : ts.Reads i ps j) {t : Token} (ht : t ∈ Piece.kept ps) :
    t ∈ ts.items.toList := by
  obtain ⟨w, hw, -, hps⟩ := hp
  have hmem : t ∈ ts.items.toList.drop i := by
    rw [hw]
    exact List.mem_append_left _ ((kept_sublist_of_fits hps).subset ht)
  exact List.mem_of_mem_drop hmem

theorem Reads.exists_at (hp : ts.Reads i ps j) (hne : ps ≠ []) : ∃ t, ts.At i t := by
  have hlt : i < ts.items.size := Nat.lt_of_lt_of_le (hp.lt hne).1 (hp.lt hne).2
  exact ⟨ts.items[i], by rw [At, get, dif_pos hlt]⟩

end Tokens

theorem Expr.pieces_ne_nil (e : Expr) : e.pieces ≠ [] := by
  cases e <;> simp [Expr.pieces, Piece.enclosed]

theorem Stmt.pieces_ne_nil (s : Stmt) : s.pieces ≠ [] := by
  cases s <;> simp [Stmt.pieces, Piece.enclosed]

namespace Grammar

open CommandShell.Parser Piece

variable {ts : Tokens} (h : ts.Lexed)
include h

/-! ### Lists -/

section
variable {α : Type} {item : Shape α} {pieces : α → List Piece}
  (hitem : ∀ i a j ds, item i a j ds → ts.Reads i (pieces a) j)
include hitem

theorem reads_collected : ∀ {i : Nat} {as : List α} {j : Nat} {ds : List Diagnostic},
    Collected (MoreRound ts item) i as j ds →
      ts.Reads i (as.flatMap fun a => fixed .comma :: pieces a) j
  | _, _, _, _, .stop (.stop _) => .nil
  | _, _, _, _, .more (.more hcomma ha) has =>
    (h.reads_fixed (by decide) hcomma (hitem _ _ _ _ ha)).append (reads_collected has)

theorem reads_separated {i : Nat} {as : List α} {j : Nat} {ds : List Diagnostic} :
    Separated ts item i as j ds → ts.Reads i (Piece.separated .comma (as.map pieces)) j
  | .mk ha has _ => by
    have hmore := (hitem _ _ _ _ ha).append (reads_collected h hitem has)
    simpa [Piece.separated, List.flatMap_map] using hmore

end

theorem reads_params {i : Nat} {names : List Token} {j : Nat} {ds : List Diagnostic} :
    ParamsRun ts i names j ds → ts.Reads i (ofParams names) j
  | .none hopen hclose => h.reads_enclosed (by decide) (by decide) hopen .nil hclose
  | .some hopen _ hnames hclose => by
    refine h.reads_enclosed (by decide) (by decide) hopen (reads_separated h ?_ hnames) hclose
    rintro i t j ds ⟨ht, hk, rfl, -⟩
    exact h.reads_token ht (by simp [hk]) .nil

theorem reads_path : ∀ {i : Nat} {tail : List Token} {j : Nat} {ds : List Diagnostic},
    Collected (PathRound ts) i tail j ds →
      ts.Reads i (tail.flatMap fun t => [fixed .dot, token t]) j
  | _, _, _, _, .stop (.stop _) => .nil
  | _, _, _, _, .more (.more hdot ht hk) htail =>
    h.reads_fixed (by decide) hdot (h.reads_token ht (by simp [hk]) (reads_path htail))

/-! ### Productions -/

/-- What an expression, arguments, a statement, a block and a declarator are read from. -/
def readExpr (ts : Tokens) : Rule Expr → Shape Expr := fun _ i e j _ => ts.Reads i e.pieces j

def readArgs (ts : Tokens) : Kind → Shape (List Expr) := fun closer i es j _ =>
  closer.spelling ≠ "" → ts.Reads i (Piece.separated .comma (exprPieces es) ++ [fixed closer]) j

def readStmt (ts : Tokens) : Rule Stmt → Shape Stmt := fun _ i s j _ => ts.Reads i s.pieces j

def readBlock (ts : Tokens) : Shape (List Stmt) := fun i body j _ =>
  ts.Reads i (enclosed .lbrace .rbrace (stmtPieces body)) j

def readDeclarator (ts : Tokens) : Token → Shape Declarator := fun _ i d j _ =>
  ts.Reads i d.pieces j

/-- All that is known. -/
abbrev reads (ts : Tokens) : Calls :=
  .bySort (readExpr ts) (readArgs ts) (readStmt ts) (readBlock ts) (readDeclarator ts)
    (ParamsRun ts)

theorem reads_args {closer : Kind} {i : Nat} {es : List Expr} {j : Nat} {ds : List Diagnostic}
    (hcloser : closer.spelling ≠ "") : ArgsRun (reads ts) ts closer i es j ds →
      ts.Reads i (Piece.separated .comma (exprPieces es) ++ [fixed closer]) j
  | .none hclose => h.reads_last hcloser hclose
  | .some _ hes hclose => by
    rw [exprPieces_eq]
    exact (reads_separated h (fun _ _ _ _ he => he) hes).append (h.reads_last hcloser hclose)

theorem reads_binaryChain {power start n i : Nat} {left e : Expr} {j : Nat} {ds : List Diagnostic}
    (hchain : Chained (BinaryRound (reads ts) ts power) n left i e j ds)
    (hleft : ts.Reads start left.pieces i) : ts.Reads start e.pieces j := by
  induction hchain with
  | stop hround => cases hround; exact hleft
  | more hround _ ih =>
    cases hround with
    | more ht hp _ hright =>
      exact ih (hleft.append (h.reads_token ht (kind_ne_eof_of_precedence hp) hright))

theorem reads_accessRound {start i : Nat} {target e : Expr} {j : Nat} {ds : List Diagnostic}
    (hround : AccessRound (reads ts) ts target i (some e) j ds)
    (htarget : ts.Reads start target.pieces i) : ts.Reads start e.pieces j := by
  cases hround with
  | member safe hdot ht hk =>
    refine htarget.append (h.reads_fixed (by cases safe <;> decide) hdot ?_)
    exact h.reads_token ht (by simp [hk]) .nil
  | call safe hopen hargs =>
    exact htarget.append (h.reads_fixed (by cases safe <;> decide) hopen (hargs (by decide)))
  | index safe hopen _ hargs =>
    exact htarget.append (h.reads_fixed (by cases safe <;> decide) hopen (hargs (by decide)))
  | post step hstep =>
    exact htarget.append (h.reads_last (by cases step <;> decide) hstep)

theorem reads_accessChain {start n i : Nat} {target e : Expr} {j : Nat} {ds : List Diagnostic}
    (hchain : Chained (AccessRound (reads ts) ts) n target i e j ds)
    (htarget : ts.Reads start target.pieces i) : ts.Reads start e.pieces j := by
  induction hchain with
  | stop hround => cases hround; exact htarget
  | more hround _ ih => exact ih (reads_accessRound h hround htarget)

theorem reads_expr {rule : Rule Expr} {i : Nat} {e : Expr} {j : Nat} {ds : List Diagnostic}
    (hrun : ExprRun (reads ts) ts rule i e j ds) : ts.Reads i e.pieces j := by
  cases hrun with
  | expr he => exact he
  | ternaryPlain he => exact he
  | ternary hc hq hy hcolon hn =>
    have hno := h.reads_fixed (by decide) hcolon hn
    have hyes := h.reads_fixed (by decide) hq (Tokens.Reads.append hy hno)
    exact Tokens.Reads.append hc hyes
  | nullishPlain he => exact he
  | nullish hl hop hk hr => exact Tokens.Reads.append hl (h.reads_token hop (by simp [hk]) hr)
  | binary he _ hchain => exact reads_binaryChain h hchain he
  | sign hop hk he =>
    exact h.reads_token hop (fun heof => by simp [heof, signs] at hk) he
  | pre step hstep he => exact h.reads_fixed (by cases step <;> decide) hstep he
  | unaryPlain _ _ he => exact he
  | powerPlain he => exact he
  | power hb hop hk he => exact Tokens.Reads.append hb (h.reads_token hop (by simp [hk]) he)
  | access he _ hchain => exact reads_accessChain h hchain he
  | atom ht hk => exact h.reads_token ht (fun heof => by simp [heof, atoms] at hk) .nil
  | group hopen he hclose => exact h.reads_enclosed (by decide) (by decide) hopen he hclose
  | array hopen hes => exact h.reads_fixed (by decide) hopen (hes (by decide))
  | new _ he => exact he
  | lambda hfn hnames hbody =>
    exact h.reads_fixed (by decide) hfn ((reads_params h hnames).append hbody)
  | construction hnew hhead hk htail _ hopen hargs =>
    have hpath := h.reads_token hhead (by simp [hk]) (reads_path h htail)
    have hargs := h.reads_fixed (by decide) hopen (hargs (by decide))
    have h := h.reads_fixed (by decide) hnew (hpath.append hargs)
    simpa [Expr.pieces, Piece.separated, enclosed, List.flatMap_map] using h

theorem reads_declarator {keyword : Token} {i : Nat} {d : Declarator} {j : Nat}
    {ds : List Diagnostic} : DeclaratorRun (reads ts) ts keyword i d j ds → ts.Reads i d.pieces j
  | .plain ht hk _ _ => h.reads_token ht (by simp [hk]) .nil
  | .valued ht hk hassign he =>
    h.reads_token ht (by simp [hk]) (h.reads_fixed (by decide) hassign he)

omit h in
theorem reads_stmts {i : Nat} {body : List Stmt} {j : Nat} {ds : List Diagnostic}
    (hbody : Collected (BlockRound (reads ts) ts) i body j ds) :
    ts.Reads i (stmtPieces body) j := by
  induction hbody with
  | stop hround => cases hround; exact .nil
  | more hround _ ih =>
    cases hround with
    | more _ _ hs => exact Tokens.Reads.append hs ih

theorem reads_block {i : Nat} {body : List Stmt} {j : Nat} {ds : List Diagnostic} :
    BlockRun (reads ts) ts i body j ds → readBlock ts i body j ds
  | .mk hopen hbody _ hclose =>
    h.reads_enclosed (by decide) (by decide) hopen (reads_stmts hbody) hclose

/-- A `catch` with what its handler takes, before the block. -/
theorem reads_rescue {i j k : Nat} {type name : Option Token} {body : List Stmt}
    (hcatch : ts.Has i .catchKw)
    (hbody : ts.Reads j (enclosed .lbrace .rbrace (stmtPieces body)) k) :
    RescueHead ts (i + 1) type name j → ts.Reads i (Handler.rescue type name body).pieces k
  | .type hopen ht hk hclose => by
    have hhead := h.reads_enclosed (by decide) (by decide) hopen
      (h.reads_token ht (by simp [hk]) .nil) hclose
    exact h.reads_fixed (by decide) hcatch (hhead.append hbody)
  | .typeAndName hopen ht hk hn hk' hclose => by
    have hhead := h.reads_enclosed (by decide) (by decide) hopen
      (h.reads_token ht (by simp [hk]) (h.reads_token hn (by simp [hk']) .nil)) hclose
    exact h.reads_fixed (by decide) hcatch (hhead.append hbody)
  | .name hn hk => h.reads_fixed (by decide) hcatch (h.reads_token hn (by simp [hk]) hbody)
  | .bare _ _ => h.reads_fixed (by decide) hcatch hbody

theorem reads_rescues {i : Nat} {rescues : List Handler} {j : Nat} {ds : List Diagnostic}
    (hrescues : Collected (RescueRound (reads ts) ts) i rescues j ds) :
    ts.Reads i (handlerPieces rescues) j := by
  induction hrescues with
  | stop hround => cases hround; exact .nil
  | more hround _ ih =>
    cases hround with
    | more hcatch hhead hbody => exact (reads_rescue h hcatch hbody hhead).append ih

theorem reads_always {i : Nat} {last : List Handler} {j : Nat} {ds : List Diagnostic} :
    AlwaysRun (reads ts) ts i last j ds → ts.Reads i (handlerPieces last) j
  | .none _ => .nil
  | .some hfinally hbody => (h.reads_fixed (by decide) hfinally hbody).append .nil

theorem reads_stmt {rule : Rule Stmt} {i : Nat} {s : Stmt} {j : Nat} {ds : List Diagnostic}
    (hrun : StmtRun (reads ts) ts rule i s j ds) : ts.Reads i s.pieces j := by
  cases hrun with
  | expressionLike _ hs => exact hs
  | block _ hbody => exact hbody
  | empty ht hk => exact h.reads_last (by decide) ⟨_, ht, hk⟩
  | keyword _ hrule hs => exact stmt_of_rule (S := readStmt ts) hrule hs
  | label _ _ hs => exact hs
  | forwarding _ _ _ hs => exact hs
  | body hs => exact hs
  | declaration ht hrule hds hsemicolon =>
    have hds := reads_separated h (fun _ _ _ _ hd => hd) hds
    have hend := hds.append (h.reads_last (by decide) hsemicolon)
    rw [← declaratorPieces_eq] at hend
    exact h.reads_token ht (kind_ne_eof_of_rule hrule) hend
  | function hfn hname hk hnames hbody =>
    have hrest := (reads_params h hnames).append hbody
    exact h.reads_fixed (by decide) hfn (h.reads_token hname (by simp [hk]) hrest)
  | ifThen hif hc hs _ => exact h.reads_fixed (by decide) hif (Tokens.Reads.append hc hs)
  | ifElse hif hc hs helse ho =>
    have hrest := Tokens.Reads.append hs (h.reads_fixed (by decide) helse ho)
    exact h.reads_fixed (by decide) hif (Tokens.Reads.append hc hrest)
  | whileLoop hwhile hc hs => exact h.reads_fixed (by decide) hwhile (Tokens.Reads.append hc hs)
  | doLoop hdo hs hwhile hc hsemicolon =>
    have hend := Tokens.Reads.append hc (h.reads_last (by decide) hsemicolon)
    have hrest := Tokens.Reads.append hs (h.reads_fixed (by decide) hwhile hend)
    exact h.reads_fixed (by decide) hdo hrest
  | forLoop hfor hname hk hin he hs =>
    have hrest := h.reads_fixed (by decide) hin (Tokens.Reads.append he hs)
    exact h.reads_fixed (by decide) hfor (h.reads_token hname (by simp [hk]) hrest)
  | jump way hway hsemicolon =>
    exact h.reads_fixed (by cases way <;> decide) hway (h.reads_last (by decide) hsemicolon)
  | jumpTo way hway hlabel hk hsemicolon =>
    refine h.reads_fixed (by cases way <;> decide) hway ?_
    exact h.reads_token hlabel (by simp [hk]) (h.reads_last (by decide) hsemicolon)
  | exit way hway hsemicolon =>
    exact h.reads_fixed (by cases way <;> decide) hway (h.reads_last (by decide) hsemicolon)
  | exitWith way hway _ he hsemicolon =>
    refine h.reads_fixed (by cases way <;> decide) hway ?_
    exact Tokens.Reads.append he (h.reads_last (by decide) hsemicolon)
  | attempt htry hbody hrescues _ hlast _ =>
    have hhandlers := (reads_rescues h hrescues).append (reads_always h hlast)
    rw [← handlerPieces_append] at hhandlers
    exact h.reads_fixed (by decide) htry (Tokens.Reads.append hbody hhandlers)
  | labeled hlabel hk hcolon hs =>
    exact h.reads_token hlabel (by simp [hk]) (h.reads_fixed (by decide) hcolon hs)
  | forward hnew ht hk hopen hargs hsemicolon =>
    have hargs := h.reads_fixed (by decide) hopen (hargs (by decide))
    have hend := hargs.append (h.reads_last (by decide) hsemicolon)
    exact h.reads_fixed (by decide) hnew
      (h.reads_token ht (fun heof => by rw [heof] at hk; cases hk) hend)
  | assign ht hassign hv hsemicolon =>
    have hend := Tokens.Reads.append hv (h.reads_last (by decide) hsemicolon)
    exact Tokens.Reads.append ht (h.reads_fixed (by decide) hassign hend)
  | compound ht hop hk hv hsemicolon =>
    have hend := Tokens.Reads.append hv (h.reads_last (by decide) hsemicolon)
    exact Tokens.Reads.append ht (h.reads_token hop (kind_ne_eof_of_compound hk) hend)
  | expression he hsemicolon => exact Tokens.Reads.append he (h.reads_last (by decide) hsemicolon)

theorem reads_closed :
    Closed ts (readExpr ts) (readArgs ts) (readStmt ts) (readBlock ts) (readDeclarator ts) where
  expr := reads_expr h
  args hrun hcloser := reads_args h hcloser hrun
  stmt := reads_stmt h
  block := reads_block h
  declarator := reads_declarator h

/-- **What a rule reads is between the place where it begins and the place where it stops.** -/
theorem reads_of_runs {α : Type} {levels : Nat} {rule : Rule α} {i : Nat} {a : α} {j : Nat}
    {ds : List Diagnostic} (hfits : rule.Fits ts i) (hrun : Runs (parse levels rule) ts i a j ds) :
    reads ts α rule i a j ds := (reads_closed h).parse levels hfits hrun

section
variable {levels i j : Nat} {ds : List Diagnostic}

theorem reads_expr_of_runs {e : Expr} (hrun : Runs (parse levels .expr) ts i e j ds) :
    ts.Reads i e.pieces j := reads_of_runs h (show Rule.expr.Fits ts i from trivial) hrun

theorem reads_primary_of_runs {e : Expr} (hrun : Runs (parse levels .primary) ts i e j ds) :
    ts.Reads i e.pieces j := reads_of_runs h (show Rule.primary.Fits ts i from trivial) hrun

theorem reads_stmt_of_runs {s : Stmt} (hrun : Runs (parse levels .stmt) ts i s j ds) :
    ts.Reads i s.pieces j := reads_of_runs h (show Rule.stmt.Fits ts i from trivial) hrun

end

end Grammar

end CommandShell
