import CommandShell.Proofs.Parsing.Yield
import CommandShell.Proofs.Phrases.Down

/-! # Extending: the same runs within more tokens

The tokens of a text may be a part of those of a longer text, some places on and some lines further
down. Whatever is read from them is then read from the longer text too (`moves_of_runs`), on lower
lines. Only what looks at the token behind the part could tell the difference: a statement looks
there for `else`, `catch` and `finally`, which must not follow; an expression looks for whatever may
go on with it, so that the token behind it must be of the same kind in both texts. -/

namespace CommandShell

open CommandShell.Parser CommandShell.Grammar

theorem kind_ne_eof {t : Token} {kind : Kind} (hk : t.kind = kind) (hkind : kind ≠ .eof) :
    t.kind ≠ .eof := hk ▸ hkind

/-- What a statement that could be complete looks for behind it. -/
def Kind.followers : List Kind := [.elseKw, .catchKw, .finallyKw]

/-- The tokens `ts` are a part of `us`, `d` places on and `k` lines further down, and nothing
follows there that a complete statement looks for. -/
structure Tokens.Extends (us ts : Tokens) (d : Nat) (k : Int) : Prop where
  lexed : ts.Lexed
  size_le : ts.items.size ≤ us.items.size
  at_down {i : Nat} {t : Token} : ts.At i t → t.kind ≠ .eof → us.At (d + i) (t.down k)
  follower : ∃ t, us.At (d + ts.items.size) t ∧ t.kind ∉ Kind.followers

/-- At the place `i` of `ts` both have a token of the same kind. -/
def Tokens.Agree (us ts : Tokens) (d i : Nat) : Prop :=
  i ≤ ts.items.size ∧ ∃ t u, ts.At i t ∧ us.At (d + i) u ∧ u.kind = t.kind

theorem Tokens.Agree.exists_at {us ts : Tokens} {d i : Nat} {t : Token} (h : us.Agree ts d i)
    (ht : ts.At i t) : ∃ u, us.At (d + i) u ∧ u.kind = t.kind := by
  obtain ⟨-, v, u, hv, hu, hk⟩ := h
  cases ht.unique hv
  exact ⟨u, hu, hk⟩

theorem Tokens.Agree.lacks {us ts : Tokens} {d i : Nat} {kind : Kind} (h : us.Agree ts d i)
    (hl : ts.Lacks i kind) : us.Lacks (d + i) kind := by
  obtain ⟨t, ht, hk⟩ := hl
  obtain ⟨u, hu, hkind⟩ := h.exists_at ht
  exact ⟨u, hu, by rwa [hkind]⟩

namespace Tokens.Extends

variable {us ts : Tokens} {d : Nat} {k : Int} (h : us.Extends ts d k) {i j : Nat} {kind : Kind}
include h

theorem has (ht : ts.Has i kind) (hkind : kind ≠ .eof) : us.Has (d + i) kind := by
  obtain ⟨t, ht, rfl⟩ := ht
  exact ⟨_, h.at_down ht hkind, rfl⟩

theorem agree_of_lt (hi : i < ts.items.size) : us.Agree ts d i := by
  have ht : ts.At i ts.items[i] := by rw [Tokens.At, Tokens.get, dif_pos hi]
  have hk := (h.lexed.proper ts.items[i] (by simp)).kind_ne_eof
  exact ⟨Nat.le_of_lt hi, _, _, ht, h.at_down ht hk, rfl⟩

theorem kind_ne_eof_of_lt {t : Token} (hi : i < ts.items.size) (ht : ts.At i t) : t.kind ≠ .eof :=
  fun hk => absurd hi (Nat.not_lt.mpr (h.lexed.size_le_of_eof ⟨t, ht, hk⟩))

theorem agree {t : Token} (ht : ts.At i t) (hk : t.kind ≠ .eof) : us.Agree ts d i :=
  h.agree_of_lt (h.lexed.lt_size ht hk)

theorem agree_of_has (ht : ts.Has i kind) (hkind : kind ≠ .eof) : us.Agree ts d i := by
  obtain ⟨t, ht, rfl⟩ := ht
  exact h.agree ht hkind

theorem agree_of_le (hij : i ≤ j) (hj : us.Agree ts d j) : us.Agree ts d i := by
  rcases Nat.lt_or_eq_of_le hij with hlt | rfl
  · exact h.agree_of_lt (Nat.lt_of_lt_of_le hlt hj.1)
  · exact hj

/-- Nothing that a complete statement looks for follows. -/
theorem lacks_follower (hi : i ≤ ts.items.size) (hkind : kind ∈ Kind.followers)
    (hl : ts.Lacks i kind) : us.Lacks (d + i) kind := by
  rcases Nat.lt_or_eq_of_le hi with hlt | rfl
  · exact (h.agree_of_lt hlt).lacks hl
  · obtain ⟨t, ht, hk⟩ := h.follower
    exact ⟨t, ht, fun heq => hk (heq ▸ hkind)⟩

theorem length_le {α β : Type} {f : α → β} {as : List α} (hlen : as.length ≤ ts.items.size) :
    (as.map f).length ≤ us.items.size := by
  rw [List.length_map]
  exact Nat.le_trans hlen h.size_le

theorem line_pos {t : Token} (ht : ts.At i t) (hk : t.kind ≠ .eof) : 1 ≤ t.line :=
  (h.lexed.proper t (List.mem_of_getElem? (h.lexed.getElem? ht hk))).line_pos

theorem placed {e : Expr} (he : ts.Reads i e.pieces j) : e.Placed := by
  intro t ht
  rw [Expr.firstToken?, Tree.firstToken?_eq, e.tokens_tree] at ht
  exact (h.lexed.proper t (he.mem_items (List.mem_of_head? ht))).line_pos

end Tokens.Extends

namespace Grammar

/-! ### Lists -/

section
variable {α β : Type} {d i j : Nat} {k : Int} {ds : List Diagnostic} {f : α → β}

/-- Rounds that are read from the longer text too make a list that is. What the stop of a round
satisfies, its beginning satisfies. -/
theorem collected_extended {P : Nat → Prop} {round : Shape (Option α)} {round' : Shape (Option β)}
    (hround : ∀ i a? j ds, round i a? j ds → P j →
      P i ∧ round' (d + i) (a?.map f) (d + j) (ds.map (.down k))) :
    ∀ {i : Nat} {as : List α} {j : Nat} {ds : List Diagnostic}, Collected round i as j ds → P j →
      P i ∧ Collected round' (d + i) (as.map f) (d + j) (ds.map (.down k))
  | _, _, _, _, .stop hr, hj => ⟨(hround _ _ _ _ hr hj).1, .stop (hround _ _ _ _ hr hj).2⟩
  | _, _, _, _, .more hr hc, hj => by
    obtain ⟨hm, hc⟩ := collected_extended hround hc hj
    obtain ⟨hi, hr⟩ := hround _ _ _ _ hr hm
    rw [List.map_append]
    exact ⟨hi, .more hr hc⟩

variable {us ts : Tokens} (h : us.Extends ts d k) {item : Shape α} {item' : Shape β}
  (hitem : ∀ i a j ds, item i a j ds → us.Agree ts d j →
    us.Agree ts d i ∧ item' (d + i) (f a) (d + j) (ds.map (.down k)))
include h hitem

theorem moreRound_extended : ∀ i a? j ds, MoreRound ts item i a? j ds → us.Agree ts d j →
    us.Agree ts d i ∧ MoreRound us item' (d + i) (a?.map f) (d + j) (ds.map (.down k))
  | _, _, _, _, .stop hl, hj => ⟨hj, .stop (hj.lacks hl)⟩
  | _, _, _, _, .more hcomma ha, hj =>
    ⟨h.agree_of_has hcomma (by decide), .more (h.has hcomma (by decide)) (hitem _ _ _ _ ha hj).2⟩

theorem separated_extended {as : List α} : Separated ts item i as j ds → us.Agree ts d j →
    us.Agree ts d i ∧ Separated us item' (d + i) (as.map f) (d + j) (ds.map (.down k))
  | .mk ha has hlen, hj => by
    obtain ⟨hm, has⟩ := collected_extended (moreRound_extended h hitem) has hj
    obtain ⟨hi, ha⟩ := hitem _ _ _ _ ha hm
    rw [List.map_append]
    exact ⟨hi, .mk ha has (h.length_le hlen)⟩

end

section
variable {us ts : Tokens} {d i j : Nat} {k : Int} {ds : List Diagnostic} (h : us.Extends ts d k)
include h

theorem name_extended (i : Nat) (t : Token) (j : Nat) (ds : List Diagnostic) :
    NameRun ts i t j ds → us.Agree ts d j →
      us.Agree ts d i ∧ NameRun us (d + i) (t.down k) (d + j) (ds.map (.down k)) := by
  rintro ⟨ht, hk, rfl, rfl⟩ -
  have hne := kind_ne_eof hk (by decide)
  exact ⟨h.agree ht hne, h.at_down ht hne, hk, rfl, rfl⟩

theorem params_extended {names : List Token} : ParamsRun ts i names j ds →
    ParamsRun us (d + i) (names.map (.down k)) (d + j) (ds.map (.down k))
  | .none hopen hclose => .none (h.has hopen (by decide)) (h.has hclose (by decide))
  | .some hopen hl hnames hclose => by
    have hstop := h.agree_of_has hclose (by decide)
    obtain ⟨hstart, hnames⟩ := separated_extended h (name_extended h) hnames hstop
    exact .some (h.has hopen (by decide)) (hstart.lacks hl) hnames (h.has hclose (by decide))

theorem pathRound_extended : ∀ i t? j ds, PathRound ts i t? j ds → us.Agree ts d j →
    us.Agree ts d i ∧ PathRound us (d + i) (t?.map (.down k)) (d + j) (ds.map (.down k))
  | _, _, _, _, .stop hl, hj => ⟨hj, .stop (hj.lacks hl)⟩
  | _, _, _, _, .more hdot ht hk, _ =>
    ⟨h.agree_of_has hdot (by decide),
      .more (h.has hdot (by decide)) (h.at_down ht (kind_ne_eof hk (by decide))) hk⟩

end

/-! ### What is known of the rules that are called -/

section
variable (calls : Calls) (us ts : Tokens) (d : Nat) (k : Int)

/-- The run of an expression is a run in the longer text, if both agree behind it. -/
structure MovesExpr (rule : Rule Expr) (i : Nat) (e : Expr) (j : Nat) (ds : List Diagnostic) :
    Prop where
  reads : ts.Reads i e.pieces j
  moved : us.Agree ts d j → calls _ rule (d + i) (e.down k) (d + j) (ds.map (.down k))

/-- The run of arguments is a run in the longer text. -/
structure MovesArgs (closer : Kind) (i : Nat) (es : List Expr) (j : Nat) (ds : List Diagnostic) :
    Prop where
  reads : readArgs ts closer i es j ds
  moved : calls _ (.args closer) (d + i) (exprsDown k es) (d + j) (ds.map (.down k))

/-- The run of a statement is a run in the longer text. An empty statement has a place; one that
begins with an expression has a second token. -/
structure MovesStmt (rule : Rule Stmt) (i : Nat) (s : Stmt) (j : Nat) (ds : List Diagnostic) :
    Prop where
  reads : ts.Reads i s.pieces j
  placed : ∀ t, s = .empty t → 1 ≤ t.line
  second : rule = .expression → us.Agree ts d (i + 1)
  moved : calls _ rule (d + i) (s.down k) (d + j) (ds.map (.down k))

/-- The run of a block is a run in the longer text. -/
structure MovesBlock (i : Nat) (body : List Stmt) (j : Nat) (ds : List Diagnostic) : Prop where
  reads : readBlock ts i body j ds
  moved : calls _ .block (d + i) (stmtsDown k body) (d + j) (ds.map (.down k))

/-- The run of a declarator is a run in the longer text, if both agree behind it. -/
structure MovesDeclarator (keyword : Token) (i : Nat) (dr : Declarator) (j : Nat)
    (ds : List Diagnostic) : Prop where
  reads : ts.Reads i dr.pieces j
  moved : us.Agree ts d j →
    calls _ (.declarator (keyword.down k)) (d + i) (dr.down k) (d + j) (ds.map (.down k))

/-- The run of parameters is a run in the longer text. -/
structure MovesParams (i : Nat) (names : List Token) (j : Nat) (ds : List Diagnostic) : Prop where
  run : ParamsRun ts i names j ds
  moved : calls _ .params (d + i) (names.map (.down k)) (d + j) (ds.map (.down k))

/-- All that is known. -/
abbrev moves : Calls :=
  .bySort (MovesExpr calls us ts d k) (MovesArgs calls ts d k) (MovesStmt calls us ts d k)
    (MovesBlock calls ts d k) (MovesDeclarator calls us ts d k) (MovesParams calls ts d k)

end

/-! ### Expressions -/

section
variable {calls : Calls} {us ts : Tokens} {d i j : Nat} {k : Int} {ds : List Diagnostic}

theorem moves_implies_reads : Calls.Implies (moves calls us ts d k) (reads ts) ts := by
  intro α rule i a j ds _ hrun
  cases rule with
  | args => exact MovesArgs.reads hrun
  | params => exact MovesParams.run hrun
  | block => exact MovesBlock.reads hrun
  | declarator => exact MovesDeclarator.reads hrun
  | expr | ternary | nullish | binary | unary | power | access | primary | construction =>
    exact MovesExpr.reads hrun
  | _ => exact MovesStmt.reads hrun

variable (h : us.Extends ts d k)
include h

/-- Where both agree behind an expression, they agree at its beginning. -/
theorem MovesExpr.agree {rule : Rule Expr} {e : Expr} (he : MovesExpr calls us ts d k rule i e j ds)
    (hj : us.Agree ts d j) : us.Agree ts d i :=
  h.agree_of_le (Nat.le_of_lt (he.reads.lt e.pieces_ne_nil).1) hj

theorem args_extended {closer : Kind} (hcloser : closer ≠ .eof) {es : List Expr} :
    ArgsRun (moves calls us ts d k) ts closer i es j ds →
      ArgsRun calls us closer (d + i) (exprsDown k es) (d + j) (ds.map (.down k))
  | .none hclose => .none (h.has hclose hcloser)
  | .some hl hes hclose => by
    have hitem : ∀ i e j ds, MovesExpr calls us ts d k .expr i e j ds → us.Agree ts d j →
        us.Agree ts d i ∧ calls _ .expr (d + i) (e.down k) (d + j) (ds.map (.down k)) :=
      fun _ _ _ _ he hj => ⟨he.agree h hj, he.moved hj⟩
    obtain ⟨hstart, hes⟩ := separated_extended h hitem hes (h.agree_of_has hclose hcloser)
    rw [exprsDown_eq]
    exact .some (hstart.lacks hl) hes (h.has hclose hcloser)

theorem binaryRound_extended {power : Nat} {left : Expr} {e? : Option Expr}
    (hj : us.Agree ts d j) : BinaryRound (moves calls us ts d k) ts power left i e? j ds →
      us.Agree ts d i ∧ BinaryRound calls us power (left.down k) (d + i) (e?.map (.down k)) (d + j)
        (ds.map (.down k))
  | .stop ht hlt => by
    obtain ⟨u, hu, hk⟩ := hj.exists_at ht
    exact ⟨hj, .stop hu (by rwa [hk])⟩
  | .more ht hp hle hright => by
    have hne := kind_ne_eof_of_precedence hp
    exact ⟨h.agree ht hne, .more (h.at_down ht hne) hp hle (MovesExpr.moved hright hj)⟩

theorem binaryChain_extended {power n i : Nat} {left e : Expr} {j : Nat} {ds : List Diagnostic}
    (hchain : Chained (BinaryRound (moves calls us ts d k) ts power) n left i e j ds)
    (hj : us.Agree ts d j) : us.Agree ts d i ∧ Chained (BinaryRound calls us power) n (left.down k)
      (d + i) (e.down k) (d + j) (ds.map (.down k)) := by
  induction hchain with
  | stop hround =>
    obtain ⟨hi, hround⟩ := binaryRound_extended h hj hround
    exact ⟨hi, .stop hround⟩
  | more hround _ ih =>
    obtain ⟨hm, hchain⟩ := ih hj
    obtain ⟨hi, hround⟩ := binaryRound_extended h hm hround
    rw [List.map_append]
    exact ⟨hi, .more hround hchain⟩

theorem accessRound_extended {start : Nat} {target : Expr} {e? : Option Expr}
    (htarget : ts.Reads start target.pieces i) (hj : us.Agree ts d j) :
    AccessRound (moves calls us ts d k) ts target i e? j ds → us.Agree ts d i ∧
      AccessRound calls us (target.down k) (d + i) (e?.map (.down k)) (d + j) (ds.map (.down k))
  | .stop ht hk => by
    obtain ⟨u, hu, hkind⟩ := hj.exists_at ht
    exact ⟨hj, .stop hu (by rwa [hkind])⟩
  | .member safe hdot ht hk => by
    have hkind : dotKind safe ≠ .eof := by cases safe <;> decide
    exact ⟨h.agree_of_has hdot hkind,
      .member safe (h.has hdot hkind) (h.at_down ht (kind_ne_eof hk (by decide))) hk⟩
  | .call safe hopen hargs => by
    have hkind : callKind safe ≠ .eof := by cases safe <;> decide
    exact ⟨h.agree_of_has hopen hkind, .call safe (h.has hopen hkind) (MovesArgs.moved hargs)⟩
  | .index safe hopen hl hargs => by
    have hkind : indexKind safe ≠ .eof := by cases safe <;> decide
    -- The token looked at is within the arguments, so that both texts have it.
    have hlt := (MovesArgs.reads hargs (by decide)).lt (by simp)
    have hl := (h.agree_of_lt (Nat.lt_of_lt_of_le hlt.1 hlt.2)).lacks hl
    exact ⟨h.agree_of_has hopen hkind, .index safe (h.has hopen hkind) hl (MovesArgs.moved hargs)⟩
  | .post step hstep => by
    have hkind : step.kind ≠ .eof := by cases step <;> decide
    rw [← targetReports_down (h.placed htarget)]
    exact ⟨h.agree_of_has hstep hkind, .post step (h.has hstep hkind)⟩

theorem accessChain_extended {start n i : Nat} {target e : Expr} {j : Nat} {ds : List Diagnostic}
    (hchain : Chained (AccessRound (moves calls us ts d k) ts) n target i e j ds)
    (htarget : ts.Reads start target.pieces i) (hj : us.Agree ts d j) :
    us.Agree ts d i ∧ Chained (AccessRound calls us) n (target.down k)
      (d + i) (e.down k) (d + j) (ds.map (.down k)) := by
  induction hchain with
  | stop hround =>
    obtain ⟨hi, hround⟩ := accessRound_extended h htarget hj hround
    exact ⟨hi, .stop hround⟩
  | more hround _ ih =>
    have hreads := reads_accessRound h.lexed (hround.imp moves_implies_reads) htarget
    obtain ⟨hm, hchain⟩ := ih hreads hj
    obtain ⟨hi, hround⟩ := accessRound_extended h htarget hm hround
    rw [List.map_append]
    exact ⟨hi, .more hround hchain⟩

theorem expr_extended {rule : Rule Expr} {e : Expr}
    (hrun : ExprRun (moves calls us ts d k) ts rule i e j ds) (hj : us.Agree ts d j) :
    ExprRun calls us rule (d + i) (e.down k) (d + j) (ds.map (.down k)) := by
  cases hrun with
  | expr he => exact .expr (MovesExpr.moved he hj)
  | ternaryPlain he hl => exact .ternaryPlain (MovesExpr.moved he hj) (hj.lacks hl)
  | ternary hc hq hy hcolon hn =>
    have hc := MovesExpr.moved hc (h.agree_of_has hq (by decide))
    have hy := MovesExpr.moved hy (h.agree_of_has hcolon (by decide))
    rw [List.map_append, List.map_append]
    exact .ternary hc (h.has hq (by decide)) hy (h.has hcolon (by decide)) (MovesExpr.moved hn hj)
  | nullishPlain he hl => exact .nullishPlain (MovesExpr.moved he hj) (hj.lacks hl)
  | nullish hl hop hk hr =>
    have hne := kind_ne_eof hk (by decide)
    have hl := MovesExpr.moved hl (h.agree hop hne)
    rw [List.map_append]
    exact .nullish hl (h.at_down hop hne) hk (MovesExpr.moved hr hj)
  | binary he hn hchain =>
    obtain ⟨hm, hchain⟩ := binaryChain_extended h hchain hj
    rw [List.map_append]
    exact .binary (MovesExpr.moved he hm) (Nat.le_trans hn h.size_le) hchain
  | sign hop hk he =>
    have hop := h.at_down hop fun heof => by simp [heof, signs] at hk
    exact .sign hop hk (MovesExpr.moved he hj)
  | pre step hstep he =>
    have hstep := h.has hstep (by cases step <;> decide)
    rw [List.map_append, ← targetReports_down (h.placed (MovesExpr.reads he))]
    exact .pre step hstep (MovesExpr.moved he hj)
  | unaryPlain ht hk he =>
    obtain ⟨u, hu, hkind⟩ := (MovesExpr.agree h he hj).exists_at ht
    exact .unaryPlain hu (by rwa [hkind]) (MovesExpr.moved he hj)
  | powerPlain he hl => exact .powerPlain (MovesExpr.moved he hj) (hj.lacks hl)
  | power hb hop hk he =>
    have hne := kind_ne_eof hk (by decide)
    have hb := MovesExpr.moved hb (h.agree hop hne)
    rw [List.map_append]
    exact .power hb (h.at_down hop hne) hk (MovesExpr.moved he hj)
  | access he hn hchain =>
    obtain ⟨hm, hchain⟩ := accessChain_extended h hchain (MovesExpr.reads he) hj
    rw [List.map_append]
    exact .access (MovesExpr.moved he hm) (Nat.le_trans hn h.size_le) hchain
  | atom ht hk => exact .atom (h.at_down ht fun heof => by simp [heof, atoms] at hk) hk
  | group hopen he hclose =>
    have he := MovesExpr.moved he (h.agree_of_has hclose (by decide))
    exact .group (h.has hopen (by decide)) he (h.has hclose (by decide))
  | array hopen hes => exact .array (h.has hopen (by decide)) (MovesArgs.moved hes)
  | new hnew he => exact .new (h.has hnew (by decide)) (MovesExpr.moved he hj)
  | lambda hfn hnames hbody =>
    have hnames := MovesParams.moved hnames
    rw [List.map_append]
    exact .lambda (h.has hfn (by decide)) hnames (MovesBlock.moved hbody)
  | construction hnew hhead hk htail hlen hopen hargs =>
    have hstop := h.agree_of_has hopen (by decide)
    obtain ⟨-, htail⟩ := collected_extended (pathRound_extended h) htail hstop
    have hhead := h.at_down hhead (kind_ne_eof hk (by decide))
    rw [List.map_append]
    exact .construction (h.has hnew (by decide)) hhead hk htail (h.length_le hlen)
      (h.has hopen (by decide)) (MovesArgs.moved hargs)

end

end Grammar

end CommandShell
