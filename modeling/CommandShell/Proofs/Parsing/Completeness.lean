import CommandShell.Proofs.Parsing.Limits
import CommandShell.Proofs.Parsing.Yield
import CommandShell.Proofs.Phrases.Ranks

/-! # Completeness: every well formed expression is read

Where the tokens have the words of a well formed expression, and the token behind them does not go
on with it, the grammar reads that expression and stops behind it (`expr_of_words`).

The proof goes from the tightest rank to the loosest. An expression of some rank is read by the rule
of its rank, because its operands are read by the rules that it calls; and by every looser rule,
because the token behind it does not go on with it there. Chains are the exception: the rule of a
chain does not call itself for the left operand but reads the first operand of the whole chain, and
then goes on in rounds. So what is carried through the tree is that the first operand is read and
that rounds lead from it to the expression (`Grown`): `AccessSpine` and `OperatorSpine`. -/

namespace CommandShell

open CommandShell.Parser CommandShell.Grammar

/-! ### Words in the tokens -/

/-- From `i` up to `j` the tokens have the words of the pieces. -/
inductive Tokens.Spells (ts : Tokens) : Nat → List Piece → Nat → Prop
  | nil {i} : Spells ts i [] i
  | cons {i t p ps j} : ts.items.toList[i]? = some t → t.word = p.word → Spells ts (i + 1) ps j →
      Spells ts i (p :: ps) j

/-- The token at `j` does not go on with an expression of the rank. -/
def Tokens.Ends (ts : Tokens) (rank j : Nat) : Prop :=
  ∃ t, ts.At j t ∧ ∀ r ∈ t.kind.joins?, r < rank

namespace Tokens

variable {ts : Tokens} {i j k rank : Nat} {ps qs : List Piece} {p : Piece}

theorem at_of_getElem? {t : Token} (h : ts.items.toList[i]? = some t) : ts.At i t := by
  rw [Array.getElem?_toList] at h
  obtain ⟨hlt, hget⟩ := Array.getElem?_eq_some_iff.mp h
  rw [At, get, dif_pos hlt, hget]

theorem Spells.split : ∀ {ps : List Piece} {i : Nat}, ts.Spells i (ps ++ qs) k →
    ∃ j, ts.Spells i ps j ∧ ts.Spells j qs k
  | [], i, h => ⟨i, .nil, h⟩
  | _ :: _, _, .cons ht hword h => by
    obtain ⟨j, hps, hqs⟩ := h.split
    exact ⟨j, .cons ht hword hps, hqs⟩

theorem Spells.token (h : ts.Spells i (p :: ps) k) :
    ∃ t, ts.At i t ∧ t.word = p.word ∧ ts.Spells (i + 1) ps k := by
  cases h with
  | cons ht hword h => exact ⟨_, at_of_getElem? ht, hword, h⟩

theorem Spells.fixed {kind : Kind} (h : ts.Spells i (.fixed kind :: ps) k) :
    ts.Has i kind ∧ ts.Spells (i + 1) ps k := by
  obtain ⟨t, ht, hword, h⟩ := h.token
  exact ⟨⟨t, ht, congrArg Prod.fst hword⟩, h⟩

theorem Spells.eq_add (h : ts.Spells i ps j) : j = i + ps.length := by
  induction h with
  | nil => rfl
  | cons _ _ _ ih => rw [ih, List.length_cons]; omega

theorem Spells.le_size (h : ts.Spells i ps j) (hne : ps ≠ []) : j ≤ ts.items.size := by
  induction h with
  | nil => exact absurd rfl hne
  | @cons i t p ps j ht _ h ih =>
    obtain ⟨hlt, -⟩ := List.getElem?_eq_some_iff.mp ht
    rw [Array.length_toList] at hlt
    cases ps with
    | nil => cases h; omega
    | cons => exact ih (by simp)

/-- Words that the tokens begin with are spelled by them. -/
theorem spells_of_prefix : ∀ {ps : List Piece} {i : Nat},
    ps.map Piece.word <+: (ts.items.toList.drop i).map Token.word → ts.Spells i ps (i + ps.length)
  | [], _, _ => .nil
  | p :: ps, i, h => by
    rcases hdrop : ts.items.toList.drop i with _ | ⟨t, rest⟩
    · rw [hdrop] at h
      simp at h
    · rw [hdrop, List.map_cons, List.map_cons, List.cons_prefix_cons] at h
      obtain ⟨hword, hrest⟩ := h
      have hget : ts.items.toList[i]? = some t := by
        rw [← List.head?_drop, hdrop, List.head?_cons]
      have hdrop' : ts.items.toList.drop (i + 1) = rest := by
        rw [← List.tail_drop, hdrop, List.tail_cons]
      rw [← hdrop'] at hrest
      have htail := spells_of_prefix hrest
      rw [List.length_cons, ← Nat.add_assoc, Nat.add_right_comm]
      exact .cons hget hword.symm htail

theorem Ends.mono {rank' : Nat} (h : ts.Ends rank j) (hle : rank ≤ rank') : ts.Ends rank' j := by
  obtain ⟨t, ht, hjoins⟩ := h
  exact ⟨t, ht, fun r hr => Nat.lt_of_lt_of_le (hjoins r hr) hle⟩

theorem Has.ends {kind : Kind} (h : ts.Has j kind) (hk : ∀ r ∈ kind.joins?, r < rank) :
    ts.Ends rank j := by
  obtain ⟨t, ht, rfl⟩ := h
  exact ⟨t, ht, hk⟩

theorem Ends.lacks {kind : Kind} {r : Nat} (h : ts.Ends rank j) (hk : kind.joins? = some r)
    (hle : rank ≤ r) : ts.Lacks j kind := by
  obtain ⟨t, ht, hjoins⟩ := h
  refine ⟨t, ht, fun heq => ?_⟩
  have hlt := hjoins r (heq ▸ hk)
  omega

end Tokens

namespace Parser

/-- Rounds that make more of what there is, without the one that ends them. -/
inductive Grown {α : Type} (round : α → Shape (Option α)) : Nat → α → Nat → α → Nat → Prop
  | refl {a i} : Grown round 0 a i a i
  | more {n a i b j c k ds} : Grown round n a i b j → round b j (some c) k ds →
      Grown round (n + 1) a i c k

/-- Rounds, and a chain that goes on from where they lead. -/
theorem Grown.chained {α : Type} {round : α → Shape (Option α)} {n m i j k : Nat} {a b c : α}
    {ds : List Diagnostic} (h : Grown round n a i b j) (hchain : Chained round m b j c k ds) :
    ∃ ds', Chained round (n + m) a i c k ds' := by
  induction h generalizing m ds with
  | refl => exact ⟨ds, by rwa [Nat.zero_add]⟩
  | more _ hround ih =>
    obtain ⟨ds', hds⟩ := ih (.more hround hchain)
    exact ⟨ds', by rwa [Nat.add_right_comm] ⟩

end Parser

namespace Grammar

variable {ts : Tokens}

/-! ### What is carried through an expression -/

section
variable (ts : Tokens) (e : Expr)

/-- The rule, of some rank and some levels above the primary expressions, reads the expression if
this has the rank. -/
def Takes (rule : Rule Expr) (rank height : Nat) : Prop :=
  rank ≤ e.rank → ∀ (levels : Nat) {i j : Nat}, ts.Spells i e.pieces j → ts.Ends rank j →
    height + e.depth ≤ levels →
      ∃ e' ds, e.Alike e' ∧ Runs (parse levels rule) ts i e' j ds

/-- A primary expression is read from which accesses, calls and steps lead to the expression. -/
def AccessSpine : Prop :=
  13 ≤ e.rank → ∀ (levels : Nat) {i j : Nat}, ts.Spells i e.pieces j → 1 + e.depth ≤ levels →
    ∃ e' head k ds n, e.Alike e' ∧ Runs (parse levels .primary) ts i head k ds ∧
      Grown (AccessRound (runsOf (parse levels) ts) ts) n head k e' j ∧ i + n ≤ j

/-- An operand is read from which operators of at least the precedence lead to the expression. -/
def OperatorSpine : Prop :=
  ∀ (levels p : Nat) {i j : Nat}, p + 1 ≤ e.rank → ts.Spells i e.pieces j →
    ts.Ends (min 12 (e.rank + 1)) j → 4 + e.depth ≤ levels →
    ∃ e' left k ds n, e.Alike e' ∧ Runs (parse levels .unary) ts i left k ds ∧
      Grown (BinaryRound (runsOf (parse levels) ts) ts p) n left k e' j ∧ i + n ≤ j

/-- Every rule whose rank the expression has reads it. -/
structure Complete : Prop where
  accesses : AccessSpine ts e
  unary : Takes ts e .unary 12 4
  operators : 2 ≤ e.rank → OperatorSpine ts e
  nullish : Takes ts e .nullish 1 6
  ternary : Takes ts e .ternary 0 7

end

/-! ### From a rule to the looser ones -/

section
variable {e : Expr}

theorem AccessSpine.access (h : AccessSpine ts e) : Takes ts e .access 13 2 := by
  intro hrank levels i j hspell hends hlevels
  obtain ⟨levels, rfl⟩ : ∃ m, levels = m + 1 := ⟨levels - 1, by omega⟩
  obtain ⟨e', head, k, ds, n, halike, hhead, hgrown, hn⟩ := h hrank levels hspell (by omega)
  obtain ⟨t, ht, hjoins⟩ := hends
  have hstop : t.kind ∉ accessKinds := by
    intro hmem
    have hlt := hjoins 13 (joins?_of_access hmem)
    omega
  obtain ⟨ds', hchain⟩ := hgrown.chained (.stop (.stop ht hstop))
  have hsize := hspell.le_size e.pieces_ne_nil
  exact ⟨e', _, halike, runsOf_succ trivial (ExprRun.access hhead (by omega) hchain)⟩

/-- What an operand without a sign begins with is no sign. -/
theorem no_sign_of_access {levels i j : Nat} {e : Expr} {ds : List Diagnostic}
    (hrun : Runs (parse levels .access) ts i e j ds) :
    ∃ t, ts.At i t ∧ t.kind ∉ signs ++ [.increment, .decrement] := by
  have hfits : Rule.access.Fits ts i := trivial
  obtain ⟨t, ht, hk⟩ := (firsts_closed ts).parse levels hfits hrun
  refine ⟨t, ht, fun hin => ?_⟩
  revert hk hin
  cases t.kind <;> decide

/-- What is read as a power is read as an operand, for it begins with no sign. -/
theorem unary_of_power {levels i j k : Nat} {base e : Expr} {ds₁ ds₂ : List Diagnostic}
    (hbase : Runs (parse levels .access) ts i base k ds₁)
    (hrun : Runs (parse (levels + 1) .power) ts i e j ds₂) :
    Runs (parse (levels + 2) .unary) ts i e j ds₂ := by
  obtain ⟨t, ht, hk⟩ := no_sign_of_access hbase
  exact runsOf_succ trivial (ExprRun.unaryPlain ht hk hrun)

theorem AccessSpine.unary (h : AccessSpine ts e) (hrank : 13 ≤ e.rank) :
    Takes ts e .unary 12 4 := by
  intro _ levels i j hspell hends hlevels
  obtain ⟨levels, rfl⟩ : ∃ m, levels = m + 2 := ⟨levels - 2, by omega⟩
  obtain ⟨e', ds, halike, haccess⟩ :=
    h.access hrank levels hspell (hends.mono (by omega)) (by omega)
  have hpower : Runs (parse (levels + 1) .power) ts i e' j ds :=
    runsOf_succ trivial (ExprRun.powerPlain haccess (hends.lacks rfl (by omega)))
  exact ⟨e', ds, halike, unary_of_power haccess hpower⟩

/-- An operand is a chain of operators without rounds. -/
theorem Takes.operators (h : Takes ts e .unary 12 4) (hrank : 12 ≤ e.rank) :
    OperatorSpine ts e := by
  intro levels p i j _ hspell hends hlevels
  have hends : ts.Ends 12 j := hends.mono (by omega)
  obtain ⟨e', ds, halike, hrun⟩ := h hrank levels hspell hends hlevels
  have hij := hspell.eq_add
  exact ⟨e', e', j, ds, 0, halike, hrun, .refl, by omega⟩

/-- A chain of operators of at least the precedence. -/
theorem OperatorSpine.binary (h : OperatorSpine ts e) {p : Nat} (hp : p ≤ 11) :
    Takes ts e (.binary p) (p + 1) 5 := by
  intro hrank levels i j hspell hends hlevels
  obtain ⟨levels, rfl⟩ : ∃ m, levels = m + 1 := ⟨levels - 1, by omega⟩
  obtain ⟨e', left, k, ds, n, halike, hleft, hgrown, hn⟩ :=
    h levels p hrank hspell (hends.mono (by omega)) (by omega)
  obtain ⟨t, ht, hjoins⟩ := hends
  have hstop : ∀ q ∈ t.kind.precedence?, q < p := by
    intro q hq
    have hlt := hjoins (q + 1) (joins?_of_precedence hq)
    omega
  obtain ⟨ds', hchain⟩ := hgrown.chained (.stop (.stop ht hstop))
  have hsize := hspell.le_size e.pieces_ne_nil
  exact ⟨e', _, halike, runsOf_succ trivial (ExprRun.binary hleft (by omega) hchain)⟩

theorem OperatorSpine.nullish (h : OperatorSpine ts e) (hrank : 2 ≤ e.rank) :
    Takes ts e .nullish 1 6 := by
  intro _ levels i j hspell hends hlevels
  obtain ⟨levels, rfl⟩ : ∃ m, levels = m + 1 := ⟨levels - 1, by omega⟩
  obtain ⟨e', ds, halike, hrun⟩ :=
    h.binary (by omega) hrank levels hspell (hends.mono (by omega)) (by omega)
  exact ⟨e', ds, halike,
    runsOf_succ trivial (ExprRun.nullishPlain hrun (hends.lacks rfl (by omega)))⟩

theorem Takes.ternary (h : Takes ts e .nullish 1 6) (hrank : 1 ≤ e.rank) :
    Takes ts e .ternary 0 7 := by
  intro _ levels i j hspell hends hlevels
  obtain ⟨levels, rfl⟩ : ∃ m, levels = m + 1 := ⟨levels - 1, by omega⟩
  obtain ⟨e', ds, halike, hrun⟩ := h hrank levels hspell (hends.mono (by omega)) (by omega)
  exact ⟨e', ds, halike,
    runsOf_succ trivial (ExprRun.ternaryPlain hrun (hends.lacks rfl (by omega)))⟩

theorem Complete.expr (h : Complete ts e) : Takes ts e .expr 0 8 := by
  intro hrank levels i j hspell hends hlevels
  obtain ⟨levels, rfl⟩ : ∃ m, levels = m + 1 := ⟨levels - 1, by omega⟩
  obtain ⟨e', ds, halike, hrun⟩ := h.ternary hrank levels hspell hends (by omega)
  exact ⟨e', ds, halike, runsOf_succ trivial (ExprRun.expr hrun)⟩

/-! The rule of the rank of an expression is enough: the tighter rules are not asked for it, and the
looser ones follow. -/

theorem complete_of_ternary (hrank : e.rank = 0) (h : Takes ts e .ternary 0 7) :
    Complete ts e where
  accesses := by intro; omega
  unary := by intro; omega
  operators := by omega
  nullish := by intro; omega
  ternary := h

theorem complete_of_nullish (hrank : e.rank = 1) (h : Takes ts e .nullish 1 6) :
    Complete ts e where
  accesses := by intro; omega
  unary := by intro; omega
  operators := by omega
  nullish := h
  ternary := h.ternary (by omega)

theorem complete_of_operators (hlow : 2 ≤ e.rank) (hhigh : e.rank ≤ 11)
    (h : OperatorSpine ts e) : Complete ts e where
  accesses := by intro; omega
  unary := by intro; omega
  operators _ := h
  nullish := h.nullish hlow
  ternary := (h.nullish hlow).ternary (by omega)

theorem complete_of_unary (hrank : e.rank = 12) (h : Takes ts e .unary 12 4) :
    Complete ts e where
  accesses := by intro; omega
  unary := h
  operators _ := h.operators (by omega)
  nullish := (h.operators (by omega)).nullish (by omega)
  ternary := ((h.operators (by omega)).nullish (by omega)).ternary (by omega)

theorem complete_of_accesses (hrank : 13 ≤ e.rank) (h : AccessSpine ts e) : Complete ts e where
  accesses := h
  unary := h.unary hrank
  operators _ := (h.unary hrank).operators (by omega)
  nullish := ((h.unary hrank).operators (by omega)).nullish (by omega)
  ternary := (((h.unary hrank).operators (by omega)).nullish (by omega)).ternary (by omega)

end

/-! ### Lists -/

theorem closer_ne_eof {closer : Kind} (h : closer ∈ [Kind.rparen, .rsquare]) : closer ≠ .eof := by
  rintro rfl
  revert h
  decide

section
variable {es : List Expr} (hes : ∀ e ∈ es, Complete ts e) {closer : Kind}
  (hcloser : closer ∈ [Kind.rparen, .rsquare])
include hes hcloser

/-- The expressions of a list that are left, each behind a comma, up to the closing bracket. -/
theorem more_complete (levels : Nat) : ∀ {i j : Nat},
    ts.Spells i ((exprPieces es).flatMap (.fixed .comma :: ·) ++ [.fixed closer]) j →
    8 + exprsDepth es ≤ levels → ts.Ends 0 i ∧ ∃ es' k ds, ExprsAlike es es' ∧
      Collected (MoreRound ts (Runs (parse levels .expr) ts)) i es' k ds ∧ ts.Has k closer ∧
      j = k + 1 ∧ i + es'.length ≤ k := by
  induction es with
  | nil =>
    intro i j hspell _
    obtain ⟨hclose, hspell⟩ := Tokens.Spells.fixed hspell
    have hnil := hspell.eq_add
    have hjoins : closer.joins? = none := by revert hcloser; cases closer <;> decide
    have hcomma : closer ≠ .comma := by rintro rfl; simp at hcloser
    refine ⟨hclose.ends (by simp [hjoins]), [], i, [], rfl, .stop (.stop ?_), hclose, ?_, ?_⟩
    · exact hclose.lacks hcomma
    · simpa using hnil
    · simp
  | cons e es ih =>
    intro i j hspell hlevels
    rw [exprPieces, List.flatMap_cons, List.append_assoc] at hspell
    obtain ⟨hcomma, hspell⟩ := Tokens.Spells.fixed hspell
    obtain ⟨k, hfirst, hrest⟩ := Tokens.Spells.split hspell
    have hdepth : exprsDepth (e :: es) = max e.depth (exprsDepth es) := rfl
    obtain ⟨hends, es', l, ds₂, halikes, hmore, hclose, hj, hl⟩ :=
      ih (fun e he => hes e (List.mem_cons_of_mem _ he)) hrest (by omega)
    have he := (hes e List.mem_cons_self).expr
    obtain ⟨e', ds₁, halike, hrun⟩ := he (Nat.zero_le _) levels hfirst hends (by omega)
    have hk := hfirst.eq_add
    refine ⟨hcomma.ends (by decide), e' :: es', l, _, .cons halike halikes,
      .more (.more hcomma hrun) hmore, hclose, hj, ?_⟩
    rw [List.length_cons]
    omega

/-- Arguments are read, and where there are any the closing bracket does not come first. -/
theorem args_complete (levels : Nat) {i j : Nat}
    (hspell : ts.Spells i (Piece.separated .comma (exprPieces es) ++ [.fixed closer]) j)
    (hlevels : 9 + exprsDepth es ≤ levels) : ∃ es' ds, ExprsAlike es es' ∧
      Runs (parse levels (.args closer)) ts i es' j ds ∧ (es ≠ [] → ts.Lacks i closer) := by
  obtain ⟨levels, rfl⟩ : ∃ m, levels = m + 1 := ⟨levels - 1, by omega⟩
  have hfits : (Rule.args closer).Fits ts i := closer_ne_eof hcloser
  cases es with
  | nil =>
    obtain ⟨hclose, hspell⟩ := Tokens.Spells.fixed hspell
    have hj := hspell.eq_add
    rw [List.length_nil, Nat.add_zero] at hj
    subst hj
    exact ⟨[], [], rfl, runsOf_succ hfits (ArgsRun.none hclose), fun hne => absurd rfl hne⟩
  | cons e es =>
    have hdepth : exprsDepth (e :: es) = max e.depth (exprsDepth es) := rfl
    rw [exprPieces, Piece.separated, List.append_assoc] at hspell
    obtain ⟨k, hfirst, hrest⟩ := hspell.split
    have hothers : ∀ e ∈ es, Complete ts e := fun e he => hes e (List.mem_cons_of_mem _ he)
    obtain ⟨hends, es', l, ds₂, halikes, hmore, hclose, rfl, hl⟩ :=
      more_complete hothers hcloser levels hrest (by omega)
    have he := (hes e List.mem_cons_self).expr
    obtain ⟨e', ds₁, halike, hrun⟩ := he (Nat.zero_le _) levels hfirst hends (by omega)
    have hfits' : Rule.expr.Fits ts i := trivial
    obtain ⟨t, ht, hk⟩ := (firsts_closed ts).parse levels hfits' hrun
    have hlacks : ts.Lacks i closer := by
      refine ⟨t, ht, fun heq => ?_⟩
      rw [heq] at hk
      revert hk hcloser
      cases closer <;> decide
    have hsize := hspell.le_size (by simp)
    have hrow : Separated ts (Runs (parse levels .expr) ts) i (e' :: es') l (ds₁ ++ ds₂) :=
      .mk hrun hmore (by omega)
    have hargs : ArgsRun (runsOf (parse levels) ts) ts closer i (e' :: es') (l + 1) (ds₁ ++ ds₂) :=
      .some hlacks hrow hclose
    exact ⟨e' :: es', _, .cons halike halikes, runsOf_succ hfits hargs, fun _ => hlacks⟩

end

/-- The rest of a dotted name, in front of something that does not begin with a dot. -/
theorem path_complete {qs : List Piece} {l : Nat} : ∀ {tail : List Token} {i : Nat},
    ts.Spells i ((tail.map ([Piece.token ·])).flatMap (.fixed .dot :: ·) ++ qs) l →
    (∀ t ∈ tail, t.kind = .ident) → (∀ k, ts.Spells k qs l → ts.Lacks k .dot) →
      ∃ tail' k ds, tail'.map Token.unplaced = tail.map Token.unplaced ∧
        Collected (PathRound ts) i tail' k ds ∧ ts.Spells k qs l ∧ i + tail'.length ≤ k
  | [], i, hspell, _, hqs => ⟨[], i, [], rfl, .stop (.stop (hqs i hspell)), hspell, Nat.le_refl i⟩
  | t :: tail, i, hspell, htail, hqs => by
    obtain ⟨hdot, hspell⟩ := Tokens.Spells.fixed hspell
    obtain ⟨u, hu, hword, hspell⟩ := hspell.token
    obtain ⟨tail', k, ds, halike, hmore, hrest, hk⟩ :=
      path_complete hspell (fun t ht => htail t (List.mem_cons_of_mem _ ht)) hqs
    have hident : u.kind = .ident :=
      (congrArg Prod.fst hword).trans (htail t List.mem_cons_self)
    refine ⟨u :: tail', k, _, ?_, .more (.more hdot hu hident) hmore, hrest, ?_⟩
    · rw [List.map_cons, List.map_cons, halike, unplaced_of_word hword]
    · rw [List.length_cons]
      omega

/-! ### Expressions by their form -/

section
variable {e : Expr}

/-- A primary expression is a chain of accesses without rounds. -/
theorem accessSpine_of_primary (h : ∀ (levels : Nat) {i j : Nat}, ts.Spells i e.pieces j →
    1 + e.depth ≤ levels → ∃ e' ds, e.Alike e' ∧ Runs (parse levels .primary) ts i e' j ds) :
    AccessSpine ts e := by
  intro _ levels i j hspell hlevels
  obtain ⟨e', ds, halike, hrun⟩ := h levels hspell hlevels
  have hij := hspell.eq_add
  exact ⟨e', e', j, ds, 0, halike, hrun, .refl, by omega⟩

theorem spine_atom {t : Token} (hk : t.kind ∈ atoms) : AccessSpine ts (.atom t) := by
  refine accessSpine_of_primary fun levels i j hspell hlevels => ?_
  obtain ⟨levels, rfl⟩ : ∃ m, levels = m + 1 := ⟨levels - 1, by omega⟩
  obtain ⟨u, hu, hword, hspell⟩ := Tokens.Spells.token hspell
  obtain rfl := hspell.eq_add
  have hkind : u.kind ∈ atoms := by rwa [show u.kind = t.kind from congrArg Prod.fst hword]
  have halike : (Expr.atom t).Alike (.atom u) := congrArg Tree.token (unplaced_of_word hword)
  exact ⟨.atom u, [], halike, runsOf_succ trivial (ExprRun.atom hu hkind)⟩

theorem spine_group (he : Complete ts e) : AccessSpine ts (.group e) := by
  refine accessSpine_of_primary fun levels i j hspell hlevels => ?_
  obtain ⟨levels, rfl⟩ : ∃ m, levels = m + 1 := ⟨levels - 1, by omega⟩
  have hdepth : (Expr.group e).depth = 8 + e.depth := rfl
  obtain ⟨hopen, hspell⟩ := Tokens.Spells.fixed hspell
  obtain ⟨k, hinner, hspell⟩ := hspell.split
  obtain ⟨hclose, hspell⟩ := hspell.fixed
  obtain rfl := hspell.eq_add
  obtain ⟨e', ds, halike, hrun⟩ :=
    he.expr (Nat.zero_le _) levels hinner (hclose.ends (by decide)) (by omega)
  exact ⟨.group e', ds, congrArg (fun t => Tree.node "group" [t]) halike,
    runsOf_succ trivial (ExprRun.group hopen hrun hclose)⟩

theorem spine_array {es : List Expr} (hes : ∀ e ∈ es, Complete ts e) :
    AccessSpine ts (.array es) := by
  refine accessSpine_of_primary fun levels i j hspell hlevels => ?_
  obtain ⟨levels, rfl⟩ : ∃ m, levels = m + 1 := ⟨levels - 1, by omega⟩
  have hdepth : (Expr.array es).depth = 9 + exprsDepth es := rfl
  obtain ⟨hopen, hargs⟩ := Tokens.Spells.fixed hspell
  obtain ⟨es', ds, halike, hrun, -⟩ := args_complete hes (by decide) levels hargs (by omega)
  exact ⟨.array es', ds, congrArg (Tree.node "array") halike,
    runsOf_succ trivial (ExprRun.array hopen hrun)⟩

theorem unplacedAll_tokens (ts : List Token) :
    Tree.unplacedAll (ts.map .token) = (ts.map Token.unplaced).map .token := by
  induction ts with
  | nil => rfl
  | cons t ts ih => rw [List.map_cons, Tree.unplacedAll, ih]; rfl

theorem spine_new {path : List Token} {args : List Expr} (hne : path ≠ [])
    (hpath : ∀ t ∈ path, t.kind = .ident) (hargs : ∀ e ∈ args, Complete ts e) :
    AccessSpine ts (.new path args) := by
  refine accessSpine_of_primary fun levels i j hspell hlevels => ?_
  have hdepth : (Expr.new path args).depth = 10 + exprsDepth args := rfl
  obtain ⟨levels, rfl⟩ : ∃ m, levels = m + 2 := ⟨levels - 2, by omega⟩
  have hsize := hspell.le_size (Expr.pieces_ne_nil _)
  obtain ⟨head, tail, rfl⟩ := List.exists_cons_of_ne_nil hne
  obtain ⟨hnew, hspell⟩ := Tokens.Spells.fixed hspell
  rw [List.map_cons, Piece.separated, List.append_assoc] at hspell
  obtain ⟨u, hu, hword, hspell⟩ := Tokens.Spells.token hspell
  have hident : u.kind = .ident :=
    (congrArg Prod.fst hword).trans (hpath head List.mem_cons_self)
  obtain ⟨tail', k, ds₁, htail, hmore, hspell, hk⟩ := path_complete hspell
    (fun t ht => hpath t (List.mem_cons_of_mem _ ht))
    fun k hrest => (Tokens.Spells.fixed hrest).1.lacks (by decide)
  obtain ⟨hopen, hspell⟩ := Tokens.Spells.fixed hspell
  have hkj := hspell.eq_add
  obtain ⟨args', ds₂, halike, hrun, -⟩ := args_complete hargs (by decide) levels hspell (by omega)
  have hconstruction : Runs (parse (levels + 1) .construction) ts i (.new (u :: tail') args') j
      (ds₁ ++ ds₂) :=
    runsOf_succ trivial (ExprRun.construction hnew hu hident hmore (by omega) hopen hrun)
  have hname : Tree.unplacedAll ((u :: tail').map .token) =
      Tree.unplacedAll ((head :: tail).map .token) := by
    rw [unplacedAll_tokens, unplacedAll_tokens, List.map_cons, List.map_cons, htail,
      unplaced_of_word hword]
    rfl
  exact ⟨.new (u :: tail') args', _,
    congrArg₂ (fun ns es => Tree.node "new" [.node "type_name" ns, .node "args" es]) hname halike,
    runsOf_succ trivial (ExprRun.new hnew hconstruction)⟩

/-- An access more at the end of a chain of accesses. -/
theorem AccessSpine.more {f : Expr} {p : Piece} {ps : List Piece} (h : AccessSpine ts e)
    (hrank : 13 ≤ e.rank) (hpieces : f.pieces = e.pieces ++ p :: ps) (hdepth : e.depth ≤ f.depth)
    (hround : ∀ (levels : Nat) {e' : Expr} {k j : Nat}, e.Alike e' → ts.Spells k (p :: ps) j →
      1 + f.depth ≤ levels → ∃ f' ds, f.Alike f' ∧
        AccessRound (runsOf (parse levels) ts) ts e' k (some f') j ds) : AccessSpine ts f := by
  intro _ levels i j hspell hlevels
  rw [hpieces] at hspell
  obtain ⟨k, htarget, hlast⟩ := hspell.split
  obtain ⟨e', head, l, ds, n, halike, hhead, hgrown, hn⟩ :=
    h hrank levels htarget (by omega)
  obtain ⟨f', ds', halike', hmore⟩ := hround levels halike hlast hlevels
  have hkj := hlast.eq_add
  rw [List.length_cons] at hkj
  exact ⟨f', head, l, ds, n + 1, halike', hhead, hgrown.more hmore, by omega⟩

theorem spine_member {safe : Bool} {name : Token} (hrank : 13 ≤ e.rank) (he : Complete ts e)
    (hname : name.kind = .ident) : AccessSpine ts (.member safe e name) := by
  refine he.accesses.more hrank rfl (Nat.le_refl _) fun levels e' k j halike hspell _ => ?_
  obtain ⟨hdot, hspell⟩ := hspell.fixed
  obtain ⟨u, hu, hword, hspell⟩ := hspell.token
  obtain rfl := hspell.eq_add
  have hident : u.kind = .ident := (congrArg Prod.fst hword).trans hname
  exact ⟨.member safe e' u, [],
    congrArg₂ (fun t u => Tree.node (accessLabel safe "member") [t, .token u]) halike
      (unplaced_of_word hword),
    .member safe hdot hu hident⟩

theorem spine_call {safe : Bool} {args : List Expr} (hrank : 13 ≤ e.rank) (he : Complete ts e)
    (hargs : ∀ e ∈ args, Complete ts e) : AccessSpine ts (.call safe e args) := by
  have hdepth : (Expr.call safe e args).depth = max e.depth (8 + exprsDepth args) := rfl
  refine he.accesses.more hrank rfl (by omega) fun levels e' k j halike hspell hlevels => ?_
  obtain ⟨hopen, hspell⟩ := hspell.fixed
  obtain ⟨args', ds, halikes, hrun, -⟩ := args_complete hargs (by decide) levels hspell (by omega)
  exact ⟨.call safe e' args', ds,
    congrArg₂ (fun t es => Tree.node (accessLabel safe "call") [t, .node "args" es]) halike halikes,
    .call safe hopen hrun⟩

theorem spine_index {safe : Bool} {args : List Expr} (hrank : 13 ≤ e.rank) (he : Complete ts e)
    (hne : args ≠ []) (hargs : ∀ e ∈ args, Complete ts e) :
    AccessSpine ts (.index safe e args) := by
  have hdepth : (Expr.index safe e args).depth = max e.depth (8 + exprsDepth args) := rfl
  refine he.accesses.more hrank rfl (by omega) fun levels e' k j halike hspell hlevels => ?_
  obtain ⟨hopen, hspell⟩ := hspell.fixed
  obtain ⟨args', ds, halikes, hrun, hlacks⟩ :=
    args_complete hargs (by decide) levels hspell (by omega)
  exact ⟨.index safe e' args', ds,
    congrArg₂ (fun t es => Tree.node (accessLabel safe "index") [t, .node "args" es]) halike
      halikes,
    .index safe hopen (hlacks hne) hrun⟩

theorem spine_post {step : Step} (hrank : 13 ≤ e.rank) (he : Complete ts e) :
    AccessSpine ts (.post step e) := by
  refine he.accesses.more hrank rfl (Nat.le_refl _) fun levels e' k j halike hspell _ => ?_
  obtain ⟨hstep, hspell⟩ := hspell.fixed
  obtain rfl := hspell.eq_add
  refine ⟨.post step e', _, ?_, .post step hstep⟩
  cases step with
  | up => exact congrArg (fun t => Tree.node "post_incr" [t]) halike
  | down => exact congrArg (fun t => Tree.node "post_decr" [t]) halike

theorem takes_sign {op : Token} (hop : op.kind ∈ signs) (hrank : 12 ≤ e.rank)
    (he : Complete ts e) : Takes ts (.unary op e) .unary 12 4 := by
  intro _ levels i j hspell hends hlevels
  obtain ⟨levels, rfl⟩ : ∃ m, levels = m + 1 := ⟨levels - 1, by omega⟩
  have hdepth : (Expr.unary op e).depth = 1 + e.depth := rfl
  obtain ⟨u, hu, hword, hspell⟩ := Tokens.Spells.token hspell
  have hsign : u.kind ∈ signs := by rwa [show u.kind = op.kind from congrArg Prod.fst hword]
  obtain ⟨e', ds, halike, hrun⟩ := he.unary hrank levels hspell hends (by omega)
  exact ⟨.unary u e', ds,
    congrArg₂ (fun u t => Tree.node "unary" [.token u, t]) (unplaced_of_word hword) halike,
    runsOf_succ trivial (ExprRun.sign hu hsign hrun)⟩

theorem takes_pre {step : Step} (hrank : 12 ≤ e.rank) (he : Complete ts e) :
    Takes ts (.pre step e) .unary 12 4 := by
  intro _ levels i j hspell hends hlevels
  obtain ⟨levels, rfl⟩ : ∃ m, levels = m + 1 := ⟨levels - 1, by omega⟩
  have hdepth : (Expr.pre step e).depth = 1 + e.depth := rfl
  obtain ⟨hstep, hspell⟩ := Tokens.Spells.fixed hspell
  obtain ⟨e', ds, halike, hrun⟩ := he.unary hrank levels hspell hends (by omega)
  refine ⟨.pre step e', _, ?_, runsOf_succ trivial (ExprRun.pre step hstep hrun)⟩
  cases step with
  | up => exact congrArg (fun t => Tree.node "pre_incr" [t]) halike
  | down => exact congrArg (fun t => Tree.node "pre_decr" [t]) halike

end

/-! ### Operators -/

section
variable {l r : Expr} {op : Token}

theorem alike_binary {l' r' : Expr} {op' : Token} (hl : l.Alike l') (hop : op'.word = op.word)
    (hr : r.Alike r') : (Expr.binary l op r).Alike (.binary l' op' r') := by
  have hword := unplaced_of_word hop
  rw [Expr.Alike] at hl hr ⊢
  rw [Expr.tree, Expr.tree, Tree.unplaced, Tree.unplaced]
  simp only [Tree.unplacedAll, Tree.unplaced, hl, hr, hword]

theorem takes_power (hop : op.kind = .power) (hl : Complete ts l) (hr : Complete ts r)
    (hleft : 13 ≤ l.rank) (hright : 12 ≤ r.rank) : Takes ts (.binary l op r) .unary 12 4 := by
  intro _ levels i j hspell hends hlevels
  obtain ⟨levels, rfl⟩ : ∃ m, levels = m + 2 := ⟨levels - 2, by omega⟩
  have hdepth : (Expr.binary l op r).depth = max l.depth (2 + r.depth) := rfl
  obtain ⟨k, hbase, hspell⟩ := Tokens.Spells.split hspell
  obtain ⟨u, hu, hword, hexponent⟩ := hspell.token
  have hkind : u.kind = .power := (congrArg Prod.fst hword).trans hop
  have hjoins : ts.Ends 13 k := Tokens.Has.ends ⟨u, hu, hkind⟩ (by decide)
  obtain ⟨l', ds₁, hlike, hlrun⟩ :=
    hl.accesses.access hleft levels hbase hjoins (by omega)
  obtain ⟨r', ds₂, hrlike, hrrun⟩ := hr.unary hright levels hexponent hends (by omega)
  have hpower : Runs (parse (levels + 1) .power) ts i (.binary l' u r') j (ds₁ ++ ds₂) :=
    runsOf_succ trivial (ExprRun.power hlrun hu hkind hrrun)
  exact ⟨.binary l' u r', _, alike_binary hlike hword hrlike, unary_of_power hlrun hpower⟩

/-- One more operator at the end of a chain. -/
theorem operatorSpine_binary {q : Nat} (hop : op.kind.precedence? = some q) (hl : Complete ts l)
    (hr : Complete ts r) (hleft : q + 1 ≤ l.rank) (hright : q + 2 ≤ r.rank) :
    OperatorSpine ts (.binary l op r) := by
  intro levels p i j hp hspell hends hlevels
  have hq := precedence_bounds hop
  have hjoins := joins?_of_precedence hop
  have hrank : (Expr.binary l op r).rank = q + 1 := by rw [Expr.rank, hjoins, Option.getD_some]
  have hdepth : (Expr.binary l op r).depth = max l.depth (2 + r.depth) := rfl
  obtain ⟨k, hfirst, hspell⟩ := Tokens.Spells.split hspell
  obtain ⟨u, hu, hword, hlast⟩ := hspell.token
  have hkind : u.kind = op.kind := congrArg Prod.fst hword
  -- The operator goes on with its own rank only, which is below that of the left operand.
  have hbefore : ts.Ends (min 12 (l.rank + 1)) k :=
    Tokens.Has.ends ⟨u, hu, hkind⟩ (by rw [hjoins]; simp; omega)
  obtain ⟨l', left, m, ds, n, hlike, hhead, hgrown, hn⟩ :=
    hl.operators (by omega) levels p (by omega) hfirst hbefore (by omega)
  have hbehind : ts.Ends (q + 2) j := hends.mono (by omega)
  have hbinary := (hr.operators (by omega)).binary (p := q + 1) (by omega)
  obtain ⟨r', ds', hrlike, hrrun⟩ := hbinary hright levels hlast hbehind (by omega)
  have hij := hlast.eq_add
  refine ⟨.binary l' u r', left, m, ds, n + 1, alike_binary hlike hword hrlike, hhead,
    hgrown.more (.more hu (hkind ▸ hop) (by omega) hrrun), by omega⟩

theorem takes_nullish (hop : op.kind = .nullish) (hl : Complete ts l) (hr : Complete ts r)
    (hleft : 2 ≤ l.rank) (hright : 1 ≤ r.rank) : Takes ts (.binary l op r) .nullish 1 6 := by
  intro _ levels i j hspell hends hlevels
  obtain ⟨levels, rfl⟩ : ∃ m, levels = m + 1 := ⟨levels - 1, by omega⟩
  have hdepth : (Expr.binary l op r).depth = max l.depth (2 + r.depth) := rfl
  obtain ⟨k, hfirst, hspell⟩ := Tokens.Spells.split hspell
  obtain ⟨u, hu, hword, hlast⟩ := hspell.token
  have hkind : u.kind = .nullish := (congrArg Prod.fst hword).trans hop
  have hbefore : ts.Ends 2 k := Tokens.Has.ends ⟨u, hu, hkind⟩ (by decide)
  have hbinary := (hl.operators hleft).binary (p := 1) (by omega)
  obtain ⟨l', ds₁, hlike, hlrun⟩ := hbinary hleft levels hfirst hbefore (by omega)
  obtain ⟨r', ds₂, hrlike, hrrun⟩ := hr.nullish hright levels hlast hends (by omega)
  exact ⟨.binary l' u r', _, alike_binary hlike hword hrlike,
    runsOf_succ trivial (ExprRun.nullish hlrun hu hkind hrrun)⟩

theorem takes_ternary {c y n : Expr} (hc : Complete ts c) (hy : Complete ts y)
    (hn : Complete ts n) (hcond : 1 ≤ c.rank) : Takes ts (.ternary c y n) .ternary 0 7 := by
  intro _ levels i j hspell hends hlevels
  obtain ⟨levels, rfl⟩ : ∃ m, levels = m + 1 := ⟨levels - 1, by omega⟩
  have hdepth : (Expr.ternary c y n).depth = max c.depth (2 + max y.depth n.depth) := rfl
  obtain ⟨k, hfirst, hspell⟩ := Tokens.Spells.split hspell
  obtain ⟨hq, hspell⟩ := Tokens.Spells.fixed hspell
  obtain ⟨m, hsecond, hspell⟩ := hspell.split
  obtain ⟨hcolon, hthird⟩ := hspell.fixed
  obtain ⟨c', ds₁, hclike, hcrun⟩ :=
    hc.nullish hcond levels hfirst (hq.ends (by decide)) (by omega)
  obtain ⟨y', ds₂, hylike, hyrun⟩ :=
    hy.expr (Nat.zero_le _) levels hsecond (hcolon.ends (by decide)) (by omega)
  obtain ⟨n', ds₃, hnlike, hnrun⟩ := hn.ternary (Nat.zero_le _) levels hthird hends (by omega)
  have halike : (Expr.ternary c y n).Alike (.ternary c' y' n') := by
    rw [Expr.Alike] at hclike hylike hnlike ⊢
    rw [Expr.tree, Expr.tree, Tree.unplaced, Tree.unplaced]
    simp only [Tree.unplacedAll, hclike, hylike, hnlike]
  exact ⟨.ternary c' y' n', _, halike,
    runsOf_succ trivial (ExprRun.ternary hcrun hq hyrun hcolon hnrun)⟩

/-- An operator between operands of ranks that it may stand between. -/
theorem complete_binary (hbinds : op.kind.Binds l.rank r.rank) (hl : Complete ts l)
    (hr : Complete ts r) : Complete ts (.binary l op r) := by
  have hrank : (Expr.binary l op r).rank = op.kind.joins?.getD 0 := rfl
  cases hbinds with
  | nullish hop hleft hright =>
    exact complete_of_nullish (by rw [hrank, hop]; rfl) (takes_nullish hop hl hr hleft hright)
  | power hop hleft hright =>
    exact complete_of_unary (by rw [hrank, hop]; rfl) (takes_power hop hl hr hleft hright)
  | precedence hop hleft hright =>
    have hbounds := precedence_bounds hop
    rw [joins?_of_precedence hop, Option.getD_some] at hrank
    exact complete_of_operators (by omega) (by omega)
      (operatorSpine_binary hop hl hr hleft hright)

end

/-! ### All expressions -/

mutual

/-- **A well formed expression is read by every rule whose rank it has.** -/
theorem complete_of_wellFormed (ts : Tokens) : ∀ e : Expr, e.WellFormed → Complete ts e
  | .atom _, hk => complete_of_accesses (Nat.le_succ 13) (spine_atom hk)
  | .group e, he => by
    have hinner := complete_of_wellFormed ts e he
    exact complete_of_accesses (Nat.le_succ 13) (spine_group hinner)
  | .array items, hitems => by
    have hall := completes_of_wellFormed ts items hitems
    exact complete_of_accesses (Nat.le_succ 13) (spine_array hall)
  | .new _ args, ⟨hne, hpath, hargs⟩ => by
    have hall := completes_of_wellFormed ts args hargs
    exact complete_of_accesses (Nat.le_succ 13) (spine_new hne hpath hall)
  | .member _ e _, ⟨hrank, he, hname⟩ => by
    have htarget := complete_of_wellFormed ts e he
    exact complete_of_accesses (Nat.le_refl 13) (spine_member hrank htarget hname)
  | .call _ e args, ⟨hrank, he, hargs⟩ => by
    have htarget := complete_of_wellFormed ts e he
    have hall := completes_of_wellFormed ts args hargs
    exact complete_of_accesses (Nat.le_refl 13) (spine_call hrank htarget hall)
  | .index _ e args, ⟨hrank, he, hne, hargs⟩ => by
    have htarget := complete_of_wellFormed ts e he
    have hall := completes_of_wellFormed ts args hargs
    exact complete_of_accesses (Nat.le_refl 13) (spine_index hrank htarget hne hall)
  | .post _ e, ⟨hrank, he⟩ => by
    have htarget := complete_of_wellFormed ts e he
    exact complete_of_accesses (Nat.le_refl 13) (spine_post hrank htarget)
  | .pre _ e, ⟨hrank, he⟩ => by
    have hoperand := complete_of_wellFormed ts e he
    exact complete_of_unary rfl (takes_pre hrank hoperand)
  | .unary _ e, ⟨hop, hrank, he⟩ => by
    have hoperand := complete_of_wellFormed ts e he
    exact complete_of_unary rfl (takes_sign hop hrank hoperand)
  | .binary l _ r, ⟨hbinds, hl, hr⟩ => by
    have hleft := complete_of_wellFormed ts l hl
    have hright := complete_of_wellFormed ts r hr
    exact complete_binary hbinds hleft hright
  | .ternary c y n, ⟨hrank, hc, hy, hn⟩ => by
    have hcond := complete_of_wellFormed ts c hc
    have hyes := complete_of_wellFormed ts y hy
    have hno := complete_of_wellFormed ts n hn
    exact complete_of_ternary rfl (takes_ternary hcond hyes hno hrank)

theorem completes_of_wellFormed (ts : Tokens) : ∀ es : List Expr, exprsWellFormed es →
    ∀ e ∈ es, Complete ts e
  | [], _ => nofun
  | e :: es, ⟨he, hes⟩ => by
    have hfirst := complete_of_wellFormed ts e he
    have hothers := completes_of_wellFormed ts es hes
    exact List.forall_mem_cons.mpr ⟨hfirst, hothers⟩

end

end Grammar

/-- **Whatever follows the precedence table is read as it is written.** Where the tokens have the
words of a well formed expression without functions, and the token behind them does not go on with
an expression, the expression is read from them, whatever the number of levels, unless these are
fewer than its depth asks for and it is nested too deeply. -/
theorem expr_of_words {e : Expr} (hwell : e.WellFormed) {ts : Tokens} {i : Nat} {u : Token}
    (hwords : e.tree.words <+: (ts.items.toList.drop i).map Token.word)
    (hnext : ts.At (i + e.tree.words.length) u) (hends : u.kind.joins? = none) :
    ∃ e', e.Alike e' ∧ ∀ levels,
      ((enter levels .expr ts i).outcome = .ok e' ∧
        (enter levels .expr ts i).next = i + e.tree.words.length) ∨
      levels < 8 + e.depth ∧ ∃ t, ts.At i t ∧
        (enter levels .expr ts i).outcome = .error (.parse ⟨.nestedTooDeeply, some t⟩) := by
  have hpieces : e.tree.words = e.pieces.map Piece.word := by rw [Tree.words, e.pieces_tree]
  have hlength : e.tree.words.length = e.pieces.length := by rw [hpieces, List.length_map]
  rw [hpieces] at hwords
  rw [hlength] at hnext ⊢
  have hspell := Tokens.spells_of_prefix hwords
  have hfollow : ts.Ends 0 (i + e.pieces.length) := ⟨u, hnext, by simp [hends]⟩
  obtain ⟨e', ds, halike, hrun⟩ := (complete_of_wellFormed ts e hwell).expr (Nat.zero_le _)
    (8 + e.depth) hspell hfollow (Nat.le_refl _)
  obtain ⟨t, ht, -⟩ := (firsts_closed ts).parse _ (show Rule.expr.Fits ts i from trivial) hrun
  have henter := runs_iff.mp (runs_enter.mpr ⟨⟨t, ht⟩, hrun⟩)
  refine ⟨e', halike, fun levels => ?_⟩
  rcases Nat.lt_or_ge levels (8 + e.depth) with hlt | hge
  · rcases enter_of_le (Nat.le_of_lt hlt) .expr ts i with heq | ⟨hfail, -⟩
    · rw [heq]
      exact Or.inl ⟨henter.1, henter.2.1⟩
    · exact Or.inr ⟨hlt, hfail⟩
  · rcases enter_of_le hge .expr ts i with heq | ⟨⟨t, -, hfail⟩, -⟩
    · rw [← heq]
      exact Or.inl ⟨henter.1, henter.2.1⟩
    · rw [henter.1] at hfail
      cases hfail

/-- `a ?? -b ** 2 ? f(1) : [c]` in front of a semicolon. -/
theorem expr_of_words_choice :
    let ts := (Stream.ofText "a??-b**2?f(1):[c];").tokens
    let e := Expr.ternary
      (.binary (.atom ⟨.ident, "a", 0, 0⟩) ⟨.nullish, "??", 0, 0⟩ (.unary ⟨.minus, "-", 0, 0⟩
        (.binary (.atom ⟨.ident, "b", 0, 0⟩) ⟨.power, "**", 0, 0⟩ (.atom ⟨.number, "2", 0, 0⟩))))
      (.call false (.atom ⟨.ident, "f", 0, 0⟩) [.atom ⟨.number, "1", 0, 0⟩])
      (.array [.atom ⟨.ident, "c", 0, 0⟩])
    ∃ e', e.Alike e' ∧ (enter 40 .expr ts 0).outcome = .ok e' ∧
      (enter 40 .expr ts 0).next = 15 := by
  intro ts e
  have hname : Kind.ident ∈ atoms := by decide
  have hnumber : Kind.number ∈ atoms := by decide
  have hwell : e.WellFormed := by
    refine ⟨by decide, ⟨.nullish rfl (by decide) (by decide), hname, ?_⟩, ?_, hname, trivial⟩
    · exact ⟨by decide, by decide, .power rfl (by decide) (by decide), hname, hnumber⟩
    · exact ⟨by decide, hname, hnumber, trivial⟩
  have hwords : e.tree.words <+: (ts.items.toList.drop 0).map Token.word := by decide
  have hnext : ts.At 15 ⟨.semicolon, ";", 1, 18⟩ := rfl
  obtain ⟨e', halike, hread⟩ := expr_of_words hwell hwords hnext rfl
  rcases hread 40 with ⟨hok, hstop⟩ | ⟨hlt, -⟩
  · exact ⟨e', halike, hok, hstop⟩
  · exact absurd hlt (by decide)

end CommandShell
