import CommandShell.Proofs.Parsing.Production

/-! # Expressions: the rules of expressions run as their productions

For each rule of an expression, and for the parts that rules share, the runs of its parser are the
runs that its production lists, neither more nor fewer. -/

namespace CommandShell.Grammar

open CommandShell.Parser

variable {α : Type} {ts : Tokens} {i j : Nat} {ds : List Diagnostic} {e : Expr} {call : Call}

/-- The runs of the called parsers. -/
abbrev runsOf (call : Call) (ts : Tokens) : Calls := fun _ rule => Runs (call rule) ts

/-! ### Lists -/

theorem runs_moreRound {p : Parser α} :
    Runs (do if ← accept .comma then some <$> p else return none) ts =
      MoreRound ts (Runs p ts) := by
  funext i a? j ds
  refine propext ?_
  simp (disch := decide) only [runs_bindAccept, runs_map, runs_pure]
  constructor
  · rintro (⟨h, a, ha, rfl⟩ | ⟨h, rfl, rfl, rfl⟩)
    · exact .more h ha
    · exact .stop h
  · rintro (h | ⟨h, ha⟩)
    · exact Or.inr ⟨h, rfl, rfl, rfl⟩
    · exact Or.inl ⟨h, _, ha, rfl⟩

theorem runs_more {p : Parser α} {as : List α} : Runs (more p) ts i as j ds ↔
    Collected (MoreRound ts (Runs p ts)) i as j ds ∧ as.length ≤ ts.items.size := by
  rw [more, runs_collect, runs_moreRound]

theorem runs_separated {p : Parser α} {as : List α} :
    Runs (separated p) ts i as j ds ↔ Separated ts (Runs p ts) i as j ds := by
  simp only [separated, ↓runs_bindPure, runs_bind, runs_more]
  constructor
  · rintro ⟨a, k, ds₁, ds₂, ha, ⟨as, ⟨has, hlen⟩, rfl⟩, rfl⟩
    exact .mk ha has hlen
  · rintro ⟨ha, has, hlen⟩
    exact ⟨_, _, _, _, ha, ⟨_, ⟨has, hlen⟩, rfl⟩, rfl⟩

theorem runs_name {w : Wanted} : Runs (expectAs .ident w) ts = NameRun ts := by
  funext i t j ds
  exact propext (runs_expectAs (by decide))

theorem runs_params {names : List Token} :
    Runs params ts i names j ds ↔ ParamsRun ts i names j ds := by
  dsimp only [params]
  simp (disch := decide) only [↓runs_bindExpect, ↓runs_bindSees, ↓runs_closed, runs_pure,
    runs_separated, runs_name]
  constructor
  · rintro ⟨hopen, ⟨-, _, _, ⟨rfl, rfl, rfl⟩, hclose, rfl, rfl⟩ |
      ⟨hlacks, _, k, hnames, hclose, rfl, rfl⟩⟩
    · exact .none hopen hclose
    · exact .some hopen hlacks hnames hclose
  · rintro (⟨hopen, hclose⟩ | ⟨hopen, hlacks, hnames, hclose⟩)
    · exact ⟨hopen, Or.inl ⟨hclose, _, _, ⟨rfl, rfl, rfl⟩, hclose, rfl, rfl⟩⟩
    · exact ⟨hopen, Or.inr ⟨hlacks, _, _, hnames, hclose, rfl, rfl⟩⟩

theorem runs_pathRound : Runs pathRound ts = PathRound ts := by
  funext i t? j ds
  refine propext ?_
  simp (disch := decide) only [pathRound, runs_bindAccept, runs_map, runs_expectAs, runs_pure]
  constructor
  · rintro (⟨h, t, ⟨ht, hk, rfl, rfl⟩, rfl⟩ | ⟨h, rfl, rfl, rfl⟩)
    · exact .more h ht hk
    · exact .stop h
  · rintro (h | ⟨h, ht, hk⟩)
    · exact Or.inr ⟨h, rfl, rfl, rfl⟩
    · exact Or.inl ⟨h, _, ⟨ht, hk, rfl, rfl⟩, rfl⟩

theorem runs_args {closer : Kind} (hcloser : closer ≠ .eof) {es : List Expr} :
    Runs (args call closer) ts i es j ds ↔ ArgsRun (runsOf call ts) ts closer i es j ds := by
  dsimp only [args]
  simp only [↓runs_bindSees, ↓runs_closed hcloser, runs_pure, runs_separated]
  constructor
  · rintro (⟨-, _, _, ⟨rfl, rfl, rfl⟩, hclose, rfl, rfl⟩ | ⟨hlacks, _, k, hes, hclose, rfl, rfl⟩)
    · exact .none hclose
    · exact .some hlacks hes hclose
  · rintro (hclose | ⟨hlacks, hes, hclose⟩)
    · exact Or.inl ⟨hclose, _, _, ⟨rfl, rfl, rfl⟩, hclose, rfl, rfl⟩
    · exact Or.inr ⟨hlacks, _, _, hes, hclose, rfl, rfl⟩

/-! ### Checks -/

@[simp] theorem runs_checkTarget {u : Unit} :
    Runs (checkTarget e) ts i u j ds ↔ j = i ∧ ds = targetReports e := by
  unfold checkTarget targetReports
  split_ifs <;> simp

@[simp] theorem runs_checkEffect {u : Unit} :
    Runs (checkEffect e) ts i u j ds ↔ j = i ∧ ds = effectReports e := by
  unfold checkEffect effectReports
  split_ifs <;> simp

section
variable {p : Parser α} {a : α}

theorem runs_bindCheckTarget : Runs (do checkTarget e; p) ts i a j ds ↔
    ∃ ds₁, Runs p ts i a j ds₁ ∧ ds = targetReports e ++ ds₁ := runs_bindReports runs_checkTarget

theorem runs_bindCheckEffect : Runs (do checkEffect e; p) ts i a j ds ↔
    ∃ ds₁, Runs p ts i a j ds₁ ∧ ds = effectReports e ++ ds₁ := runs_bindReports runs_checkEffect

end

/-! ### Operators -/

theorem runs_ternary :
    Runs (ternary call) ts i e j ds ↔ ExprRun (runsOf call ts) ts .ternary i e j ds := by
  simp (disch := decide) only [ternary, ↓runs_bindAccept, ↓runs_bindToken, ↓runs_bindPure,
    runs_bind, runs_pure]
  constructor
  · rintro ⟨c, k, ds₁, ds₂, hc, ⟨hq, y, l, ds₃, ds₄, hy, ⟨hcolon, n, hn, rfl⟩, rfl⟩ |
      ⟨hl, rfl, rfl, rfl⟩, rfl⟩
    · exact .ternary hc hq hy hcolon hn
    · rw [List.append_nil]; exact .ternaryPlain hc hl
  · intro h
    cases h with
    | ternaryPlain hc hl =>
      exact ⟨_, _, _, [], hc, Or.inr ⟨hl, rfl, rfl, rfl⟩, (List.append_nil _).symm⟩
    | ternary hc hq hy hcolon hn =>
      exact ⟨_, _, _, _, hc, Or.inl ⟨hq, _, _, _, _, hy, ⟨hcolon, _, hn, rfl⟩, rfl⟩, rfl⟩

theorem runs_nullish :
    Runs (nullish call) ts i e j ds ↔ ExprRun (runsOf call ts) ts .nullish i e j ds := by
  simp (disch := decide) only [nullish, ↓runs_bindSees, ↓has_bindAdvance, ↓runs_bindPure, runs_bind,
    runs_pure]
  constructor
  · rintro ⟨left, k, ds₁, ds₂, hleft, ⟨op, hop, hk, right, hright, rfl⟩ | ⟨hl, rfl, rfl, rfl⟩, rfl⟩
    · exact .nullish hleft hop hk hright
    · rw [List.append_nil]; exact .nullishPlain hleft hl
  · intro h
    cases h with
    | nullishPlain hleft hl =>
      exact ⟨_, _, _, [], hleft, Or.inr ⟨hl, rfl, rfl, rfl⟩, (List.append_nil _).symm⟩
    | nullish hleft hop hk hright =>
      exact ⟨_, _, _, _, hleft, Or.inl ⟨_, hop, hk, _, hright, rfl⟩, rfl⟩

theorem kind_ne_eof_of_precedence {k : Kind} {p : Nat} (h : k.precedence? = some p) : k ≠ .eof := by
  rintro rfl; cases h

theorem runs_binaryRound {power : Nat} {left : Expr} : Runs (binaryRound call power left) ts =
    BinaryRound (runsOf call ts) ts power left := by
  funext i e? j ds
  refine propext ?_
  simp only [binaryRound, runs_bindCurrent]
  constructor
  · rintro ⟨t, ht, h⟩
    split at h
    · next hp =>
      obtain ⟨rfl, rfl, rfl⟩ := runs_pure.mp h
      exact .stop ht (by simp [hp])
    · next p hp =>
      split_ifs at h with hlt
      · obtain ⟨rfl, rfl, rfl⟩ := runs_pure.mp h
        exact .stop ht (by simpa [hp] using hlt)
      · rw [runs_bindAdvance ht (kind_ne_eof_of_precedence hp), runs_bindPure] at h
        obtain ⟨right, hright, rfl⟩ := h
        exact .more ht hp (Nat.le_of_not_lt hlt) hright
  · rintro (⟨ht, hlt⟩ | ⟨ht, hp, hle, hright⟩)
    · refine ⟨_, ht, ?_⟩
      split
      · exact runs_pure.mpr ⟨rfl, rfl, rfl⟩
      · next p hp => rw [if_pos (hlt p hp)]; exact runs_pure.mpr ⟨rfl, rfl, rfl⟩
    · refine ⟨_, ht, ?_⟩
      rw [hp]
      simp only [if_neg (Nat.not_lt.mpr hle)]
      rw [runs_bindAdvance ht (kind_ne_eof_of_precedence hp), runs_bindPure]
      exact ⟨_, hright, rfl⟩

theorem runs_binary {power : Nat} : Runs (binary call power) ts i e j ds ↔
    ExprRun (runsOf call ts) ts (.binary power) i e j ds := by
  simp only [binary, runs_bind, runs_chain, runs_binaryRound]
  constructor
  · rintro ⟨left, k, ds₁, ds₂, hleft, ⟨n, hn, hchain⟩, rfl⟩
    exact .binary hleft hn hchain
  · intro h
    cases h with
    | binary hleft hn hchain => exact ⟨_, _, _, _, hleft, ⟨_, hn, hchain⟩, rfl⟩

theorem runs_stepBefore (step : Step) {t : Token} (ht : ts.At i t) (hk : t.kind = step.kind) :
    Runs (stepBefore call step) ts i e j ds ↔ ∃ operand ds₁,
      Runs (call .unary) ts (i + 1) operand j ds₁ ∧ e = .pre step operand ∧
        ds = ds₁ ++ targetReports operand := by
  have hne : t.kind ≠ .eof := by rw [hk]; cases step <;> decide
  simp [stepBefore, runs_bindAdvance ht hne]

theorem runs_unary :
    Runs (unary call) ts i e j ds ↔ ExprRun (runsOf call ts) ts .unary i e j ds := by
  have hsign : ∀ t, ts.At i t → t.kind ∈ signs →
      (Runs (do let op ← advance; let operand ← call .unary; return .unary op operand) ts i e j ds ↔
        ∃ operand, Runs (call .unary) ts (i + 1) operand j ds ∧ e = .unary t operand) := by
    intro t ht hk
    have hne : t.kind ≠ .eof := fun h => by simp [h, signs] at hk
    rw [runs_bindAdvance ht hne, runs_bindPure]
  simp only [unary, runs_bindCurrent]
  constructor
  · rintro ⟨t, ht, h⟩
    split at h
    iterate 3
      next hk =>
        obtain ⟨operand, hoperand, rfl⟩ := (hsign t ht (by rw [hk]; decide)).mp h
        exact .sign ht (by rw [hk]; decide) hoperand
    · next hk =>
      obtain ⟨operand, ds₁, hoperand, rfl, rfl⟩ := (runs_stepBefore .up ht hk).mp h
      exact .pre .up ⟨t, ht, hk⟩ hoperand
    · next hk =>
      obtain ⟨operand, ds₁, hoperand, rfl, rfl⟩ := (runs_stepBefore .down ht hk).mp h
      exact .pre .down ⟨t, ht, hk⟩ hoperand
    · exact .unaryPlain ht (by simp_all [signs]) h
  · intro h
    cases h with
    | @sign _ op e j ds hop hk he =>
      refine ⟨op, hop, ?_⟩
      have h := (hsign op hop hk).mpr ⟨e, he, rfl⟩
      simp only [signs, List.mem_cons, List.not_mem_nil, or_false] at hk
      rcases hk with hk | hk | hk <;> rw [hk] <;> exact h
    | pre step hstep he =>
      obtain ⟨t, ht, hk⟩ := hstep
      have h := (runs_stepBefore step ht hk).mpr ⟨_, _, he, rfl, rfl⟩
      refine ⟨t, ht, ?_⟩
      cases step <;> (rw [hk]; exact h)
    | @unaryPlain _ t _ _ _ ht hk he =>
      refine ⟨t, ht, ?_⟩
      split <;> simp_all [signs]

theorem runs_power :
    Runs (power call) ts i e j ds ↔ ExprRun (runsOf call ts) ts .power i e j ds := by
  simp (disch := decide) only [power, ↓runs_bindSees, ↓has_bindAdvance, ↓runs_bindPure, runs_bind,
    runs_pure]
  constructor
  · rintro ⟨base, k, ds₁, ds₂, hbase, ⟨op, hop, hk, right, hright, rfl⟩ | ⟨hl, rfl, rfl, rfl⟩, rfl⟩
    · exact .power hbase hop hk hright
    · rw [List.append_nil]; exact .powerPlain hbase hl
  · intro h
    cases h with
    | powerPlain hbase hl =>
      exact ⟨_, _, _, [], hbase, Or.inr ⟨hl, rfl, rfl, rfl⟩, (List.append_nil _).symm⟩
    | power hbase hop hk hright =>
      exact ⟨_, _, _, _, hbase, Or.inl ⟨_, hop, hk, _, hright, rfl⟩, rfl⟩

/-! ### Accesses -/

section
variable (target : Expr) {e? : Option Expr} {t : Token}

theorem runs_memberAfter (safe : Bool) (ht : ts.At i t) (hk : t.kind = dotKind safe) :
    Runs (memberAfter safe target) ts i e? j ds ↔ ∃ name, ts.At (i + 1) name ∧
      name.kind = .ident ∧ e? = some (.member safe target name) ∧ j = i + 2 ∧ ds = [] := by
  have hne : t.kind ≠ .eof := by rw [hk]; cases safe <;> decide
  simp (disch := decide) only [memberAfter, runs_bindAdvance ht hne, ↓runs_bindExpectAs, runs_pure]

theorem runs_callAfter (safe : Bool) (ht : ts.At i t) (hk : t.kind = callKind safe) :
    Runs (callAfter call safe target) ts i e? j ds ↔ ∃ args,
      Runs (call (.args .rparen)) ts (i + 1) args j ds ∧ e? = some (.call safe target args) := by
  have hne : t.kind ≠ .eof := by rw [hk]; cases safe <;> decide
  rw [callAfter, runs_bindAdvance ht hne, runs_bindPure]

theorem runs_indexAfter (safe : Bool) (ht : ts.At i t) (hk : t.kind = indexKind safe) :
    Runs (indexAfter call safe target) ts i e? j ds ↔ ∃ args, ts.Lacks (i + 1) .rsquare ∧
      Runs (call (.args .rsquare)) ts (i + 1) args j ds ∧ e? = some (.index safe target args) := by
  have hne : t.kind ≠ .eof := by rw [hk]; cases safe <;> decide
  dsimp only [indexAfter]
  simp only [runs_bindAdvance ht hne, ↓runs_bindCurrent, ↓runs_guard, ↓runs_bindPure]
  constructor
  · rintro ⟨u, hu, hk, args, hargs, rfl⟩; exact ⟨args, ⟨u, hu, hk⟩, hargs, rfl⟩
  · rintro ⟨args, ⟨u, hu, hk⟩, hargs, rfl⟩; exact ⟨u, hu, hk, args, hargs, rfl⟩

theorem runs_stepAfter (step : Step) (ht : ts.At i t) (hk : t.kind = step.kind) :
    Runs (stepAfter step target) ts i e? j ds ↔ e? = some (.post step target) ∧ j = i + 1 ∧
      ds = targetReports target := by
  have hne : t.kind ≠ .eof := by rw [hk]; cases step <;> decide
  rw [stepAfter, runs_bindAdvance ht hne, runs_bindCheckTarget]
  simp only [runs_pure]
  constructor
  · rintro ⟨_, ⟨rfl, rfl, rfl⟩, rfl⟩; exact ⟨rfl, rfl, List.append_nil _⟩
  · rintro ⟨rfl, rfl, rfl⟩; exact ⟨[], ⟨rfl, rfl, rfl⟩, (List.append_nil _).symm⟩

end

theorem runs_accessRound {target : Expr} :
    Runs (accessRound call target) ts = AccessRound (runsOf call ts) ts target := by
  funext i e? j ds
  refine propext ?_
  simp only [accessRound, runs_bindCurrent]
  constructor
  · rintro ⟨t, ht, h⟩
    split at h
    · next hk =>
      obtain ⟨name, hname, hident, rfl, rfl, rfl⟩ := (runs_memberAfter target false ht hk).mp h
      exact .member false ⟨t, ht, hk⟩ hname hident
    · next hk =>
      obtain ⟨name, hname, hident, rfl, rfl, rfl⟩ := (runs_memberAfter target true ht hk).mp h
      exact .member true ⟨t, ht, hk⟩ hname hident
    · next hk =>
      obtain ⟨args, hargs, rfl⟩ := (runs_callAfter target false ht hk).mp h
      exact .call false ⟨t, ht, hk⟩ hargs
    · next hk =>
      obtain ⟨args, hargs, rfl⟩ := (runs_callAfter target true ht hk).mp h
      exact .call true ⟨t, ht, hk⟩ hargs
    · next hk =>
      obtain ⟨args, hlacks, hargs, rfl⟩ := (runs_indexAfter target false ht hk).mp h
      exact .index false ⟨t, ht, hk⟩ hlacks hargs
    · next hk =>
      obtain ⟨args, hlacks, hargs, rfl⟩ := (runs_indexAfter target true ht hk).mp h
      exact .index true ⟨t, ht, hk⟩ hlacks hargs
    · next hk =>
      obtain ⟨rfl, rfl, rfl⟩ := (runs_stepAfter target .up ht hk).mp h
      exact .post .up ⟨t, ht, hk⟩
    · next hk =>
      obtain ⟨rfl, rfl, rfl⟩ := (runs_stepAfter target .down ht hk).mp h
      exact .post .down ⟨t, ht, hk⟩
    · obtain ⟨rfl, rfl, rfl⟩ := runs_pure.mp h
      exact .stop ht (by simp_all [accessKinds])
  · intro h
    cases h with
    | @stop _ t ht hk =>
      refine ⟨t, ht, ?_⟩
      split <;> simp_all [accessKinds]
    | member safe hdot hname hident =>
      obtain ⟨t, ht, hk⟩ := hdot
      have h := (runs_memberAfter target safe ht hk).mpr ⟨_, hname, hident, rfl, rfl, rfl⟩
      refine ⟨t, ht, ?_⟩
      cases safe <;> (rw [hk]; exact h)
    | call safe hopen hargs =>
      obtain ⟨t, ht, hk⟩ := hopen
      have h := (runs_callAfter target safe ht hk).mpr ⟨_, hargs, rfl⟩
      refine ⟨t, ht, ?_⟩
      cases safe <;> (rw [hk]; exact h)
    | index safe hopen hlacks hargs =>
      obtain ⟨t, ht, hk⟩ := hopen
      have h := (runs_indexAfter target safe ht hk).mpr ⟨_, hlacks, hargs, rfl⟩
      refine ⟨t, ht, ?_⟩
      cases safe <;> (rw [hk]; exact h)
    | post step hstep =>
      obtain ⟨t, ht, hk⟩ := hstep
      have h := (runs_stepAfter target step ht hk).mpr ⟨rfl, rfl, rfl⟩
      refine ⟨t, ht, ?_⟩
      cases step <;> (rw [hk]; exact h)

theorem runs_access :
    Runs (access call) ts i e j ds ↔ ExprRun (runsOf call ts) ts .access i e j ds := by
  simp only [access, runs_bind, runs_chain, runs_accessRound]
  constructor
  · rintro ⟨target, k, ds₁, ds₂, htarget, ⟨n, hn, hchain⟩, rfl⟩
    exact .access htarget hn hchain
  · intro h
    cases h with
    | access htarget hn hchain => exact ⟨_, _, _, _, htarget, ⟨_, hn, hchain⟩, rfl⟩

/-! ### Primary expressions -/

theorem kind_ne_eof_of_atom {k : Kind} (h : k ∈ atoms) : k ≠ .eof := by
  rintro rfl
  simp [atoms] at h

section
variable {t : Token} (ht : ts.At i t)
include ht

theorem runs_groupAfter (hk : t.kind = .lparen) :
    Runs (do
      let _ ← advance
      let inner ← call .expr
      let _ ← expectCloser .rparen
      return .group inner) ts i e j ds ↔
    ∃ inner k, Runs (call .expr) ts (i + 1) inner k ds ∧ ts.Has k .rparen ∧ e = .group inner ∧
      j = k + 1 := by
  have hne : t.kind ≠ .eof := by rw [hk]; decide
  rw [runs_bindAdvance ht hne, runs_closed (by decide)]

theorem runs_arrayAfter (hk : t.kind = .lsquare) :
    Runs (do let _ ← advance; Expr.array <$> call (.args .rsquare)) ts i e j ds ↔
      ∃ items, Runs (call (.args .rsquare)) ts (i + 1) items j ds ∧ e = .array items := by
  have hne : t.kind ≠ .eof := by rw [hk]; decide
  rw [runs_bindAdvance ht hne, runs_map]

theorem runs_lambdaAfter (hk : t.kind = .fnKw) :
    Runs (do
      let _ ← advance
      let names ← call .params
      let body ← call .block
      return .lambda names body) ts i e j ds ↔
    ∃ names k ds₁ ds₂, Runs (call .params) ts (i + 1) names k ds₁ ∧
      (∃ body, Runs (call .block) ts k body j ds₂ ∧ e = .lambda names body) ∧ ds = ds₁ ++ ds₂ := by
  have hne : t.kind ≠ .eof := by rw [hk]; decide
  simp only [runs_bindAdvance ht hne, ↓runs_bindPure, runs_bind]

end

theorem runs_primary :
    Runs (primary call) ts i e j ds ↔ ExprRun (runsOf call ts) ts .primary i e j ds := by
  simp only [primary, runs_bindCurrent]
  constructor
  · rintro ⟨t, ht, h⟩
    split at h
    iterate 8
      next hk =>
        have hk : t.kind ∈ atoms := by rw [hk]; decide
        obtain ⟨rfl, rfl, rfl⟩ := (runs_mapAdvance ht (kind_ne_eof_of_atom hk)).mp h
        exact .atom ht hk
    · next hk =>
      obtain ⟨inner, k, hinner, hclose, rfl, rfl⟩ := (runs_groupAfter ht hk).mp h
      exact .group ⟨t, ht, hk⟩ hinner hclose
    · next hk =>
      obtain ⟨items, hitems, rfl⟩ := (runs_arrayAfter ht hk).mp h
      exact .array ⟨t, ht, hk⟩ hitems
    · next hk => exact .new ⟨t, ht, hk⟩ h
    · next hk =>
      obtain ⟨names, k, ds₁, ds₂, hnames, ⟨body, hbody, rfl⟩, rfl⟩ := (runs_lambdaAfter ht hk).mp h
      exact .lambda ⟨t, ht, hk⟩ hnames hbody
    · exact absurd h not_runs_failHere
  · intro h
    cases h with
    | @atom _ t ht hk =>
      refine ⟨t, ht, ?_⟩
      have h := (runs_mapAdvance (f := Expr.atom) ht (kind_ne_eof_of_atom hk)).mpr ⟨rfl, rfl, rfl⟩
      simp only [atoms, List.mem_cons, List.not_mem_nil, or_false] at hk
      rcases hk with hk | hk | hk | hk | hk | hk | hk | hk <;> (rw [hk]; exact h)
    | group hopen hinner hclose =>
      obtain ⟨t, ht, hk⟩ := hopen
      have h := (runs_groupAfter ht hk).mpr ⟨_, _, hinner, hclose, rfl, rfl⟩
      exact ⟨t, ht, by rw [hk]; exact h⟩
    | array hopen hitems =>
      obtain ⟨t, ht, hk⟩ := hopen
      have h := (runs_arrayAfter ht hk).mpr ⟨_, hitems, rfl⟩
      exact ⟨t, ht, by rw [hk]; exact h⟩
    | new hnew h =>
      obtain ⟨t, ht, hk⟩ := hnew
      exact ⟨t, ht, by rw [hk]; exact h⟩
    | lambda hfn hnames hbody =>
      obtain ⟨t, ht, hk⟩ := hfn
      have h := (runs_lambdaAfter ht hk).mpr ⟨_, _, _, _, hnames, ⟨_, hbody, rfl⟩, rfl⟩
      exact ⟨t, ht, by rw [hk]; exact h⟩

theorem runs_construction :
    Runs (construction call) ts i e j ds ↔ ExprRun (runsOf call ts) ts .construction i e j ds := by
  dsimp only [construction, expect]
  simp (disch := decide) only [↓runs_bindExpectAs, ↓runs_bindCurrent, ↓runs_guard, ↓runs_bindPure,
    runs_bind, runs_collect, runs_pathRound]
  constructor
  · rintro ⟨new, hnew, hk, t, -, -, head, hhead, hident, tail, k, ds₁, ds₂, ⟨htail, hlen⟩,
      ⟨paren, hparen, hopen, args, hargs, rfl⟩, rfl⟩
    exact .construction ⟨new, hnew, hk⟩ hhead hident htail hlen ⟨paren, hparen, hopen⟩ hargs
  · intro h
    cases h with
    | @construction _ head _ _ _ _ _ _ hnew hhead hident htail hlen hopen hargs =>
      obtain ⟨new, hnew, hk⟩ := hnew
      obtain ⟨paren, hparen, hopen⟩ := hopen
      refine ⟨new, hnew, hk, head, hhead, ?_, head, hhead, hident, _, _, _, _, ⟨htail, hlen⟩,
        ⟨paren, hparen, hopen, _, hargs, rfl⟩, rfl⟩
      rw [hident]
      decide

end CommandShell.Grammar
