import CommandShell.Proofs.Parsing.Prolonged

/-! # Shortest phrases: what completes a rule

A rule that is called behind other phrases is completed by its shortest phrase: a name, empty braces
or a semicolon. With these every rule can be completed, whatever it has read when the input ends
(`completing_parse`). -/

namespace CommandShell

open CommandShell.Parser CommandShell.Grammar

namespace Grammar

/-! ### A primary expression alone -/

section
variable {us : Tokens} {levels i j : Nat} {e : Expr} {ds : List Diagnostic} {u : Token}

theorem lacks_of_endsExpr {k : Kind} (hu : us.At j u) (hends : u.kind.EndsExpr)
    (hk : k.joins?.isSome = true) : us.Lacks j k := by
  refine ⟨u, hu, fun heq => ?_⟩
  rw [← heq, show u.kind.joins? = none from hends] at hk
  cases hk

variable (h : Runs (parse levels .primary) us i e j ds) (hu : us.At j u) (hk : u.kind.EndsExpr)
include h hu hk

theorem runs_access_of_primary : Runs (parse (levels + 1) .access) us i e j ds := by
  have hstop : AccessRound (runsOf (parse levels) us) us e j none j [] :=
    .stop hu fun hmem => by
      rw [Kind.EndsExpr, joins?_of_access hmem] at hk
      cases hk
  rw [← List.append_nil ds]
  exact runsOf_succ trivial (ExprRun.access h (Nat.zero_le _) (.stop hstop))

theorem runs_unary_of_primary : Runs (parse (levels + 3) .unary) us i e j ds := by
  have haccess := runs_access_of_primary h hu hk
  have hpower : Runs (parse (levels + 2) .power) us i e j ds :=
    runsOf_succ trivial (ExprRun.powerPlain haccess (lacks_of_endsExpr hu hk rfl))
  exact unary_of_power haccess hpower

theorem runs_binary_of_primary (power : Nat) :
    Runs (parse (levels + 4) (.binary power)) us i e j ds := by
  have hunary := runs_unary_of_primary h hu hk
  have hstop : BinaryRound (runsOf (parse (levels + 3)) us) us power e j none j [] :=
    .stop hu fun p hp => by
      rw [Kind.EndsExpr, joins?_of_precedence hp] at hk
      cases hk
  rw [← List.append_nil ds]
  exact runsOf_succ trivial (ExprRun.binary hunary (Nat.zero_le _) (.stop hstop))

theorem runs_nullish_of_primary : Runs (parse (levels + 5) .nullish) us i e j ds :=
  runsOf_succ trivial (ExprRun.nullishPlain (runs_binary_of_primary h hu hk 1)
    (lacks_of_endsExpr hu hk rfl))

theorem runs_ternary_of_primary : Runs (parse (levels + 6) .ternary) us i e j ds :=
  runsOf_succ trivial (ExprRun.ternaryPlain (runs_nullish_of_primary h hu hk)
    (lacks_of_endsExpr hu hk rfl))

theorem runs_expr_of_primary : Runs (parse (levels + 7) .expr) us i e j ds :=
  runsOf_succ trivial (ExprRun.expr (runs_ternary_of_primary h hu hk))

end

/-! ### Shortest phrases -/

section
variable {ts us : Tokens} {i : Nat} {t u : Token}

theorem runs_atom (levels : Nat) (ht : us.At i t) (hk : t.kind ∈ atoms) :
    Runs (parse (levels + 1) .primary) us i (.atom t) (i + 1) [] :=
  runsOf_succ trivial (ExprRun.atom ht hk)

/-- What a made up name alone is read from. -/
theorem completable_name {α : Type} {S : Kind → Prop} {q : Parser α} {a : α}
    (h : ∀ {us : Tokens} {i : Nat} {u : Token}, us.At i (.made .ident) → us.At (i + 1) u →
      S u.kind → Runs q us i a (i + 1) []) : Completable (· = .ident) S q ts := by
  refine ⟨[.made .ident], a, ?_, rfl, fun {us i} _ hshows => ?_⟩
  · exact List.forall_mem_singleton.mpr (Token.proper_made (by decide))
  · obtain ⟨ht, u, hu, hk⟩ := hshows
    exact ⟨[], h ht hu hk⟩

theorem runs_args_name (levels : Nat) {closer : Kind} (hcloser : closer.isCloser = true)
    (ht : us.At i (.made .ident)) (hu : us.At (i + 1) (.made closer)) :
    Runs (parse (levels + 9) (.args closer)) us i [.atom (.made .ident)] (i + 2) [] := by
  have hkind : closer ≠ .eof ∧ closer.EndsExpr ∧ Kind.ident ≠ closer ∧ closer ≠ .comma := by
    revert hcloser
    cases closer <;> decide
  have hname : Runs (parse (levels + 8) .expr) us i (.atom (.made .ident)) (i + 1) [] :=
    runs_expr_of_primary (runs_atom levels ht (by decide)) hu hkind.2.1
  have hstop : MoreRound us (Runs (parse (levels + 8) .expr) us) (i + 1) none (i + 1) [] :=
    .stop ⟨_, hu, hkind.2.2.2⟩
  have hnames : Separated us (Runs (parse (levels + 8) .expr) us) i [.atom (.made .ident)] (i + 1)
      ([] ++ []) := .mk hname (.stop hstop) (Nat.zero_le _)
  have hargs : ArgsRun (runsOf (parse (levels + 8)) us) us closer i [.atom (.made .ident)] (i + 2)
      [] := .some ⟨_, ht, hkind.2.2.1⟩ hnames ⟨_, hu, rfl⟩
  have hfits : (Rule.args closer).Fits us i := hkind.1
  exact runsOf_succ hfits hargs

theorem runs_empty (levels : Nat) (ht : us.At i t) (hk : t.kind = .semicolon) :
    Runs (parse (levels + 1) .stmt) us i (.empty t) (i + 1) [] :=
  runsOf_succ trivial (StmtRun.empty ht hk)

theorem completable_params (levels : Nat) :
    Completable (· = .lparen) Kind.Any (parse (levels + 1) .params) ts := by
  refine ⟨[.made .lparen, .made .rparen], [], ?_, rfl, fun {us i} _ hshows => ?_⟩
  · simp [Token.proper_made]
  · obtain ⟨hopen, hclose, -⟩ := hshows
    exact ⟨[], runsOf_succ trivial (ParamsRun.none ⟨_, hopen, rfl⟩ ⟨_, hclose, rfl⟩)⟩

theorem completable_args (levels : Nat) {closer : Kind} (hcloser : closer.isCloser = true) :
    Completable (· = .ident) Kind.Any (parse (levels + 9) (.args closer)) ts := by
  have hne : closer ≠ .eof := by
    rintro rfl
    cases hcloser
  refine ⟨[.made .ident, .made closer], [.atom (.made .ident)], ?_, rfl,
    fun {us i} _ hshows => ?_⟩
  · simp [Token.proper_made, hne]
  · exact ⟨[], runs_args_name levels hcloser hshows.1 hshows.2.1⟩

theorem completable_declarator (levels : Nat) (keyword : Token) :
    Completable (· = .ident) (Rule.declarator keyword).stop
      (parse (levels + 9) (.declarator keyword)) ts := by
  refine ⟨[.made .ident, .made .assign, .made .ident],
    .valued (.made .ident) (.atom (.made .ident)), ?_, rfl, fun {us i} _ hshows => ?_⟩
  · simp [Token.proper_made]
  · obtain ⟨hname, hassign, hvalue, u, hu, hk⟩ := hshows
    have hexpr := runs_expr_of_primary (runs_atom levels hvalue (by decide)) hu hk.1
    exact ⟨[], runsOf_succ trivial (DeclaratorRun.valued hname rfl ⟨_, hassign, rfl⟩ hexpr)⟩

theorem completable_block (levels : Nat) :
    Completable (· = .lbrace) Kind.Any (parse (levels + 1) .block) ts := by
  refine ⟨[.made .lbrace, .made .rbrace], [], ?_, rfl, fun {us i} _ hshows => ?_⟩
  · simp [Token.proper_made]
  · obtain ⟨hopen, hclose, -⟩ := hshows
    have hstop : BlockRound (runsOf (parse levels) us) us (i + 1) none (i + 1) [] :=
      .stop hclose (by decide)
    exact ⟨[], runsOf_succ trivial (BlockRun.mk ⟨_, hopen, rfl⟩ (.stop hstop) (Nat.zero_le _)
      ⟨_, hclose, rfl⟩)⟩

/-- What a made up semicolon alone is read from. -/
theorem completable_semicolon {S : Kind → Prop} {q : Parser Stmt}
    (h : ∀ {us : Tokens} {i : Nat}, us.At i (.made .semicolon) →
      Gets q us i (.empty (.made .semicolon)) (i + 1)) : Completable (· = .semicolon) S q ts := by
  refine ⟨[.made .semicolon], .empty (.made .semicolon), ?_, rfl, fun {us i} _ hshows => ?_⟩
  · exact List.forall_mem_singleton.mpr (Token.proper_made (by decide))
  · exact h hshows.1

/-- **The rules that are called behind other phrases have a shortest phrase.** -/
theorem completable_parse (levels : Nat) {α : Type} {rule : Rule α} {k : Kind}
    (hready : rule.Ready ts i) (hfirst : rule.first? = some k) :
    Completable (· = k) rule.stop (parse (levels + 12) rule) ts := by
  have hatom : ∀ {us : Tokens} {i : Nat} (m : Nat), us.At i (.made .ident) →
      Runs (parse (m + 1) .primary) us i (.atom (.made .ident)) (i + 1) [] := fun m ht =>
    runs_atom m ht (by decide)
  cases rule with
  | expr =>
    cases hfirst
    exact completable_name fun ht hu hk => runs_expr_of_primary (hatom (levels + 4) ht) hu hk
  | ternary =>
    cases hfirst
    exact completable_name fun ht hu hk => runs_ternary_of_primary (hatom (levels + 5) ht) hu hk
  | nullish =>
    cases hfirst
    exact completable_name fun ht hu hk => runs_nullish_of_primary (hatom (levels + 6) ht) hu hk
  | binary power =>
    cases hfirst
    exact completable_name fun ht hu hk =>
      runs_binary_of_primary (hatom (levels + 7) ht) hu hk power
  | unary =>
    cases hfirst
    exact completable_name fun ht hu hk => runs_unary_of_primary (hatom (levels + 8) ht) hu hk
  | params =>
    cases hfirst
    exact completable_params (levels + 11)
  | args closer =>
    cases hfirst
    exact completable_args (levels + 3) hready
  | declarator keyword =>
    cases hfirst
    exact completable_declarator (levels + 3) keyword
  | block =>
    cases hfirst
    exact completable_block (levels + 11)
  | stmt =>
    cases hfirst
    exact completable_semicolon fun ht => ⟨[], runs_empty (levels + 11) ht rfl⟩
  | body owner =>
    cases hfirst
    exact completable_semicolon fun ht =>
      ⟨_, runsOf_succ trivial (StmtRun.body (runs_empty (levels + 10) ht rfl))⟩
  | _ => cases hfirst

/-- A construction whose keyword is followed by the shortest rest that it can have. -/
theorem runs_new_shortest (levels : Nat) (ht : us.At i t) (hk : t.kind = .newKw)
    (hname : us.At (i + 1) (.made .ident)) (hopen : us.At (i + 2) (.made .lparen))
    (hclose : us.At (i + 3) (.made .rparen)) :
    Runs (parse (levels + 3) .primary) us i (.new [.made .ident] []) (i + 4) [] := by
  have hfits : (Rule.args .rparen).Fits us (i + 3) := closer_ne_eof (by decide)
  have hargs : Runs (parse (levels + 1) (.args .rparen)) us (i + 3) [] (i + 4) [] :=
    runsOf_succ hfits (ArgsRun.none ⟨_, hclose, rfl⟩)
  have hpath : Collected (PathRound us) (i + 2) [] (i + 2) [] :=
    .stop (.stop ⟨_, hopen, by decide⟩)
  have hconstruction :
      Runs (parse (levels + 2) .construction) us i (.new [.made .ident] []) (i + 4) [] :=
    runsOf_succ trivial (ExprRun.construction ⟨t, ht, hk⟩ hname rfl hpath (Nat.zero_le _)
      ⟨_, hopen, rfl⟩ hargs)
  exact runsOf_succ trivial (ExprRun.new ⟨t, ht, hk⟩ hconstruction)

/-- **A last token that could begin more than one thing begins an expression.** -/
theorem expr_of_last (levels : Nat) (hnext : i + 1 = ts.items.size) (ht : ts.At i t)
    (hk : t.kind = .ident ∨ t.kind = .newKw) : ∃ more e, (∀ u ∈ more, u.Proper) ∧
      Tokens.Leads Kind.EndsOpening Kind.EndsOpening more ∧ ∀ {us : Tokens}, us.Prolongs ts →
        us.Shows Kind.EndsExpr ts.items.size more →
          Runs (parse (levels + 11) .expr) us i e (ts.items.size + more.length) [] := by
  have hi : i < ts.items.size := by omega
  rcases hk with hk | hk
  · refine ⟨[], .atom t, nofun, fun _ hk => hk, fun hus hshows => ?_⟩
    obtain ⟨u, hu, hends⟩ := hshows
    rw [← hnext] at hu ⊢
    exact runs_expr_of_primary (runs_atom (levels + 3) (hus.at_of_lt hi ht) (by rw [hk]; decide)) hu
      hends
  · refine ⟨[.made .ident, .made .lparen, .made .rparen], .new [.made .ident] [], ?_, ?_,
      fun hus hshows => ?_⟩
    · simp [Token.proper_made]
    · show Kind.EndsOpening .ident
      decide
    · rw [← hnext] at hshows ⊢
      obtain ⟨hname, hopen, hclose, u, hu, hends⟩ := hshows
      have hnew := runs_new_shortest (levels + 1) (hus.at_of_lt hi ht) hk hname hopen hclose
      exact runs_expr_of_primary hnew hu hends

/-- Such a token begins a statement, too. -/
theorem expression_of_last (levels : Nat) (hnext : i + 1 = ts.items.size) (ht : ts.At i t)
    (hk : t.kind = .ident ∨ t.kind = .newKw) : ∃ more s, (∀ u ∈ more, u.Proper) ∧
      Tokens.Leads Kind.EndsOpening Kind.EndsStmt more ∧ ∀ {us : Tokens}, us.Prolongs ts →
        us.Shows Kind.EndsStmt ts.items.size more →
          Gets (parse (levels + 12) .expression) us i s (ts.items.size + more.length) := by
  obtain ⟨more, e, hproper, hleads, hruns⟩ := expr_of_last levels hnext ht hk
  have hends : Kind.EndsExpr .semicolon ∧ Kind.EndsOpening .semicolon := by decide
  have hsemicolon : Tokens.Leads Kind.EndsOpening Kind.EndsStmt [.made .semicolon] := hends.2
  refine ⟨more ++ [.made .semicolon], .expression e, ?_, hleads.append hsemicolon,
    fun hus hshows => ?_⟩
  · have hmade : ∀ u ∈ [Token.made .semicolon], u.Proper :=
      List.forall_mem_singleton.mpr (Token.proper_made (by decide))
    exact List.forall_mem_append.mpr ⟨hproper, hmade⟩
  · have hbehind : Tokens.Leads Kind.EndsExpr Kind.EndsStmt [.made .semicolon] := hends.1
    have hexpr := hruns hus (hshows.left hbehind)
    rw [List.length_append, List.length_singleton, ← Nat.add_assoc]
    exact ⟨_, runsOf_succ trivial (StmtRun.expression hexpr ⟨_, hshows.right.1, rfl⟩)⟩

end

/-! ### All rules -/

/-- A production is viable if the rules that it calls are completed. -/
theorem viable_produce {call call' : Call} {ts : Tokens} (hts : ts.Lexed)
    (h : Call.Completing call call' ts) {α : Type} (rule : Rule α) {i : Nat}
    (hready : rule.Ready ts i) (hi : i < ts.items.size) :
    Viable rule.stop (produce call rule) (produce call' rule) ts i := by
  cases rule with
  | expr => exact h.viable .ternary trivial hi
  | ternary => exact viable_ternary hts h hi
  | nullish => exact viable_nullish hts h hi
  | binary power => exact viable_binary hts h hi power
  | unary => exact viable_unary hts h hi
  | power => exact viable_power hts h hi
  | access => exact viable_access hts h hi
  | primary => exact viable_primary hts h hi
  | params => exact viable_params hts hi
  | construction => exact viable_construction hts h hi
  | args closer => exact viable_args hts h hi hready
  | stmt => exact viable_stmt hts h hi
  | block => exact viable_block hts h hi
  | body owner => exact viable_body h hi
  | declaration =>
    obtain ⟨t, ht, -⟩ := hready
    exact viable_declaration hts h hi ht
  | declarator keyword => exact viable_declarator hts h hi keyword
  | function => exact viable_function hts h hi
  | choice => exact viable_choice hts h hi
  | whileLoop => exact viable_whileLoop hts h hi
  | doLoop => exact viable_doLoop hts h hi
  | forLoop => exact viable_forLoop hts h hi
  | jump =>
    obtain ⟨t, ht, -⟩ := hready
    exact viable_jump hts hi ht
  | exit =>
    obtain ⟨t, ht, -⟩ := hready
    exact viable_exit hts h hi ht
  | attempt => exact viable_attempt hts h hi
  | labeled => exact viable_labeled hts h hi
  | forward => exact viable_forward hts h hi hready
  | expression => exact viable_expression hts h hi

/-- What completes a phrase, given what the rules do where they have begun. -/
theorem completing_of_viable {ts : Tokens} (hts : ts.Lexed) {levels : Nat}
    (h : ∀ {α : Type} (rule : Rule α) {i : Nat}, rule.Ready ts i → i < ts.items.size →
      Viable rule.stop (parse levels rule) (parse (levels + 12) rule) ts i) :
    Call.Completing (fun rule => parse levels rule) (fun rule => parse (levels + 12) rule) ts where
  walk := walks_parse hts levels
  viable rule _ hready hi := h rule hready hi
  fresh _ _ _ hready hfirst := completable_parse levels hready hfirst
  lone hnext ht hk := expression_of_last levels hnext ht hk

/-- **Every rule can be completed**, with twelve levels to spare. -/
theorem completing_parse {ts : Tokens} (hts : ts.Lexed) : ∀ levels : Nat,
    Call.Completing (fun rule => parse levels rule) (fun rule => parse (levels + 12) rule) ts
  -- Without a level nothing is read, and the failure is not about the end.
  | 0 => completing_of_viable hts fun _ _ _ _ => viable_of_error rfl id
  | levels + 1 => completing_of_viable hts fun rule _ hready hi =>
    viable_produce hts (completing_parse hts levels) rule hready hi

end Grammar

end CommandShell
