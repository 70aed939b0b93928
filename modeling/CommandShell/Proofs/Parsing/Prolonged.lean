import CommandShell.Proofs.Parsing.Completeness
import CommandShell.Proofs.Parsing.Conduct
import CommandShell.Proofs.Parsing.Extending
import CommandShell.Proofs.Parsing.Promises

/-! # Prolonged: the rules when more tokens follow

A rule is viable if the rules that it calls are: one lemma for each rule. Of these it must be known
how they are completed where they have not begun, and what a last word begins of which the next
token would tell more (`Call.Completing`). What may stand behind a phrase is given by kinds: a token
that joins it to more would have been read with it. -/

namespace CommandShell

open CommandShell.Parser CommandShell.Grammar

/-- Does a token of the kind leave the expression before it as it is? -/
def Kind.EndsExpr (k : Kind) : Prop := k.joins? = none

/-- Does a token of the kind leave the word before it the beginning of an expression? -/
def Kind.EndsOpening (k : Kind) : Prop := k ≠ .colon ∧ k.isReceiver = false

/-- Does a token of the kind leave the statement before it as it is, however short that is? -/
def Kind.EndsStmt (k : Kind) : Prop := k ∉ Kind.followers ∧ k.EndsOpening

instance : DecidablePred Kind.EndsExpr := fun k => inferInstanceAs (Decidable (k.joins? = none))

instance : DecidablePred Kind.EndsOpening := fun _ => inferInstanceAs (Decidable (_ ∧ _))

instance : DecidablePred Kind.EndsStmt := fun _ => inferInstanceAs (Decidable (_ ∧ _))

/-- The kinds that may stand behind what a rule has read. -/
def Rule.stop : ∀ {α : Type}, Rule α → Kind → Prop
  | _, .params | _, .args _ | _, .block => Kind.Any
  | _, .declarator _ => fun k => k.EndsExpr ∧ k ≠ .assign
  | _, .expr | _, .ternary | _, .nullish | _, .binary _ | _, .unary | _, .power | _, .access
  | _, .primary | _, .construction => Kind.EndsExpr
  | _, _ => Kind.EndsStmt

/-- The kind of the token with which the shortest phrase of a rule begins, for the rules that are
called behind other phrases. -/
def Rule.first? : ∀ {α : Type}, Rule α → Option Kind
  | _, .args _ | _, .declarator _ | _, .expr | _, .ternary | _, .nullish | _, .binary _
  | _, .unary => some .ident
  | _, .params => some .lparen
  | _, .block => some .lbrace
  | _, .stmt | _, .body _ => some .semicolon
  | _, _ => none

namespace Grammar

/-- What is known of the rules that are called, by `call` with the levels at hand and by `call'`
with some to spare. -/
structure Call.Completing (call call' : Call) (ts : Tokens) : Prop where
  walk : call.Walk ts
  viable {α : Type} (rule : Rule α) {i : Nat} : rule.Ready ts i → i < ts.items.size →
    Viable rule.stop (call rule) (call' rule) ts i
  fresh {α : Type} (rule : Rule α) {i : Nat} {k : Kind} : rule.Ready ts i → rule.first? = some k →
    Completable (· = k) rule.stop (call' rule) ts
  /-- A last token that could begin more than one thing begins an expression. -/
  lone {i : Nat} {t : Token} : i + 1 = ts.items.size → ts.At i t →
    t.kind = .ident ∨ t.kind = .newKw → ∃ more s, (∀ u ∈ more, u.Proper) ∧
      Tokens.Leads Kind.EndsOpening Kind.EndsStmt more ∧ ∀ {us : Tokens}, us.Prolongs ts →
        us.Shows Kind.EndsStmt ts.items.size more →
          Gets (call' .expression) us i s (ts.items.size + more.length)

section
variable {call call' : Call} {ts : Tokens} (hts : ts.Lexed) (h : Call.Completing call call' ts)
  {i : Nat} (hi : i < ts.items.size)
include hts h

/-- A rule that is called behind other phrases. -/
theorem promises_call {α : Type} (rule : Rule α) {k : Kind} {T : Kind → Prop}
    (hready : ∀ i, rule.Ready ts i) (hfirst : rule.first? = some k) (hT : T k) :
    Promises T rule.stop (call rule) (call' rule) ts where
  viable hi := h.viable rule (hready _) hi
  ends a ha := by
    obtain ⟨hwalked, hlt⟩ := (h.walk rule [] (hready _) (Nat.zero_le _)).ok ha
    exact absurd (hwalked.walk.le_size hts hlt) (Nat.not_le.mpr hlt)
  completable := by
    have hfresh := h.fresh rule (hready 0) hfirst
    exact hfresh.mono (fun k' (hk : k' = k) => hk ▸ hT) fun _ hk => hk

/-- It may stand at the end, too. -/
theorem viable_call {α : Type} (rule : Rule α) {k : Kind} (hready : ∀ i, rule.Ready ts i)
    (hfirst : rule.first? = some k) (hle : i ≤ ts.items.size) :
    Viable rule.stop (call rule) (call' rule) ts i := by
  have hcall : Promises Kind.Any rule.stop (call rule) (call' rule) ts :=
    promises_call hts h rule hready hfirst trivial
  exact hcall.at hle

section
variable {T : Kind → Prop}

theorem promises_expr (hT : T .ident) : Promises T Kind.EndsExpr (call .expr) (call' .expr) ts :=
  promises_call hts h .expr (fun _ => trivial) rfl hT

theorem promises_arguments {closer : Kind} (hcloser : closer.isCloser = true) (hT : T .ident) :
    Promises T Kind.Any (call (.args closer)) (call' (.args closer)) ts :=
  promises_call hts h (.args closer) (fun _ => hcloser) rfl hT

theorem promises_params (hT : T .lparen) :
    Promises T Kind.Any (call .params) (call' .params) ts :=
  promises_call hts h .params (fun _ => trivial) rfl hT

theorem promises_block (hT : T .lbrace) : Promises T Kind.Any (call .block) (call' .block) ts :=
  promises_call hts h .block (fun _ => trivial) rfl hT

theorem promises_stmt (hT : T .semicolon) :
    Promises T Kind.EndsStmt (call .stmt) (call' .stmt) ts :=
  promises_call hts h .stmt (fun _ => trivial) rfl hT

theorem promises_body {owner : Kind} (hT : T .semicolon) :
    Promises T Kind.EndsStmt (call (.body owner)) (call' (.body owner)) ts :=
  promises_call hts h (.body owner) (fun _ => trivial) rfl hT

end

/-! ### Expressions -/

section
include hi

theorem viable_ternary : Viable Kind.EndsExpr (ternary call) (ternary call') ts i := by
  refine (h.viable .nullish trivial hi).andThen fun cond => ?_
  refine promises_accept hts ?_ (by decide) nofun promises_done
  refine (promises_expr hts h trivial).bind fun yes => ?_
  refine promises_bindExpectAs hts (by decide) rfl fun _ _ => ?_
  exact (promises_call hts h .ternary (fun _ => trivial) rfl trivial).bind fun no => promises_done

theorem viable_nullish : Viable Kind.EndsExpr (nullish call) (nullish call') ts i := by
  refine (h.viable (.binary 1) trivial hi).andThen fun left => ?_
  refine promises_sees hts (fun hj ht _ => ?_) (by decide) nofun promises_done
  refine viable_bindAdvance hts hj ht (Viable.andThen ?_ fun right => promises_done)
  exact viable_call hts h .nullish (fun _ => trivial) rfl hj

theorem viable_power : Viable Kind.EndsExpr (power call) (power call') ts i := by
  refine (h.viable .access trivial hi).andThen fun base => ?_
  refine promises_sees hts (fun hj ht _ => ?_) (by decide) nofun promises_done
  refine viable_bindAdvance hts hj ht (Viable.andThen ?_ fun exponent => promises_done)
  exact viable_call hts h .unary (fun _ => trivial) rfl hj

theorem viable_binaryRound (power : Nat) (left : Expr) :
    Viable Kind.EndsExpr (binaryRound call power left) (binaryRound call' power left) ts i := by
  refine viable_bindCurrent hts hi fun t ht _ => ?_
  dsimp only
  split
  · exact promises_done.viable hi
  · next p hp =>
    split
    · exact promises_done.viable hi
    · refine viable_bindAdvance hts hi ht (Viable.andThen ?_ fun right => promises_done)
      have hready : ∀ i, (Rule.binary (p + 1)).Ready ts i := fun _ => trivial
      exact viable_call hts h _ hready rfl hi

omit hts h hi in
theorem rests_binaryRound (power : Nat) (left : Expr) :
    Rests Kind.EndsExpr (binaryRound call' power left) := by
  intro us i t ht hk
  have hstop : BinaryRound (runsOf call' us) us power left i none i [] := by
    refine .stop ht fun p hp => ?_
    rw [Kind.EndsExpr, joins?_of_precedence hp] at hk
    cases hk
  rw [← runs_binaryRound] at hstop
  exact ⟨[], hstop⟩

theorem viable_binary (power : Nat) :
    Viable Kind.EndsExpr (binary call power) (binary call' power) ts i := by
  refine (h.viable .unary trivial hi).andThen fun left => ?_
  exact promises_chain hts (fun left {_} => walks_binaryRound h.walk (Nat.zero_le _) power left)
    (fun left {_} hj => viable_binaryRound hts h hj power left)
    (fun left => rests_binaryRound power left) left

omit hi in
/-- A sign or a step is followed by its operand. -/
theorem viable_signed {t : Token} {f g : Token → Expr → Parser Expr} (hj : i < ts.items.size)
    (ht : ts.At i t) (hf : ∀ e, Promises Kind.EndsExpr Kind.EndsExpr (f t e) (g t e) ts) :
    Viable Kind.EndsExpr (do let op ← advance; let operand ← call .unary; f op operand)
      (do let op ← advance; let operand ← call' .unary; g op operand) ts i := by
  refine viable_bindAdvance hts hj ht (Viable.andThen ?_ hf)
  exact viable_call hts h .unary (fun _ => trivial) rfl hj

omit hts h hi in
theorem gets_checkTarget (e : Expr) (us : Tokens) (i : Nat) : Gets (checkTarget e) us i () i :=
  ⟨_, runs_checkTarget.mpr ⟨rfl, rfl⟩⟩

omit hts h hi in
theorem gets_checkEffect (e : Expr) (us : Tokens) (i : Nat) : Gets (checkEffect e) us i () i :=
  ⟨_, runs_checkEffect.mpr ⟨rfl, rfl⟩⟩

theorem viable_unary : Viable Kind.EndsExpr (unary call) (unary call') ts i := by
  refine viable_bindCurrent hts hi fun t ht _ => ?_
  have hstep : ∀ step,
      Viable Kind.EndsExpr (stepBefore call step) (stepBefore call' step) ts i := fun step =>
    viable_signed hts h hi ht fun e => promises_done.check (gets_checkTarget e)
  dsimp only
  split
  iterate 3 exact viable_signed hts h hi ht fun _ => promises_done
  · exact hstep .up
  · exact hstep .down
  · exact h.viable .power trivial hi

/-! ### Accesses -/

section
variable {t : Token} (ht : ts.At i t) (target : Expr)
include ht

omit h in
theorem viable_memberAfter (safe : Bool) :
    Viable Kind.EndsExpr (memberAfter safe target) (memberAfter safe target) ts i := by
  refine viable_bindAdvance hts hi ht ?_
  refine viable_bindExpectAs hts (by decide) hi fun name _ => ?_
  exact promises_pure fun _ _ => trivial

theorem viable_callAfter (safe : Bool) :
    Viable Kind.EndsExpr (callAfter call safe target) (callAfter call' safe target) ts i := by
  refine viable_bindAdvance hts hi ht ?_
  exact (viable_call hts h (.args .rparen) (fun _ => rfl) rfl hi).andThen fun args =>
    promises_pure fun _ _ => trivial

/-- What is completed behind the bracket begins with no closer. -/
theorem viable_indexAfter (safe : Bool) :
    Viable Kind.EndsExpr (indexAfter call safe target) (indexAfter call' safe target) ts i := by
  refine viable_bindAdvance hts hi ht ?_
  have hargs : Promises (· = .ident) Kind.EndsExpr
      (do let args ← call (.args .rsquare); return some (Expr.index safe target args))
      (do let args ← call' (.args .rsquare); return some (Expr.index safe target args)) ts :=
    Promises.bind (promises_arguments hts h rfl rfl) fun args => promises_pure fun _ _ => trivial
  refine (promises_guard hts (fun t hk => ?_) (fun t heof => ?_) (fun t hident => ?_) hargs).at hi
  · rw [hk]
    decide
  · rw [heof]
    decide
  · rw [hident]
    decide

omit h in
theorem viable_stepAfter (step : Step) :
    Viable Kind.EndsExpr (stepAfter step target) (stepAfter step target) ts i := by
  have hcheck : Promises Kind.EndsExpr Kind.EndsExpr
      (do checkTarget target; return some (Expr.post step target))
      (do checkTarget target; return some (Expr.post step target)) ts :=
    promises_done.check (gets_checkTarget target)
  exact viable_bindAdvance hts hi ht (hcheck.at hi)

end

theorem viable_accessRound (target : Expr) :
    Viable Kind.EndsExpr (accessRound call target) (accessRound call' target) ts i := by
  refine viable_bindCurrent hts hi fun t ht _ => ?_
  dsimp only
  split
  · exact viable_memberAfter hts hi ht target false
  · exact viable_memberAfter hts hi ht target true
  · exact viable_callAfter hts h hi ht target false
  · exact viable_callAfter hts h hi ht target true
  · exact viable_indexAfter hts h hi ht target false
  · exact viable_indexAfter hts h hi ht target true
  · exact viable_stepAfter hts hi ht target .up
  · exact viable_stepAfter hts hi ht target .down
  · exact promises_done.viable hi

omit hts h hi in
theorem rests_accessRound (target : Expr) : Rests Kind.EndsExpr (accessRound call' target) := by
  intro us i t ht hk
  have hstop : AccessRound (runsOf call' us) us target i none i [] := by
    refine .stop ht fun hmem => ?_
    rw [Kind.EndsExpr, joins?_of_access hmem] at hk
    cases hk
  rw [← runs_accessRound] at hstop
  exact ⟨[], hstop⟩

theorem viable_access : Viable Kind.EndsExpr (access call) (access call') ts i := by
  refine (h.viable .primary trivial hi).andThen fun target => ?_
  exact promises_chain hts (fun target {_} => walks_accessRound h.walk (Nat.zero_le _) target)
    (fun target {_} hj => viable_accessRound hts h hj target) rests_accessRound target

/-! ### Primary expressions -/

omit h hi in
theorem promises_name {T S : Kind → Prop} {w : Wanted} (hT : T .ident) :
    Promises T S (expectAs .ident w) (expectAs .ident w) ts :=
  (promises_demand hts (demands_expectAs (by decide)) (by decide) hT).mono (fun _ hk => hk)
    fun _ _ => trivial

omit h hi in
theorem viable_params (hi : i < ts.items.size) : Viable Kind.Any params params ts i := by
  refine viable_bindExpectAs hts (by decide) (Nat.le_of_lt hi) fun _ _ => ?_
  have hclose : ∀ names : List Token, Promises (· ≠ .comma) Kind.Any
      (do let _ ← expectCloser .rparen; return names)
      (do let _ ← expectCloser .rparen; return names) ts := fun names =>
    promises_closed hts (by decide) (by decide)
  have hmoves : ∀ {i}, Walks True 0 (expectAs .ident .parameterName) ts i [] []
      (fun _ j => i < j) := fun {i} => walks_expectAs rfl fun _ _ _ => Nat.lt_succ_self i
  have hnames : Promises (· = .ident) (· ≠ .comma) (separated (expectAs .ident .parameterName))
      (separated (expectAs .ident .parameterName)) ts :=
    promises_separated hts hmoves (by decide) (promises_name hts rfl)
  refine Promises.anywhere (· = .ident) ?_
  refine promises_sees hts (fun hj _ _ => ?_) (by decide) (by decide) (hnames.bind hclose)
  rw [Parser.pure_bind]
  exact (hclose []).viable hj

theorem viable_primary : Viable Kind.EndsExpr (primary call) (primary call') ts i := by
  have hatom : ∀ {t : Token}, ts.At i t →
      Viable Kind.EndsExpr (Expr.atom <$> advance) (Expr.atom <$> advance) ts i := fun ht =>
    viable_bindAdvance hts hi ht (promises_done.at hi)
  refine viable_bindCurrent hts hi fun t ht hne => ?_
  dsimp only
  split
  iterate 8 exact hatom ht
  · refine viable_bindAdvance hts hi ht ?_
    exact (viable_call hts h .expr (fun _ => trivial) rfl hi).andThen fun inner =>
      promises_closed hts (by decide) rfl
  · refine viable_bindAdvance hts hi ht ?_
    exact ((viable_call hts h (.args .rsquare) (fun _ => rfl) rfl hi).map).mono fun _ _ => trivial
  · exact h.viable .construction trivial hi
  · refine viable_bindAdvance hts hi ht ?_
    refine (viable_call hts h .params (fun _ => trivial) rfl hi).andThen fun names => ?_
    exact (promises_block hts h trivial).bind fun body => promises_pure fun _ _ => trivial
  · exact viable_failHere ht hne

omit h hi in
theorem viable_pathRound {i : Nat} (hi : i < ts.items.size) :
    Viable (· ≠ .dot) pathRound pathRound ts i := by
  have hround : Passes (· ≠ .dot) (· ≠ .dot) pathRound pathRound ts :=
    passes_accept hts (promises_name hts trivial).map (by decide) (by decide)
      promises_done.toPasses
  exact hround.viable hi

omit hts h hi in
theorem rests_pathRound : Rests (· ≠ .dot) pathRound := by
  intro us i t ht hk
  have hstop : PathRound us i none i [] := .stop ⟨t, ht, hk⟩
  rw [← runs_pathRound] at hstop
  exact ⟨[], hstop⟩

theorem viable_construction :
    Viable Kind.EndsExpr (construction call) (construction call') ts i := by
  refine viable_bindExpectAs hts (by decide) (Nat.le_of_lt hi) fun keyword hkeyword => ?_
  have hpath := promises_collect hts (fun {_} => walks_pathRound) (viable_pathRound hts)
    rests_pathRound
  dsimp only
  refine Promises.anywhere (· = .ident) ?_
  refine promises_guard hts (fun t _ => ?_) (fun t heof => ?_) (fun t hident => ?_) ?_
  · rw [hkeyword]
    decide
  · rw [heof]
    decide
  · rw [hident]
    decide
  · refine promises_bindExpectAs hts (by decide) rfl fun head _ => ?_
    refine (hpath.anywhere).bind fun tail => ?_
    refine promises_bindExpectAs hts (by decide) (by decide) fun _ _ => ?_
    exact (promises_arguments hts h rfl trivial).bind fun args => promises_pure fun _ _ => trivial

theorem viable_args {closer : Kind} (hcloser : closer.isCloser = true) :
    Viable Kind.Any (args call closer) (args call' closer) ts i := by
  have hclose : ∀ items : List Expr, Promises (fun k => k.EndsExpr ∧ k ≠ .comma) Kind.Any
      (do let _ ← expectCloser closer; return items)
      (do let _ ← expectCloser closer; return items) ts := by
    intro items
    have hkind : closer ≠ .eof ∧ closer.EndsExpr ∧ closer ≠ .comma := by
      revert hcloser
      cases closer <;> decide
    exact promises_closed hts hkind.1 hkind.2
  have hmoves : ∀ {i}, Walks True 0 (call .expr) ts i [] [] (fun _ j => i < j) := fun {_} =>
    h.walk .expr [] trivial (Nat.zero_le _)
  have hitem : Promises (· = .ident) Kind.EndsExpr (call .expr) (call' .expr) ts :=
    promises_expr hts h rfl
  have hitems : Promises (· = .ident) (fun k => k.EndsExpr ∧ k ≠ .comma)
      (separated (call .expr)) (separated (call' .expr)) ts :=
    promises_separated hts hmoves (fun hk => hk.2 rfl)
      (hitem.mono (fun _ hk => hk) fun _ hk => hk.1)
  have hlist : Promises (· = .ident) Kind.Any (args call closer) (args call' closer) ts := by
    refine promises_sees hts (fun hj _ _ => ?_) ?_ ?_ (hitems.bind hclose)
    · rw [Parser.pure_bind]
      exact (hclose []).viable hj
    · rintro rfl
      cases hcloser
    · rintro rfl
      cases hcloser
  exact hlist.viable hi

end

/-! ### Statements -/

section
include hi

omit hts in
theorem viable_body {owner : Kind} :
    Viable Kind.EndsStmt (body call owner) (body call' owner) ts i := by
  refine (h.viable .stmt trivial hi).andThen fun s => promises_done.check fun us i => ?_
  exact ⟨_, runs_warnIfEmpty.mpr ⟨rfl, rfl⟩⟩

theorem viable_blockRound :
    Viable (· ∈ [Kind.rbrace, .eof]) (blockRound call) (blockRound call') ts i := by
  unfold blockRound
  rw [seesAny_eq, seesAny_eq]
  refine viable_test hts hi (fun t _ _ => promises_done.viable hi) (Viable.map ?_)
  refine (h.viable .stmt trivial hi).mono fun k hk => ?_
  show k.EndsStmt
  revert k
  decide

omit hts h hi in
theorem rests_blockRound : Rests (· ∈ [Kind.rbrace, .eof]) (blockRound call') := by
  intro us i t ht hk
  have hstop : BlockRound (runsOf call' us) us i none i [] := .stop ht hk
  rw [← runs_blockRound] at hstop
  exact ⟨[], hstop⟩

theorem viable_block : Viable Kind.Any (block call) (block call') ts i := by
  refine viable_bindExpectAs hts (by decide) (Nat.le_of_lt hi) fun _ _ => ?_
  have hbody := promises_collect hts (fun {_} => walks_blockRound h.walk (Nat.zero_le _))
    (viable_blockRound hts h) rests_blockRound
  refine hbody.anywhere.bind fun body => ?_
  exact promises_closed hts (by decide) (by decide)

theorem viable_declaration {t : Token} (ht : ts.At i t) :
    Viable Kind.EndsStmt (declaration call) (declaration call') ts i := by
  refine viable_bindAdvance hts hi ht ?_
  have hmoves : ∀ {i}, Walks True 0 (call (.declarator t)) ts i [] [] (fun _ j => i < j) :=
    fun {_} => h.walk (.declarator t) [] trivial (Nat.zero_le _)
  have hready : ∀ i, (Rule.declarator t).Ready ts i := fun _ => trivial
  have hitem : Promises Kind.Any (Rule.declarator t).stop (call (.declarator t))
      (call' (.declarator t)) ts := promises_call hts h (.declarator t) hready rfl trivial
  have hitems : Promises Kind.Any (fun k => k.EndsExpr ∧ k ≠ .assign ∧ k ≠ .comma)
      (separated (call (.declarator t))) (separated (call' (.declarator t))) ts :=
    promises_separated hts hmoves (fun hk => hk.2.2 rfl)
      (hitem.mono (fun _ hk => hk) fun _ hk => ⟨hk.1, hk.2.1⟩)
  exact (hitems.at hi).andThen fun declarators => promises_terminated hts (by decide)

theorem viable_declarator (keyword : Token) :
    Viable (fun k => k.EndsExpr ∧ k ≠ .assign) (declarator call keyword)
      (declarator call' keyword) ts i := by
  refine viable_bindExpectAs hts (by decide) (Nat.le_of_lt hi) fun name hname => ?_
  have hvalue : Promises Kind.Any (fun k => k.EndsExpr ∧ k ≠ .assign)
      (do let value ← call .expr; return Declarator.valued name value)
      (do let value ← call' .expr; return Declarator.valued name value) ts :=
    (promises_expr hts h trivial).bind fun value => promises_pure fun _ hk => hk.1
  have hplain : Passes (· ≠ .assign) (fun k => k.EndsExpr ∧ k ≠ .assign)
      (do if keyword.kind = .constKw then failAt .constantWithoutValue name
          return Declarator.plain name)
      (do if keyword.kind = .constKw then failAt .constantWithoutValue name
          return Declarator.plain name) ts := by
    dsimp only
    split
    · have hfails : ¬ Failure.AtEnd (.parse ⟨.constantWithoutValue, some name⟩) := by
        rw [Failure.AtEnd, hname]
        decide
      exact ⟨fun _ => viable_bindFail hfails, nofun⟩
    · exact (promises_pure fun _ hk => hk.2).toPasses
  -- A constant must have a value, so that the completion begins with the sign.
  exact promises_acceptThat hts hvalue (by decide) trivial (by decide) (fun _ _ => trivial) hplain

theorem viable_function : Viable Kind.EndsStmt (function call) (function call') ts i := by
  refine viable_bindExpectAs hts (by decide) (Nat.le_of_lt hi) fun _ _ => ?_
  refine promises_bindExpectAs hts (by decide) trivial fun name _ => ?_
  refine (promises_params hts h trivial).bind fun names => ?_
  exact (promises_block hts h trivial).bind fun body => promises_pure fun _ _ => trivial

theorem viable_choice : Viable Kind.EndsStmt (choice call) (choice call') ts i := by
  refine viable_bindExpectAs hts (by decide) (Nat.le_of_lt hi) fun _ _ => ?_
  refine (promises_expr hts h trivial).bind fun cond => ?_
  refine (promises_body hts h (by decide)).bind fun body => ?_
  refine promises_accept hts ?_ (by decide) (by decide) promises_done
  exact (promises_body hts h trivial).bind fun other => promises_done

theorem viable_whileLoop : Viable Kind.EndsStmt (whileLoop call) (whileLoop call') ts i := by
  refine viable_bindExpectAs hts (by decide) (Nat.le_of_lt hi) fun _ _ => ?_
  refine (promises_expr hts h trivial).bind fun cond => ?_
  exact (promises_body hts h (by decide)).bind fun body => promises_done

theorem viable_doLoop : Viable Kind.EndsStmt (doLoop call) (doLoop call') ts i := by
  refine viable_bindExpectAs hts (by decide) (Nat.le_of_lt hi) fun _ _ => ?_
  refine (promises_stmt hts h trivial).bind fun body => ?_
  refine promises_bindExpectAs hts (by decide) (by decide) fun _ _ => ?_
  exact (promises_expr hts h trivial).bind fun cond => promises_terminated hts (by decide)

theorem viable_forLoop : Viable Kind.EndsStmt (forLoop call) (forLoop call') ts i := by
  refine viable_bindExpectAs hts (by decide) (Nat.le_of_lt hi) fun _ _ => ?_
  refine promises_bindExpectAs hts (by decide) trivial fun name _ => ?_
  refine promises_bindExpectAs hts (by decide) trivial fun _ _ => ?_
  refine (promises_expr hts h trivial).bind fun items => ?_
  exact (promises_body hts h (by decide)).bind fun body => promises_done

omit h in
theorem viable_jump {t : Token} (ht : ts.At i t) : Viable Kind.EndsStmt jump jump ts i := by
  refine viable_bindAdvance hts hi ht ?_
  have hend : ∀ s : Stmt, Promises (· = .semicolon) Kind.EndsStmt
      (do let _ ← expectSemicolon; return s) (do let _ ← expectSemicolon; return s) ts := fun s =>
    promises_terminated hts rfl
  refine (Promises.anywhere (· = .semicolon) ?_).at hi
  refine promises_sees hts (fun hj hlabel hk => ?_) (by decide) (by decide) (hend _)
  exact viable_bindMapAdvance hts hj hlabel ((hend _).at hj)

theorem viable_exit {t : Token} (ht : ts.At i t) :
    Viable Kind.EndsStmt (exit call) (exit call') ts i := by
  refine viable_bindAdvance hts hi ht ?_
  have hend : ∀ s : Stmt, Promises Kind.EndsExpr Kind.EndsStmt
      (do let _ ← expectSemicolon; return s) (do let _ ← expectSemicolon; return s) ts := fun s =>
    promises_terminated hts rfl
  have hvalue : Promises (· = .ident) Kind.EndsExpr (call .expr) (call' .expr) ts :=
    promises_expr hts h rfl
  refine (Promises.anywhere (· = .ident) ?_).at hi
  refine promises_sees hts (fun hj _ _ => ?_) (by decide) (by decide) (hvalue.bind fun _ => hend _)
  exact (hend _).viable hj

/-! ### Handlers -/

omit h hi in
theorem promises_rescueHead : Promises (fun k => k ≠ .lparen ∧ k ≠ .ident)
    (fun k => k ≠ .lparen ∧ k ≠ .ident) rescueHead rescueHead ts := by
  have hclose : ∀ head : Option Token × Option Token, Promises (· = .rparen) Kind.Any
      (do let _ ← expectCloser .rparen; return head)
      (do let _ ← expectCloser .rparen; return head) ts := fun head =>
    promises_closed hts (by decide) rfl
  refine promises_accept hts ?_ (by decide) (fun hk => hk.1 rfl) ?_
  · refine promises_bindExpectAs hts (by decide) trivial fun type _ => ?_
    refine Promises.mono (T := (· = .rparen)) (S := Kind.Any) (fun _ _ => trivial)
      (fun _ _ => trivial) ?_
    refine promises_sees hts (fun hj ht _ => ?_) (by decide) (by decide) (hclose _)
    exact viable_bindMapAdvance hts hj ht ((hclose _).at hj)
  · refine promises_sees hts (fun hj ht _ => ?_) (by decide) (fun hk => hk.2 rfl) promises_done
    exact viable_bindAdvance hts hj ht (promises_done.at hj)

omit hi in
theorem passes_rescueRound : Passes (· ≠ .catchKw) (· ≠ .catchKw) (rescueRound call)
    (rescueRound call') ts := by
  have hhead : Promises Kind.Any (fun k => k ≠ .lparen ∧ k ≠ .ident) rescueHead rescueHead ts :=
    (promises_rescueHead hts).anywhere
  refine passes_accept hts ?_ (by decide) (by decide) promises_done.toPasses
  refine hhead.bind fun head => ?_
  exact (promises_block hts h (by decide)).bind fun body => promises_pure fun _ _ => trivial

omit hts h hi in
theorem rests_rescueRound : Rests (· ≠ .catchKw) (rescueRound call') := by
  intro us i t ht hk
  have hstop : RescueRound (runsOf call' us) us i none i [] := .stop ⟨t, ht, hk⟩
  rw [← runs_rescueRound] at hstop
  exact ⟨[], hstop⟩

omit hts h hi in
theorem always_bind {α : Type} (call : Call) (f : List Handler → Parser α) :
    (always call >>= f) =
      (do if ← accept .finallyKw then call .block >>= fun body => f [.always body] else f []) := by
  unfold always
  rw [accept_eq, accept_eq, bind_bind]
  congr 1
  funext t
  split
  · rw [bind_bind]
    congr 1
    funext _
    rw [bind_bind]
    rfl
  · rfl

/-- What stands behind the blocks of a `try` must be a handler, so that the completion begins with
one. -/
theorem viable_attempt : Viable Kind.EndsStmt (attempt call) (attempt call') ts i := by
  refine viable_bindExpectAs hts (by decide) (Nat.le_of_lt hi) fun keyword hkeyword => ?_
  refine (promises_block hts h trivial).bind fun body => ?_
  have hrescues : Promises (· ≠ .catchKw) (· ≠ .catchKw) (collect (rescueRound call))
      (collect (rescueRound call')) ts :=
    promises_collect hts (fun {_} => walks_rescueRound h.walk (Nat.zero_le _))
      (fun {_} hj => (passes_rescueRound hts h).viable hj) rests_rescueRound
  refine hrescues.anywhere.bind fun rescues => ?_
  rw [always_bind, always_bind]
  have hnone : ∀ handlers : List Handler,
      Passes (fun k => k ≠ .finallyKw ∧ k ≠ .catchKw) Kind.EndsStmt
      (do if handlers.isEmpty then failAt .tryWithoutHandler keyword
          return Stmt.attempt body handlers)
      (do if handlers.isEmpty then failAt .tryWithoutHandler keyword
          return Stmt.attempt body handlers) ts := by
    intro handlers
    dsimp only
    split
    · have hfails : ¬ Failure.AtEnd (.parse ⟨.tryWithoutHandler, some keyword⟩) := by
        rw [Failure.AtEnd, hkeyword]
        decide
      exact ⟨fun _ => viable_bindFail hfails, nofun⟩
    · refine (promises_pure fun k hk => ⟨?_, ?_⟩).toPasses <;> rintro rfl <;> revert hk <;> decide
  refine promises_acceptThat hts ?_ (by decide) (by decide) (fun hk => hk.1 rfl)
    (fun _ hk => hk.2) (hnone (rescues ++ []))
  refine (promises_block hts h trivial).bind fun last => ?_
  dsimp only
  rw [if_neg (by simp)]
  exact promises_pure fun _ _ => trivial

theorem viable_labeled : Viable Kind.EndsStmt (labeled call) (labeled call') ts i := by
  refine viable_bindExpectAs hts (by decide) (Nat.le_of_lt hi) fun _ _ => ?_
  refine promises_bindExpectAs hts (by decide) trivial fun _ _ => ?_
  exact (promises_stmt hts h trivial).bind fun body => promises_done

/-- The receiver is known to stand there. -/
theorem viable_forward (hreceiver : ∃ t, ts.At (i + 1) t ∧ t.kind.isReceiver = true) :
    Viable Kind.EndsStmt (forward call) (forward call') ts i := by
  obtain ⟨t, ht, hk⟩ := hreceiver
  have hnext : i + 1 < ts.items.size := hts.lt_size ht (by rintro heof; rw [heof] at hk; cases hk)
  refine viable_bindDemandAt hts (demands_expectAs (by decide)) hi fun _ _ _ => ?_
  refine viable_bindAdvance hts hnext ht ?_
  refine viable_bindExpectAs hts (by decide) hnext fun _ _ => ?_
  refine (promises_arguments hts h rfl trivial).bind fun args => ?_
  exact promises_terminated hts trivial

/-- What follows the expression with which a statement begins. -/
theorem viable_expression : Viable Kind.EndsStmt (expression call) (expression call') ts i := by
  refine (h.viable .expr trivial hi).andThen fun e => ?_
  have hvalue : ∀ f : Expr → Stmt, Promises Kind.Any Kind.EndsStmt
      (do checkTarget e; let value ← call .expr; let _ ← expectSemicolon; return f value)
      (do checkTarget e; let value ← call' .expr; let _ ← expectSemicolon; return f value) ts :=
    fun f => Promises.check (gets_checkTarget e) <|
      (promises_expr hts h trivial).bind fun value => promises_terminated hts (by decide)
  refine Promises.mono (T := (· = .semicolon)) (S := Kind.EndsStmt) (fun _ hk => hk ▸ rfl)
    (fun _ hk => hk) ?_
  refine promises_accept hts (hvalue _) (by decide) (by decide) ?_
  refine promises_test hts (fun hj ht _ => ?_) (fun t heof => ?_) (fun t hsemicolon => ?_) ?_
  · exact viable_bindAdvance hts hj ht ((hvalue _).at hj)
  · rw [heof]
    decide
  · rw [hsemicolon]
    decide
  · refine promises_bindDemand hts demands_semicolon (by decide) rfl fun _ _ => ?_
    exact Promises.check (gets_checkEffect e) (promises_pure fun _ _ => trivial)

/-! ### Openings -/

omit hts h hi in
theorem gets_opening_expression {us : Tokens} {t : Token} (ht : us.At i t)
    (hbegins : t.kind.beginsStatement = false) (hident : t.kind = .ident → us.Lacks (i + 1) .colon)
    (hnew : t.kind = .newKw → ∃ u, us.At (i + 1) u ∧ u.kind.isReceiver = false) :
    Gets opening us i .expression i :=
  ⟨[], runs_opening_expression.mpr ⟨rfl, rfl, t, ht, hbegins, hident, hnew⟩⟩

omit h hi in
/-- Where the second token is missing, nothing is a label or a forwarded construction. -/
theorem opening_at_end {t : Token} {o : Opening} {j : Nat} {ds : List Diagnostic} (ht : ts.At i t)
    (hbegins : t.kind.beginsStatement = false) (hnext : i + 1 = ts.items.size)
    (hopening : Runs opening ts i o j ds) : o = .expression ∧ j = i := by
  cases o with
  | expression => exact ⟨rfl, (runs_opening_expression.mp hopening).1⟩
  | statement =>
    obtain ⟨-, -, t', ht', hb | ⟨-, u, hu, hk⟩ | ⟨-, u, hu, hk⟩⟩ :=
      runs_opening_statement.mp hopening
    · rw [← ht.unique ht', hbegins] at hb
      cases hb
    all_goals
      rw [hts.kind_at_end (hnext ▸ hu)] at hk
      cases hk

section
variable {α : Type} {S : Kind → Prop} {f g : Opening → Parser α} {t : Token}
  (hS : ∀ k, S k → k.EndsOpening)
  (hexpression : Viable S (f .expression) (g .expression) ts i)
  (hmoves : ∀ a, (f .expression ts i).outcome = .ok a → i < (f .expression ts i).next)

omit h in
/-- Where the second token is there, it decides, whatever follows. -/
theorem viable_bindOpening_of_second (hnext : i + 1 < ts.items.size) (ht : ts.At i t)
    (hbegins : t.kind.beginsStatement = false)
    (hstatement : t.kind = .ident ∨ t.kind = .newKw ∧
        (∃ u, ts.At (i + 1) u ∧ u.kind.isReceiver = true) →
      Viable S (f .statement) (g .statement) ts i)
    (hexpression : Viable S (f .expression) (g .expression) ts i) :
    Viable S (opening >>= f) (opening >>= g) ts i := by
  obtain ⟨u, hu, -⟩ := hts.exists_at hnext
  by_cases hsecond : t.kind = .ident ∧ u.kind = .colon ∨
    t.kind = .newKw ∧ u.kind.isReceiver = true
  · refine .after hts (Nat.le_refl i) (fun {us} hus => ⟨[], ?_⟩) (hstatement ?_)
    · have hu' := hus.at_of_lt hnext hu
      refine runs_opening_statement.mpr ⟨rfl, rfl, t, hus.at_of_lt hi ht, Or.inr ?_⟩
      exact hsecond.imp (fun h => ⟨h.1, u, hu', h.2⟩) fun h => ⟨h.1, u, hu', h.2⟩
    · exact hsecond.imp And.left fun h => ⟨h.1, u, hu, h.2⟩
  · have hopens : ∀ {us : Tokens}, us.Prolongs ts → Gets opening us i .expression i := by
      intro us hus
      have hu' := hus.at_of_lt hnext hu
      refine gets_opening_expression (hus.at_of_lt hi ht) hbegins (fun hk => ⟨u, hu', ?_⟩)
        fun hk => ⟨u, hu', ?_⟩
      · exact fun hcolon => hsecond (Or.inl ⟨hk, hcolon⟩)
      · exact Bool.eq_false_iff.mpr fun hreceiver => hsecond (Or.inr ⟨hk, hreceiver⟩)
    exact .after hts (Nat.le_refl i) hopens hexpression

include hS hexpression hmoves

omit h in
/-- Where it is missing, what is read is an expression, so that what follows must not make it
something else. -/
theorem viable_bindOpening_of_last (hnext : i + 1 = ts.items.size) (ht : ts.At i t)
    (hbegins : t.kind.beginsStatement = false)
    (hlone : ∃ more a, (∀ u ∈ more, u.Proper) ∧ Tokens.Leads Kind.EndsOpening S more ∧
      ∀ {us : Tokens}, us.Prolongs ts → us.Shows S ts.items.size more →
        Gets (g .expression) us i a (ts.items.size + more.length)) :
    Viable S (opening >>= f) (opening >>= g) ts i := by
  have hopens : ∀ {us : Tokens} {u : Token}, us.Prolongs ts → us.At ts.items.size u →
      u.kind.EndsOpening → Gets opening us i .expression i := by
    intro us u hus hu hk
    rw [← hnext] at hu
    exact gets_opening_expression (hus.at_of_lt hi ht) hbegins (fun _ => ⟨u, hu, hk.1⟩)
      fun _ => ⟨u, hu, hk.2⟩
  refine ⟨fun {a} ha => ?_, fun _ _ => ?_⟩
  · obtain ⟨o, j, ds, ds', hopening, hrest, -⟩ := runs_bind.mp (runs_iff.mpr ⟨ha, rfl, rfl⟩)
    obtain ⟨rfl, rfl⟩ := opening_at_end hts ht hbegins hnext hopening
    obtain ⟨hok, hend, -⟩ := runs_iff.mp hrest
    obtain ⟨hle, hsize, hgets⟩ := hexpression.ok hok
    have hlt := hmoves a hok
    rw [hend] at hle hsize hgets hlt
    refine ⟨hle, hsize, fun hus hshows => ?_⟩
    obtain ⟨u, hu, hk⟩ := hshows (by omega)
    exact (hopens hus hu (hS _ hk)).bind (hgets hus hshows)
  · obtain ⟨more, a, hproper, hleads, hgets⟩ := hlone
    refine ⟨more, a, hproper, fun hus hshows => ?_⟩
    obtain ⟨u, hu, hk⟩ := hshows.head hleads
    exact (hopens hus hu hk).bind (hgets hus hshows)

omit h in
/-- **How what follows is to be read.** Two tokens decide. Where there is only one that does not
decide, it is read as an expression. -/
theorem viable_bindOpening
    (hstatement : ∀ t, ts.At i t → t.kind.beginsStatement = true ∨ t.kind = .ident ∨
        t.kind = .newKw ∧ (∃ u, ts.At (i + 1) u ∧ u.kind.isReceiver = true) →
      Viable S (f .statement) (g .statement) ts i)
    (hlone : ∀ t, i + 1 = ts.items.size → ts.At i t → t.kind = .ident ∨ t.kind = .newKw →
      ∃ more a, (∀ u ∈ more, u.Proper) ∧ Tokens.Leads Kind.EndsOpening S more ∧
        ∀ {us : Tokens}, us.Prolongs ts → us.Shows S ts.items.size more →
          Gets (g .expression) us i a (ts.items.size + more.length)) :
    Viable S (opening >>= f) (opening >>= g) ts i := by
  obtain ⟨t, ht, hk⟩ := hts.exists_at hi
  by_cases hbegins : t.kind.beginsStatement = true
  · refine .after hts (Nat.le_refl i) (fun hus => ⟨[], ?_⟩) (hstatement t ht (Or.inl hbegins))
    exact runs_opening_statement.mpr ⟨rfl, rfl, t, hus.at_of_lt hi ht, Or.inl hbegins⟩
  rw [Bool.not_eq_true] at hbegins
  by_cases hword : t.kind = .ident ∨ t.kind = .newKw
  · rcases Nat.lt_or_eq_of_le (show i + 1 ≤ ts.items.size from hi) with hnext | hnext
    · exact viable_bindOpening_of_second hts hi hnext ht hbegins
        (fun hopens => hstatement t ht (Or.inr hopens)) hexpression
    · exact viable_bindOpening_of_last hts hi hS hexpression hmoves hnext ht hbegins
        (hlone t hnext ht hword)
  · have hopens : ∀ {us : Tokens}, us.Prolongs ts → Gets opening us i .expression i := fun hus =>
      gets_opening_expression (hus.at_of_lt hi ht) hbegins (fun hk => absurd (Or.inl hk) hword)
        fun hk => absurd (Or.inr hk) hword
    exact .after hts (Nat.le_refl i) hopens hexpression

end

theorem viable_stmt : Viable Kind.EndsStmt (stmt call) (stmt call') ts i := by
  refine viable_bindOpening hts hi (fun k hk => hk.2) (h.viable .expression trivial hi)
    (fun s hs => ((h.walk .expression [] trivial (Nat.zero_le _)).ok hs).2)
    (fun t ht hopens => ?_) fun t hnext ht hk => h.lone hnext ht hk
  refine viable_bindCurrent hts hi fun u hu hne => ?_
  cases ht.unique hu
  have hcall : ∀ {rule : Rule Stmt}, statementRule? t.kind = some rule →
      Viable Kind.EndsStmt (call rule) (call' rule) ts i := by
    intro rule hrule
    have hfits := fits_of_rule ht hrule
    have hviable := fun hready => h.viable rule (i := i) hready hi
    unfold statementRule? at hrule
    split at hrule <;> cases hrule <;> exact hviable hfits
  dsimp only
  split
  · exact (h.viable .block trivial hi).map.mono fun _ _ => trivial
  · exact viable_bindAdvance hts hi ht (promises_done.at hi)
  iterate 12
    next hk => exact hcall (by rw [hk]; rfl)
  · exact h.viable .labeled trivial hi
  · next hk =>
    refine h.viable .forward ?_ hi
    rcases hopens with hbegins | hident | ⟨-, hreceiver⟩
    · rw [hk] at hbegins
      cases hbegins
    · rw [hk] at hident
      cases hident
    · exact hreceiver
  · exact viable_failHere ht hne

end

end

end Grammar

end CommandShell
