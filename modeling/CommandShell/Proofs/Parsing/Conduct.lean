import CommandShell.Proofs.Parsing.Walks

/-! # Conduct: every rule walks

A rule closes every bracket that it opens, takes at least one token, and looks at no token behind
the one where it stops; where it fails, it has walked to a token that it cannot take
(`walks_parse`). This holds of every production if it holds of the rules that it calls, and so of
all rules, with any number of levels left. The arguments of a call are read without their opening
bracket, so that their closer is awaited where they begin. -/

namespace CommandShell

open CommandShell.Parser

/-- What a rule relies on where it is called. -/
def Rule.Ready (ts : Tokens) (i : Nat) : ∀ {α : Type}, Rule α → Prop
  | _, .args closer => closer.isCloser = true
  | _, rule => rule.Fits ts i

/-- The closers that are awaited where a rule begins, given those that are when it stops. -/
def Rule.before (σ : List Kind) : ∀ {α : Type}, Rule α → List Kind
  | _, .args closer => closer :: σ
  | _, _ => σ

namespace Grammar

/-- The rules that are called walk, wherever they are ready. Their failures may be about a token
that their caller has taken. -/
def Call.Walk (call : Call) (ts : Tokens) : Prop :=
  ∀ {α : Type} (rule : Rule α) {low i : Nat} (σ : List Kind), rule.Ready ts i → low ≤ i →
    Walks True low (call rule) ts i (rule.before σ) σ (fun _ j => i < j)

theorem turn_of_precedence {k : Kind} {p : Nat} (h : k.precedence? = some p) (σ : List Kind) :
    k.turn σ = some σ := Kind.turn_plain (isPlain_of_precedence h) σ

section
variable {call : Call} {ts : Tokens} {low i : Nat} {σ : List Kind} (h : call.Walk ts)
  (hlow : low ≤ i)
include h hlow

/-! ### Expressions -/

theorem walks_ternary : Walks True low (ternary call) ts i σ σ (fun _ j => i < j) := by
  refine (h .nullish σ trivial hlow).bind fun cond j hij => ?_
  refine walks_bindAccept (k := .question) rfl (fun _ _ _ => ?_) fun _ _ _ => walks_pure hij
  refine (h .expr σ trivial (by omega)).bind fun yes k hjk => ?_
  refine walks_bindExpectAs (k := .colon) rfl fun _ _ _ => ?_
  exact (h .ternary σ trivial (by omega)).bind fun no l hkl => walks_pure (by omega)

theorem walks_nullish : Walks True low (nullish call) ts i σ σ (fun _ j => i < j) := by
  refine (h (.binary 1) σ trivial hlow).bind fun left j hij => ?_
  refine walks_bindSees (fun t ht hk => ?_) fun _ _ _ => walks_pure hij
  refine walks_bindAdvance ht (ρ := σ) (by rw [hk]; rfl) ?_
  exact (h .nullish σ trivial (by omega)).bind fun right k hjk => walks_pure (by omega)

theorem walks_binaryRound (power : Nat) (left : Expr) : Walks True low (binaryRound call power left)
    ts i σ σ (fun e? j => e?.isSome → i < j) := by
  refine walks_bindCurrent fun t ht => ?_
  split
  · exact walks_pure nofun
  · next p hp =>
    refine .ite (fun _ => walks_pure nofun) fun _ => ?_
    refine walks_bindAdvance ht (turn_of_precedence hp σ) ?_
    have hready : (Rule.binary (p + 1)).Ready ts (i + 1) := trivial
    refine (h _ σ hready (by omega)).bind fun right j hij => walks_pure fun _ => ?_
    omega

theorem walks_binary (hlexed : ts.Lexed) (power : Nat) :
    Walks True low (binary call power) ts i σ σ (fun _ j => i < j) := by
  refine (h .unary σ trivial hlow).bind fun left j hij => ?_
  refine (walks_chain hlexed (fun left {k} hlow => ?_) (by omega) left).imp fun _ k hjk => ?_
  · exact walks_binaryRound h hlow power left
  · omega

theorem walks_stepBefore {step : Step} {t : Token} (ht : ts.At i t)
    (hturn : t.kind.turn σ = some σ) :
    Walks True low (stepBefore call step) ts i σ σ (fun _ j => i < j) := by
  refine walks_bindAdvance ht hturn ?_
  refine (h .unary σ trivial (by omega)).bind fun operand j hij => ?_
  exact walks_bindCheck walks_checkTarget (walks_pure (by omega))

/-- A token that stands before an operand, and the operand. -/
theorem walks_signed {t : Token} (ht : ts.At i t) (hturn : t.kind.turn σ = some σ) :
    Walks True low (do let op ← advance; let operand ← call .unary; return Expr.unary op operand)
      ts i σ σ (fun _ j => i < j) := by
  refine walks_bindAdvance ht hturn ?_
  exact (h .unary σ trivial (by omega)).bind fun operand j hij => walks_pure (by omega)

theorem walks_unary : Walks True low (unary call) ts i σ σ (fun _ j => i < j) := by
  refine walks_bindCurrent fun t ht => ?_
  split
  · next hk => exact walks_signed h hlow ht (by rw [hk]; rfl)
  · next hk => exact walks_signed h hlow ht (by rw [hk]; rfl)
  · next hk => exact walks_signed h hlow ht (by rw [hk]; rfl)
  · next hk => exact walks_stepBefore h hlow ht (by rw [hk]; rfl)
  · next hk => exact walks_stepBefore h hlow ht (by rw [hk]; rfl)
  · exact h .power σ trivial hlow

theorem walks_power : Walks True low (power call) ts i σ σ (fun _ j => i < j) := by
  refine (h .access σ trivial hlow).bind fun base j hij => ?_
  refine walks_bindSees (fun t ht hk => ?_) fun _ _ _ => walks_pure hij
  refine walks_bindAdvance ht (ρ := σ) (by rw [hk]; rfl) ?_
  exact (h .unary σ trivial (by omega)).bind fun exponent k hjk => walks_pure (by omega)

omit h hlow in
theorem walks_memberAfter {safe : Bool} {target : Expr} {t : Token} (ht : ts.At i t)
    (hturn : t.kind.turn σ = some σ) : Walks True low (memberAfter safe target) ts i σ σ
      (fun e? j => e?.isSome → i < j) := by
  refine walks_bindAdvance ht hturn ?_
  refine walks_bindExpectAs (k := .ident) rfl fun _ _ _ => walks_pure fun _ => ?_
  omega

theorem walks_callAfter {safe : Bool} {target : Expr} {t : Token} (ht : ts.At i t)
    (hturn : t.kind.turn σ = some (.rparen :: σ)) : Walks True low (callAfter call safe target)
      ts i σ σ (fun e? j => e?.isSome → i < j) := by
  refine walks_bindAdvance ht hturn ?_
  exact (h (.args .rparen) σ rfl (by omega)).bind fun _ _ _ => walks_pure fun _ => by omega

theorem walks_indexAfter {safe : Bool} {target : Expr} {t : Token} (ht : ts.At i t)
    (hturn : t.kind.turn σ = some (.rsquare :: σ)) : Walks True low (indexAfter call safe target)
      ts i σ σ (fun e? j => e?.isSome → i < j) := by
  refine walks_bindAdvance ht hturn (walks_bindCurrent fun u hu => .ite (fun hk => ?_) fun _ => ?_)
  · have hne : u.kind ≠ .eof := by
      rw [hk]
      decide
    exact walks_bindFail (.here .refl hu hne)
  · exact (h (.args .rsquare) σ rfl (by omega)).bind fun _ _ _ => walks_pure fun _ => by omega

omit h hlow in
theorem walks_stepAfter {step : Step} {target : Expr} {t : Token} (ht : ts.At i t)
    (hturn : t.kind.turn σ = some σ) : Walks True low (stepAfter step target) ts i σ σ
      (fun e? j => e?.isSome → i < j) := by
  refine walks_bindAdvance ht hturn (walks_bindCheck walks_checkTarget (walks_pure fun _ => ?_))
  omega

theorem walks_accessRound (target : Expr) : Walks True low (accessRound call target) ts i σ σ
    (fun e? j => e?.isSome → i < j) := by
  refine walks_bindCurrent fun t ht => ?_
  split
  · next hk => exact walks_memberAfter ht (by rw [hk]; rfl)
  · next hk => exact walks_memberAfter ht (by rw [hk]; rfl)
  · next hk => exact walks_callAfter h hlow ht (by rw [hk]; rfl)
  · next hk => exact walks_callAfter h hlow ht (by rw [hk]; rfl)
  · next hk => exact walks_indexAfter h hlow ht (by rw [hk]; rfl)
  · next hk => exact walks_indexAfter h hlow ht (by rw [hk]; rfl)
  · next hk => exact walks_stepAfter ht (by rw [hk]; rfl)
  · next hk => exact walks_stepAfter ht (by rw [hk]; rfl)
  · exact walks_pure nofun

theorem walks_access (hlexed : ts.Lexed) :
    Walks True low (access call) ts i σ σ (fun _ j => i < j) := by
  refine (h .primary σ trivial hlow).bind fun target j hij => ?_
  refine (walks_chain hlexed (fun target {k} hlow => ?_) (by omega) target).imp fun _ k hjk => ?_
  · exact walks_accessRound h hlow target
  · omega

theorem walks_args (hlexed : ts.Lexed) {closer : Kind} (hcloser : closer.isCloser = true) :
    Walks True low (args call closer) ts i (closer :: σ) σ (fun _ j => i < j) := by
  have hturn := Kind.turn_closer hcloser σ
  refine walks_bindSees (fun _ _ _ => ?_) fun _ _ _ => ?_
  · rw [pure_bind]
    exact walks_bindExpectAs hturn fun _ _ _ => walks_pure (by omega)
  · have hitem : ∀ {i}, low ≤ i →
        Walks True low (call .expr) ts i (closer :: σ) (closer :: σ) (fun _ j => i < j) :=
      fun hlow => h .expr _ trivial hlow
    refine (walks_separated hlexed hitem hlow).bind fun _ j hij => ?_
    exact walks_bindExpectAs hturn fun _ _ _ => walks_pure (by omega)

omit h in
theorem walks_params (hlexed : ts.Lexed) :
    Walks True low params ts i σ σ (fun _ j => i < j) := by
  refine walks_bindExpectAs (k := .lparen) rfl fun _ _ _ => ?_
  have hclose : ∀ {j : Nat} (names : List Token), i < j →
      Walks True low (do let _ ← expectCloser .rparen; return names) ts j (.rparen :: σ) σ
        (fun _ k => i < k) :=
    fun _ hij => walks_bindExpectAs (k := .rparen) rfl fun _ _ _ => walks_pure (by omega)
  refine walks_bindSees (fun _ _ _ => ?_) fun _ _ _ => ?_
  · rw [pure_bind]
    exact hclose [] (by omega)
  · have hitem : ∀ {i}, low ≤ i → Walks True low (expectAs .ident .parameterName) ts i
        (.rparen :: σ) (.rparen :: σ) (fun _ j => i < j) :=
      fun _ => walks_expectAs rfl fun _ _ _ => by omega
    exact (walks_separated hlexed hitem (by omega)).bind fun names j hij => hclose names (by omega)

theorem walks_primary : Walks True low (primary call) ts i σ σ (fun _ j => i < j) := by
  have hatom : ∀ {t : Token}, ts.At i t → t.kind.turn σ = some σ →
      Walks True low (Expr.atom <$> advance) ts i σ σ (fun _ j => i < j) := by
    intro t ht hturn
    exact (walks_advance ht hturn (Nat.lt_succ_self i)).map fun _ _ hij => hij
  refine walks_bindCurrent fun t ht => ?_
  split
  iterate 8
    next hk => exact hatom ht (by rw [hk]; rfl)
  · next hk =>
    refine walks_bindAdvance ht (ρ := .rparen :: σ) (by rw [hk]; rfl) ?_
    refine (h .expr _ trivial (by omega)).bind fun inner j hij => ?_
    exact walks_bindExpectAs (k := .rparen) rfl fun _ _ _ => walks_pure (by omega)
  · next hk =>
    refine walks_bindAdvance ht (ρ := .rsquare :: σ) (by rw [hk]; rfl) ?_
    exact (h (.args .rsquare) σ rfl (by omega)).map fun _ _ hij => by omega
  · exact h .construction σ trivial hlow
  · next hk =>
    refine walks_bindAdvance ht (ρ := σ) (by rw [hk]; rfl) ?_
    refine (h .params σ trivial (by omega)).bind fun names j hij => ?_
    exact (h .block σ trivial (by omega)).bind fun body k hjk => walks_pure (by omega)
  · exact walks_failHere fun _ hk => hk

omit h hlow in
theorem walks_pathRound :
    Walks True low pathRound ts i σ σ (fun t? j => t?.isSome → i < j) := by
  refine walks_bindAccept (k := .dot) rfl (fun _ _ _ => ?_) fun _ _ _ => walks_pure nofun
  have hname : Walks True low (expectAs .ident (.typeName ".")) ts (i + 1) σ σ (fun _ j => i < j) :=
    walks_expectAs rfl fun _ _ _ => by omega
  exact hname.map fun _ _ hij _ => hij

theorem walks_construction (hlexed : ts.Lexed) :
    Walks True low (construction call) ts i σ σ (fun _ j => i < j) := by
  refine walks_bindExpectAs (k := .newKw) rfl fun keyword hkeyword _ => ?_
  refine walks_bindCurrent fun t ht => .ite (fun _ => ?_) fun _ => ?_
  · exact walks_bindFail (stuck_behind hkeyword hlow (Nat.lt_succ_self i) rfl)
  · refine walks_bindExpectAs (k := .ident) rfl fun head _ _ => ?_
    refine (walks_collect hlexed (fun _ => walks_pathRound) (by omega)).bind fun tail j hij => ?_
    refine walks_bindExpectAs (k := .lparen) rfl fun _ _ _ => ?_
    exact (h (.args .rparen) σ rfl (by omega)).bind fun args k hjk => walks_pure (by omega)

/-! ### Statements -/

theorem walks_stmt : Walks True low (stmt call) ts i σ σ (fun _ j => i < j) := by
  refine walks_bindOpening (fun _ _ hij => hij) (fun t ht hopens => ?_)
    (h .expression σ trivial hlow)
  refine walks_bindCurrent fun u hu => ?_
  cases ht.unique hu
  have hcall : ∀ {rule : Rule Stmt}, statementRule? t.kind = some rule →
      Walks True low (call rule) ts i σ σ (fun _ j => i < j) := by
    intro rule hrule
    have hfits := fits_of_rule ht hrule
    unfold statementRule? at hrule
    split at hrule <;> cases hrule <;> exact h _ σ hfits hlow
  split
  · next hk => exact (h .block σ trivial hlow).map fun _ _ hij => hij
  · next hk =>
    exact (walks_advance ht (by rw [hk]; rfl) (Nat.lt_succ_self i)).map fun _ _ hij => hij
  iterate 12
    next hk => exact hcall (by rw [hk]; rfl)
  · exact h .labeled σ trivial hlow
  · next hk =>
    refine h .forward σ ?_ hlow
    rcases hopens with hbegins | hident | ⟨-, hreceiver⟩
    · rw [hk] at hbegins
      cases hbegins
    · rw [hk] at hident
      cases hident
    · exact hreceiver
  · exact walks_failHere fun _ hk => hk

theorem walks_blockRound :
    Walks True low (blockRound call) ts i σ σ (fun s? j => s?.isSome → i < j) := by
  refine walks_bindSeesAny (fun _ _ _ => walks_pure nofun) fun _ _ _ => ?_
  exact (h .stmt σ trivial hlow).map fun _ _ hij _ => hij

theorem walks_block (hlexed : ts.Lexed) :
    Walks True low (block call) ts i σ σ (fun _ j => i < j) := by
  refine walks_bindExpectAs (k := .lbrace) rfl fun _ _ _ => ?_
  refine (walks_collect hlexed (walks_blockRound h) (by omega)).bind fun body j hij => ?_
  exact walks_bindExpectAs (k := .rbrace) rfl fun _ _ _ => walks_pure (by omega)

theorem walks_body {owner : Kind} :
    Walks True low (body call owner) ts i σ σ (fun _ j => i < j) :=
  (h .stmt σ trivial hlow).bind fun _ _ hij => walks_bindCheck walks_warnIfEmpty (walks_pure hij)

theorem walks_declaration (hlexed : ts.Lexed) {t : Token} (ht : ts.At i t)
    (hturn : t.kind.turn σ = some σ) :
    Walks True low (declaration call) ts i σ σ (fun _ j => i < j) := by
  refine walks_bindAdvance ht hturn ?_
  have hitem : ∀ {i}, low ≤ i → Walks True low (call (.declarator t)) ts i σ σ (fun _ j => i < j) :=
    fun hlow => h (.declarator t) σ trivial hlow
  refine (walks_separated hlexed hitem (by omega)).bind fun declarators j hij => ?_
  exact walks_bindSemicolon fun _ => walks_pure (by omega)

theorem walks_declarator (keyword : Token) :
    Walks True low (declarator call keyword) ts i σ σ (fun _ j => i < j) := by
  refine walks_bindExpectAs (k := .ident) rfl fun name hname _ => ?_
  refine walks_bindAccept (k := .assign) rfl (fun _ _ _ => ?_) fun _ _ _ => ?_
  · exact (h .expr σ trivial (by omega)).bind fun value j hij => walks_pure (by omega)
  · refine .ite (fun _ => ?_) fun _ => walks_pure (by omega)
    exact walks_bindFail (stuck_behind hname hlow (Nat.lt_succ_self i) rfl)

theorem walks_function : Walks True low (function call) ts i σ σ (fun _ j => i < j) := by
  refine walks_bindExpectAs (k := .fnKw) rfl fun _ _ _ => ?_
  refine walks_bindExpectAs (k := .ident) rfl fun _ _ _ => ?_
  refine (h .params σ trivial (by omega)).bind fun names j hij => ?_
  exact (h .block σ trivial (by omega)).bind fun body k hjk => walks_pure (by omega)

theorem walks_choice : Walks True low (choice call) ts i σ σ (fun _ j => i < j) := by
  refine walks_bindExpectAs (k := .ifKw) rfl fun _ _ _ => ?_
  refine (h .expr σ trivial (by omega)).bind fun cond j hij => ?_
  refine (h (.body .ifKw) σ trivial (by omega)).bind fun body k hjk => ?_
  refine walks_bindAccept (k := .elseKw) rfl (fun _ _ _ => ?_) fun _ _ _ => walks_pure (by omega)
  exact (h (.body .elseKw) σ trivial (by omega)).bind fun other l hkl => walks_pure (by omega)

theorem walks_whileLoop : Walks True low (whileLoop call) ts i σ σ (fun _ j => i < j) := by
  refine walks_bindExpectAs (k := .whileKw) rfl fun _ _ _ => ?_
  refine (h .expr σ trivial (by omega)).bind fun cond j hij => ?_
  exact (h (.body .whileKw) σ trivial (by omega)).bind fun body k hjk => walks_pure (by omega)

theorem walks_doLoop : Walks True low (doLoop call) ts i σ σ (fun _ j => i < j) := by
  refine walks_bindExpectAs (k := .doKw) rfl fun _ _ _ => ?_
  refine (h .stmt σ trivial (by omega)).bind fun body j hij => ?_
  refine walks_bindExpectAs (k := .whileKw) rfl fun _ _ _ => ?_
  refine (h .expr σ trivial (by omega)).bind fun cond k hjk => ?_
  exact walks_bindSemicolon fun _ => walks_pure (by omega)

theorem walks_forLoop : Walks True low (forLoop call) ts i σ σ (fun _ j => i < j) := by
  refine walks_bindExpectAs (k := .forKw) rfl fun _ _ _ => ?_
  refine walks_bindExpectAs (k := .ident) rfl fun _ _ _ => ?_
  refine walks_bindExpectAs (k := .inKw) rfl fun _ _ _ => ?_
  refine (h .expr σ trivial (by omega)).bind fun items j hij => ?_
  exact (h (.body .forKw) σ trivial (by omega)).bind fun body k hjk => walks_pure (by omega)

omit h hlow in
theorem walks_jump {t : Token} (ht : ts.At i t) (hturn : t.kind.turn σ = some σ) :
    Walks True low jump ts i σ σ (fun _ j => i < j) := by
  refine walks_bindAdvance ht hturn ?_
  refine walks_bindSees (fun label hlabel hk => ?_) fun _ _ _ => ?_
  · refine walks_bindMapAdvance hlabel (ρ := σ) (by rw [hk]; rfl) ?_
    exact walks_bindSemicolon fun _ => walks_pure (by omega)
  · rw [pure_bind]
    exact walks_bindSemicolon fun _ => walks_pure (by omega)

theorem walks_exit {t : Token} (ht : ts.At i t) (hturn : t.kind.turn σ = some σ) :
    Walks True low (exit call) ts i σ σ (fun _ j => i < j) := by
  refine walks_bindAdvance ht hturn ?_
  refine walks_bindSees (fun _ _ _ => ?_) fun _ _ _ => ?_
  · exact walks_bindSemicolon fun _ => walks_pure (by omega)
  · refine (h .expr σ trivial (by omega)).bind fun value j hij => ?_
    exact walks_bindSemicolon fun _ => walks_pure (by omega)

omit h hlow in
theorem walks_rescueHead : Walks True low rescueHead ts i σ σ (fun _ j => i ≤ j) := by
  refine walks_bindAccept (k := .lparen) rfl (fun _ _ _ => ?_) fun _ _ _ => ?_
  · refine walks_bindExpectAs (k := .ident) rfl fun type _ _ => ?_
    refine walks_bindSees (fun name hname hk => ?_) fun _ _ _ => ?_
    · refine walks_bindMapAdvance hname (ρ := .rparen :: σ) (by rw [hk]; rfl) ?_
      exact walks_bindExpectAs (k := .rparen) rfl fun _ _ _ => walks_pure (by omega)
    · rw [pure_bind]
      exact walks_bindExpectAs (k := .rparen) rfl fun _ _ _ => walks_pure (by omega)
  · refine walks_bindSees (fun name hname hk => ?_) fun _ _ _ => walks_pure (Nat.le_refl i)
    exact walks_bindAdvance hname (ρ := σ) (by rw [hk]; rfl) (walks_pure (Nat.le_succ i))

theorem walks_rescueRound :
    Walks True low (rescueRound call) ts i σ σ (fun handler? j => handler?.isSome → i < j) := by
  refine walks_bindAccept (k := .catchKw) rfl (fun _ _ _ => ?_) fun _ _ _ => walks_pure nofun
  refine walks_rescueHead.bind fun head j hij => ?_
  exact (h .block σ trivial (by omega)).bind fun body k hjk => walks_pure fun _ => by omega

theorem walks_always : Walks True low (always call) ts i σ σ (fun _ j => i ≤ j) := by
  refine walks_bindAccept (k := .finallyKw) rfl (fun _ _ _ => ?_) fun _ _ _ => ?_
  · exact (h .block σ trivial (by omega)).bind fun body j hij => walks_pure (by omega)
  · exact walks_pure (Nat.le_refl i)

theorem walks_attempt (hlexed : ts.Lexed) :
    Walks True low (attempt call) ts i σ σ (fun _ j => i < j) := by
  refine walks_bindExpectAs (k := .tryKw) rfl fun keyword hkeyword _ => ?_
  refine (h .block σ trivial (by omega)).bind fun body j hij => ?_
  refine (walks_collect hlexed (walks_rescueRound h) (by omega)).bind fun rescues k hjk => ?_
  refine (walks_always h (by omega)).bind fun last l hkl => ?_
  refine .ite (fun _ => ?_) fun _ => walks_pure (by omega)
  exact walks_bindFail (stuck_behind hkeyword hlow (by omega) rfl)

theorem walks_labeled : Walks True low (labeled call) ts i σ σ (fun _ j => i < j) := by
  refine walks_bindExpectAs (k := .ident) rfl fun _ _ _ => ?_
  refine walks_bindExpectAs (k := .colon) rfl fun _ _ _ => ?_
  exact (h .stmt σ trivial (by omega)).bind fun body j hij => walks_pure (by omega)

theorem walks_forward (hreceiver : ∃ t, ts.At (i + 1) t ∧ t.kind.isReceiver = true) :
    Walks True low (forward call) ts i σ σ (fun _ j => i < j) := by
  obtain ⟨t, ht, hk⟩ := hreceiver
  have hplain : ∀ {k : Kind}, k.isReceiver = true → k.isPlain = true := by
    intro k
    cases k <;> decide
  refine walks_bindExpectAs (k := .newKw) rfl fun _ _ _ => ?_
  refine walks_bindAdvance ht (Kind.turn_plain (hplain hk) σ) ?_
  refine walks_bindExpectAs (k := .lparen) rfl fun _ _ _ => ?_
  refine (h (.args .rparen) σ rfl (by omega)).bind fun args j hij => ?_
  exact walks_bindSemicolon fun _ => walks_pure (by omega)

theorem walks_expression : Walks True low (expression call) ts i σ σ (fun _ j => i < j) := by
  refine (h .expr σ trivial hlow).bind fun e j hij => ?_
  refine walks_bindAccept (k := .assign) rfl (fun _ _ _ => ?_) fun _ _ _ => ?_
  · refine walks_bindCheck walks_checkTarget ?_
    refine (h .expr σ trivial (by omega)).bind fun value k hjk => ?_
    exact walks_bindSemicolon fun _ => walks_pure (by omega)
  · refine walks_bindCurrent fun t ht => .ite (fun hop => ?_) fun _ => ?_
    · refine walks_bindAdvance ht (Kind.turn_plain (isPlain_of_compound hop) σ) ?_
      refine walks_bindCheck walks_checkTarget ?_
      refine (h .expr σ trivial (by omega)).bind fun value k hjk => ?_
      exact walks_bindSemicolon fun _ => walks_pure (by omega)
    · exact walks_bindSemicolon fun _ => walks_bindCheck walks_checkEffect (walks_pure (by omega))

end

/-! ### All rules -/

/-- **A production walks if the rules that it calls do.** -/
theorem walks_produce {call : Call} {ts : Tokens} (hlexed : ts.Lexed) (h : call.Walk ts) :
    Call.Walk (produce call) ts := by
  intro α rule low i σ hready hlow
  have hkeyword : ∀ {t : Token} {rule : Rule Stmt}, statementRule? t.kind = some rule →
      t.kind.turn σ = some σ := fun hrule => Kind.turn_plain (isPlain_of_rule hrule) σ
  cases rule with
  | expr => exact h .ternary σ trivial hlow
  | ternary => exact walks_ternary h hlow
  | nullish => exact walks_nullish h hlow
  | binary power => exact walks_binary h hlow hlexed power
  | unary => exact walks_unary h hlow
  | power => exact walks_power h hlow
  | access => exact walks_access h hlow hlexed
  | primary => exact walks_primary h hlow
  | construction => exact walks_construction h hlow hlexed
  | args closer => exact walks_args h hlow hlexed hready
  | params => exact walks_params hlow hlexed
  | stmt => exact walks_stmt h hlow
  | block => exact walks_block h hlow hlexed
  | body owner => exact walks_body h hlow
  | declaration =>
    obtain ⟨t, ht, hrule⟩ := hready
    exact walks_declaration h hlow hlexed ht (hkeyword hrule)
  | declarator keyword => exact walks_declarator h hlow keyword
  | function => exact walks_function h hlow
  | choice => exact walks_choice h hlow
  | whileLoop => exact walks_whileLoop h hlow
  | doLoop => exact walks_doLoop h hlow
  | forLoop => exact walks_forLoop h hlow
  | jump =>
    obtain ⟨t, ht, hrule⟩ := hready
    exact walks_jump ht (hkeyword hrule)
  | exit =>
    obtain ⟨t, ht, hrule⟩ := hready
    exact walks_exit h hlow ht (hkeyword hrule)
  | attempt => exact walks_attempt h hlow hlexed
  | labeled => exact walks_labeled h hlow
  | forward => exact walks_forward h hlow hready
  | expression => exact walks_expression h hlow

/-- **Every rule walks**, with any number of levels left. -/
theorem walks_parse {ts : Tokens} (hlexed : ts.Lexed) :
    ∀ levels : Nat, Call.Walk (fun rule => parse levels rule) ts
  -- Without a level nothing is read, and the failure has no place yet.
  | 0 => fun _ _ _ _ _ _ => walks_fail (.deep trivial)
  | levels + 1 => walks_produce hlexed (walks_parse hlexed levels)

end Grammar

end CommandShell
