import CommandShell.Proofs.Parsing.Conduct
import CommandShell.Proofs.Parsing.Heeding

/-! # Heedful rules

Every rule depends only on the tokens below its reach and reports only at tokens from the place on
where it begins (`heedful_parse`), with any number of levels left, and whether it succeeds or fails.
For most productions there is nothing to say but how they are built. Four of them check what they
have read; where it stands is known from its pieces (`Tokens.Reads.reported`), and of an empty
statement from the run that read it (`empties_closed`). -/

namespace CommandShell

open CommandShell.Parser

namespace Grammar

/-- An empty statement is the semicolon that stands where it was read. -/
theorem empties_closed (ts : Tokens) :
    Closed ts (fun _ _ _ _ _ => True) (fun _ _ _ _ _ => True)
      (fun _ i s _ _ => ∀ t, s = .empty t → ts.At i t) (fun _ _ _ _ => True)
      (fun _ _ _ _ _ => True) where
  expr _ := trivial
  args _ := trivial
  stmt := by
    intro rule i s j ds hrun t hs
    cases hrun with
    | empty ht hk => cases hs; exact ht
    | keyword _ hrule hs' =>
      exact stmt_of_rule (S := fun _ i s _ _ => ∀ t, s = .empty t → ts.At i t) hrule hs' t hs
    | expressionLike _ hs' | label _ _ hs' | forwarding _ _ _ hs' | body hs' => exact hs' t hs
    | _ => cases hs
  block _ := trivial
  declarator _ := trivial

/-- What is known of the rules that are called: they walk, read what they give from its pieces, and
are heedful. -/
structure Call.Heedful (call : Call) (ts : Tokens) (low : Nat) : Prop where
  walk : call.Walk ts
  reads {α : Type} {rule : Rule α} {i : Nat} {a : α} {j : Nat} {ds : List Diagnostic} :
    rule.Fits ts i → Runs (call rule) ts i a j ds → reads ts α rule i a j ds
  empty {i : Nat} {t : Token} {j : Nat} {ds : List Diagnostic} :
    Runs (call .stmt) ts i (.empty t) j ds → ts.At i t
  heedful {α : Type} (rule : Rule α) : Parser.Heedful (call rule) ts low

/-! ### Checks -/

section
variable {ts : Tokens} {low start i j : Nat} {e : Expr} (hlow : low ≤ start)
include hlow

theorem heeds_checkTarget (he : ts.Reads start e.pieces i) : Heeds (checkTarget e) ts low j := by
  unfold checkTarget
  split
  · exact ⟨Nat.le_refl _, Nat.le_max_left _ _, fun _ _ => rfl, nofun⟩
  · exact heeds_report (he.reported hlow (Or.inl rfl))

theorem heeds_checkEffect (he : ts.Reads start e.pieces i) : Heeds (checkEffect e) ts low j := by
  unfold checkEffect
  split
  · exact ⟨Nat.le_refl _, Nat.le_max_left _ _, fun _ _ => rfl, nofun⟩
  · exact heeds_report (he.reported hlow (Or.inr rfl))

theorem heeds_warnIfEmpty {owner : Kind} {s : Stmt} (hs : ∀ t, s = .empty t → ts.At start t) :
    Heeds (warnIfEmpty owner s) ts low j := by
  unfold warnIfEmpty
  split
  · next t => exact heeds_report (.placed hlow (hs t rfl) rfl rfl)
  · exact ⟨Nat.le_refl _, Nat.le_max_left _ _, fun _ _ => rfl, nofun⟩

end

section
variable {call : Call} {ts : Tokens} {low : Nat} (h : call.Heedful ts low)
include h

/-! ### Expressions -/

theorem heedful_ternary : Heedful (ternary call) ts low := by
  refine (h.heedful .nullish).bind fun _ => heedful_accept.bind fun _ => .ite ?_ heedful_pure
  refine (h.heedful .expr).bind fun _ => heedful_expectAs.bind fun _ => ?_
  exact (h.heedful .ternary).map

theorem heedful_nullish : Heedful (nullish call) ts low := by
  refine (h.heedful (.binary 1)).bind fun _ => heedful_sees.bind fun _ => .ite ?_ heedful_pure
  exact heedful_advance.bind fun _ => (h.heedful .nullish).map

theorem heedful_binaryRound (power : Nat) (left : Expr) :
    Heedful (binaryRound call power left) ts low := by
  refine heedful_current.bind fun t => ?_
  split
  · exact heedful_pure
  · refine .ite heedful_pure (heedful_advance.bind fun _ => ?_)
    exact (h.heedful (.binary _)).map

theorem heedful_binary (hlexed : ts.Lexed) (power : Nat) : Heedful (binary call power) ts low := by
  have hround : ∀ left {i}, True → low ≤ i → Heeds (binaryRound call power left) ts low i :=
    fun left {i} _ hlow => heedful_binaryRound h power left i hlow
  have hwalks : ∀ left {i}, Walks True 0 (binaryRound call power left) ts i [] []
      (fun e? j => e?.isSome → i < j) :=
    fun left {_} => walks_binaryRound h.walk (Nat.zero_le _) power left
  refine (h.heedful .unary).bind fun left i hlow => ?_
  exact heeds_chain hlexed hround (fun _ _ _ => trivial) hwalks left trivial hlow

theorem heedful_stepBefore (step : Step) : Heedful (stepBefore call step) ts low := by
  refine heedful_advance.bind fun _ => (h.heedful .unary).bindRuns fun hlow hij hrun => ?_
  have hreads := h.reads (show Rule.unary.Fits ts _ from trivial) hrun
  exact (heeds_checkTarget hlow hreads).bindCheck (Nat.le_trans hlow hij) heedful_pure

theorem heedful_unary : Heedful (unary call) ts low := by
  refine heedful_current.bind fun t => ?_
  split
  iterate 3
    exact heedful_advance.bind fun _ => (h.heedful .unary).map
  · exact heedful_stepBefore h .up
  · exact heedful_stepBefore h .down
  · exact h.heedful .power

theorem heedful_power : Heedful (power call) ts low := by
  refine (h.heedful .access).bind fun _ => heedful_sees.bind fun _ => .ite ?_ heedful_pure
  exact heedful_advance.bind fun _ => (h.heedful .unary).map

omit h in
theorem heedful_memberAfter {safe : Bool} {target : Expr} :
    Heedful (memberAfter safe target) ts low :=
  heedful_advance.bind fun _ => heedful_expectAs.map

theorem heedful_callAfter {safe : Bool} {target : Expr} :
    Heedful (callAfter call safe target) ts low :=
  heedful_advance.bind fun _ => (h.heedful (.args .rparen)).map

theorem heedful_indexAfter {safe : Bool} {target : Expr} :
    Heedful (indexAfter call safe target) ts low := by
  refine heedful_advance.bind fun _ => heedful_current.bind fun t => .ite ?_ ?_
  · exact heedful_fail.bind fun _ => (h.heedful (.args .rsquare)).map
  · exact (h.heedful (.args .rsquare)).map

/-- The target was read before the place, from the place `low` on. -/
def Behind (ts : Tokens) (low : Nat) (target : Expr) (i : Nat) : Prop :=
  ∃ start, low ≤ start ∧ ts.Reads start target.pieces i

omit h in
theorem heeds_stepAfter {step : Step} {target : Expr} {i : Nat} (htarget : Behind ts low target i)
    (hlow : low ≤ i) : Heeds (stepAfter step target) ts low i := by
  obtain ⟨start, hstart, hreads⟩ := htarget
  refine (heedful_advance i hlow).bind fun hij _ => ?_
  exact (heeds_checkTarget hstart hreads).bindCheck (Nat.le_trans hlow hij) heedful_pure

theorem heeds_accessRound {target : Expr} {i : Nat} (htarget : Behind ts low target i)
    (hlow : low ≤ i) : Heeds (accessRound call target) ts low i := by
  refine (heedful_current i hlow).bind fun {t j ds} hij hrun => ?_
  obtain ⟨-, rfl, -⟩ := runs_current.mp hrun
  split
  · exact heedful_memberAfter _ hlow
  · exact heedful_memberAfter _ hlow
  · exact heedful_callAfter h _ hlow
  · exact heedful_callAfter h _ hlow
  · exact heedful_indexAfter h _ hlow
  · exact heedful_indexAfter h _ hlow
  · exact heeds_stepAfter htarget hlow
  · exact heeds_stepAfter htarget hlow
  · exact heedful_pure _ hlow

theorem behind_accessRound (hlexed : ts.Lexed) {target e : Expr} {i j : Nat} {ds : List Diagnostic}
    (htarget : Behind ts low target i) (hrun : Runs (accessRound call target) ts i (some e) j ds) :
    Behind ts low e j := by
  obtain ⟨start, hstart, hreads⟩ := htarget
  rw [runs_accessRound] at hrun
  exact ⟨start, hstart, reads_accessRound hlexed (hrun.imp h.reads) hreads⟩

theorem heedful_access (hlexed : ts.Lexed) : Heedful (access call) ts low := by
  have hwalks : ∀ target {i}, Walks True 0 (accessRound call target) ts i [] []
      (fun e? j => e?.isSome → i < j) :=
    fun target {_} => walks_accessRound h.walk (Nat.zero_le _) target
  refine (h.heedful .primary).bindRuns fun {i target j ds} hlow hij hrun => ?_
  have htarget : Behind ts low target j :=
    ⟨i, hlow, h.reads (show Rule.primary.Fits ts i from trivial) hrun⟩
  have hrounds := heeds_chain hlexed (fun _ {_} htarget => heeds_accessRound h htarget)
    (fun htarget _ hrun => behind_accessRound h hlexed htarget hrun) hwalks target htarget
  exact hrounds (Nat.le_trans hlow hij)

omit h in
theorem heedful_params (hlexed : ts.Lexed) : Heedful params ts low := by
  refine heedful_expectAs.bind fun _ => heedful_sees.bind fun _ => ?_
  have hwalks : ∀ {i}, Walks True 0 (expectAs .ident .parameterName) ts i [] []
      (fun _ j => i < j) := fun {i} => walks_expectAs rfl fun _ _ _ => Nat.lt_succ_self i
  exact .ite (heedful_pure.bind fun _ => heedful_expectAs.map)
    ((heedful_separated hlexed heedful_expectAs hwalks).bind fun _ => heedful_expectAs.map)

theorem heedful_primary : Heedful (primary call) ts low := by
  refine heedful_current.bind fun t => ?_
  split
  iterate 8
    exact heedful_advance.map
  · refine heedful_advance.bind fun _ => (h.heedful .expr).bind fun _ => ?_
    exact heedful_expectAs.map
  · exact heedful_advance.bind fun _ => (h.heedful (.args .rsquare)).map
  · exact h.heedful .construction
  · refine heedful_advance.bind fun _ => (h.heedful .params).bind fun _ => ?_
    exact (h.heedful .block).map
  · exact heedful_failHere

theorem heedful_construction (hlexed : ts.Lexed) : Heedful (construction call) ts low := by
  have hpath : Heedful pathRound ts low :=
    heedful_accept.bind fun _ => .ite heedful_expectAs.map heedful_pure
  have hwalks : ∀ {i}, Walks True 0 pathRound ts i [] [] (fun t? j => t?.isSome → i < j) :=
    fun {_} => walks_pathRound
  have hrest : Heedful (do
      let head ← expectAs .ident (.typeName "new")
      let tail ← collect pathRound
      let _ ← expectAs .lparen .typeArguments
      let args ← call (.args .rparen)
      return Expr.new (head :: tail) args) ts low := by
    refine heedful_expectAs.bind fun _ => (heedful_collect hlexed hpath hwalks).bind fun _ => ?_
    exact heedful_expectAs.bind fun _ => (h.heedful (.args .rparen)).map
  refine heedful_expectAs.bind fun _ => heedful_current.bind fun _ => .ite ?_ hrest
  exact heedful_fail.bind fun _ => hrest

theorem heedful_args (hlexed : ts.Lexed) (closer : Kind) : Heedful (args call closer) ts low := by
  refine heedful_sees.bind fun _ => ?_
  have hwalks : ∀ {i}, Walks True 0 (call .expr) ts i [] [] (fun _ j => i < j) := fun {_} =>
    h.walk .expr [] trivial (Nat.zero_le _)
  exact .ite (heedful_pure.bind fun _ => heedful_expectAs.map)
    ((heedful_separated hlexed (h.heedful .expr) hwalks).bind fun _ => heedful_expectAs.map)

/-! ### Statements -/

theorem heedful_stmt : Heedful (stmt call) ts low := by
  refine heedful_opening.bind fun opening => ?_
  split
  · exact h.heedful .expression
  · refine heedful_current.bind fun t => ?_
    split
    · exact (h.heedful .block).map
    · exact heedful_advance.map
    iterate 14
      exact h.heedful _
    · exact heedful_failHere

theorem heedful_blockRound : Heedful (blockRound call) ts low := by
  refine heedful_seesAny.bind fun _ => .ite ?_ (h.heedful .stmt).map
  exact heedful_pure

theorem heedful_block (hlexed : ts.Lexed) : Heedful (block call) ts low := by
  refine heedful_expectAs.bind fun _ => ?_
  refine (heedful_collect hlexed (heedful_blockRound h) fun {_} =>
    walks_blockRound h.walk (Nat.zero_le _)).bind fun _ => ?_
  exact heedful_expectAs.map

theorem heedful_body (owner : Kind) : Heedful (body call owner) ts low := by
  refine (h.heedful .stmt).bindRuns fun hlow hij hrun => ?_
  refine Heeds.bindCheck (Nat.le_trans hlow hij) ?_ heedful_pure
  exact heeds_warnIfEmpty hlow fun t ht => h.empty (ht ▸ hrun)

theorem heedful_declaration (hlexed : ts.Lexed) : Heedful (declaration call) ts low := by
  refine heedful_advance.bind fun keyword => ?_
  refine (heedful_separated hlexed (h.heedful (.declarator keyword)) fun {_} =>
    h.walk (.declarator keyword) [] trivial (Nat.zero_le _)).bind fun _ => ?_
  exact heedful_expectSemicolon.map

theorem heedful_declarator (keyword : Token) : Heedful (declarator call keyword) ts low := by
  refine heedful_expectAs.bind fun _ => heedful_accept.bind fun _ => .ite (h.heedful .expr).map ?_
  exact .ite (heedful_fail.bind fun _ => heedful_pure) heedful_pure

theorem heedful_function : Heedful (function call) ts low := by
  refine heedful_expectAs.bind fun _ => heedful_expectAs.bind fun _ => ?_
  exact (h.heedful .params).bind fun _ => (h.heedful .block).map

theorem heedful_choice : Heedful (choice call) ts low := by
  refine heedful_expectAs.bind fun _ => (h.heedful .expr).bind fun _ => ?_
  refine (h.heedful (.body .ifKw)).bind fun _ => heedful_accept.bind fun _ => .ite ?_ heedful_pure
  exact (h.heedful (.body .elseKw)).map

theorem heedful_whileLoop : Heedful (whileLoop call) ts low := by
  refine heedful_expectAs.bind fun _ => (h.heedful .expr).bind fun _ => ?_
  exact (h.heedful (.body .whileKw)).map

theorem heedful_doLoop : Heedful (doLoop call) ts low := by
  refine heedful_expectAs.bind fun _ => (h.heedful .stmt).bind fun _ => ?_
  refine heedful_expectAs.bind fun _ => (h.heedful .expr).bind fun _ => ?_
  exact heedful_expectSemicolon.map

theorem heedful_forLoop : Heedful (forLoop call) ts low := by
  refine heedful_expectAs.bind fun _ => heedful_expectAs.bind fun _ => ?_
  refine heedful_expectAs.bind fun _ => (h.heedful .expr).bind fun _ => ?_
  exact (h.heedful (.body .forKw)).map

omit h in
theorem heedful_jump : Heedful jump ts low := by
  refine heedful_advance.bind fun _ => heedful_sees.bind fun _ => ?_
  exact .ite (heedful_advance.map.bind fun _ => heedful_expectSemicolon.map)
    (heedful_pure.bind fun _ => heedful_expectSemicolon.map)

theorem heedful_exit : Heedful (exit call) ts low := by
  refine heedful_advance.bind fun _ => heedful_sees.bind fun _ => .ite ?_ ?_
  · exact heedful_expectSemicolon.map
  · exact (h.heedful .expr).bind fun _ => heedful_expectSemicolon.map

omit h in
theorem heedful_rescueHead : Heedful rescueHead ts low := by
  refine heedful_accept.bind fun _ => .ite ?_ ?_
  · refine heedful_expectAs.bind fun _ => heedful_sees.bind fun _ => ?_
    exact .ite (heedful_advance.map.bind fun _ => heedful_expectAs.map)
      (heedful_pure.bind fun _ => heedful_expectAs.map)
  · exact heedful_sees.bind fun _ => .ite heedful_advance.map heedful_pure

theorem heedful_rescueRound : Heedful (rescueRound call) ts low := by
  refine heedful_accept.bind fun _ => .ite ?_ heedful_pure
  exact heedful_rescueHead.bind fun _ => (h.heedful .block).map

theorem heedful_attempt (hlexed : ts.Lexed) : Heedful (attempt call) ts low := by
  have hlast : Heedful (always call) ts low :=
    heedful_accept.bind fun _ => .ite (h.heedful .block).map heedful_pure
  refine heedful_expectAs.bind fun _ => (h.heedful .block).bind fun _ => ?_
  refine (heedful_collect hlexed (heedful_rescueRound h) fun {_} =>
    walks_rescueRound h.walk (Nat.zero_le _)).bind fun _ => hlast.bind fun _ => ?_
  exact .ite (heedful_fail.bind fun _ => heedful_pure) heedful_pure

theorem heedful_labeled : Heedful (labeled call) ts low :=
  heedful_expectAs.bind fun _ => heedful_expectAs.bind fun _ => (h.heedful .stmt).map

theorem heedful_forward : Heedful (forward call) ts low := by
  refine heedful_expectAs.bind fun _ => heedful_advance.bind fun _ => ?_
  refine heedful_expectAs.bind fun _ => (h.heedful (.args .rparen)).bind fun _ => ?_
  exact heedful_expectSemicolon.map

theorem heedful_expression : Heedful (expression call) ts low := by
  have hrest : ∀ make : Expr → Stmt, Heedful (do
      let value ← call .expr
      let _ ← expectSemicolon
      return make value) ts low := fun _ =>
    (h.heedful .expr).bind fun _ => heedful_expectSemicolon.map
  refine (h.heedful .expr).bindRuns fun {i e j ds} hlow hij hrun => ?_
  have hreads := h.reads (show Rule.expr.Fits ts i from trivial) hrun
  -- Whatever is checked further on, the expression is known to stand behind the place `i`.
  have hcheck : ∀ {p : Parser Stmt}, Heedful p ts low → Heedful (do checkTarget e; p) ts low :=
    fun hp k hk => (heeds_checkTarget hlow hreads).bindCheck hk hp
  have heffect : Heedful (do checkEffect e; return Stmt.expression e) ts low :=
    fun k hk => (heeds_checkEffect hlow hreads).bindCheck hk heedful_pure
  refine Heedful.bind heedful_accept (fun _ => .ite (hcheck (hrest _)) ?_) j (Nat.le_trans hlow hij)
  refine heedful_current.bind fun t => .ite ?_ ?_
  · exact heedful_advance.bind fun op => hcheck (hrest _)
  · exact heedful_expectSemicolon.bind fun _ => heffect

end

/-! ### All rules -/

/-- **A production is heedful if the rules that it calls are.** -/
theorem heedful_produce {call : Call} {ts : Tokens} {low : Nat} (hlexed : ts.Lexed)
    (h : call.Heedful ts low) {α : Type} (rule : Rule α) :
    Parser.Heedful (produce call rule) ts low := by
  cases rule with
  | expr => exact h.heedful .ternary
  | ternary => exact heedful_ternary h
  | nullish => exact heedful_nullish h
  | binary power => exact heedful_binary h hlexed power
  | unary => exact heedful_unary h
  | power => exact heedful_power h
  | access => exact heedful_access h hlexed
  | primary => exact heedful_primary h
  | params => exact heedful_params hlexed
  | construction => exact heedful_construction h hlexed
  | args closer => exact heedful_args h hlexed closer
  | stmt => exact heedful_stmt h
  | block => exact heedful_block h hlexed
  | body owner => exact heedful_body h owner
  | declaration => exact heedful_declaration h hlexed
  | declarator keyword => exact heedful_declarator h keyword
  | function => exact heedful_function h
  | choice => exact heedful_choice h
  | whileLoop => exact heedful_whileLoop h
  | doLoop => exact heedful_doLoop h
  | forLoop => exact heedful_forLoop h
  | jump => exact heedful_jump
  | exit => exact heedful_exit h
  | attempt => exact heedful_attempt h hlexed
  | labeled => exact heedful_labeled h
  | forward => exact heedful_forward h
  | expression => exact heedful_expression h

/-- With some levels left the rules walk and read their pieces in any case. -/
theorem heedful_of_parse {ts : Tokens} (hlexed : ts.Lexed) {low levels : Nat}
    (h : ∀ {α : Type} (rule : Rule α), Parser.Heedful (parse levels rule) ts low) :
    Call.Heedful (fun rule => parse levels rule) ts low where
  walk := walks_parse hlexed levels
  reads := reads_of_runs hlexed
  empty hrun := (empties_closed ts).parse levels (show Rule.stmt.Fits ts _ from trivial) hrun _ rfl
  heedful := h

/-- **Every rule is heedful**, with any number of levels left. -/
theorem heedful_parse {ts : Tokens} (hlexed : ts.Lexed) {low : Nat} : ∀ levels : Nat,
    Call.Heedful (fun rule => parse levels rule) ts low
  | 0 => heedful_of_parse hlexed fun _ => heedful_fail
  | levels + 1 =>
    heedful_of_parse hlexed fun rule => heedful_produce hlexed (heedful_parse hlexed levels) rule

end Grammar

end CommandShell
