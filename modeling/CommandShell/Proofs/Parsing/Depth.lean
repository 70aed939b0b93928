import CommandShell.Proofs.Parsing.Conduct
import CommandShell.Proofs.Parsing.Shallow

/-! # Depth: how deeply the rules call each other

At one place a rule calls none but rules of smaller rank (`Rule.rank`); whatever else it calls
stands behind a token that it has taken. So the rules that are active at one place are no more than
the ranks, and with fourteen levels for each token ahead, and fourteen more, no reading is stopped
by the nesting (`shallow_parse`), whether what is read is accepted or not. -/

namespace CommandShell

open CommandShell.Parser

/-- The rank of a rule, greater than that of all rules that it may call before it takes a token. -/
def Rule.rank {α : Type} : Rule α → Nat
  | .primary => 2
  | .access => 3
  | .power => 4
  | .unary => 5
  | .binary _ => 6
  | .nullish => 7
  | .ternary => 8
  | .expr => 9
  | .args _ | .exit | .expression => 10
  | .declaration => 11
  | .stmt => 12
  | .body _ => 13
  | _ => 1

theorem Rule.rank_bounds {α : Type} (rule : Rule α) : 0 < rule.rank ∧ rule.rank < 14 := by
  cases rule <;> simp [rank]

namespace Grammar

/-- What is known of the rules that a rule of the rank calls when it begins at the place: they walk,
those of smaller rank are shallow, and behind a token all are. -/
structure Call.Shallow (call : Call) (ts : Tokens) (i rank : Nat) : Prop where
  walk : call.Walk ts
  here {α : Type} (rule : Rule α) : rule.rank < rank → Parser.Shallow (call rule) ts i
  later {α : Type} (rule : Rule α) {j : Nat} : ts.Later i j → Parser.Shallow (call rule) ts j

section
variable {call : Call} {ts : Tokens} {i : Nat} (hlexed : ts.Lexed)
include hlexed

/-! ### Expressions -/

theorem shallow_ternary (h : call.Shallow ts i 8) : Shallow (ternary call) ts i := by
  refine (h.here .nullish (by decide)).bind fun _ => ?_
  refine shallow_bindAccept hlexed (by decide) (fun hij => ?_) shallow_pure
  refine (h.later .expr hij).bind fun _ => (shallow_expectAs hlexed).bind fun _ => ?_
  exact (h.later .ternary hij).map

theorem shallow_nullish (h : call.Shallow ts i 7) : Shallow (nullish call) ts i := by
  refine (h.here (.binary 1) (by decide)).bind fun _ => ?_
  exact shallow_bindSees hlexed (by decide) (fun _ _ hij => (h.later .nullish hij).map) shallow_pure

theorem shallow_binaryRound (h : call.Shallow ts i 6) (power : Nat) (left : Expr) :
    Shallow (binaryRound call power left) ts i := by
  refine shallow_bindCurrent fun t j ht hij => ?_
  split
  · exact shallow_pure.at
  · next p hp =>
    split
    · exact shallow_pure.at
    · refine .bindAdvance hlexed ht (kind_ne_eof_of_precedence hp) fun hjk => ?_
      exact (h.later (.binary _) (hij.trans_later hjk)).map

theorem shallow_binary (h : call.Shallow ts i 6) (power : Nat) :
    Shallow (binary call power) ts i := by
  refine (h.here .unary (by decide)).bind fun left => ?_
  exact shallow_chain (shallow_binaryRound hlexed h power)
    (fun left {_} => walks_binaryRound h.walk (Nat.zero_le _) power left) left

theorem shallow_stepBefore (h : call.Shallow ts i 5) (step : Step) {t : Token} {j : Nat}
    (ht : ts.At j t) (hk : t.kind ≠ .eof) (hij : ts.Onward i j) :
    ShallowAt (stepBefore call step) ts j := by
  refine .bindAdvance hlexed ht hk fun hjk => ?_
  refine (h.later .unary (hij.trans_later hjk)).bind fun operand => ?_
  exact shallow_checkTarget.bind fun _ => shallow_pure

theorem shallow_unary (h : call.Shallow ts i 5) : Shallow (unary call) ts i := by
  refine shallow_bindCurrent fun t j ht hij => ?_
  have hsign : t.kind ≠ .eof → ShallowAt (do
      let op ← advance
      let operand ← call .unary
      return Expr.unary op operand) ts j := fun hk =>
    .bindAdvance hlexed ht hk fun hjk => (h.later .unary (hij.trans_later hjk)).map
  split
  iterate 3
    next hk => exact hsign (by rw [hk]; decide)
  · next hk => exact shallow_stepBefore hlexed h .up ht (by rw [hk]; decide) hij
  · next hk => exact shallow_stepBefore hlexed h .down ht (by rw [hk]; decide) hij
  · exact h.here .power (by decide) _ hij

theorem shallow_power (h : call.Shallow ts i 4) : Shallow (power call) ts i := by
  refine (h.here .access (by decide)).bind fun _ => ?_
  exact shallow_bindSees hlexed (by decide) (fun _ _ hij => (h.later .unary hij).map) shallow_pure

theorem shallow_accessRound (h : call.Shallow ts i 3) (target : Expr) :
    Shallow (accessRound call target) ts i := by
  refine shallow_bindCurrent fun t j ht hij => ?_
  have hmember : ∀ safe, ShallowAt (memberAfter safe target) ts j := fun _ =>
    ((shallow_advance hlexed).bind fun _ => (shallow_expectAs hlexed).map).at
  have hcall : ∀ safe, t.kind ≠ .eof → ShallowAt (callAfter call safe target) ts j := fun _ hk =>
    .bindAdvance hlexed ht hk fun hjk => (h.later (.args .rparen) (hij.trans_later hjk)).map
  have hindex : ∀ safe, t.kind ≠ .eof → ShallowAt (indexAfter call safe target) ts j := by
    refine fun _ hk => .bindAdvance hlexed ht hk fun hjk => ?_
    have hargs := h.later (.args .rsquare) (hij.trans_later hjk)
    exact shallow_current.bind fun t =>
      .ite ((shallow_failAt (by nofun) t).bind fun _ => hargs.map) hargs.map
  have hstep : ∀ step, ShallowAt (stepAfter step target) ts j := fun _ =>
    ((shallow_advance hlexed).bind fun _ => shallow_checkTarget.map).at
  split
  · exact hmember false
  · exact hmember true
  · next hk => exact hcall false (by rw [hk]; decide)
  · next hk => exact hcall true (by rw [hk]; decide)
  · next hk => exact hindex false (by rw [hk]; decide)
  · next hk => exact hindex true (by rw [hk]; decide)
  · exact hstep .up
  · exact hstep .down
  · exact shallow_pure.at

theorem shallow_access (h : call.Shallow ts i 3) : Shallow (access call) ts i := by
  refine (h.here .primary (by decide)).bind fun target => ?_
  exact shallow_chain (shallow_accessRound hlexed h)
    (fun target {_} => walks_accessRound h.walk (Nat.zero_le _) target) target

theorem shallow_params : Shallow params ts i := by
  have hwalks : ∀ {j}, Walks True 0 (expectAs .ident .parameterName) ts j [] []
      (fun _ k => j < k) := fun {j} => walks_expectAs rfl fun _ _ _ => Nat.lt_succ_self j
  have hnames := shallow_separated hlexed (shallow_expectAs (i := i) hlexed) hwalks
  refine (shallow_expectAs hlexed).bind fun _ => shallow_sees.bind fun _ => ?_
  exact .ite (shallow_pure.bind fun _ => (shallow_expectAs hlexed).map)
    (hnames.bind fun _ => (shallow_expectAs hlexed).map)

theorem shallow_primary (h : call.Shallow ts i 2) : Shallow (primary call) ts i := by
  refine shallow_bindCurrent fun t j ht hij => ?_
  split
  iterate 8
    exact (shallow_advance hlexed).map.at
  · next hk =>
    refine .bindAdvance hlexed ht (by rw [hk]; decide) fun hjk => ?_
    exact (h.later .expr (hij.trans_later hjk)).bind fun _ => (shallow_expectAs hlexed).map
  · next hk =>
    refine .bindAdvance hlexed ht (by rw [hk]; decide) fun hjk => ?_
    exact (h.later (.args .rsquare) (hij.trans_later hjk)).map
  · exact h.here .construction (by decide) _ hij
  · next hk =>
    refine .bindAdvance hlexed ht (by rw [hk]; decide) fun hjk => ?_
    have hlater := hij.trans_later hjk
    exact (h.later .params hlater).bind fun _ => (h.later .block hlater).map
  · exact (shallow_failHere (by nofun)).at

theorem shallow_construction (h : call.Shallow ts i 1) : Shallow (construction call) ts i := by
  have hpath : ∀ {j}, Shallow pathRound ts j :=
    (shallow_accept hlexed).bind fun _ => .ite (shallow_expectAs hlexed).map shallow_pure
  have hwalks : ∀ {j}, Walks True 0 pathRound ts j [] [] (fun t? k => t?.isSome → j < k) :=
    fun {_} => walks_pathRound
  refine shallow_bindExpectAs hlexed (by decide) fun keyword j hij => ?_
  have hrest : Shallow (do
      let head ← expectAs .ident (.typeName "new")
      let tail ← collect pathRound
      let _ ← expectAs .lparen .typeArguments
      let args ← call (.args .rparen)
      return Expr.new (head :: tail) args) ts j := by
    refine (shallow_expectAs hlexed).bind fun _ => (shallow_collect hpath hwalks).bind fun _ => ?_
    exact (shallow_expectAs hlexed).bind fun _ => (h.later (.args .rparen) hij).map
  exact shallow_current.bind fun t =>
    .ite ((shallow_failAt (by nofun) keyword).bind fun _ => hrest) hrest

theorem shallow_args (h : call.Shallow ts i 10) (closer : Kind) :
    Shallow (args call closer) ts i := by
  have hwalks : ∀ {j}, Walks True 0 (call .expr) ts j [] [] (fun _ k => j < k) := fun {_} =>
    h.walk .expr [] trivial (Nat.zero_le _)
  have hitems := shallow_separated hlexed (h.here .expr (by decide)) hwalks
  refine shallow_sees.bind fun _ => ?_
  exact .ite (shallow_pure.bind fun _ => (shallow_expectAs hlexed).map)
    (hitems.bind fun _ => (shallow_expectAs hlexed).map)

/-! ### Statements -/

theorem shallow_stmt (h : call.Shallow ts i 12) : Shallow (stmt call) ts i := by
  refine shallow_opening.bind fun opens => ?_
  split
  · exact h.here .expression (by decide)
  · refine shallow_current.bind fun t => ?_
    split
    · exact (h.here .block (by decide)).map
    · exact (shallow_advance hlexed).map
    iterate 14
      exact h.here _ (by decide)
    · exact shallow_failHere (by nofun)

theorem shallow_block (h : call.Shallow ts i 1) : Shallow (block call) ts i := by
  refine shallow_bindExpectAs hlexed (by decide) fun _ j hij => ?_
  have hround : Shallow (blockRound call) ts j :=
    shallow_seesAny.bind fun _ => .ite shallow_pure (h.later .stmt hij).map
  have hwalks : ∀ {k}, Walks True 0 (blockRound call) ts k [] [] (fun s? l => s?.isSome → k < l) :=
    fun {_} => walks_blockRound h.walk (Nat.zero_le _)
  exact (shallow_collect hround hwalks).bind fun _ => (shallow_expectAs hlexed).map

omit hlexed in
theorem shallow_body (h : call.Shallow ts i 13) (owner : Kind) :
    Shallow (body call owner) ts i :=
  (h.here .stmt (by decide)).bind fun _ => shallow_warnIfEmpty.bind fun _ => shallow_pure

theorem shallow_declaration (h : call.Shallow ts i 11) : Shallow (declaration call) ts i := by
  refine (shallow_advance hlexed).bind fun keyword => ?_
  have hwalks : ∀ {j}, Walks True 0 (call (.declarator keyword)) ts j [] [] (fun _ k => j < k) :=
    fun {_} => h.walk (.declarator keyword) [] trivial (Nat.zero_le _)
  have hshallow : Shallow (call (.declarator keyword)) ts i := h.here _ (by simp [Rule.rank])
  have hitems := shallow_separated hlexed hshallow hwalks
  exact hitems.bind fun _ => (shallow_expectSemicolon hlexed).map

theorem shallow_declarator (h : call.Shallow ts i 1) (keyword : Token) :
    Shallow (declarator call keyword) ts i := by
  refine shallow_bindExpectAs hlexed (by decide) fun name j hij => ?_
  refine (shallow_accept hlexed).bind fun _ => .ite (h.later .expr hij).map ?_
  exact .ite ((shallow_failAt (by nofun) name).bind fun _ => shallow_pure) shallow_pure

theorem shallow_function (h : call.Shallow ts i 1) : Shallow (function call) ts i := by
  refine shallow_bindExpectAs hlexed (by decide) fun _ j hij => ?_
  refine (shallow_expectAs hlexed).bind fun _ => (h.later .params hij).bind fun _ => ?_
  exact (h.later .block hij).map

theorem shallow_choice (h : call.Shallow ts i 1) : Shallow (choice call) ts i := by
  refine shallow_bindExpectAs hlexed (by decide) fun _ j hij => ?_
  refine (h.later .expr hij).bind fun _ => (h.later (.body .ifKw) hij).bind fun _ => ?_
  exact (shallow_accept hlexed).bind fun _ => .ite (h.later (.body .elseKw) hij).map shallow_pure

theorem shallow_whileLoop (h : call.Shallow ts i 1) : Shallow (whileLoop call) ts i :=
  shallow_bindExpectAs hlexed (by decide) fun _ _ hij =>
    (h.later .expr hij).bind fun _ => (h.later (.body .whileKw) hij).map

theorem shallow_doLoop (h : call.Shallow ts i 1) : Shallow (doLoop call) ts i := by
  refine shallow_bindExpectAs hlexed (by decide) fun _ j hij => ?_
  refine (h.later .stmt hij).bind fun _ => (shallow_expectAs hlexed).bind fun _ => ?_
  exact (h.later .expr hij).bind fun _ => (shallow_expectSemicolon hlexed).map

theorem shallow_forLoop (h : call.Shallow ts i 1) : Shallow (forLoop call) ts i := by
  refine shallow_bindExpectAs hlexed (by decide) fun _ j hij => ?_
  refine (shallow_expectAs hlexed).bind fun _ => (shallow_expectAs hlexed).bind fun _ => ?_
  exact (h.later .expr hij).bind fun _ => (h.later (.body .forKw) hij).map

theorem shallow_jump : Shallow jump ts i := by
  refine (shallow_advance hlexed).bind fun _ => shallow_sees.bind fun _ => ?_
  exact .ite ((shallow_advance hlexed).map.bind fun _ => (shallow_expectSemicolon hlexed).map)
    (shallow_pure.bind fun _ => (shallow_expectSemicolon hlexed).map)

theorem shallow_exit (h : call.Shallow ts i 10) : Shallow (exit call) ts i := by
  refine (shallow_advance hlexed).bind fun _ => shallow_sees.bind fun _ => .ite ?_ ?_
  · exact (shallow_expectSemicolon hlexed).map
  · exact (h.here .expr (by decide)).bind fun _ => (shallow_expectSemicolon hlexed).map

theorem shallow_rescueHead : Shallow rescueHead ts i := by
  refine (shallow_accept hlexed).bind fun _ => .ite ?_ ?_
  · refine (shallow_expectAs hlexed).bind fun _ => shallow_sees.bind fun _ => ?_
    exact .ite ((shallow_advance hlexed).map.bind fun _ => (shallow_expectAs hlexed).map)
      (shallow_pure.bind fun _ => (shallow_expectAs hlexed).map)
  · exact shallow_sees.bind fun _ => .ite (shallow_advance hlexed).map shallow_pure

theorem shallow_attempt (h : call.Shallow ts i 1) : Shallow (attempt call) ts i := by
  refine shallow_bindExpectAs hlexed (by decide) fun keyword j hij => ?_
  have hblock := h.later .block hij
  have hround : Shallow (rescueRound call) ts j :=
    (shallow_accept hlexed).bind fun _ =>
      .ite ((shallow_rescueHead hlexed).bind fun _ => hblock.map) shallow_pure
  have hwalks : ∀ {k}, Walks True 0 (rescueRound call) ts k [] [] (fun h? l => h?.isSome → k < l) :=
    fun {_} => walks_rescueRound h.walk (Nat.zero_le _)
  have hlast : Shallow (always call) ts j :=
    (shallow_accept hlexed).bind fun _ => .ite hblock.map shallow_pure
  refine hblock.bind fun _ => (shallow_collect hround hwalks).bind fun _ => hlast.bind fun _ => ?_
  exact .ite ((shallow_failAt (by nofun) keyword).bind fun _ => shallow_pure) shallow_pure

theorem shallow_labeled (h : call.Shallow ts i 1) : Shallow (labeled call) ts i :=
  shallow_bindExpectAs hlexed (by decide) fun _ _ hij =>
    (shallow_expectAs hlexed).bind fun _ => (h.later .stmt hij).map

theorem shallow_forward (h : call.Shallow ts i 1) : Shallow (forward call) ts i := by
  refine shallow_bindExpectAs hlexed (by decide) fun _ j hij => ?_
  refine (shallow_advance hlexed).bind fun _ => (shallow_expectAs hlexed).bind fun _ => ?_
  exact (h.later (.args .rparen) hij).bind fun _ => (shallow_expectSemicolon hlexed).map

theorem shallow_expression (h : call.Shallow ts i 10) : Shallow (expression call) ts i := by
  have hexpr : Shallow (call .expr) ts i := h.here _ (by decide)
  have hvalue : ∀ make : Expr → Stmt, Shallow (do
      let value ← call .expr
      let _ ← expectSemicolon
      return make value) ts i := fun _ =>
    hexpr.bind fun _ => (shallow_expectSemicolon hlexed).map
  refine hexpr.bind fun e => (shallow_accept hlexed).bind fun _ => .ite ?_ ?_
  · exact shallow_checkTarget.bind fun _ => hvalue _
  · refine shallow_current.bind fun t => .ite ?_ ?_
    · exact (shallow_advance hlexed).bind fun _ => shallow_checkTarget.bind fun _ => hvalue _
    · exact (shallow_expectSemicolon hlexed).bind fun _ => shallow_checkEffect.map

end

/-! ### All rules -/

/-- **A production is shallow where those that it calls are.** -/
theorem shallow_produce {call : Call} {ts : Tokens} {i : Nat} (hlexed : ts.Lexed) {α : Type}
    (rule : Rule α) (h : call.Shallow ts i rule.rank) :
    Parser.Shallow (produce call rule) ts i := by
  cases rule with
  | expr => exact h.here .ternary (by decide)
  | ternary => exact shallow_ternary hlexed h
  | nullish => exact shallow_nullish hlexed h
  | binary power => exact shallow_binary hlexed h power
  | unary => exact shallow_unary hlexed h
  | power => exact shallow_power hlexed h
  | access => exact shallow_access hlexed h
  | primary => exact shallow_primary hlexed h
  | params => exact shallow_params hlexed
  | construction => exact shallow_construction hlexed h
  | args closer => exact shallow_args hlexed h closer
  | stmt => exact shallow_stmt hlexed h
  | block => exact shallow_block hlexed h
  | body owner => exact shallow_body h owner
  | declaration => exact shallow_declaration hlexed h
  | declarator keyword => exact shallow_declarator hlexed h keyword
  | function => exact shallow_function hlexed h
  | choice => exact shallow_choice hlexed h
  | whileLoop => exact shallow_whileLoop hlexed h
  | doLoop => exact shallow_doLoop hlexed h
  | forLoop => exact shallow_forLoop hlexed h
  | jump => exact shallow_jump hlexed
  | exit => exact shallow_exit hlexed h
  | attempt => exact shallow_attempt hlexed h
  | labeled => exact shallow_labeled hlexed h
  | forward => exact shallow_forward hlexed h
  | expression => exact shallow_expression hlexed h

/-- **With fourteen levels for each token ahead, and those of its rank, a rule is not stopped by the
nesting.** -/
theorem shallow_parse {ts : Tokens} (hlexed : ts.Lexed) : ∀ (levels : Nat) {α : Type}
    (rule : Rule α) {i : Nat}, 14 * (ts.items.size - i) + rule.rank ≤ levels →
      Parser.Shallow (parse levels rule) ts i
  | 0, _, rule, _, hlevels => by
    have hrank := rule.rank_bounds
    omega
  | levels + 1, _, rule, i, hlevels => by
    -- A rule of smaller rank makes do with one level less, and a token taken with fourteen less.
    refine shallow_produce hlexed rule ⟨walks_parse hlexed levels, ?_, ?_⟩
    · intro β called hlt
      exact shallow_parse hlexed levels called (by omega)
    · intro β called j hij
      have hrank := called.rank_bounds
      obtain ⟨hlt, hsize⟩ := hij
      exact shallow_parse hlexed levels called (by omega)

end Grammar

end CommandShell
