import CommandShell.Proofs.Commands.Limits

/-! # Statements: the same expression at the top level and in a block

What begins with an expression is read by one rule where it is a statement of a block, and by
another where it is a command. Without a limit on the nesting the two agree: where the command ends
with a semicolon and has one target at most, the statement has the same parts, stops at the same
place and reports the same; and there is no other statement (`statement_iff_command`). -/

namespace CommandShell

open CommandShell.Parser CommandShell.Grammar

/-- The request with the parts of a statement that an expression begins. -/
def Stmt.request? : Stmt → Option Request
  | .expression e => some (.expression e true)
  | .assign t v => some (.assignment t v)
  | .compound t sign v => sign.kind.compoundOp?.map fun op => .compound t op v
  | _ => none

/-- Can the request be a statement of a block that an expression begins? -/
def Request.isSimple : Request → Bool
  | .expression _ terminated => terminated
  | .assignment _ _ | .compound _ _ _ => true
  | _ => false

namespace Command

variable {ts : Tokens} {levels i j : Nat} {ds : List Diagnostic}

/-- A statement that an expression begins is the request with its parts, with levels enough to find
the first token of the expression. -/
theorem request_of_expression {s : Stmt} (hopens : Runs opening ts i .expression i [])
    (hs : Runs (parse (levels + 1) .expression) ts i s j ds) :
    ∃ r levels', s.request? = some r ∧ RequestRun levels' ts i r j ds := by
  have hproduction : StmtRun (runsOf (parse levels) ts) ts .expression i s j ds :=
    runs_expression.mp hs
  -- What is read with these levels is read with as many as the search needs besides.
  have hmore : ∀ {n k l : Nat} {e : Expr} {ds : List Diagnostic},
      Runs (parse levels .expr) ts k e l ds → OperandRun (max levels n) ts k e l ds :=
    fun h => runs_parse_of_le (Nat.le_max_left _ _) h
  cases hproduction with
  | @assign _ t _ _ _ _ _ ht hassign hv hsemicolon =>
    exact ⟨_, max levels t.tree.searchDepth, rfl, .expression hopens (hmore ht)
      (.assignment (.inr (Nat.le_max_right _ _)) hassign (hmore hv) hsemicolon)⟩
  | @compound _ t _ _ sign v _ _ ht hsign hcompound hv hsemicolon =>
    obtain ⟨op, hop⟩ := Option.isSome_iff_exists.mp hcompound
    refine ⟨.compound t op v, max levels t.tree.searchDepth, ?_, .expression hopens (hmore ht)
      (.compound (.inr (Nat.le_max_right _ _)) hsign hop (hmore hv) hsemicolon)⟩
    rw [Stmt.request?, hop]
    rfl
  | @expression _ e _ _ he hsemicolon =>
    exact ⟨_, max levels e.tree.searchDepth, rfl, .expression hopens (hmore he)
      (.terminated (.inr (Nat.le_max_right _ _)) hsemicolon)⟩

/-- A request that can be a statement of a block is one. -/
theorem expression_of_request {r : Request} (hsimple : r.isSimple = true)
    (hr : RequestRun levels ts i r j ds) :
    ∃ s, s.request? = some r ∧ Runs (parse (levels + 1) .expression) ts i s j ds := by
  suffices hproduction : ∃ s, s.request? = some r ∧
      StmtRun (runsOf (parse levels) ts) ts .expression i s j ds by
    obtain ⟨s, hrequest, hs⟩ := hproduction
    exact ⟨s, hrequest, runs_expression.mpr hs⟩
  cases hr with
  | statement => cases hsimple
  | @expression _ e k ds₁ _ _ ds₂ _ he htail =>
    cases htail with
    | value => cases hsimple
    | parallel => cases hsimple
    | terminated _ hsemicolon => exact ⟨.expression e, rfl, .expression he hsemicolon⟩
    | @assignment _ v _ _ _ hassign hv hsemicolon =>
      exact ⟨.assign e v, rfl, .assign he hassign hv hsemicolon⟩
    | @compound _ sign op v _ _ _ hsign hop hv hsemicolon =>
      refine ⟨.compound e sign v, ?_, .compound he hsign (by rw [hop]; rfl) hv hsemicolon⟩
      rw [Stmt.request?, hop]
      rfl

/-- Where an expression begins, a statement is read by the rule for it. -/
theorem runs_stmt_of_opening {call : Call} {s : Stmt}
    (hopens : Runs opening ts i .expression i []) :
    Runs (stmt call) ts i s j ds ↔ Runs (call .expression) ts i s j ds := by
  unfold stmt
  rw [runs_bind]
  constructor
  · rintro ⟨o, k, ds₁, ds₂, ho, hs, rfl⟩
    obtain ⟨rfl, rfl, rfl⟩ := hopens.unique ho
    exact hs
  · intro hs
    exact ⟨.expression, i, [], ds, hopens, hs, rfl⟩

/-- A request that moves on is that of a command. -/
theorem command_of_request (hts : ts.Lexed) {r : Request} {start : Token} (hstart : ts.At i start)
    (hr : RequestRun levels ts i r j ds) :
    ∃ c, c.request = r ∧ CommandRun levels ts i c j ds := by
  obtain ⟨hij, hj⟩ := (reads_request hts hr).lt (pieces_ne_nil r)
  obtain ⟨k, rfl⟩ : ∃ k, j = k + 1 := ⟨j - 1, by omega⟩
  have hlast : ts.At k ts.items[k] := (Tokens.at_of_lt hj).mpr rfl
  have hprevious : Runs previous ts (k + 1) (some ts.items[k]) (k + 1) [] :=
    runs_previous_succ.mpr ⟨_, hlast, rfl, rfl, rfl⟩
  exact ⟨_, rfl, .mk hstart hr hprevious⟩

/-- Where an expression begins, a command is read from the expression on. -/
theorem request_of_command {c : Command} (hc : CommandRun levels ts i c j ds) :
    (∃ t, ts.At i t) ∧ RequestRun levels ts i c.request j ds := by
  cases hc with
  | mk hstart hr _ => exact ⟨⟨_, hstart⟩, hr⟩

/-- What is read as a statement of a block is read as a command, with the same parts. -/
theorem command_of_statement (hts : ts.Lexed) (hopens : Runs opening ts i .expression i [])
    {s : Stmt} (hs : Runs (enter levels .stmt) ts i s j ds) :
    ∃ c levels', s.request? = some c.request ∧ CommandRun levels' ts i c j ds := by
  obtain ⟨⟨t, ht⟩, hs⟩ := runs_enter.mp hs
  -- Two levels lie between the statement and its first expression; more do not matter.
  have hs : Runs (parse (levels + 2) .stmt) ts i s j ds := runs_parse_of_le (by omega) hs
  obtain ⟨r, levels', hrequest, hr⟩ :=
    request_of_expression hopens ((runs_stmt_of_opening hopens).mp hs)
  obtain ⟨c, rfl, hc⟩ := command_of_request hts ht hr
  exact ⟨c, levels', hrequest, hc⟩

/-- What is read as a command that can be a statement of a block is one, with the same parts. -/
theorem statement_of_command (hopens : Runs opening ts i .expression i []) {c : Command}
    (hsimple : c.request.isSimple = true) (hc : CommandRun levels ts i c j ds) :
    ∃ s, s.request? = some c.request ∧ Runs (enter (levels + 2) .stmt) ts i s j ds := by
  obtain ⟨hat, hr⟩ := request_of_command hc
  obtain ⟨s, hrequest, hs⟩ := expression_of_request hsimple hr
  exact ⟨s, hrequest, runs_enter.mpr ⟨hat, (runs_stmt_of_opening hopens).mpr hs⟩⟩

end Command

/-- **Expression statements agree at the top level and in a block.** Let an expression begin at a
place of a text. Without a limit on the nesting, what is read there as a statement of a block is
read as a command too, and a command that ends with a semicolon and has one target at most is read
as a statement. The two have the same parts, stop at the same place and report the same. -/
theorem statement_iff_command (s : String) (i : Nat)
    (hopens : (opening (Stream.ofText s).tokens i).outcome = .ok .expression) (j : Nat)
    (ds : List Diagnostic) :
    let ts := (Stream.ofText s).tokens
    (∀ st, Freely (fun levels => enter levels .stmt) ts i st j ds →
      ∃ c, Freely Command.read ts i c j ds ∧ st.request? = some c.request) ∧
    ∀ c, Freely Command.read ts i c j ds → c.request.isSimple = true →
      ∃ st, Freely (fun levels => enter levels .stmt) ts i st j ds ∧
        st.request? = some c.request := by
  intro ts
  have hts : ts.Lexed := Tokens.lexed_ofChars s.toList
  have hopens : Runs opening ts i .expression i [] := by
    have hrun : Runs opening ts i .expression _ _ := runs_iff.mpr ⟨hopens, rfl, rfl⟩
    exact runs_opening_expression.mpr ⟨rfl, rfl, (runs_opening_expression.mp hrun).2.2⟩
  constructor
  · intro st hst
    obtain ⟨levels, hst⟩ := freely_enter.mp hst
    obtain ⟨c, levels', hrequest, hc⟩ := Command.command_of_statement hts hopens hst
    exact ⟨c, (Command.freely_read hts).mpr ⟨levels', hc⟩, hrequest⟩
  · intro c hc hsimple
    obtain ⟨levels, hc⟩ := (Command.freely_read hts).mp hc
    obtain ⟨st, hrequest, hst⟩ := Command.statement_of_command hopens hsimple hc
    exact ⟨st, freely_enter.mpr ⟨levels + 2, hst⟩, hrequest⟩

/-- A compound assignment to a call, which is reported in both readings. -/
theorem statement_iff_command_compound :
    let ts := (Stream.ofText "f() += 2;").tokens
    let target : Expr := .call false (.atom ⟨.ident, "f", 1, 1⟩) []
    (opening ts 0).outcome = .ok .expression ∧
      ∃ c, Freely Command.read ts 0 c 6 [.badTarget target] ∧
        c.request = .compound target .add (.atom ⟨.number, "2", 1, 8⟩) := by
  have hst : Freely (fun levels => enter levels .stmt) (Stream.ofText "f() += 2;").tokens 0
      (.compound (.call false (.atom ⟨.ident, "f", 1, 1⟩) []) ⟨.plusAssign, "+=", 1, 5⟩
        (.atom ⟨.number, "2", 1, 8⟩)) 6
      [.badTarget (.call false (.atom ⟨.ident, "f", 1, 1⟩) [])] :=
    freely_enter.mpr ⟨30, _, rfl⟩
  obtain ⟨c, hc, hrequest⟩ := (statement_iff_command "f() += 2;" 0 rfl 6 _).1 _ hst
  exact ⟨rfl, c, hc, (Option.some.inj hrequest).symm⟩

end CommandShell
