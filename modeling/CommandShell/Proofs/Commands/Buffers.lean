import CommandShell.Command.Reading
import CommandShell.Proofs.Parsing.Yield

/-! # Buffers: the shapes of a buffer that is read to its end

As for the rules of the grammar: what a request, a command and a whole buffer are read from. A
buffer without a failure is a row of commands up to the end of the input, and nothing else is
(`ofTokens_iff`). -/

namespace CommandShell

open CommandShell.Parser CommandShell.Grammar

namespace Command

/-- The report on a parallel assignment whose sides do not match. -/
def arityReports (targets : List Expr) (sign : Token) (values : List Expr) : List Diagnostic :=
  if values.length ≠ 1 ∧ values.length ≠ targets.length then
    [.badArity values.length targets.length sign]
  else []

section
variable (levels : Nat) (ts : Tokens)

/-- The runs of an operand. -/
abbrev OperandRun : Shape Expr := Runs (parse levels .expr) ts

/-- What a request is read from behind its first expression. -/
inductive TailRun (e : Expr) : Shape Request
  | value {i} : ts.Has i .eof → TailRun e i (.expression e false) i []
  | terminated {i} : e.EffectWithin levels → ts.Has i .semicolon →
      TailRun e i (.expression e true) (i + 1) (effectReports e)
  | assignment {i v j ds} : e.TargetWithin levels → ts.Has i .assign →
      OperandRun levels ts (i + 1) v j ds → ts.Has j .semicolon →
      TailRun e i (.assignment e v) (j + 1) (targetReports e ++ ds)
  | compound {i sign op v j ds} : e.TargetWithin levels → ts.At i sign →
      sign.kind.compoundOp? = some op → OperandRun levels ts (i + 1) v j ds →
      ts.Has j .semicolon → TailRun e i (.compound e op v) (j + 1) (targetReports e ++ ds)
  | parallel {i others j ds₁ sign values k ds₂} : ts.Has i .comma →
      Collected (MoreRound ts (OperandRun levels ts)) i others j ds₁ →
      others.length ≤ ts.items.size → ts.At j sign → sign.kind = .assign →
      (∀ t ∈ e :: others, t.TargetWithin levels) →
      Separated ts (OperandRun levels ts) (j + 1) values k ds₂ → ts.Has k .semicolon →
      TailRun e i (.parallel (e :: others) sign values) (k + 1)
        (ds₁ ++ ((e :: others).flatMap targetReports ++
          (ds₂ ++ arityReports (e :: others) sign values)))

/-- What a request is read from. -/
inductive RequestRun : Shape Request
  | statement {i s j ds} : Runs opening ts i .statement i [] →
      Runs (parse levels .stmt) ts i s j ds → RequestRun i (.statement s) j ds
  | expression {i e j ds₁ r k ds₂} : Runs opening ts i .expression i [] →
      OperandRun levels ts i e j ds₁ → TailRun levels ts e j r k ds₂ →
      RequestRun i r k (ds₁ ++ ds₂)

/-- What a command is read from. Its span ends where the token before its stop ends. -/
inductive CommandRun : Shape Command
  | mk {i start r j ds last?} : ts.At i start → RequestRun levels ts i r j ds →
      Runs previous ts j last? j [] → CommandRun i ⟨r, .over start (last?.getD start)⟩ j ds

/-- What a buffer is read from. -/
inductive BufferRun : Nat → List Item → Prop
  | stop {i} : ts.Has i .eof → BufferRun i []
  | more {i c j ds items} : ts.Lacks i .eof → CommandRun levels ts i c j ds → BufferRun j items →
      BufferRun i (ds.map .diagnostic ++ .command c :: items)

end

variable {levels : Nat} {ts : Tokens} {i j : Nat} {ds : List Diagnostic}

/-- What an operand is read from is there to be entered. -/
theorem at_of_operand (h : ts.Lexed) {e : Expr} (he : OperandRun levels ts i e j ds) :
    ∃ t, ts.At i t :=
  (reads_expr_of_runs h he).exists_at e.pieces_ne_nil

theorem runs_operand (h : ts.Lexed) :
    Runs (operand levels) ts = OperandRun levels ts := by
  funext i e j ds
  refine propext (runs_enter.trans ⟨And.right, fun he => ⟨at_of_operand h he, he⟩⟩)

section
variable {e : Expr} {u : Unit}

theorem runs_checkTargetWithin : Runs (checkTargetWithin levels e) ts i u j ds ↔
    e.TargetWithin levels ∧ j = i ∧ ds = targetReports e := by
  unfold checkTargetWithin
  split_ifs with h <;> simp [h, tooDeep]

theorem runs_checkEffectWithin : Runs (checkEffectWithin levels e) ts i u j ds ↔
    e.EffectWithin levels ∧ j = i ∧ ds = effectReports e := by
  unfold checkEffectWithin
  split_ifs with h <;> simp [h, tooDeep]

theorem runs_checkTargets {targets : List Expr} {u : PUnit} :
    Runs (forM targets (checkTargetWithin levels)) ts i u j ds ↔
      (∀ t ∈ targets, t.TargetWithin levels) ∧ j = i ∧ ds = targets.flatMap targetReports := by
  induction targets generalizing i ds with
  | nil => simp
  | cons t targets ih =>
    simp only [List.forM_cons, runs_bind, runs_checkTargetWithin, ih, List.flatMap_cons,
      List.forall_mem_cons]
    constructor
    · rintro ⟨_, _, _, _, ⟨ht, rfl, rfl⟩, ⟨htargets, rfl, rfl⟩, rfl⟩
      exact ⟨⟨ht, htargets⟩, rfl, rfl⟩
    · rintro ⟨⟨ht, htargets⟩, rfl, rfl⟩
      exact ⟨(), j, _, _, ⟨ht, rfl, rfl⟩, ⟨htargets, rfl, rfl⟩, rfl⟩

end

section
variable {α : Type} {p : Parser α} {a : α} {e : Expr} {targets values : List Expr} {sign : Token}

/-- A check that may run out of levels is passed if it does not. -/
theorem runs_bindCheck {c : Parser Unit} {fits : Prop} {ds₀ : List Diagnostic}
    (hc : ∀ {u : Unit} {j ds}, Runs c ts i u j ds ↔ fits ∧ j = i ∧ ds = ds₀) :
    Runs (do c; p) ts i a j ds ↔ fits ∧ ∃ ds₁, Runs p ts i a j ds₁ ∧ ds = ds₀ ++ ds₁ := by
  simp only [runs_bind, hc]
  constructor
  · rintro ⟨_, _, _, ds₁, ⟨hfits, rfl, rfl⟩, hp, rfl⟩
    exact ⟨hfits, ds₁, hp, rfl⟩
  · rintro ⟨hfits, ds₁, hp, rfl⟩
    exact ⟨(), i, ds₀, ds₁, ⟨hfits, rfl, rfl⟩, hp, rfl⟩

theorem runs_bindCheckTargetWithin : Runs (do checkTargetWithin levels e; p) ts i a j ds ↔
    e.TargetWithin levels ∧ ∃ ds₁, Runs p ts i a j ds₁ ∧ ds = targetReports e ++ ds₁ :=
  runs_bindCheck runs_checkTargetWithin

theorem runs_bindCheckEffectWithin : Runs (do checkEffectWithin levels e; p) ts i a j ds ↔
    e.EffectWithin levels ∧ ∃ ds₁, Runs p ts i a j ds₁ ∧ ds = effectReports e ++ ds₁ :=
  runs_bindCheck runs_checkEffectWithin

theorem runs_bindCheckTargets :
    Runs (do targets.forM (checkTargetWithin levels); p) ts i a j ds ↔
      (∀ t ∈ targets, t.TargetWithin levels) ∧
        ∃ ds₁, Runs p ts i a j ds₁ ∧ ds = targets.flatMap targetReports ++ ds₁ :=
  runs_bindCheck runs_checkTargets

theorem runs_bindCheckArity :
    Runs (if values.length ≠ 1 ∧ values.length ≠ targets.length then do
        report (.badArity values.length targets.length sign)
        p
      else p) ts i a j ds ↔
    ∃ ds₁, Runs p ts i a j ds₁ ∧ ds = arityReports targets sign values ++ ds₁ := by
  unfold arityReports
  split_ifs
  · exact runs_bindReports runs_report
  · simp only [List.nil_append, exists_eq_right']

end

theorem runs_assignmentRest (h : ts.Lexed) {t v : Expr} :
    Runs (assignmentRest levels t) ts i v j ds ↔ t.TargetWithin levels ∧
      ∃ k ds₁, OperandRun levels ts i v k ds₁ ∧
        ts.Has k .semicolon ∧ j = k + 1 ∧ ds = targetReports t ++ ds₁ := by
  simp only [assignmentRest, runs_bindCheckTargetWithin, runs_terminated, runs_operand h]
  refine and_congr_right fun _ => ⟨?_, ?_⟩
  · rintro ⟨ds₁, ⟨_, k, hv, hsemicolon, rfl, rfl⟩, rfl⟩
    exact ⟨k, ds₁, hv, hsemicolon, rfl, rfl⟩
  · rintro ⟨k, ds₁, hv, hsemicolon, rfl, rfl⟩
    exact ⟨ds₁, ⟨v, k, hv, hsemicolon, rfl, rfl⟩, rfl⟩

theorem runs_parallelRest (h : ts.Lexed) {t : Expr} {r : Request} :
    Runs (parallelRest levels t) ts i r j ds ↔ ∃ others k ds₂ sign values l ds₃,
      Collected (MoreRound ts (OperandRun levels ts)) i others k ds₂ ∧
      others.length ≤ ts.items.size ∧ ts.At k sign ∧ sign.kind = .assign ∧
      (∀ e ∈ t :: others, e.TargetWithin levels) ∧
      Separated ts (OperandRun levels ts) (k + 1) values l ds₃ ∧ ts.Has l .semicolon ∧
      r = .parallel (t :: others) sign values ∧ j = l + 1 ∧
      ds = ds₂ ++ ((t :: others).flatMap targetReports ++
          (ds₃ ++ arityReports (t :: others) sign values)) := by
  dsimp only [parallelRest]
  simp (disch := decide) only [runs_bind, ↓runs_bindExpectAs, ↓runs_bindCheckTargets,
    ↓runs_bindCheckArity, ↓runs_bindSemicolon, runs_more, runs_separated, runs_operand h, runs_pure]
  constructor
  · rintro ⟨others, k, ds₂, _, ⟨hothers, hlen⟩, ⟨sign, hsign, hassign, htargets, ds₃, ⟨values, l,
      ds₄, _, hvalues, ⟨_, ⟨hsemicolon, rfl, rfl, rfl⟩, rfl⟩, rfl⟩, rfl⟩, rfl⟩
    rw [List.append_nil]
    exact ⟨others, k, ds₂, sign, values, l, ds₄, hothers, hlen, hsign, hassign, htargets, hvalues,
      hsemicolon, rfl, rfl, rfl⟩
  · rintro ⟨others, k, ds₂, sign, values, l, ds₃, hothers, hlen, hsign, hassign, htargets, hvalues,
      hsemicolon, rfl, rfl, rfl⟩
    exact ⟨others, k, ds₂, _, ⟨hothers, hlen⟩, ⟨sign, hsign, hassign, htargets, _, ⟨values, l, ds₃,
      _, hvalues, ⟨[], ⟨hsemicolon, rfl, rfl, rfl⟩, (List.append_nil _).symm⟩, rfl⟩, rfl⟩, rfl⟩

section
variable {e : Expr} {t : Token} {r : Request} (ht : ts.At i t)
include ht

/-- A semicolon ends the request. -/
theorem runs_terminatedAfter (hk : t.kind = .semicolon) :
    Runs (do checkEffectWithin levels e; let _ ← advance; return .expression e true) ts i r j ds ↔
      e.EffectWithin levels ∧ r = .expression e true ∧ j = i + 1 ∧ ds = effectReports e := by
  simp only [runs_bindCheckEffectWithin, runs_bindAdvance ht (show t.kind ≠ .eof by simp [hk]),
    runs_pure]
  refine and_congr_right fun _ => ⟨?_, ?_⟩
  · rintro ⟨_, ⟨rfl, rfl, rfl⟩, rfl⟩; exact ⟨rfl, rfl, List.append_nil _⟩
  · rintro ⟨rfl, rfl, rfl⟩; exact ⟨[], ⟨rfl, rfl, rfl⟩, (List.append_nil _).symm⟩

/-- A sign is followed by the rest of an assignment. -/
theorem runs_assignAfter {f : Expr → Request} (hne : t.kind ≠ .eof) :
    Runs (do let _ ← advance; let v ← assignmentRest levels e; return f v) ts i r j ds ↔
      ∃ v, Runs (assignmentRest levels e) ts (i + 1) v j ds ∧ r = f v := by
  rw [runs_bindAdvance ht hne, runs_bindPure]

end

theorem runs_afterExpression (h : ts.Lexed) {e : Expr} {r : Request} :
    Runs (afterExpression levels e) ts i r j ds ↔ TailRun levels ts e i r j ds := by
  simp only [afterExpression, runs_bindCurrent]
  constructor
  · rintro ⟨t, ht, hrest⟩
    split at hrest
    · next hk =>
      obtain ⟨hcheck, rfl, rfl, rfl⟩ := (runs_terminatedAfter ht hk).mp hrest
      exact .terminated hcheck ⟨t, ht, hk⟩
    · next hk =>
      obtain ⟨v, hvalue, rfl⟩ := (runs_assignAfter ht (by simp [hk])).mp hrest
      obtain ⟨hcheck, k, ds₁, hv, hsemicolon, rfl, rfl⟩ := (runs_assignmentRest h).mp hvalue
      exact .assignment hcheck ⟨t, ht, hk⟩ hv hsemicolon
    · next hk =>
      obtain ⟨others, k, ds₁, sign, values, l, ds₂, hothers, hlen, hsign, hassign, htargets,
        hvalues, hsemicolon, rfl, rfl, rfl⟩ := (runs_parallelRest h).mp hrest
      exact .parallel ⟨t, ht, hk⟩ hothers hlen hsign hassign htargets hvalues hsemicolon
    · next hk =>
      obtain ⟨rfl, rfl, rfl⟩ := runs_pure.mp hrest
      exact .value ⟨t, ht, hk⟩
    · split at hrest
      · next op hop =>
        have hne : t.kind ≠ .eof := kind_ne_eof_of_compound (by rw [hop]; rfl)
        obtain ⟨v, hvalue, rfl⟩ := (runs_assignAfter ht hne).mp hrest
        obtain ⟨hcheck, k, ds₁, hv, hsemicolon, rfl, rfl⟩ := (runs_assignmentRest h).mp hvalue
        exact .compound hcheck ht hop hv hsemicolon
      · exact absurd hrest not_runs_failHere
  · intro htail
    cases htail with
    | value heof =>
      obtain ⟨t, ht, hk⟩ := heof
      refine ⟨t, ht, ?_⟩
      rw [hk]
      exact runs_pure.mpr ⟨rfl, rfl, rfl⟩
    | terminated hcheck hsemicolon =>
      obtain ⟨t, ht, hk⟩ := hsemicolon
      refine ⟨t, ht, ?_⟩
      rw [hk]
      exact (runs_terminatedAfter ht hk).mpr ⟨hcheck, rfl, rfl, rfl⟩
    | assignment hcheck hassign hv hsemicolon =>
      obtain ⟨t, ht, hk⟩ := hassign
      have hrest := (runs_assignmentRest h).mpr ⟨hcheck, _, _, hv, hsemicolon, rfl, rfl⟩
      refine ⟨t, ht, ?_⟩
      rw [hk]
      exact (runs_assignAfter ht (by simp [hk])).mpr ⟨_, hrest, rfl⟩
    | @compound _ sign op v k ds₁ hcheck hsign hop hv hsemicolon =>
      have hne : sign.kind ≠ .eof := kind_ne_eof_of_compound (by rw [hop]; rfl)
      have hrest := (runs_assignmentRest h).mpr ⟨hcheck, _, _, hv, hsemicolon, rfl, rfl⟩
      refine ⟨sign, hsign, ?_⟩
      split
      · next hk => rw [hk] at hop; cases hop
      · next hk => rw [hk] at hop; cases hop
      · next hk => rw [hk] at hop; cases hop
      · next hk => rw [hk] at hop; cases hop
      · rw [hop]
        exact (runs_assignAfter hsign hne).mpr ⟨_, hrest, rfl⟩
    | parallel hcomma hothers hlen hsign hassign htargets hvalues hsemicolon =>
      obtain ⟨t, ht, hk⟩ := hcomma
      refine ⟨t, ht, ?_⟩
      rw [hk]
      exact (runs_parallelRest h).mpr ⟨_, _, _, _, _, _, _, hothers, hlen, hsign, hassign, htargets,
        hvalues, hsemicolon, rfl, rfl, rfl⟩

theorem runs_previous {last? : Option Token} (hlast : Runs previous ts i last? j ds) :
    j = i ∧ ds = [] := by
  cases i with
  | zero =>
    have hstart := runs_iff.mp hlast
    exact ⟨hstart.2.1.symm, hstart.2.2.symm⟩
  | succ i =>
    obtain ⟨-, -, -, hj, hds⟩ := runs_previous_succ.mp hlast
    exact ⟨hj, hds⟩

/-- A command is a request and its span. -/
theorem runs_request {p : Parser Request} {start : Token} {c : Command} :
    Runs (do let request ← p; let span ← spanSince start; return ⟨request, span⟩) ts i c j ds ↔
      ∃ r last?, Runs p ts i r j ds ∧ Runs previous ts j last? j [] ∧
        c = ⟨r, .over start (last?.getD start)⟩ := by
  simp only [spanSince, ↓runs_bindPure, runs_bind]
  constructor
  · rintro ⟨r, k, ds₁, ds₂, hr, ⟨_, ⟨last?, hlast, rfl⟩, rfl⟩, rfl⟩
    obtain ⟨rfl, rfl⟩ := runs_previous hlast
    rw [List.append_nil]
    exact ⟨r, last?, hr, hlast, rfl⟩
  · rintro ⟨r, last?, hr, hlast, rfl⟩
    exact ⟨r, j, ds, [], hr, ⟨_, ⟨last?, hlast, rfl⟩, rfl⟩, (List.append_nil ds).symm⟩

theorem runs_read (h : ts.Lexed) {c : Command} :
    Runs (read levels) ts i c j ds ↔ CommandRun levels ts i c j ds := by
  rw [read, runs_bindCurrent]
  simp only [runs_bind]
  constructor
  · rintro ⟨start, hstart, opens, k, ds₁, ds₂, hopening, hrest, rfl⟩
    cases opens with
    | statement =>
      obtain ⟨rfl, rfl, -⟩ := runs_opening_statement.mp hopening
      obtain ⟨r, last?, hr, hlast, rfl⟩ := runs_request.mp hrest
      obtain ⟨s, hs, rfl⟩ := runs_map.mp hr
      exact .mk hstart (.statement hopening (runs_enter.mp hs).2) hlast
    | expression =>
      obtain ⟨rfl, rfl, -⟩ := runs_opening_expression.mp hopening
      obtain ⟨e, l, ds₃, ds₄, he, htail, rfl⟩ := runs_bind.mp hrest
      obtain ⟨r, last?, hr, hlast, rfl⟩ := runs_request.mp htail
      rw [runs_operand h] at he
      have hr := RequestRun.expression hopening he ((runs_afterExpression h).mp hr)
      exact .mk hstart hr hlast
  · rintro ⟨hstart, hr, hlast⟩
    next start r last? =>
    cases hr with
    | statement hopening hs =>
      have hs : Runs (Request.statement <$> enter levels .stmt) ts i _ j ds :=
        runs_map.mpr ⟨_, runs_enter.mpr ⟨⟨_, hstart⟩, hs⟩, rfl⟩
      exact ⟨_, hstart, _, _, _, _, hopening, runs_request.mpr ⟨_, _, hs, hlast, rfl⟩, rfl⟩
    | expression hopening he htail =>
      rw [← runs_operand h] at he
      refine ⟨_, hstart, _, _, _, _, hopening, ?_, rfl⟩
      refine runs_bind.mpr ⟨_, _, _, _, he, runs_request.mpr ⟨r, last?, ?_, hlast, rfl⟩, rfl⟩
      exact (runs_afterExpression h).mpr htail

theorem runs_readRound (h : ts.Lexed) {c? : Option Command} :
    Runs (readRound levels) ts i c? j ds ↔ ts.Has i .eof ∧ c? = none ∧ j = i ∧ ds = [] ∨
     ts.Lacks i .eof ∧ ∃ c, CommandRun levels ts i c j ds ∧ c? = some c := by
  dsimp only [readRound]
  simp only [↓runs_bindSees, runs_map, runs_read h, runs_pure]

/-! ### Buffers -/

theorem reads_moreOperands (h : ts.Lexed) {es : List Expr}
    (hes : Collected (MoreRound ts (OperandRun levels ts)) i es j ds) :
    ts.Reads i (es.flatMap fun e => Piece.fixed .comma :: e.pieces) j :=
  reads_collected h (fun _ _ _ _ he => reads_expr_of_runs h he) hes

theorem reads_operands (h : ts.Lexed) {es : List Expr}
    (hes : Separated ts (OperandRun levels ts) i es j ds) :
    ts.Reads i (Piece.separated .comma (exprPieces es)) j := by
  rw [exprPieces_eq]
  exact reads_separated h (fun _ _ _ _ he => reads_expr_of_runs h he) hes

theorem spelling_assignKind (op : BinaryOp) : op.assignKind.spelling ≠ "" := by
  cases op <;> decide

theorem reads_tail (h : ts.Lexed) {e : Expr} {start : Nat} {r : Request}
    (he : ts.Reads start e.pieces i) :
    TailRun levels ts e i r j ds → ts.Reads start r.pieces j
  | .value _ => he
  | .terminated _ hsemicolon => he.append (h.reads_last (by decide) hsemicolon)
  | .assignment _ hassign hv hsemicolon => by
    have hv := (reads_expr_of_runs h hv).append (h.reads_last (by decide) hsemicolon)
    exact he.append (h.reads_fixed (by decide) hassign hv)
  | .compound _ hsign hop hv hsemicolon => by
    have hv := (reads_expr_of_runs h hv).append (h.reads_last (by decide) hsemicolon)
    exact he.append
      (h.reads_fixed (spelling_assignKind _) ⟨_, hsign, (assignKind_of_compound hop).symm⟩ hv)
  | .parallel hcomma hothers _ hsign hassign _ hvalues hsemicolon => by
    have hvalues := (reads_operands h hvalues).append (h.reads_last (by decide) hsemicolon)
    have hrest := h.reads_fixed (by decide) ⟨_, hsign, hassign⟩ hvalues
    have hall := he.append ((reads_moreOperands h hothers).append hrest)
    simpa [Request.pieces, Piece.separated, exprPieces, exprPieces_eq, List.flatMap_map] using hall

theorem reads_request (h : ts.Lexed) {r : Request} :
    RequestRun levels ts i r j ds → ts.Reads i r.pieces j
  | .statement _ hs => reads_stmt_of_runs h hs
  | .expression _ he htail => reads_tail h (reads_expr_of_runs h he) htail

/-- **A command is read from its own pieces.** -/
theorem reads_command (h : ts.Lexed) {c : Command} :
    CommandRun levels ts i c j ds → ts.Reads i c.request.pieces j
  | .mk _ hr _ => reads_request h hr

theorem pieces_ne_nil (r : Request) : r.pieces ≠ [] := by
  cases r with
  | statement s => exact s.pieces_ne_nil
  | expression e terminated =>
    cases terminated with
    | true => simp [Request.pieces]
    | false => exact e.pieces_ne_nil
  | _ => simp [Request.pieces]

/-- A command moves on, and no further than to the end of the items. -/
theorem CommandRun.lt (h : ts.Lexed) {c : Command} (hc : CommandRun levels ts i c j ds) :
    i < j ∧ j ≤ ts.items.size := (reads_command h hc).lt (pieces_ne_nil c.request)

/-- What one round does in the reading of a buffer: it fails, it comes to the end of the input, or
it reads a command which stops where the rest begins. -/
inductive BufferRound (levels : Nat) (ts : Tokens) (rest : Nat → Buffer) (i : Nat) : Buffer → Prop
  | failed {f} {ds : List Diagnostic} : (readRound levels ts i).outcome = .error f →
      BufferRound levels ts rest i ⟨ds.map .diagnostic, some f⟩
  | ended : ts.Has i .eof → BufferRound levels ts rest i ⟨[], none⟩
  | read {c j items failure} {ds : List Diagnostic} : ts.Lacks i .eof →
      CommandRun levels ts i c j ds → rest j = ⟨items, failure⟩ →
      BufferRound levels ts rest i ⟨ds.map .diagnostic ++ .command c :: items, failure⟩

theorem round_readFrom (h : ts.Lexed) (levels rounds i : Nat) :
    BufferRound levels ts (Buffer.readFrom levels ts rounds) i
      (Buffer.readFrom levels ts (rounds + 1) i) := by
  have hruns : ∀ {c?}, (readRound levels ts i).outcome = .ok c? →
      Runs (readRound levels) ts i c? (readRound levels ts i).next (readRound levels ts i).found :=
    fun houtcome => runs_iff.mpr ⟨houtcome, rfl, rfl⟩
  rw [Buffer.readFrom]
  split
  · next f hround => exact .failed hround
  · next hround =>
    obtain ⟨heof, -, -, hfound⟩ | ⟨-, _, -, hc⟩ := (runs_readRound h).mp (hruns hround)
    · rw [hfound]
      exact .ended heof
    · cases hc
  · next c hround =>
    obtain ⟨-, hc, -⟩ | ⟨hlacks, c', hc, heq⟩ := (runs_readRound h).mp (hruns hround)
    · cases hc
    · cases heq
      exact .read hlacks hc rfl

/-- **A buffer without a failure is a row of commands up to the end of the input.** -/
theorem readFrom_iff (h : ts.Lexed) : ∀ {rounds i : Nat} {items : List Item},
    ts.items.size < i + rounds → i ≤ ts.items.size →
      (Buffer.readFrom levels ts rounds i = ⟨items, none⟩ ↔ BufferRun levels ts i items)
  | 0, _, _, hlt, hle => absurd hlt (by omega)
  | rounds + 1, i, items, hlt, hle => by
    have hround := round_readFrom h levels rounds i
    constructor
    · intro heq
      rw [heq] at hround
      cases hround with
      | ended heof => exact .stop heof
      | read hlacks hc hrest =>
        obtain ⟨hij, hj⟩ := hc.lt h
        exact .more hlacks hc ((readFrom_iff h (by omega) hj).mp hrest)
    · intro hrun
      have hok : ∀ {c? j ds}, Runs (readRound levels) ts i c? j ds →
          (readRound levels ts i).outcome = .ok c? ∧ (readRound levels ts i).next = j ∧
            (readRound levels ts i).found = ds := runs_iff.mp
      rw [Buffer.readFrom]
      cases hrun with
      | stop heof =>
        obtain ⟨houtcome, -, hfound⟩ :=
          hok ((runs_readRound h).mpr (Or.inl ⟨heof, rfl, rfl, rfl⟩))
        simp only [houtcome, hfound, List.map_nil]
      | @more _ c j ds items hlacks hc hrest =>
        obtain ⟨houtcome, hnext, hfound⟩ :=
          hok ((runs_readRound h).mpr (Or.inr ⟨hlacks, _, hc, rfl⟩))
        obtain ⟨hij, hj⟩ := hc.lt h
        have hrounds : ts.items.size < j + rounds := by omega
        have hcommands := (readFrom_iff h hrounds hj).mpr hrest
        simp only [houtcome, hnext, hfound, hcommands]

theorem ofTokens_iff (h : ts.Lexed) {items : List Item} :
    Buffer.ofTokens levels ts = ⟨items, none⟩ ↔ BufferRun levels ts 0 items :=
  readFrom_iff h (by omega) (Nat.zero_le _)

end Command

end CommandShell
