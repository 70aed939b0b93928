import CommandShell.Proofs.Commands.Buffers
import CommandShell.Proofs.Parsing.Conduct
import CommandShell.Proofs.Phrases.Height

/-! # Conduct of commands

A command walks like a rule does, and its failures have a place: an input that is nested too deeply
is reported at the token where the reading of an expression or a statement began. Only a search for
the first token of an expression may run out of levels without one, and only if there are fewer
levels than tokens: an expression is at least as long as its tree is deep. -/

namespace CommandShell

open CommandShell.Parser CommandShell.Grammar

section
variable {α : Type} {ts : Tokens} {deep : Prop} {low i : Nat} {σ τ : List Kind} {f : Failure}
  {t : Token}

/-- A failure gets a place where the reading begins. -/
theorem Tokens.Stuck.placed (ht : ts.At i t) (h : ts.Stuck True low i σ f) :
    ts.Stuck deep low i σ (placeFailure t f) := by
  cases h with
  | lexical hwalk he => exact .lexical hwalk he
  | here hwalk hu hfault => exact .here hwalk hu hfault
  | behind hwalk hlow hmk hu hfault => exact .behind hwalk hlow hmk hu hfault
  | deep => exact .here .refl ht trivial

/-- A rule that is entered walks, and its failures have a place. -/
theorem walks_enter {levels : Nat} {rule : Rule α} {post : α → Nat → Prop}
    (h : Walks True low (parse levels rule) ts i σ τ post) :
    Walks deep low (enter levels rule) ts i σ τ post := by
  cases hget : ts.get i with
  | error e =>
    have hcurrent := congrArg Parsed.outcome (current_of_fault hget)
    exact walks_of_error (bind_of_error hcurrent) rfl (.lexical .refl hget) nofun
  | ok t =>
    have hcurrent := current_of_at hget
    have heq : enter levels rule ts i = _ := enter_eq (congrArg Parsed.outcome hcurrent)
    cases hparse : (parse levels rule ts i).outcome with
    | error f =>
      rw [hparse] at heq
      exact walks_of_error heq rfl ((h.stuck hparse).placed hget) fun _ hd => h.found hd
    | ok a =>
      rw [hparse] at heq
      obtain ⟨hwalked, hpost⟩ := h.ok hparse
      refine walks_of_ok heq rfl ⟨hwalked.walk, ?_, fun {us} hus hagrees => ?_⟩ hpost
        fun _ hd => h.found hd
      · have hle := hwalked.walk.le
        have hreach := hwalked.reach_le
        rw [current_of_at hget]
        show max (i + 1) _ ≤ (parse levels rule ts i).next + 1
        omega
      · have hu : us.At i t := (hagrees i hwalked.walk.le).trans hget
        have hsame := hwalked.same hus hagrees
        rw [enter_eq (congrArg Parsed.outcome (current_of_at hu)), hsame, hparse,
          current_of_at hu, current_of_at hget]

end

/-- A phrase that is read is no longer than the tokens. -/
theorem Tokens.Reads.length_le {ts : Tokens} {i j : Nat} {ps : List Piece} (h : ts.Reads i ps j) :
    ps.length ≤ ts.items.size := by
  by_cases hne : ps = []
  · rw [hne]
    exact Nat.zero_le _
  · have heq := h.eq_add
    have hle := (h.lt hne).2
    omega

/-- With as many levels as there are tokens the first token of the expression is found. -/
def Expr.FoundIn (e : Expr) (ts : Tokens) : Prop := e.tree.searchDepth ≤ ts.items.size

theorem Expr.foundIn_of_length {e : Expr} {ts : Tokens} (h : e.pieces.length ≤ ts.items.size) :
    e.FoundIn ts :=
  Nat.le_trans e.tree.searchDepth_le (Nat.le_trans e.depth_tree h)

namespace Command

variable {levels : Nat} {ts : Tokens} (hlexed : ts.Lexed) {deep : Prop} {low i : Nat}
  {σ : List Kind}
include hlexed

theorem walks_operand (hlow : low ≤ i) :
    Walks deep low (operand levels) ts i σ σ (fun _ j => i < j) :=
  walks_enter (walks_parse hlexed levels .expr σ trivial hlow)

theorem foundIn_operand {e : Expr} {j : Nat} {ds : List Diagnostic}
    (h : Runs (operand levels) ts i e j ds) : e.FoundIn ts := by
  rw [runs_operand hlexed] at h
  exact Expr.foundIn_of_length (reads_expr_of_runs hlexed h).length_le

theorem foundIn_moreOperands {es : List Expr} {j : Nat} {ds : List Diagnostic}
    (h : Runs (more (operand levels)) ts i es j ds) : ∀ e ∈ es, e.FoundIn ts := by
  rw [runs_more, runs_operand hlexed] at h
  have hreads := reads_moreOperands hlexed h.1
  rw [List.flatMap_def] at hreads
  intro e he
  have hmem := List.mem_map_of_mem (f := fun e => Piece.fixed .comma :: e.pieces) he
  have hsub := (List.sublist_cons_self _ _).trans (List.sublist_flatten_of_mem hmem)
  exact Expr.foundIn_of_length (Nat.le_trans hsub.length_le hreads.length_le)

section
omit hlexed

theorem walks_checkTargetWithin {e : Expr} (hfound : e.FoundIn ts) :
    Walks (levels < ts.items.size) low (checkTargetWithin levels e) ts i σ σ
      (fun _ j => j = i) := by
  refine .ite (fun _ => walks_checkTarget) fun hdeep => walks_fail (.deep ?_)
  exact Nat.lt_of_lt_of_le (Nat.lt_of_not_le fun hle => hdeep (.inr hle)) hfound

theorem walks_checkEffectWithin {e : Expr} (hfound : e.FoundIn ts) :
    Walks (levels < ts.items.size) low (checkEffectWithin levels e) ts i σ σ
      (fun _ j => j = i) := by
  refine .ite (fun _ => walks_checkEffect) fun hdeep => walks_fail (.deep ?_)
  exact Nat.lt_of_lt_of_le (Nat.lt_of_not_le fun hle => hdeep (.inr hle)) hfound

theorem walks_checkTargets {targets : List Expr} (hfound : ∀ t ∈ targets, t.FoundIn ts) :
    Walks (levels < ts.items.size) low (targets.forM (checkTargetWithin levels)) ts i σ σ
      (fun _ j => j = i) := by
  induction targets with
  | nil => exact walks_pure rfl
  | cons t targets ih =>
    obtain ⟨ht, htargets⟩ := List.forall_mem_cons.mp hfound
    exact walks_bindCheck (walks_checkTargetWithin ht) (ih htargets)

end

theorem walks_assignmentRest (hlow : low ≤ i) {target : Expr} (hfound : target.FoundIn ts) :
    Walks (levels < ts.items.size) low (assignmentRest levels target) ts i σ σ
      (fun _ j => i < j) := by
  refine walks_bindCheck (walks_checkTargetWithin hfound) ?_
  refine (walks_operand hlexed hlow).bind fun value j hij => ?_
  exact walks_bindSemicolon fun _ => walks_pure (by omega)

theorem walks_parallelRest (hlow : low ≤ i) {first : Expr} (hfirst : first.FoundIn ts) :
    Walks (levels < ts.items.size) low (parallelRest levels first) ts i σ σ
      (fun _ j => i < j) := by
  have hitem : ∀ {i}, low ≤ i →
      Walks (levels < ts.items.size) low (operand levels) ts i σ σ (fun _ j => i < j) :=
    fun hlow => walks_operand hlexed hlow
  have hmore := (walks_more hlexed hitem hlow).with_runs (foundIn_moreOperands hlexed)
  refine hmore.bind fun others j hj => ?_
  obtain ⟨hij, hothers⟩ := hj
  refine walks_bindExpectAs (k := .assign) rfl fun sign _ _ => ?_
  refine walks_bindCheck (walks_checkTargets (List.forall_mem_cons.mpr ⟨hfirst, hothers⟩)) ?_
  refine (walks_separated hlexed hitem (by omega)).bind fun values k hjk => ?_
  have hend : Walks (levels < ts.items.size) low (do
      let _ ← expectSemicolon
      return Request.parallel (first :: others) sign values) ts k σ σ (fun _ j => i < j) :=
    walks_bindSemicolon fun _ => walks_pure (by omega)
  dsimp only
  refine .ite (fun _ => walks_bindCheck (walks_report ?_) hend) fun _ => hend
  unfold Diagnostic.badArity
  rw [severity_at?]
  decide

theorem walks_afterExpression (hlow : low ≤ i) {e : Expr} (hfound : e.FoundIn ts) :
    Walks (levels < ts.items.size) low (afterExpression levels e) ts i σ σ
      (fun _ j => i ≤ j) := by
  have hassign : ∀ {t : Token} {make : Expr → Request}, ts.At i t → t.kind.isPlain = true →
      Walks (levels < ts.items.size) low
        (do let _ ← advance; let value ← assignmentRest levels e; return make value)
        ts i σ σ (fun _ j => i ≤ j) := by
    intro t make ht hk
    refine walks_bindAdvance ht (Kind.turn_plain hk σ) ?_
    exact (walks_assignmentRest hlexed (by omega) hfound).bind fun _ _ hij => walks_pure (by omega)
  refine walks_bindCurrent fun t ht => ?_
  split
  · next hk =>
    refine walks_bindCheck (walks_checkEffectWithin hfound) ?_
    refine walks_bindAdvance ht (ρ := σ) (by rw [hk]; rfl) ?_
    exact walks_pure (by omega)
  · next hk => exact hassign ht (by rw [hk]; rfl)
  · exact (walks_parallelRest hlexed hlow hfound).imp fun _ _ hij => Nat.le_of_lt hij
  · exact walks_pure (Nat.le_refl i)
  · split
    · next op hop => exact hassign ht (isPlain_of_compound (by rw [hop]; rfl))
    · exact walks_failHere fun _ hk => hk

omit hlexed in
/-- The span of what has been walked over. -/
theorem walks_spanSince {start : Token} {j : Nat} (hwalk : ts.Walk i σ j σ) (hij : i < j) :
    Walks deep low (spanSince start) ts j σ σ (fun _ k => k = j) := by
  obtain ⟨t, ht, -⟩ := hwalk.exists_at (j - 1) (by omega) (by omega)
  obtain ⟨j, rfl⟩ : ∃ k, j = k + 1 := ⟨j - 1, by omega⟩
  exact (walks_previous ht).bind fun _ _ hk => walks_pure hk

omit hlexed in
/-- A request whose first part may have been read before, and its span. -/
theorem walks_request {p : Parser Request} {start : Token} {j : Nat} (hbefore : ts.Walk i σ j σ)
    (hp : Walks deep low p ts j σ σ (fun _ k => i < k)) :
    Walks deep low (do let request ← p; let span ← spanSince start; return Command.mk request span)
      ts j σ σ (fun _ k => i < k) := by
  refine hp.with_walk.bind fun request k hk => ?_
  obtain ⟨hik, hwalk⟩ := hk
  exact (walks_spanSince (hbefore.trans hwalk) hik).bind fun span l hl => walks_pure (hl ▸ hik)

/-- **A command walks**, and its failures have a place unless there are fewer levels than tokens. -/
theorem walks_read (hlow : low ≤ i) :
    Walks (levels < ts.items.size) low (read levels) ts i σ σ (fun _ j => i < j) := by
  refine walks_bindCurrent fun start _ => ?_
  refine walks_bindOpening (fun _ _ hij => hij) (fun _ _ _ => ?_) ?_
  · refine walks_request .refl (Walks.map ?_ fun _ _ hij => hij)
    exact walks_enter (walks_parse hlexed levels .stmt σ trivial hlow)
  · refine ((walks_operand hlexed hlow).with_walk.with_runs
      (foundIn_operand hlexed)).bind fun e j hj => ?_
    obtain ⟨⟨hij, hwalk⟩, hfound⟩ := hj
    refine walks_request hwalk ((walks_afterExpression hlexed (by omega) hfound).imp ?_)
    exact fun _ k hjk => Nat.lt_of_lt_of_le hij hjk

end Command

end CommandShell
