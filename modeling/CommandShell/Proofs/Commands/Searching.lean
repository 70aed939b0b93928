import CommandShell.Proofs.Commands.Limits

/-! # Searching: checks that find the first token

A check at the top level may run out of levels while it searches for the first token of what it
reports. Here are requests whose checks always find it (`idealRequest`). What is read with some
levels is read so by them (`request_under`), and what they read is read with levels enough
(`settles_request`). -/

namespace CommandShell

open CommandShell.Parser CommandShell.Grammar

namespace Parser

variable {α β : Type} {p : Nat → Parser α} {q : Parser α}

/-- What `q` reads is read by `p` with as many levels as that may need. -/
def Settles (p : Nat → Parser α) (q : Parser α) : Prop :=
  ∀ ts i a j ds, Runs q ts i a j ds → Freely p ts i a j ds

theorem settles_const (q : Parser α) : Settles (fun _ => q) q :=
  fun _ _ _ _ _ h => ⟨0, fun _ _ => h⟩

theorem Settles.bind {f : Nat → α → Parser β} {g : α → Parser β} (hp : Settles p q)
    (hf : ∀ a, Settles (fun levels => f levels a) (g a)) :
    Settles (fun levels => p levels >>= f levels) (q >>= g) := by
  intro ts i b k ds h
  obtain ⟨a, j, ds₁, ds₂, hq, hg, rfl⟩ := runs_bind.mp h
  obtain ⟨least, hp⟩ := hp _ _ _ _ _ hq
  obtain ⟨least', hf⟩ := hf a _ _ _ _ _ hg
  refine ⟨max least least', fun levels hle => runs_bind.mpr ⟨a, j, ds₁, ds₂, ?_, ?_, rfl⟩⟩
  · exact hp levels (Nat.le_trans (Nat.le_max_left _ _) hle)
  · exact hf levels (Nat.le_trans (Nat.le_max_right _ _) hle)

theorem Settles.map {f : α → β} (hp : Settles p q) :
    Settles (fun levels => f <$> p levels) (f <$> q) := hp.bind fun _ => settles_const _

end Parser

namespace Command

variable {levels : Nat}

/-! ### Ideal requests -/

/-- The rest of an assignment, with a check that finds its token. -/
def idealAssignment (levels : Nat) (target : Expr) : Parser Expr := do
  checkTarget target
  let value ← operand levels
  let _ ← expectSemicolon
  return value

/-- The rest of a parallel assignment, with checks that find their tokens. -/
def idealParallel (levels : Nat) (first : Expr) : Parser Request := do
  let others ← more (operand levels)
  let targets := first :: others
  let sign ← expectAs .assign .assignAfterTargets
  targets.forM checkTarget
  let values ← separated (operand levels)
  if values.length ≠ 1 ∧ values.length ≠ targets.length then
    report (.badArity values.length targets.length sign)
  let _ ← expectSemicolon
  return .parallel targets sign values

/-- What follows the first expression of a request, with checks that find their tokens. -/
def idealTail (levels : Nat) (e : Expr) : Parser Request := do
  let t ← current
  match t.kind with
  | .semicolon =>
    checkEffect e
    let _ ← advance
    return .expression e true
  | .assign =>
    let _ ← advance
    let value ← idealAssignment levels e
    return .assignment e value
  | .comma => idealParallel levels e
  | .eof => return .expression e false
  | k =>
    match k.compoundOp? with
    | some op =>
      let _ ← advance
      let value ← idealAssignment levels e
      return .compound e op value
    | none => failHere .unexpectedToken

/-- What a command asks for, without the span of its tokens. -/
def readRequest (levels : Nat) : Parser Request := do
  match ← opening with
  | .statement => Request.statement <$> enter levels .stmt
  | .expression => do
    let e ← operand levels
    afterExpression levels e

/-- What a command asks for, with checks that find their tokens. -/
def idealRequest (levels : Nat) : Parser Request := do
  match ← opening with
  | .statement => Request.statement <$> enter levels .stmt
  | .expression => do
    let e ← operand levels
    idealTail levels e

/-! ### With some levels -/

theorem checkTargetWithin_under (e : Expr) : Under (checkTargetWithin levels e) (checkTarget e) := by
  unfold checkTargetWithin
  split
  · exact .refl _
  · exact under_tooDeep _

theorem checkEffectWithin_under (e : Expr) : Under (checkEffectWithin levels e) (checkEffect e) := by
  unfold checkEffectWithin
  split
  · exact .refl _
  · exact under_tooDeep _

theorem checkTargets_under (targets : List Expr) :
    Under (targets.forM (checkTargetWithin levels)) (targets.forM checkTarget) := by
  induction targets with
  | nil => exact .refl _
  | cons t targets ih => exact (checkTargetWithin_under t).bind fun _ => ih

theorem assignmentRest_under (target : Expr) :
    Under (assignmentRest levels target) (idealAssignment levels target) :=
  (checkTargetWithin_under target).bind fun _ => .refl _

theorem parallelRest_under (first : Expr) :
    Under (parallelRest levels first) (idealParallel levels first) :=
  (Under.refl _).bind fun _ => (Under.refl _).bind fun _ =>
    (checkTargets_under _).bind fun _ => .refl _

theorem afterExpression_under (e : Expr) :
    Under (afterExpression levels e) (idealTail levels e) := by
  refine (Under.refl current).bind fun t => ?_
  have hassign : ∀ make : Expr → Request, Under
      (do let _ ← advance; let value ← assignmentRest levels e; return make value)
      (do let _ ← advance; let value ← idealAssignment levels e; return make value) := fun _ =>
    (Under.refl _).bind fun _ => (assignmentRest_under e).map
  -- Each side has its own match on the kind, so that one split would not open both.
  generalize t.kind = k
  cases k with
  | semicolon => exact (checkEffectWithin_under e).bind fun _ => .refl _
  | assign => exact hassign _
  | comma => exact parallelRest_under e
  | eof => exact .refl _
  | _ => first | exact hassign _ | exact .refl _

/-- **A request is under the ideal one**, with the same levels. -/
theorem request_under : Under (readRequest levels) (idealRequest levels) := by
  refine (Under.refl opening).bind fun opens => ?_
  cases opens with
  | statement => exact .refl _
  | expression => exact (Under.refl _).bind fun e => afterExpression_under e

/-! ### With levels enough -/

theorem settles_checkTarget (e : Expr) :
    Settles (fun levels => checkTargetWithin levels e) (checkTarget e) := fun _ _ _ _ _ h =>
  ⟨e.tree.searchDepth, fun _ hle =>
    runs_checkTargetWithin.mpr ⟨.inr hle, runs_checkTarget.mp h⟩⟩

theorem settles_checkEffect (e : Expr) :
    Settles (fun levels => checkEffectWithin levels e) (checkEffect e) := fun _ _ _ _ _ h =>
  ⟨e.tree.searchDepth, fun _ hle =>
    runs_checkEffectWithin.mpr ⟨.inr hle, runs_checkEffect.mp h⟩⟩

theorem settles_checkTargets (targets : List Expr) : Settles
    (fun levels => targets.forM (checkTargetWithin levels)) (targets.forM checkTarget) := by
  induction targets with
  | nil => exact settles_const _
  | cons t targets ih => exact (settles_checkTarget t).bind fun _ => ih

theorem settles_enter {α : Type} (rule : Rule α) :
    Settles (fun levels => enter levels rule) (enter levels rule) := fun _ _ _ _ _ h =>
  freely_of_runs h fun _ hle => runs_enter_of_le hle

theorem settles_operand : Settles operand (operand levels) := settles_enter .expr

theorem settles_more : Settles (fun levels => more (operand levels)) (more (operand levels)) :=
  fun _ _ _ _ _ h => ⟨levels, fun _ hle => runs_more.mpr ((runs_more.mp h).imp_left fun hothers =>
    hothers.imp (MoreRound.imp (runs_enter_of_le hle)))⟩

theorem settles_separated :
    Settles (fun levels => separated (operand levels)) (separated (operand levels)) :=
  fun _ _ _ _ _ h =>
  ⟨levels, fun _ hle => runs_separated.mpr ((runs_separated.mp h).imp (runs_enter_of_le hle))⟩

theorem settles_assignment (target : Expr) :
    Settles (fun levels => assignmentRest levels target) (idealAssignment levels target) :=
  (settles_checkTarget target).bind fun _ => settles_operand.bind fun _ => settles_const _

theorem settles_parallel (first : Expr) :
    Settles (fun levels => parallelRest levels first) (idealParallel levels first) :=
  settles_more.bind fun _ => (settles_const _).bind fun _ =>
    (settles_checkTargets _).bind fun _ => settles_separated.bind fun _ => settles_const _

theorem settles_tail (e : Expr) :
    Settles (fun levels => afterExpression levels e) (idealTail levels e) := by
  refine (settles_const current).bind fun t => ?_
  have hassign : ∀ make : Expr → Request, Settles
      (fun levels => do let _ ← advance; let value ← assignmentRest levels e; return make value)
      (do let _ ← advance; let value ← idealAssignment levels e; return make value) := fun _ =>
    (settles_const _).bind fun _ => (settles_assignment e).map
  generalize t.kind = k
  cases k with
  | semicolon => exact (settles_checkEffect e).bind fun _ => settles_const _
  | assign => exact hassign _
  | comma => exact settles_parallel e
  | eof => exact settles_const _
  | _ => first | exact hassign _ | exact settles_const _

/-- **An ideal request is read with levels enough.** -/
theorem settles_request : Settles readRequest (idealRequest levels) := by
  refine (settles_const opening).bind fun opens => ?_
  cases opens with
  | statement => exact (settles_enter .stmt).map
  | expression => exact settles_operand.bind settles_tail

end Command

end CommandShell
