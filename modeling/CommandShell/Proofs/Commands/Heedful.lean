import CommandShell.Proofs.Commands.Conduct
import CommandShell.Proofs.Parsing.Heedful

/-! # Heedful commands

What is entered, a request and a command depend only on the tokens below their reach, and report
only at tokens from the place on where they begin, whether they succeed or fail (`heedful_enter`,
`Command.heedful_read`). The targets of a parallel assignment are checked behind all of them, so
that it must be known of each where it stands (`Command.behind_others`). -/

namespace CommandShell

open CommandShell.Parser CommandShell.Grammar

variable {ts : Tokens} {low : Nat}

/-- A rule that is entered is heedful if the rule is. After a failure the place is where the reading
began. -/
theorem heedful_enter {α : Type} {levels : Nat} {rule : Rule α}
    (h : Heedful (parse levels rule) ts low) : Heedful (enter levels rule) ts low := by
  refine heedful_current.bind fun start i hlow => ?_
  obtain ⟨hle, hreach, hsame, hfound⟩ := h i hlow
  cases hparse : parse levels rule ts i with
  | mk outcome next found reach =>
  rw [hparse] at hle hreach hfound
  have hagree : ∀ {us : Tokens}, us.Lexed → us.AgreesBelow ts (max i reach) →
      parse levels rule us i = ⟨outcome, next, found, reach⟩ := fun hus hagrees => by
    rw [hsame hus (by rwa [hparse]), hparse]
  cases outcome with
  | ok a =>
    refine ⟨?_, ?_, fun hus hagrees => ?_, fun hd => ?_⟩ <;> simp only [hparse] at *
    · exact hle
    · exact hreach
    · rw [hagree hus hagrees]
    · exact hfound hd
  | error f =>
    refine ⟨?_, ?_, fun hus hagrees => ?_, fun hd => ?_⟩ <;> simp only [hparse] at *
    · exact Nat.le_refl i
    · exact Nat.le_max_left _ _
    · rw [hagree hus hagrees]
    · exact hfound hd

namespace Command

variable {levels : Nat} (hlexed : ts.Lexed)
include hlexed

theorem heedful_operand : Heedful (operand levels) ts low :=
  heedful_enter ((heedful_parse hlexed levels).heedful .expr)

theorem behind_operand {i : Nat} {e : Expr} {j : Nat} {ds : List Diagnostic} (hlow : low ≤ i)
    (hrun : Runs (operand levels) ts i e j ds) : Behind ts low e j := by
  rw [runs_operand hlexed] at hrun
  exact ⟨i, hlow, reads_expr_of_runs hlexed hrun⟩

section
omit hlexed

theorem heeds_tooDeep {α : Type} {j : Nat} : Heeds (tooDeep : Parser α) ts low j :=
  ⟨Nat.le_refl _, Nat.le_max_left _ _, fun _ _ => rfl, nofun⟩

theorem heeds_checkTargetWithin {e : Expr} {i j : Nat} (he : Behind ts low e i) :
    Heeds (checkTargetWithin levels e) ts low j := by
  obtain ⟨start, hstart, hreads⟩ := he
  unfold checkTargetWithin
  split
  · exact heeds_checkTarget hstart hreads
  · exact heeds_tooDeep

theorem heeds_checkEffectWithin {e : Expr} {i j : Nat} (he : Behind ts low e i) :
    Heeds (checkEffectWithin levels e) ts low j := by
  obtain ⟨start, hstart, hreads⟩ := he
  unfold checkEffectWithin
  split
  · exact heeds_checkEffect hstart hreads
  · exact heeds_tooDeep

theorem heedful_checkTargets : ∀ {targets : List Expr},
    (∀ e ∈ targets, ∃ i, Behind ts low e i) →
      Heedful (targets.forM (checkTargetWithin levels)) ts low
  | [], _ => heedful_pure
  | _ :: _, h => fun _ hlow => by
    rw [List.forall_mem_cons] at h
    obtain ⟨⟨i, he⟩, hrest⟩ := h
    exact (heeds_checkTargetWithin he).bindCheck hlow (heedful_checkTargets hrest)

end

theorem heedful_assignmentRest {target : Expr} {i : Nat} (htarget : Behind ts low target i) :
    Heedful (assignmentRest levels target) ts low := fun _ hlow =>
  (heeds_checkTargetWithin htarget).bindCheck hlow
    ((heedful_operand hlexed).bind fun _ => heedful_expectSemicolon.map)

/-- The targets behind commas were read from the place `low` on. -/
theorem behind_others {i : Nat} {others : List Expr} {j : Nat} {ds : List Diagnostic}
    (hothers : Collected (MoreRound ts (OperandRun levels ts)) i others j ds) (hlow : low ≤ i) :
    ∀ e ∈ others, ∃ k, Behind ts low e k := by
  induction hothers with
  | stop => exact nofun
  | more hround _ ih =>
    cases hround with
    | more _ he =>
      have hreads := reads_expr_of_runs hlexed he
      have hlt := (hreads.lt (Expr.pieces_ne_nil _)).1
      refine List.forall_mem_cons.mpr ⟨⟨_, _, ?_, hreads⟩, ih (by omega)⟩
      omega

theorem heedful_parallelRest {first : Expr} {i : Nat} (hfirst : Behind ts low first i) :
    Heedful (parallelRest levels first) ts low := by
  have hwalks : ∀ {i}, Walks True 0 (operand levels) ts i [] [] (fun _ j => i < j) :=
    walks_operand hlexed (Nat.zero_le _)
  refine (heedful_more hlexed (heedful_operand hlexed) hwalks).bindRuns
    fun {i others j ds} hlow hij hrun => ?_
  rw [runs_more, runs_operand hlexed] at hrun
  have htargets : ∀ e ∈ first :: others, ∃ k, Behind ts low e k :=
    List.forall_mem_cons.mpr ⟨⟨_, hfirst⟩, behind_others hlexed hrun.1 hlow⟩
  refine Heedful.bindRuns heedful_expectAs (fun {k sign l ds} hlow hkl hsign => ?_) j
    (Nat.le_trans hlow hij)
  have hat := ((runs_expectAs (by decide)).mp hsign).1
  have hend : ∀ values : List Expr, Heedful (do
      let _ ← expectSemicolon
      return Request.parallel (first :: others) sign values) ts low := fun _ =>
    heedful_expectSemicolon.map
  refine Heedful.bind (heedful_checkTargets htargets) (fun _ => ?_) l (Nat.le_trans hlow hkl)
  refine (heedful_separated hlexed (heedful_operand hlexed) hwalks).bind fun values => ?_
  refine .ite (fun m hm => ?_) (hend values)
  exact (heeds_report (.placed hlow hat rfl rfl)).bindCheck hm (hend values)

theorem heedful_afterExpression {e : Expr} {i : Nat} (he : Behind ts low e i) :
    Heedful (afterExpression levels e) ts low := by
  have hassign : ∀ make : Expr → Request, Heedful (do
      let _ ← advance
      let value ← assignmentRest levels e
      return make value) ts low := fun _ =>
    heedful_advance.bind fun _ => (heedful_assignmentRest hlexed he).map
  refine heedful_current.bind fun t => ?_
  split
  · exact fun k hk => (heeds_checkEffectWithin he).bindCheck hk heedful_advance.map
  · exact hassign _
  · exact heedful_parallelRest hlexed he
  · exact heedful_pure
  · split
    · exact hassign _
    · exact heedful_failHere

omit hlexed in
theorem heedful_spanSince {start : Token} : Heedful (spanSince start) ts low :=
  heedful_previous.bind fun _ => heedful_pure

/-- **A command is heedful**, whether it is read or fails. -/
theorem heedful_read : Heedful (read levels) ts low := by
  refine heedful_current.bind fun start => heedful_opening.bind fun opening => ?_
  have hend : ∀ request : Request, Heedful (do
      let span ← spanSince start
      return Command.mk request span) ts low := fun _ => heedful_spanSince.map
  split
  · have hstmt : Heedful (enter levels .stmt) ts low :=
      heedful_enter ((heedful_parse hlexed levels).heedful .stmt)
    exact hstmt.map.bind hend
  · refine (heedful_operand hlexed).bindRuns fun {i e j ds} hlow hij hrun => ?_
    have he := behind_operand hlexed hlow hrun
    exact ((heedful_afterExpression hlexed he).bind hend) j (Nat.le_trans hlow hij)

theorem heedful_readRound : Heedful (readRound levels) ts low :=
  heedful_sees.bind fun _ => .ite heedful_pure (heedful_read hlexed).map

end Command

end CommandShell
