import CommandShell.Proofs.Commands.Limits
import CommandShell.Proofs.Parsing.Depth
import CommandShell.Proofs.Parsing.Weights

/-! # Depth of readings: what the limit on the nesting does

The limit on the levels of rules does nothing but stop readings, and only those of inputs that are
too long for it (`limit_of_text`): what is read under a limit is read under every greater one, and
fourteen levels for each token are enough for any input, also for one that is not accepted.

How many levels a reading needs is told by what it reads, and not by how long that is: nine for each
unit of the weight (`freely_of_weight`), which a chain does not add to (`Expr.Chain.weight_le`). -/

namespace CommandShell

open CommandShell.Parser CommandShell.Grammar

/-! ### Readings that the limit stops -/

/-- Was the reading stopped because its input is nested too deeply? -/
def Parsed.TooDeep {α : Type} (r : Parsed α) : Prop := ∃ f, r.outcome = .error f ∧ f.IsDeep

namespace Grammar

section
variable {ts : Tokens} {levels i : Nat} {α : Type} {rule : Rule α}

theorem isDeep_of_placeFailure {t : Token} {f : Failure} (h : (placeFailure t f).IsDeep) :
    f.IsDeep := by
  unfold placeFailure at h
  split at h
  · trivial
  · exact h

/-- Fourteen levels for each token are enough, whatever is read. -/
theorem not_tooDeep_enter (hlexed : ts.Lexed) (hlevels : 14 * (ts.items.size + 1) ≤ levels) :
    ¬ (enter levels rule ts i).TooDeep := by
  rintro ⟨f, hfail, hdeep⟩
  cases hcurrent : (current ts i).outcome with
  | error e =>
    have heq : (enter levels rule ts i).outcome = .error e :=
      congrArg Parsed.outcome (bind_of_error hcurrent)
    cases hfail.symm.trans heq
    exact shallow_current.at.not_deep hcurrent hdeep
  | ok t =>
    have hrank := rule.rank_bounds
    have hshallow : Shallow (parse levels rule) ts i := shallow_parse hlexed levels rule (by omega)
    rw [enter_eq hcurrent] at hfail
    cases hparse : (parse levels rule ts i).outcome with
    | error e =>
      rw [hparse] at hfail
      cases hfail
      exact hshallow.at.not_deep hparse (isDeep_of_placeFailure hdeep)
    | ok a =>
      rw [hparse] at hfail
      cases hfail

end

/-- **The limit does nothing but stop readings that are nested too deeply.** Take any text, any rule
and any place, and let the rules be entered with some number of levels and with a greater one.
Unless the reading with fewer levels is stopped by the nesting, the other is the same, in what is
read, where it stops, its failure and its reports. If it is stopped, the failure stands at the token
where the reading began, and what was reported before is the beginning of what is reported with more
levels. And with fourteen levels for each token, and fourteen more, no reading is stopped. -/
theorem limit_of_text (s : String) {α : Type} (rule : Rule α) (i : Nat) :
    let ts := (Stream.ofText s).tokens
    (∀ levels levels', levels ≤ levels' →
      (¬ (enter levels rule ts i).TooDeep → enter levels' rule ts i = enter levels rule ts i) ∧
      ((enter levels rule ts i).TooDeep →
        (∃ t, ts.At i t ∧
          (enter levels rule ts i).outcome = .error (.parse ⟨.nestedTooDeeply, some t⟩)) ∧
        (enter levels rule ts i).found <+: (enter levels' rule ts i).found)) ∧
    ∀ levels ≥ 14 * (ts.items.size + 1), ¬ (enter levels rule ts i).TooDeep := by
  intro ts
  have hlexed : ts.Lexed := Tokens.lexed_ofChars s.toList
  refine ⟨fun levels levels' hle => ⟨fun hfree => ?_, fun hdeep => ⟨?_, ?_⟩⟩,
    fun levels hlevels => not_tooDeep_enter hlexed hlevels⟩
  · rcases enter_of_le hle rule ts i with heq | ⟨⟨t, -, hfail⟩, -⟩
    · exact heq.symm
    · exact absurd ⟨_, hfail, rfl⟩ hfree
  -- With enough levels the reading is not stopped, so that it is another one.
  · let enough := max levels (14 * (ts.items.size + 1))
    rcases enter_of_le (Nat.le_max_left _ _ : levels ≤ enough) rule ts i with heq | ⟨hfail, -⟩
    · rw [heq] at hdeep
      exact absurd hdeep (not_tooDeep_enter hlexed (Nat.le_max_right _ _))
    · exact hfail
  · rcases enter_of_le hle rule ts i with heq | ⟨-, hfound⟩
    · exact ⟨[], by rw [List.append_nil, heq]⟩
    · exact hfound

/-- Twenty levels are too few for a group in an array, in which something was reported before.
Thirty are enough, and more change nothing. -/
theorem limit_of_text_group :
    let ts := (Stream.ofText "[1++, (2)]").tokens
    ((∃ t, ts.At 0 t ∧
        (enter 20 .expr ts 0).outcome = .error (.parse ⟨.nestedTooDeeply, some t⟩)) ∧
      (enter 20 .expr ts 0).found <+: (enter 30 .expr ts 0).found) ∧
    enter 40 .expr ts 0 = enter 30 .expr ts 0 := by
  have hfew : (enter 20 .expr (Stream.ofText "[1++, (2)]").tokens 0).outcome =
      .error (.parse ⟨.nestedTooDeeply, some ⟨.lsquare, "[", 1, 1⟩⟩) := rfl
  have hmany : (enter 30 .expr (Stream.ofText "[1++, (2)]").tokens 0).outcome =
      .ok (.array [.post .up (.atom ⟨.number, "1", 1, 2⟩),
        .group (.atom ⟨.number, "2", 1, 8⟩)]) := rfl
  have hlimit := (limit_of_text "[1++, (2)]" .expr 0).1
  refine ⟨(hlimit 20 30 (by decide)).2 ⟨_, hfew, rfl⟩, (hlimit 30 40 (by decide)).1 ?_⟩
  rintro ⟨f, hfail, -⟩
  cases hfail.symm.trans hmany

/-! ### Readings and the weight of what they read -/

/-- **How many levels a reading needs is told by the weight of what it reads.** If an expression or
a statement is read without a limit, it is read in the same way with nine levels for each unit of
the weight of its tree. So a chain of operators that bind to the left, accesses, calls and steps is
read, however long it is, with levels enough for the heaviest of its parts. -/
theorem freely_of_weight (ts : Tokens) (i j : Nat) (ds : List Diagnostic) :
    (∀ e, Freely (fun levels => enter levels .expr) ts i e j ds →
      ∀ levels ≥ 9 * e.tree.weight, Runs (enter levels .expr) ts i e j ds) ∧
    (∀ s, Freely (fun levels => enter levels .stmt) ts i s j ds →
      ∀ levels ≥ 9 * s.tree.weight, Runs (enter levels .stmt) ts i s j ds) ∧
    ∀ head e w, Expr.Chain w head e → Freely (fun levels => enter levels .expr) ts i e j ds →
      ∀ levels ≥ 9 * max head.tree.weight (w + 2), Runs (enter levels .expr) ts i e j ds := by
  have hexpr : ∀ e, Freely (fun levels => enter levels .expr) ts i e j ds →
      ∀ levels ≥ 9 * e.tree.weight, Runs (enter levels .expr) ts i e j ds := by
    intro e he levels hlevels
    obtain ⟨least, he⟩ := freely_enter.mp he
    obtain ⟨hstart, hrun⟩ := runs_enter.mp he
    rw [e.weight_tree] at hlevels
    have hfits : Rule.expr.Fits ts i := trivial
    exact runs_enter.mpr ⟨hstart, (weighed_closed ts).parse least hfits hrun hfits levels hlevels⟩
  refine ⟨hexpr, fun s hs levels hlevels => ?_, fun head e w hchain he levels hlevels => ?_⟩
  · obtain ⟨least, hs⟩ := freely_enter.mp hs
    obtain ⟨hstart, hrun⟩ := runs_enter.mp hs
    rw [s.weight_tree] at hlevels
    have hfits : Rule.stmt.Fits ts i := trivial
    exact runs_enter.mpr ⟨hstart, (weighed_closed ts).parse least hfits hrun hfits levels hlevels⟩
  · have hweight := hchain.weight_le
    exact hexpr e he levels (by omega)

/-- A chain of weight two, alone and as a statement. -/
theorem freely_of_weight_differences :
    let ts := (Stream.ofText "a - b - c;").tokens
    let e : Expr := .binary (.binary (.atom ⟨.ident, "a", 1, 1⟩) ⟨.minus, "-", 1, 3⟩
      (.atom ⟨.ident, "b", 1, 5⟩)) ⟨.minus, "-", 1, 7⟩ (.atom ⟨.ident, "c", 1, 9⟩)
    Runs (enter 18 .expr) ts 0 e 5 [] ∧
      Runs (enter 27 .stmt) ts 0 (.expression e) 6 [.noEffect e] := by
  have he := (freely_of_weight (Stream.ofText "a - b - c;").tokens 0 5 []).1
    (.binary (.binary (.atom ⟨.ident, "a", 1, 1⟩) ⟨.minus, "-", 1, 3⟩
      (.atom ⟨.ident, "b", 1, 5⟩)) ⟨.minus, "-", 1, 7⟩ (.atom ⟨.ident, "c", 1, 9⟩))
    (freely_enter.mpr ⟨30, _, rfl⟩) 18 (by decide)
  have hs := (freely_of_weight (Stream.ofText "a - b - c;").tokens 0 6 _).2.1
    (.expression (.binary (.binary (.atom ⟨.ident, "a", 1, 1⟩) ⟨.minus, "-", 1, 3⟩
      (.atom ⟨.ident, "b", 1, 5⟩)) ⟨.minus, "-", 1, 7⟩ (.atom ⟨.ident, "c", 1, 9⟩)))
    (freely_enter.mpr ⟨30, _, rfl⟩) 27 (by decide)
  exact ⟨he, hs⟩

end Grammar

end CommandShell
