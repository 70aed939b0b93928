import CommandShell.Proofs.Commands.Buffers
import CommandShell.Proofs.Parsing.Limits

/-! # Limits of commands: what is read with enough levels

What is read with some levels is read in the same way with more. So there is a reading without a
limit, that of all great numbers of levels (`Parser.Freely`), and it is found at any number of
levels that is enough (`freely_enter`, `freely_read`). -/

namespace CommandShell

open CommandShell.Parser CommandShell.Grammar

namespace Parser

/-- With as many levels as it may need, the parser reads `a` from `i` up to `j` and reports `ds`. -/
def Freely {α : Type} (p : Nat → Parser α) (ts : Tokens) : Shape α := fun i a j ds =>
  ∃ least, ∀ levels ≥ least, Runs (p levels) ts i a j ds

variable {α : Type} {p : Nat → Parser α} {ts : Tokens} {i j : Nat} {a : α} {ds : List Diagnostic}

/-- A reading that more levels do not change is the one without a limit. -/
theorem freely_of_runs {levels : Nat} (h : Runs (p levels) ts i a j ds)
    (hmono : ∀ levels' ≥ levels, Runs (p levels) ts i a j ds → Runs (p levels') ts i a j ds) :
    Freely p ts i a j ds := ⟨levels, fun levels' hle => hmono levels' hle h⟩

/-- What is read early is read with more. -/
theorem Under.runs {p q : Parser α} (h : Under p q) (hrun : Runs p ts i a j ds) :
    Runs q ts i a j ds := by
  obtain ⟨reach, hp⟩ := hrun
  rcases h ts i with heq | ⟨hfail, -⟩
  · exact ⟨reach, heq ▸ hp⟩
  · rw [hp] at hfail
    cases hfail

end Parser

variable {ts : Tokens} {levels levels' i j : Nat} {ds : List Diagnostic}

theorem Grammar.runs_parse_of_le {α : Type} {rule : Rule α} {a : α} (hle : levels ≤ levels')
    (h : Runs (parse levels rule) ts i a j ds) : Runs (parse levels' rule) ts i a j ds :=
  (parse_under hle rule).runs h

theorem Grammar.runs_enter_of_le {α : Type} {rule : Rule α} {a : α} (hle : levels ≤ levels')
    (h : Runs (enter levels rule) ts i a j ds) : Runs (enter levels' rule) ts i a j ds :=
  runs_enter.mpr ((runs_enter.mp h).imp_right (runs_parse_of_le hle))

theorem Grammar.freely_enter {α : Type} {rule : Rule α} {a : α} :
    Freely (fun levels => enter levels rule) ts i a j ds ↔
      ∃ levels, Runs (enter levels rule) ts i a j ds :=
  ⟨fun ⟨least, h⟩ => ⟨least, h least (Nat.le_refl least)⟩,
    fun ⟨_, h⟩ => freely_of_runs h fun _ hle => runs_enter_of_le hle⟩

section
variable (hle : levels ≤ levels') {e : Expr}
include hle

theorem Expr.TargetWithin.of_le (h : e.TargetWithin levels) : e.TargetWithin levels' :=
  h.imp_right fun hdepth => Nat.le_trans hdepth hle

theorem Expr.EffectWithin.of_le (h : e.EffectWithin levels) : e.EffectWithin levels' :=
  h.imp_right fun hdepth => Nat.le_trans hdepth hle

end

namespace Command

section
variable (hle : levels ≤ levels')
include hle

theorem TailRun.of_le {e : Expr} {r : Request} :
    TailRun levels ts e i r j ds → TailRun levels' ts e i r j ds
  | .value heof => .value heof
  | .terminated hcheck hsemicolon => .terminated (hcheck.of_le hle) hsemicolon
  | .assignment hcheck hassign hv hsemicolon =>
    .assignment (hcheck.of_le hle) hassign (runs_parse_of_le hle hv) hsemicolon
  | .compound hcheck hsign hop hv hsemicolon =>
    .compound (hcheck.of_le hle) hsign hop (runs_parse_of_le hle hv) hsemicolon
  | .parallel hcomma hothers hlen hsign hassign htargets hvalues hsemicolon =>
    .parallel hcomma (hothers.imp (MoreRound.imp (runs_parse_of_le hle))) hlen hsign hassign
      (fun t ht => (htargets t ht).of_le hle) (hvalues.imp (runs_parse_of_le hle)) hsemicolon

theorem RequestRun.of_le {r : Request} :
    RequestRun levels ts i r j ds → RequestRun levels' ts i r j ds
  | .statement hopens hs => .statement hopens (runs_parse_of_le hle hs)
  | .expression hopens he htail => .expression hopens (runs_parse_of_le hle he) (htail.of_le hle)

theorem CommandRun.of_le {c : Command} :
    CommandRun levels ts i c j ds → CommandRun levels' ts i c j ds
  | .mk hstart hr hlast => .mk hstart (hr.of_le hle) hlast

/-- **A buffer that is read to its end is read in the same way with more levels.** -/
theorem BufferRun.of_le {i : Nat} {items : List Item} :
    BufferRun levels ts i items → BufferRun levels' ts i items
  | .stop heof => .stop heof
  | .more hlacks hc hrest => .more hlacks (hc.of_le hle) hrest.of_le

end

theorem freely_read (hts : ts.Lexed) {c : Command} :
    Freely read ts i c j ds ↔ ∃ levels, CommandRun levels ts i c j ds := by
  constructor
  · rintro ⟨least, h⟩
    exact ⟨least, (runs_read hts).mp (h least (Nat.le_refl least))⟩
  · rintro ⟨least, h⟩
    exact ⟨least, fun levels hle => (runs_read hts).mpr (h.of_le hle)⟩

end Command

end CommandShell
