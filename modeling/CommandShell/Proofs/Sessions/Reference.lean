import CommandShell.Proofs.Sessions.Deeds
import CommandShell.Proofs.Sessions.Steps
import Mathlib.Data.List.TakeWhile

/-! # Reference: a session does what its lines ask for

A session keeps the pending lines and the open brackets from line to line. It does the same as a
reference that keeps neither and judges all lines of a buffer again with each further line: it
performs the deeds of its lines (`run_of_lines`). The single-line and the multi-line way to gather a
buffer are followed from its first line to its last (`Coupled.run_cut`, `run_multi`), so that in
between only sessions with nothing pending are left to compare. -/

namespace CommandShell

namespace Session

/-- A step, and what is done behind it. -/
def andThen (r : Step) (next : Session → Step) : Step := ((next r.1).1, r.2 ++ (next r.1).2)

/-- Feeds lines to a session, also behind one that makes it stop, and ends the input. -/
def run (reader : Reader) (s : Session) : List String → Step
  | [] => s.finish reader
  | line :: rest => andThen (s.feed reader line) (run reader · rest)

end Session

/-- What the deed does to a session. -/
def Deed.perform (reader : Reader) (s : Session) : Deed → Session.Step
  | control _ c => s.obey c
  | blank _ => (s, [])
  | read lines => s.submit reader (Text.unlines lines)
  | readLast _ line => s.submit reader line
  | refuse _ e => s.refuse e

/-- The diagnostics that the deed shows. A refusal shows a single one. -/
def Deed.reports (reader : Reader) : Deed → List Diagnostic
  | control _ _ | blank _ => []
  | read lines => (reader (Text.unlines lines)).reports
  | readLast _ line => (reader line).reports
  | refuse _ e => [⟨.lexError, e.fault.message, e.line, e.column, .fatal⟩]

namespace Session

/-- What some deeds do to a session, one behind the other. -/
def performDeeds (reader : Reader) (s : Session) : List Deed → Step
  | [] => (s, [])
  | d :: ds => andThen (d.perform reader s) (performDeeds reader · ds)

variable {s : Session} {reader : Reader} {line : String} {lines rest : List String}

/-! ### Steps one behind the other -/

theorem andThen_silent (s : Session) (next : Session → Step) : andThen (s, []) next = next s := rfl

theorem andThen_congr {r : Step} {next next' : Session → Step} (h : next r.1 = next' r.1) :
    andThen r next = andThen r next' := by
  rw [andThen, andThen, h]

/-- At the end of the input nothing is left to do if nothing is pending. -/
theorem andThen_finish {r : Step} (h : r.1.Idle) : andThen r (·.finish reader) = r := by
  have hfinish : r.1.finish reader = (r.1, []) := if_pos (List.isEmpty_iff.mpr h.pending)
  rw [andThen, hfinish, List.append_nil]

theorem feed_dropInvisible (line : String) :
    s.feed reader (dropInvisible line) = s.feed reader line := by
  unfold feed
  rw [dropInvisible_dropInvisible]

/-- Only what is left of the lines without invisible characters counts. -/
theorem run_dropInvisible (lines : List String) (s : Session) :
    s.run reader (lines.map dropInvisible) = s.run reader lines := by
  induction lines generalizing s with
  | nil => rfl
  | cons line rest ih =>
    rw [List.map_cons, run, run, feed_dropInvisible]
    exact andThen_congr (ih _)

/-! ### Deeds and the state -/

/-- Behind a deed nothing is pending and no bracket open. -/
theorem Idle.perform (h : s.Idle) (d : Deed) : (d.perform reader s).1.Idle := by
  cases d with
  | control _ c => exact h.obey c
  | blank _ => exact h
  | read _ | readLast _ _ => exact idle_submit reader s _
  | refuse _ e => exact Idle.showFailure ⟨rfl, rfl⟩ _

theorem mode_perform (s : Session) (d : Deed) :
    (d.perform reader s).1.mode = d.nextMode s.mode := by
  cases d with
  | control _ c =>
    rw [Deed.perform, mode_obey]
    cases c <;> rfl
  | blank _ | refuse _ _ => rfl
  | read _ | readLast _ _ => exact mode_submit reader s _

/-- What is read and what is reported does not depend on the state. -/
theorem shown_perform (reader : Reader) (s : Session) (d : Deed) :
    sources (d.perform reader s).2 = d.source?.toList ∧
      Session.reports (d.perform reader s).2 = d.reports reader := by
  cases d with
  | control _ c => exact shown_obey s c
  | blank _ => exact ⟨rfl, rfl⟩
  | read _ | readLast _ _ => exact shown_submit reader s _
  | refuse _ e => exact shown_failure _ (.lex e)

theorem shown_performDeeds (reader : Reader) (ds : List Deed) (s : Session) :
    sources (s.performDeeds reader ds).2 = ds.filterMap Deed.source? ∧
      Session.reports (s.performDeeds reader ds).2 = ds.flatMap (Deed.reports reader) := by
  induction ds generalizing s with
  | nil => exact ⟨rfl, rfl⟩
  | cons d ds ih =>
    obtain ⟨hsources, hreports⟩ := shown_perform reader s d
    obtain ⟨ihsources, ihreports⟩ := ih (d.perform reader s).1
    rw [performDeeds, andThen, sources_append, reports_append, hsources, hreports, ihsources,
      ihreports, List.filterMap_cons]
    refine ⟨?_, rfl⟩
    cases d.source? <;> rfl

/-! ### Blank lines -/

theorem ofLine?_of_blank (h : Text.isBlankLine line = true) : Control.ofLine? line = none := by
  have hall : ∀ c ∈ line.toList, Text.isBlank c = true := List.all_eq_true.mp h
  have htrim : Text.trim line = "" := by
    unfold Text.trim Text.trimBlanks
    rw [List.dropWhile_eq_nil_iff.mpr hall]
    rfl
  unfold Control.ofLine?
  rw [htrim]
  decide

/-- A blank line is skipped where nothing is pending. -/
theorem Idle.run_blank (h : s.Idle) (hline : dropInvisible line = line)
    (hblank : Text.isBlankLine line = true) (rest : List String) :
    s.run reader (line :: rest) = s.run reader rest := by
  have hfeed : s.feed reader line = (s, []) := by
    rw [feed_of_plain fun _ => by rw [hline]; exact ofLine?_of_blank hblank, hline]
    have hp := List.isEmpty_iff.mpr h.pending
    unfold gather
    split
    · exact if_pos (by rw [hp, hblank]; rfl)
    · exact (if_pos hblank).trans (if_pos hp)
  rw [run, hfeed, andThen_silent]

/-! ### Buffers in multi-line mode -/

/-- **In multi-line mode** lines are pending up to the next blank one, and are then read. -/
theorem run_multi (hm : s.mode = .multi) (hp : s.pending ≠ [])
    (hlines : ∀ l ∈ lines, dropInvisible l = l) :
    s.run reader lines =
      andThen (s.submit reader (Text.unlines (s.pending ++ lines.takeWhile isFilled)))
        (run reader · (lines.dropWhile isFilled)) := by
  have hpending : ¬ s.pending.isEmpty = true := by rwa [List.isEmpty_iff]
  induction lines generalizing s with
  | nil =>
    have hfinish : s.run reader [] = s.submit reader s.pendingText := if_neg hpending
    rw [hfinish, List.takeWhile_nil, List.dropWhile_nil, List.append_nil]
    exact (andThen_finish (idle_submit reader s _)).symm
  | cons line rest ih =>
    obtain ⟨hline, hrest⟩ := List.forall_mem_cons.mp hlines
    have hfeed : s.feed reader line = s.gatherMulti reader line := by
      rw [feed_of_plain fun h => absurd h hp, hline, gather, hm]
    rw [run, hfeed, gatherMulti]
    by_cases hblank : Text.isBlankLine line = true
    · have hunfilled : ¬ isFilled line = true := by simp [isFilled, hblank]
      rw [if_pos hblank, finish, if_neg hpending, List.takeWhile_cons_of_neg hunfilled,
        List.dropWhile_cons_of_neg hunfilled, List.append_nil]
      refine andThen_congr ?_
      exact ((idle_submit reader s _).run_blank hline hblank rest).symm
    · have hfilled : isFilled line = true := by simpa [isFilled] using hblank
      have hnext := @ih { s with pending := s.pending ++ [line] } hm (by simp) hrest (by simp)
      rw [if_neg hblank, andThen_silent, List.takeWhile_cons_of_pos hfilled,
        List.dropWhile_cons_of_pos hfilled, hnext, List.append_assoc]
      rfl

/-! ### Buffers in single-line mode -/

/-- **One more line in single-line mode.** Either the first deed is clear and done at once, or all
lines together need more and become pending. -/
theorem Coupled.feed_judged (reader : Reader) (h : s.Coupled) (hm : s.mode = .single)
    (hplain : s.pending = [] → Control.ofLine? line = none ∧ Text.isBlankLine line = false)
    (hline : dropInvisible line = line) :
    (∃ d, (∀ rest, cut s.pending line rest = (d, rest)) ∧
        s.feed reader line = d.perform reader s.reset) ∨
      judge s.pending line = .ok .needsMore ∧ ∃ brackets,
        s.feed reader line = ({ s with pending := s.pending ++ [line], brackets }, []) := by
  have hfeed : s.feed reader line = s.gather reader line := by
    rw [feed_of_plain fun hp => by rw [hline]; exact (hplain hp).1, hline]
  rw [hfeed, gather_of_single hm fun hp => (hplain hp).2]
  cases htoks : tokenize line with
  | error e =>
    have hjudge : judge s.pending line = .error e := by rw [judge, htoks]; rfl
    exact Or.inl ⟨_, fun rest => by rw [cut.eq_def, hjudge], rfl⟩
  | ok toks =>
    -- The verdict behind the open brackets is that on all lines, but for the place of a closer.
    obtain ⟨ws, k, hws, hscan⟩ := h.scan_down_snoc hm htoks
    have hjudge := judge_of_ok htoks hws
    rw [hscan] at hjudge
    simp only
    generalize s.brackets.scan toks = r at hjudge ⊢
    rcases r with ⟨_ | _ | u, brackets⟩
    · exact Or.inl ⟨_, fun rest => by rw [cut.eq_def, hjudge]; rfl, rfl⟩
    · exact Or.inr ⟨hjudge, brackets, rfl⟩
    · exact Or.inl ⟨_, fun rest => by rw [cut.eq_def, hjudge]; rfl, rfl⟩

/-- **In single-line mode** lines are pending as long as all of them together need more. -/
theorem Coupled.run_cut (reader : Reader) (h : s.Coupled) (hm : s.mode = .single)
    (hplain : s.pending = [] → Control.ofLine? line = none ∧ Text.isBlankLine line = false)
    (hline : dropInvisible line = line) (hrest : ∀ l ∈ rest, dropInvisible l = l) :
    s.run reader (line :: rest) =
      andThen ((cut s.pending line rest).1.perform reader s.reset)
        (run reader · (cut s.pending line rest).2) := by
  induction rest generalizing s line with
  | nil =>
    rcases h.feed_judged reader hm hplain hline with ⟨d, hcut, hfeed⟩ | ⟨hjudge, b, hfeed⟩
    · rw [run, hfeed, hcut]
    · have hcut : cut s.pending line [] = (.read (s.pending ++ [line]), []) := by rw [cut, hjudge]
      rw [run, hfeed, andThen_silent, hcut]
      -- The lines that still need more are read at the end of the input.
      have hfinish : run reader { s with pending := s.pending ++ [line], brackets := b } [] =
          s.submit reader (Text.unlines (s.pending ++ [line])) := if_neg (by simp)
      rw [hfinish]
      exact (andThen_finish (idle_submit reader s _)).symm
  | cons next rest ih =>
    obtain ⟨hnext, hrest⟩ := List.forall_mem_cons.mp hrest
    rcases h.feed_judged reader hm hplain hline with ⟨d, hcut, hfeed⟩ | ⟨hjudge, b, hfeed⟩
    · rw [run, hfeed, hcut]
    · have hcut : cut s.pending line (next :: rest) = cut (s.pending ++ [line]) next rest := by
        rw [cut, hjudge]
      have hcoupled : (s.feed reader line).1.Coupled := (h.keeps_feed line).coupled
      rw [hfeed] at hcoupled
      have hkept := ih hcoupled hm (fun hp => absurd hp (by simp)) hnext hrest
      rw [run, hfeed, andThen_silent, hcut, hkept]
      rfl

/-! ### All lines -/

theorem Idle.reset_eq (h : s.Idle) : s.reset = s := by
  obtain ⟨mode, pending, brackets, log, running, settings⟩ := s
  obtain ⟨rfl, rfl⟩ := h
  rfl

/-- From a filled line on, the first deed is done, and then those of the lines that are left. -/
theorem Idle.run_gathered (h : s.Idle) (hc : Control.ofLine? line = none)
    (hblank : ¬ Text.isBlankLine line = true) (hline : dropInvisible line = line)
    (hrest : ∀ l ∈ rest, dropInvisible l = l) :
    s.run reader (line :: rest) =
      andThen ((gathered s.mode line rest).1.perform reader s)
        (run reader · (gathered s.mode line rest).2) := by
  cases hm : s.mode with
  | single =>
    have hcut := h.coupled.run_cut reader hm (fun _ => ⟨hc, by simpa using hblank⟩) hline
      hrest
    rwa [h.pending, h.reset_eq] at hcut
  | multi =>
    have hgather : s.gather reader line = s.gatherMulti reader line := by simp only [gather, hm]
    have hfeed : s.feed reader line = ({ s with pending := [line] }, []) := by
      rw [feed_of_plain fun _ => by rw [hline]; exact hc, hline, hgather, gatherMulti,
        if_neg hblank, h.pending]
      rfl
    have hmulti : ({ s with pending := [line] } : Session).run reader rest = _ :=
      run_multi hm (List.cons_ne_nil line []) hrest
    rw [run, hfeed, andThen_silent, hmulti]
    rfl

/-- **A session performs the deeds of its lines.** -/
theorem run_deeds {mode : Mode} (hlines : ∀ l ∈ lines, dropInvisible l = l) (hs : s.Idle)
    (hm : s.mode = mode) : s.run reader lines = s.performDeeds reader (deeds mode lines) := by
  fun_induction deeds generalizing s with
  | case1 => exact if_pos (List.isEmpty_iff.mpr hs.pending)
  | case2 mode line rest c hc ih =>
    obtain ⟨hline, hrest⟩ := List.forall_mem_cons.mp hlines
    have hfeed : s.feed reader line = (Deed.control line c).perform reader s :=
      feed_of_control hs.pending (by rw [hline]; exact hc)
    rw [run, hfeed, performDeeds]
    exact andThen_congr (ih hrest (hs.perform _) ((mode_perform s _).trans (hm ▸ rfl)))
  | case3 mode line rest hc hblank ih =>
    obtain ⟨hline, hrest⟩ := List.forall_mem_cons.mp hlines
    rw [hs.run_blank hline hblank, performDeeds]
    exact ih hrest hs hm
  | case4 mode line rest hc hblank ih =>
    obtain ⟨hline, hrest⟩ := List.forall_mem_cons.mp hlines
    subst hm
    rw [hs.run_gathered hc hblank hline hrest, performDeeds]
    refine andThen_congr (ih (fun l hl => ?_) (hs.perform _) ?_)
    · refine hlines l ?_
      rw [← lines_gathered s.mode]
      exact List.mem_append_right _ hl
    · rw [mode_perform, nextMode_gathered]

/-- **A session refines the reference.** Whatever the mode and the lines, what the session does up
to the end of the input is what performing the deeds of its lines does, to the last event. So the
buffers that are read are those of the deeds, and the diagnostics that are shown are those that the
reader reports of them, or the one of a refusal. Every line belongs to one deed, in order, and a
line that is not read is a control, blank, refused or dropped for a reason. -/
theorem run_of_lines (reader : Reader) (settings : Settings) (mode : Option Mode)
    (lines : List String) :
    let s := start settings mode
    let ds := deeds s.mode (lines.map dropInvisible)
    s.run reader lines = s.performDeeds reader ds ∧
      sources (s.run reader lines).2 = ds.filterMap Deed.source? ∧
      Session.reports (s.run reader lines).2 = ds.flatMap (Deed.reports reader) ∧
      ds.flatMap Deed.lines = lines.map dropInvisible ∧ ∀ d ∈ ds, d.Due := by
  intro s ds
  have hlines : ∀ l ∈ lines.map dropInvisible, dropInvisible l = l := by
    intro l hl
    obtain ⟨line, -, rfl⟩ := List.mem_map.mp hl
    exact dropInvisible_dropInvisible line
  have hrun : s.run reader lines = s.performDeeds reader ds := by
    rw [← run_dropInvisible]
    exact run_deeds hlines (idle_start settings mode) rfl
  obtain ⟨hsources, hreports⟩ := shown_performDeeds reader ds s
  rw [← hrun] at hsources hreports
  exact ⟨hrun, hsources, hreports, lines_deeds s.mode _, due_of_mem⟩

/-- In single-line mode a control inside brackets is a part of the buffer, a closer that fits no
bracket and a line with a character that begins no token drop what is above them; in multi-line mode
a blank line and the end of the input complete a buffer. -/
theorem run_of_lines_both_modes :
    let reader : Reader := fun _ => ⟨[], none⟩
    let lines := ["f(", "/ml", ")", "h(", "a ]", "g(", "x #", " ", "/ml", "b", "/ml", "", "", "c"]
    let ds := deeds .single lines
    ds.filterMap Deed.source? = ["f(\n/ml\n)", "a ]", "b\n/ml", "c"] ∧
      (ds.flatMap (Deed.reports reader)).map (·.text) =
        ["fatal KS0001 (1:3): Unexpected character '#'"] ∧
      ds.flatMap Deed.lines = lines := by
  intro reader lines ds
  obtain ⟨-, hsources, hreports, hlines, -⟩ := run_of_lines reader .unset (some .single) lines
  refine ⟨hsources.symm.trans ?_, ?_, hlines⟩
  · decide
  · have h := congrArg (List.map Diagnostic.text) hreports
    refine h.symm.trans ?_
    decide

end Session

end CommandShell
