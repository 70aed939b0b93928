import CommandShell.Proofs.Sessions.Lines

/-! # Coupling: pending lines, open brackets and the mode belong together

Whatever is done with a session, its pending lines are free of invisible characters. In multi-line
mode no bracket is open; in single-line mode the open brackets are those of the pending lines read
as one text, and lines are pending just as long as brackets are open (`Session.Coupled`). A step
either leaves both alone, or drops both (`Session.Idle`), or adds one line to both. -/

namespace CommandShell

namespace Session

/-- No line is pending and no bracket is open. -/
structure Idle (s : Session) : Prop where
  pending : s.pending = []
  brackets : s.brackets = .empty

/-- The pending lines, the open brackets and the mode of the session agree. -/
structure Coupled (s : Session) : Prop where
  normalized : ∀ line ∈ s.pending, dropInvisible line = line
  multi : s.mode = .multi → s.brackets = .empty
  single : s.mode = .single → ∃ toks v, tokenize s.pendingText = .ok toks ∧
    Brackets.empty.scan toks = (v, s.brackets) ∧ ∀ t, v ≠ .malformed t
  waiting : s.mode = .single → (s.pending ≠ [] ↔ s.brackets ≠ .empty)

variable {s : Session} {reader : Reader}

theorem Idle.coupled (h : s.Idle) : s.Coupled where
  normalized line hline := by rw [h.pending] at hline; cases hline
  multi _ := h.brackets
  single _ := by
    refine ⟨[.atEnd 1 1], .balanced, ?_, ?_, fun t ht => by cases ht⟩
    · rw [pendingText, h.pending]; rfl
    · rw [h.brackets]; rfl
  waiting _ := by rw [h.pending, h.brackets]; simp

/-- What does not touch the lines, the brackets and the mode keeps them coupled. -/
theorem Coupled.congr {s' : Session} (h : s.Coupled) (hp : s'.pending = s.pending)
    (hb : s'.brackets = s.brackets) (hm : s'.mode = s.mode) : s'.Coupled where
  normalized := by rw [hp]; exact h.normalized
  multi := by rw [hb, hm]; exact h.multi
  single := by rw [pendingText, hp, hb, hm]; exact h.single
  waiting := by rw [hp, hb, hm]; exact h.waiting

/-! ### Steps that drop what is pending -/

theorem idle_reset (s : Session) : s.reset.Idle := ⟨rfl, rfl⟩

theorem Idle.showFailure (h : s.Idle) (f : Failure) : (s.showFailure f).1.Idle := by
  unfold Session.showFailure
  split
  · exact ⟨h.pending, h.brackets⟩
  · exact h

theorem idle_submit (reader : Reader) (s : Session) (source : String) :
    (s.submit reader source).1.Idle := by
  unfold submit
  simp only
  split
  · exact ⟨rfl, rfl⟩
  · exact Idle.showFailure ⟨rfl, rfl⟩ _

theorem Coupled.idle (h : s.Coupled) (hp : s.pending = []) : s.Idle := by
  refine ⟨hp, ?_⟩
  cases hm : s.mode with
  | multi => exact h.multi hm
  | single =>
    by_contra hb
    exact (h.waiting hm).mpr hb hp

theorem Coupled.idle_finish (h : s.Coupled) : (s.finish reader).1.Idle := by
  unfold finish
  split_ifs with hp
  · exact h.idle (List.isEmpty_iff.mp hp)
  · exact idle_submit reader s _

/-! ### Steps -/

/-- The step leads from `s` to a session whose parts agree. Where it changes the mode, hands over a
buffer or shows a diagnostic, nothing is left pending and no bracket open. -/
structure Keeps (s : Session) (r : Step) : Prop where
  coupled : r.1.Coupled
  dropped : r.1.mode ≠ s.mode ∨ (∃ source, .buffer source ∈ r.2) ∨ (∃ d, .diagnostic d ∈ r.2) →
    r.1.Idle

theorem Keeps.of_idle {r : Step} (h : r.1.Idle) : Keeps s r := ⟨h.coupled, fun _ => h⟩

/-- A step that only tells something in the same mode. -/
theorem Keeps.of_told {r : Step} (h : r.1.Coupled) (hm : r.1.mode = s.mode)
    (htold : ∀ e ∈ r.2, e = .clear ∨ ∃ text, e = .message text) : Keeps s r where
  coupled := h
  dropped hshown := by
    rcases hshown with hne | ⟨_, hin⟩ | ⟨_, hin⟩
    · exact absurd hm hne
    · rcases htold _ hin with he | ⟨_, he⟩ <;> cases he
    · rcases htold _ hin with he | ⟨_, he⟩ <;> cases he

theorem Keeps.of_silent {s' : Session} (h : s'.Coupled) (hm : s'.mode = s.mode) :
    Keeps s (s', []) :=
  .of_told h hm fun _ he => nomatch he

theorem Coupled.keeps_obey (h : s.Coupled) (c : Control) : Keeps s (s.obey c) := by
  cases c with
  | multiline => exact .of_idle ⟨rfl, rfl⟩
  | clear => exact .of_told h rfl (by simp [obey])
  | status => exact .of_told h rfl (by simp [obey])
  | traceback =>
    have hs : ∀ settings, Coupled { s with settings } := fun _ => h.congr rfl rfl rfl
    refine .of_told (hs (s.settings.setTracing (!s.settings.tracing))) ?_ ?_
    · simp [obey]
    · simp [obey]
  | help =>
    refine .of_told h rfl fun e he => Or.inr ?_
    obtain ⟨c, -, rfl⟩ := List.mem_map.mp he
    exact ⟨_, rfl⟩
  | quit => exact .of_silent (h.congr rfl rfl rfl) rfl

theorem Coupled.keeps_command (h : s.Coupled) {line : String} {r : Step}
    (hr : s.command? line = some r) : Keeps s r := by
  obtain ⟨c, -, rfl⟩ := Option.map_eq_some_iff.mp hr
  exact h.keeps_obey c

/-- A line without invisible characters becomes the last pending line. -/
theorem normalized_snoc (h : s.Coupled) {line : String} (hline : dropInvisible line = line) :
    ∀ l ∈ s.pending ++ [line], dropInvisible l = l := by
  intro l hl
  rcases List.mem_append.mp hl with hl | hl
  · exact h.normalized l hl
  · rw [List.mem_singleton.mp hl]; exact hline

theorem Coupled.keeps_gatherMulti (h : s.Coupled) (hm : s.mode = .multi) {line : String}
    (hline : dropInvisible line = line) : Keeps s (s.gatherMulti reader line) := by
  unfold gatherMulti
  split_ifs
  · exact .of_idle h.idle_finish
  -- Multi-line mode keeps no bracket count, and what is said of single-line mode says nothing here.
  · refine .of_silent ⟨normalized_snoc h hline, h.multi, ?_, ?_⟩ rfl <;>
      exact fun hs => absurd (hm.symm.trans hs) (by decide)

/-- What the tokens of one more line say behind the open brackets, the tokens of all lines say, with
the lines that are pending above. -/
theorem Coupled.scan_down_snoc (h : s.Coupled) (hm : s.mode = .single) {line : String}
    {toks : List Token} (htoks : tokenize line = .ok toks) :
    ∃ ws k, tokenize (Text.unlines (s.pending ++ [line])) = .ok ws ∧
      Brackets.empty.scan ws = ((s.brackets.scan toks).1.down k, (s.brackets.scan toks).2) := by
  by_cases hp : s.pending = []
  · rw [hp, List.nil_append, Text.unlines_singleton, (h.idle hp).brackets]
    refine ⟨toks, 0, htoks, ?_⟩
    rcases Brackets.empty.scan toks with ⟨_ | _ | t, b⟩ <;> simp [Verdict.down, Token.down]
  · obtain ⟨us, u, hus, hbefore, hfit⟩ := h.single hm
    have htext := Text.toList_unlines_append hp (List.cons_ne_nil line [])
    rw [Text.unlines_singleton] at htext
    -- The brackets kept are those of the lines above, so that the count goes on behind their end.
    obtain ⟨ws, hws, hafter⟩ := scan_join htext hus htoks hbefore hfit
    exact ⟨ws, _, hws, hafter⟩

/-- **The brackets of the pending lines with one more line** are those that its tokens leave open.
-/
theorem Coupled.scan_snoc (h : s.Coupled) (hm : s.mode = .single) {line : String}
    {toks : List Token} (htoks : tokenize line = .ok toks) {v : Verdict} {b : Brackets}
    (hscan : s.brackets.scan toks = (v, b)) (hv : ∀ t, v ≠ .malformed t) :
    ∃ toks, tokenize (Text.unlines (s.pending ++ [line])) = .ok toks ∧
      Brackets.empty.scan toks = (v, b) := by
  obtain ⟨ws, k, hws, hafter⟩ := h.scan_down_snoc hm htoks
  refine ⟨ws, hws, hafter.trans ?_⟩
  rw [hscan]
  cases v with
  | malformed t => exact absurd rfl (hv t)
  | _ => rfl

theorem Coupled.keeps_gatherSingle (h : s.Coupled) (hm : s.mode = .single) {line : String}
    (hline : dropInvisible line = line) : Keeps s (s.gatherSingle reader line) := by
  unfold gatherSingle
  split_ifs
  · exact .of_silent h rfl
  · split
    -- A line that cannot be split into tokens drops what is pending; else its verdict decides.
    · exact .of_idle (Idle.showFailure ⟨rfl, rfl⟩ _)
    · next toks htoks =>
      split
      · exact .of_idle (idle_submit reader s line)
      · next b hscan =>
        -- The line becomes pending, with a bracket open, since it would be balanced otherwise.
        have hopen : b ≠ .empty := by
          rintro rfl
          rcases Brackets.verdict_scan toks hscan with ⟨t, ht⟩ | hv
          · cases ht
          · cases hv
        obtain ⟨ws, hws, hafter⟩ := h.scan_snoc hm htoks hscan fun t ht => by cases ht
        refine .of_silent ⟨normalized_snoc h hline, fun hs => ?_, fun _ => ?_, fun _ => ?_⟩ rfl
        · exact absurd (hm.symm.trans hs) (by decide)
        · exact ⟨ws, _, hws, hafter, fun t ht => by cases ht⟩
        · exact ⟨fun _ => hopen, fun _ => by simp⟩
      · exact .of_idle (idle_submit reader s _)

theorem Coupled.keeps_feed (h : s.Coupled) (line : String) : Keeps s (s.feed reader line) := by
  unfold feed
  simp only
  split
  · next r hr =>
    split_ifs at hr
    exact h.keeps_command hr
  · have hline := dropInvisible_dropInvisible line
    unfold gather
    split
    · next hm => exact h.keeps_gatherSingle hm hline
    · next hm => exact h.keeps_gatherMulti hm hline

/-! ### Runs -/

/-- What can be done with a session: a line fed, the input ended, what is pending dropped, a buffer
handed over, a line obeyed if it is a control. -/
inductive Call where
  | feed (line : String)
  | finish
  | reset
  | submit (source : String)
  | command (line : String)

/-- The step of a call. -/
def perform (reader : Reader) (s : Session) : Call → Step
  | .feed line => s.feed reader line
  | .finish => s.finish reader
  | .reset => (s.reset, [])
  | .submit source => s.submit reader source
  | .command line => (s.command? line).getD (s, [])

/-- The session after some calls. -/
def performAll (reader : Reader) (s : Session) (calls : List Call) : Session :=
  calls.foldl (fun s call => (s.perform reader call).1) s

theorem Coupled.keeps_perform (h : s.Coupled) (reader : Reader) (call : Call) :
    Keeps s (s.perform reader call) := by
  cases call with
  | feed line => exact h.keeps_feed line
  | finish => exact .of_idle h.idle_finish
  | reset => exact .of_idle s.idle_reset
  | submit source => exact .of_idle (idle_submit reader s source)
  | command line =>
    show Keeps s ((s.command? line).getD (s, []))
    cases hr : s.command? line with
    | none => exact .of_silent h rfl
    | some r => exact h.keeps_command hr

theorem Coupled.performAll (reader : Reader) : ∀ (calls : List Call) {s : Session}, s.Coupled →
    (s.performAll reader calls).Coupled
  | [], _, h => h
  | call :: calls, _, h => Coupled.performAll reader calls (h.keeps_perform reader call).coupled

theorem idle_start (settings : Settings) (mode : Option Mode) : (start settings mode).Idle :=
  ⟨rfl, rfl⟩

/-- **The parts of a session agree after any calls.** No bracket outlives the lines it came from:
where a further call ends the input, drops what is pending, hands over a buffer, changes the mode or
shows a diagnostic, nothing is left pending and no bracket open. -/
theorem coupled_of_calls (reader : Reader) (settings : Settings) (mode : Option Mode)
    (calls : List Call) : ((start settings mode).performAll reader calls).Coupled ∧
      ∀ call s' events,
        ((start settings mode).performAll reader calls).perform reader call = (s', events) →
        (call = .finish ∨ call = .reset ∨ (∃ source, call = .submit source) ∨
          s'.mode ≠ ((start settings mode).performAll reader calls).mode ∨
          (∃ source, .buffer source ∈ events) ∨ ∃ d, .diagnostic d ∈ events) → s'.Idle := by
  have hcoupled := (idle_start settings mode).coupled.performAll reader calls
  refine ⟨hcoupled, fun call s' events hcall => ?_⟩
  have hkeeps := hcoupled.keeps_perform reader call
  rintro (rfl | rfl | ⟨source, rfl⟩ | hshown)
  · rw [← show _ = s' from congrArg Prod.fst hcall]
    exact hcoupled.idle_finish
  · rw [← show _ = s' from congrArg Prod.fst hcall]
    exact idle_reset _
  · rw [← show _ = s' from congrArg Prod.fst hcall]
    exact idle_submit _ _ _
  · rw [hcall] at hkeeps
    exact hkeeps.dropped hshown

/-- After `f(` a bracket is open; then `]` fits no bracket, so that its line is handed over. -/
theorem coupled_of_calls_open :
    let s := (start .unset (some .single)).performAll .ofText [.feed "f("]
    (s.pending, s.brackets) = (["f("], ⟨[.rparen]⟩) ∧ s.Coupled ∧
      (s.perform .ofText (.feed "]")).1.Idle := by
  have h := coupled_of_calls .ofText .unset (some .single) [.feed "f("]
  refine ⟨rfl, h.1, h.2 (.feed "]") _ _ rfl ?_⟩
  exact Or.inr (Or.inr (Or.inr (Or.inr (Or.inl ⟨"]", .head _⟩))))

end Session

end CommandShell
