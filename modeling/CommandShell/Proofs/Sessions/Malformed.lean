import CommandShell.Proofs.Commands.Misplaced
import CommandShell.Proofs.Commands.Precedence
import CommandShell.Proofs.Sessions.Steps

/-! # Malformed lines: the diagnostic for a closer that fits no bracket

The bracket count finds a closer misplaced after the lines above, but the reader is given the line
alone. It fails nevertheless, as a line that is read to its end closes its own brackets only, and it
fails before the closer or at it. What is shown is one fatal diagnostic (`fatal_of_malformed`).

This asks for as many levels as the line has tokens. With fewer the reader may have no level left
while it looks for the first token of a long chain that it reports, or while it shows a command.
Then nothing fatal is shown, and the step ends all that runs (`fatal_of_malformed_chain`). -/

namespace CommandShell

/-- The diagnostic is placed where the token begins, or before. -/
def Diagnostic.UpTo (d : Diagnostic) (u : Token) : Prop :=
  d.line < u.line ∨ d.line = u.line ∧ d.column ≤ u.column

/-- The first of two tokens of a text stands no later. -/
theorem upTo_of_layout {text : String} {toks : List Token} (htoks : tokenize text = .ok toks)
    {fault : ParseFault} {t u : Token} {n m : Nat} (hnm : n ≤ m) (ht : toks[n]? = some t)
    (hu : toks[m]? = some u) : (ParseError.diagnostic ⟨fault, some t⟩).UpTo u := by
  obtain ⟨-, hordered, -⟩ := layout_of_tokenize htoks
  show t.line < u.line ∨ t.line = u.line ∧ t.column ≤ u.column
  rcases Nat.eq_or_lt_of_le hnm with rfl | hlt
  · cases ht.symm.trans hu
    exact Or.inr ⟨rfl, Int.le_refl _⟩
  · obtain ⟨hn, rfl⟩ := List.getElem?_eq_some_iff.mp ht
    obtain ⟨hm, rfl⟩ := List.getElem?_eq_some_iff.mp hu
    have hbefore := List.pairwise_iff_getElem.mp hordered n m hn hm hlt
    unfold Token.Before at hbefore
    omega

/-! ### What is read and shown of a text -/

/-- A command that is read from some tokens is at most one label deeper than they are many. -/
theorem Command.depth_of_mem {levels : Nat} {ts : Tokens} (hlexed : ts.Lexed) {c : Command}
    (hc : c ∈ (Buffer.ofTokens levels ts).commands) : c.tree.depth ≤ ts.items.size + 1 := by
  obtain ⟨i, j, ds, hrun⟩ := runs_of_mem_commands hc
  rcases (runs_readRound hlexed).mp hrun with ⟨-, hnone, -⟩ | ⟨-, c, hcommand, hsome⟩
  · cases hnone
  · cases hsome
    have hlength := (reads_command hlexed hcommand).length_le
    exact Nat.le_trans c.request.depth_tree (Nat.succ_le_succ hlength)

/-- With more levels than tokens all that was read is shown. -/
theorem Buffer.shownWithin_of_size {levels : Nat} {ts : Tokens} (hlexed : ts.Lexed)
    (h : ts.items.size < levels) :
    (ofTokens levels ts).shownWithin levels = ofTokens levels ts := by
  unfold shownWithin
  refine if_pos (List.all_eq_true.mpr fun item hitem => ?_)
  cases item with
  | diagnostic d => rfl
  | command c =>
    have hc : c ∈ (ofTokens levels ts).commands := List.mem_filterMap.mpr ⟨_, hitem, rfl⟩
    exact decide_eq_true (Nat.le_trans (Command.depth_of_mem hlexed hc) h)

/-- No level is left only where there are fewer levels than tokens. -/
theorem Reader.few_of_exhausted {levels : Nat} {text : String} {toks : List Token}
    (htoks : tokenize text = .ok toks) (h : (within levels text).failure = some .exhausted) :
    levels < toks.length := by
  have hlexed : (Stream.ofText text).tokens.Lexed := Tokens.lexed_ofChars text.toList
  obtain ⟨last, -, rfl⟩ := tokenize_ok_iff.mp htoks
  rw [← tokens_ofText, List.length_append, List.length_singleton, Array.length_toList]
  by_contra hle
  rw [within, Buffer.shownWithin_of_size hlexed (by omega)] at h
  have hstuck := (Buffer.conduct_readFrom hlexed levels _ (Nat.zero_le 0)).2 _ h
  cases hstuck with
  | deep hfew => omega

/-- **A text with a closer that fits no bracket fails**: with a parse error, at a token that stands
no later than the closer, or because there are fewer levels than tokens and none is left. Nothing
else that is reported is fatal. -/
theorem Reader.fails_of_malformed (levels : Nat) {text : String} {toks : List Token}
    (htoks : tokenize text = .ok toks) {b b' : Brackets} {u : Token}
    (hscan : b.scan toks = (.malformed u, b')) :
    (∀ d ∈ (within levels text).items.filterMap Item.diagnostic?, d.severity ≠ .fatal) ∧
      ((∃ fault t, (within levels text).failure = some (.parse ⟨fault, some t⟩) ∧ t ∈ toks ∧
        (ParseError.diagnostic ⟨fault, some t⟩).UpTo u) ∨
      (within levels text).failure = some .exhausted ∧ levels < toks.length) := by
  have hlexed : (Stream.ofText text).tokens.Lexed := Tokens.lexed_ofChars text.toList
  have hfew : (within levels text).failure = some .exhausted → levels < toks.length :=
    few_of_exhausted htoks
  obtain ⟨last, hlast, rfl⟩ := tokenize_ok_iff.mp htoks
  have hnone := failure_of_malformed levels htoks hscan
  rw [← tokens_ofText] at hlast htoks hscan hfew ⊢
  unfold within at hnone hfew ⊢
  generalize hts : (Stream.ofText text).tokens = ts at hlexed hlast htoks hscan hnone hfew ⊢
  obtain ⟨hfound, hstuck⟩ :=
    Buffer.conduct_readFrom hlexed levels (ts.items.size + 1) (Nat.zero_le 0)
  refine ⟨fun d hd => ?_, ?_⟩
  · obtain ⟨item, hitem, hd⟩ := List.mem_filterMap.mp hd
    cases item with
    | diagnostic d' => cases hd; exact hfound _ (Buffer.mem_of_shownWithin hitem)
    | command c => cases hd
  · cases hfailure : ((Buffer.ofTokens levels ts).shownWithin levels).failure with
    | none => exact absurd hfailure hnone
    | some f =>
      by_cases hleft : f = .exhausted
      · rw [hleft] at hfailure ⊢
        exact Or.inr ⟨rfl, hfew hfailure⟩
      · have hread := (Buffer.failure_shownWithin levels (Buffer.ofTokens levels ts)).resolve_right
          fun hex => hleft (Option.some.inj (hfailure.symm.trans hex))
        obtain ⟨fault, t, n, m, rfl, hnm, ht, hu⟩ :=
          (hstuck f (hread.symm.trans hfailure)).upTo_malformed hlexed hlast hleft hscan
        have hget : ∀ {k : Nat} {v : Token}, ts.items.toList[k]? = some v →
            (ts.items.toList ++ [last])[k]? = some v := fun hk => by
          rw [List.getElem?_append_left (List.getElem?_eq_some_iff.mp hk).1, hk]
        refine Or.inl ⟨fault, t, rfl, List.mem_of_getElem? (hget ht), ?_⟩
        exact upTo_of_layout htoks hnm (hget ht) (hget hu)

namespace Session

/-- **A malformed line shows a real diagnostic, unless no level is left.** Let a line be source in
single-line mode, let it be split into tokens, and let a closer in it fit none of the open brackets.
Only this line is handed over. What is reported of it ends with its only fatal diagnostic, that of a
parse error at a token of the line that stands no later than the closer. If there are fewer levels
than tokens, it may be instead that nothing fatal is reported and the step ends all that runs, as no
level is left. In both cases nothing stays pending and no bracket open, and the session is in the
same mode and goes on if it did. -/
theorem fatal_of_malformed (levels : Nat) (s : Session) (line : String) {toks : List Token}
    {u : Token} {b : Brackets} (hmode : s.mode = .single)
    (hsource : s.pending = [] → Control.ofLine? (dropInvisible line) = none ∧
      Text.isBlankLine (dropInvisible line) = false)
    (htoks : tokenize (dropInvisible line) = .ok toks)
    (hscan : s.brackets.scan toks = (.malformed u, b)) :
    let r := s.feed (Reader.within levels) line
    let failure := (Reader.within levels (dropInvisible line)).failure
    sources r.2 = [dropInvisible line] ∧
      (∃ shown, (∀ d ∈ shown, d.severity ≠ .fatal) ∧
        ((∃ fault t, failure = some (.parse ⟨fault, some t⟩) ∧
          reports r.2 = shown ++ [ParseError.diagnostic ⟨fault, some t⟩] ∧
          (ParseError.diagnostic ⟨fault, some t⟩).severity = .fatal ∧ t ∈ toks ∧
          (ParseError.diagnostic ⟨fault, some t⟩).UpTo u ∧ exhausts r.2 = false) ∨
        (failure = some .exhausted ∧ reports r.2 = shown ∧ exhausts r.2 = true ∧
          levels < toks.length))) ∧
      r.1.Idle ∧ r.1.mode = s.mode ∧ r.1.running = s.running := by
  have hfeed : s.feed (Reader.within levels) line =
      s.submit (Reader.within levels) (dropInvisible line) := by
    rw [feed_of_plain fun hp => (hsource hp).1, gather_of_single hmode fun hp => (hsource hp).2,
      htoks]
    simp only [hscan]
  obtain ⟨hcalm, hfails⟩ := Reader.fails_of_malformed levels htoks hscan
  obtain ⟨hsources, hreports⟩ := shown_submit (Reader.within levels) s (dropInvisible line)
  have hexhausts := exhausts_submit (Reader.within levels) s (dropInvisible line)
  rw [Buffer.reports] at hreports
  simp only [hfeed]
  refine ⟨hsources, ⟨_, hcalm, ?_⟩, ?_, ?_, ?_⟩
  · rcases hfails with ⟨fault, t, hfailure, ht, hupTo⟩ | ⟨hfailure, hfew⟩
    · rw [hfailure] at hreports hexhausts
      have hfatal := Failure.severity_diagnostic (f := .parse ⟨fault, some t⟩) rfl
      refine Or.inl ⟨fault, t, hfailure, hreports, hfatal, ht, hupTo, ?_⟩
      exact Bool.eq_false_iff.mpr fun hends => nomatch hexhausts.mp hends
    · rw [hfailure, Option.bind_some, Failure.diagnostic?, Option.toList_none,
        List.append_nil] at hreports
      exact Or.inr ⟨hfailure, hreports, hexhausts.mpr hfailure, hfew⟩
  · exact idle_submit _ s _
  · exact mode_submit _ s _
  · exact running_submit _ s _

/-- After `f(` a closing square bracket fits no bracket. The line `x y]` fails before it, at `y`. -/
theorem fatal_of_malformed_before :
    let s := ((start .unset (some .single)).feed (Reader.within 30) "f(").1
    let r := s.feed (Reader.within 30) "x y]"
    s.pending = ["f("] ∧ sources r.2 = ["x y]"] ∧
      (reports r.2).map (·.text) = ["fatal KS1001 (1:3): Unexpected token 'y'"] ∧ r.1.Idle := by
  have htoks : tokenize (dropInvisible "x y]") =
      .ok [⟨.ident, "x", 1, 1⟩, ⟨.ident, "y", 1, 3⟩, ⟨.rsquare, "]", 1, 4⟩, .atEnd 1 5] := by decide
  have h := fatal_of_malformed 30 ((start .unset (some .single)).feed (Reader.within 30) "f(").1
    "x y]" (u := ⟨.rsquare, "]", 1, 4⟩) (b := ⟨[.rparen]⟩) (by decide) (by decide) htoks (by decide)
  exact ⟨by decide, h.1, by decide, h.2.2.1⟩

/-- A sum is read, however long it is, but with fourteen levels the first token of sixteen terms is
not found. The line shows nothing, though its closer fits no bracket. -/
theorem fatal_of_malformed_chain :
    let s := start .unset (some .single)
    let line := "1+1+1+1+1+1+1+1+1+1+1+1+1+1+1+1;)"
    let r := s.feed (Reader.within 14) line
    Control.ofLine? (dropInvisible line) = none ∧ Text.isBlankLine (dropInvisible line) = false ∧
      (tokenize (dropInvisible line)).map (fun toks => (s.brackets.scan toks).1) =
        .ok (.malformed ⟨.rparen, ")", 1, 33⟩) ∧
      sources r.2 = [line] ∧ reports r.2 = [] ∧ exhausts r.2 = true := by
  decide +kernel

end Session

end CommandShell
