import CommandShell.Proofs.Sessions.Feeding

/-! # Agreement: reading line by line and reading at once

What a session in single-line mode shows for lines fed one by one is what reading all lines as one
text gives, with every place as many lines further down as the text above its buffer has line feeds
(`buffer_of_lines`). The session cuts the text where its brackets are balanced. The reading of the
whole text passes over such a cut, unless a value was shown there or a complete statement looks for
more; the second never happens, because then the next buffer would begin with `else`, `catch` or
`finally` and fail. -/

namespace CommandShell

open CommandShell.Command

namespace Session

variable {s : Session} {levels : Nat}

/-! ### Values -/

theorem values_placed (events : List (String × Event)) :
    ((placed events).filterMap Item.command?).map (·.request.showsValue) =
      ((events.map Prod.snd).filterMap Event.command?).map (·.request.showsValue) := by
  unfold placed
  rw [List.filterMap_filterMap, List.filterMap_map, List.map_filterMap, List.map_filterMap]
  congr 1
  funext ⟨above, e⟩
  cases e with
  | command c => exact congrArg some (showsValue_down _ c.request)
  | _ => rfl

theorem commands_buffer (source : String) (items : List Item) :
    (Event.buffer source :: items.map .ofItem).filterMap Event.command? =
      items.filterMap Item.command? := by
  rw [List.filterMap_cons_none rfl, List.filterMap_map]
  congr 1
  funext item
  cases item <;> rfl

/-! ### The buffers in the text -/

variable {us : Tokens}

theorem lineFeeds_below (above read : String) : (Text.lineFeeds (above ++ read ++ "\n") : Int) =
    Text.lineFeeds above + (Text.lineFeeds read + 1) := by
  simp [Text.lineFeeds, String.toList_append, List.count_append]

/-- **A buffer before what follows it.** Its commands are read, and then the others. -/
theorem buffer_before {ls ms : List String} {d : Nat} {above : String} {items later : List Item}
    (hls : ls ≠ []) (hends : us.EndsWith (Tokens.ofLines (ls ++ ms)) d (Text.lineFeeds above))
    {toks : List Token} (htoks : tokenize (Text.unlines ls) = .ok toks)
    (hread : Reader.within levels (Text.unlines ls) = ⟨items, none⟩)
    (hvalues : ValuesLast ((items ++ later).filterMap Item.command?))
    (hlater : us.EndsWith (Tokens.ofLines ms) (d + (Tokens.ofLines ls).items.size)
        (Text.lineFeeds (above ++ Text.unlines ls ++ "\n")) →
      BufferRun levels us (d + (Tokens.ofLines ls).items.size) later) :
    BufferRun levels us d (items.map (.down (Text.lineFeeds above)) ++ later) := by
  obtain ⟨last, hlast, -⟩ := tokenize_ok_iff.mp htoks
  obtain ⟨hat, hrest⟩ := hends.lines hls hlast
  rw [← lineFeeds_below] at hrest
  have hlater := hlater hrest
  have hextends : us.Extends (Tokens.ofLines ls) d (Text.lineFeeds above) :=
    { lexed := Tokens.lexed_ofLines ls
      size_le := by have := hrest.size_eq; omega
      at_down := hat _ _
      follower := follower_of_buffer hlater }
  rw [Reader.within, Buffer.eq_of_shownWithin (congrArg Buffer.failure hread)] at hread
  have hrun := (ofTokens_iff (Tokens.lexed_ofLines ls)).mp hread
  exact buffer_appended hextends hlater hvalues (Nat.zero_le _) hrun

/-- **What the session shows is read from the whole text**, from where the pending lines begin. -/
theorem Feeds.buffer : ∀ {lines : List String} {s : Session} (above : String) (d : Nat),
    Feeds levels s lines →
      ValuesLast ((s.feedAll (.within levels) lines).2.filterMap Event.command?) →
      us.EndsWith (Tokens.ofLines (s.pending ++ lines.map dropInvisible)) d (Text.lineFeeds above) →
      BufferRun levels us d (placed (s.located (.within levels) above lines))
  | [], s, above, d, h, _, hends => by
    obtain ⟨hp, hfinish⟩ := h.finish
    rw [located, hfinish]
    rw [hp] at hends
    have hsize : us.items.size = d := hends.size_eq
    exact .stop (hsize ▸ hends.ending (.atEnd 1 1) rfl)
  | line :: rest, s, above, d, h, hvalues, hends => by
    obtain ⟨hfed, hrest, hevents⟩ := h.cons
    rw [hevents, List.filterMap_append] at hvalues
    have ih := fun above d => Feeds.buffer above d hrest hvalues.right
    have hmap := fun above => hrest.map_located above
    rw [located]
    generalize hr : s.feed (.within levels) line = r at hfed hrest ih hmap hvalues ⊢
    -- A skipped line has no tokens, and a waiting line is still pending; only a completed buffer
    -- moves `d` on, by its own tokens.
    rw [List.map_cons] at hends
    cases hfed with
    | skipped hp hspaces =>
      rw [hp, List.nil_append] at hends ih ⊢
      obtain ⟨hsize, last, hlast⟩ := ofChars_spaces hspaces
      have hline : Tokens.ofLines [dropInvisible line] = .ofChars (dropInvisible line).toList := by
        rw [Tokens.ofLines, Text.unlines_singleton]
      obtain ⟨-, hrest⟩ := hends.lines (List.cons_ne_nil _ []) (hline ▸ hlast)
      rw [hline, hsize, ← lineFeeds_below] at hrest
      exact ih _ _ hrest
    | waiting brackets =>
      have hne : (s.pending ++ [dropInvisible line]).isEmpty = false := by simp
      simp only [hne]
      refine ih above d ?_
      simpa using hends
    | completed htoks hnone =>
      have hidle :=
        idle_submit (.within levels) s (Text.unlines (s.pending ++ [dropInvisible line]))
      rw [hidle.pending] at ih ⊢
      rw [(submit_of_none hnone).1] at hvalues ⊢
      rw [placed_append, placed_buffer]
      have hread : Reader.within levels (Text.unlines (s.pending ++ [dropInvisible line])) =
          ⟨(Reader.within levels (Text.unlines (s.pending ++ [dropInvisible line]))).items,
            none⟩ := by
        rw [← hnone]
      refine buffer_before (by simp) (by simpa using hends) htoks hread ?_ fun h => ih _ _ h
      refine hvalues.congr ?_
      rw [List.filterMap_append, List.map_append, List.map_append, values_placed, hmap,
        commands_buffer]

theorem buffer_of_mem {source source' : String} {items : List Item}
    (h : .buffer source ∈ Event.buffer source' :: items.map .ofItem) : source = source' := by
  rcases List.mem_cons.mp h with h | h
  · cases h; rfl
  · obtain ⟨item, -, h⟩ := List.mem_map.mp h
    cases item <;> cases h

/-- Below lines that are done with, the text goes on behind a line end. -/
theorem Feeds.prefixed_below {rest ls : List String} (h : Feeds levels s rest) (hls : ls ≠ [])
    (above : String) (hrest : ∀ above, Prefixed (s.located (.within levels) above rest)
      (above ++ Text.unlines (s.pending ++ rest.map dropInvisible))) (hp : s.pending = []) :
    Prefixed (s.located (.within levels) (above ++ Text.unlines ls ++ "\n") rest)
      (above ++ Text.unlines (ls ++ rest.map dropInvisible)) := by
  intro a source hin
  cases rest with
  | nil =>
    rw [located, h.finish.2] at hin
    cases hin
  | cons line rest =>
    have hprefix := hrest _ a source hin
    rw [hp, List.nil_append] at hprefix
    have hms : (line :: rest).map dropInvisible ≠ [] := by simp
    have htext := Text.toList_unlines_append hls hms
    rw [String.toList_append, String.toList_append, htext]
    simpa only [String.toList_append, show "\n".toList = ['\n'] from rfl, List.append_assoc,
      List.singleton_append] using hprefix

theorem Feeds.prefixed : ∀ {lines : List String} {s : Session} (above : String),
    Feeds levels s lines →
    Prefixed (s.located (.within levels) above lines)
      (above ++ Text.unlines (s.pending ++ lines.map dropInvisible))
  | [], s, above, h, a, source, hin => by
    rw [located, h.finish.2] at hin
    cases hin
  | line :: rest, s, above, h, a, source, hin => by
    obtain ⟨hfed, hrest, -⟩ := h.cons
    have ih := fun above => Feeds.prefixed above hrest
    rw [located] at hin
    generalize hr : s.feed (.within levels) line = r at hfed hrest ih hin
    rw [List.map_cons]
    cases hfed with
    | skipped hp hspaces =>
      rw [hp] at hin ⊢
      exact hrest.prefixed_below (List.cons_ne_nil _ []) above ih hp a source hin
    | waiting brackets =>
      have hne : (s.pending ++ [dropInvisible line]).isEmpty = false := by simp
      simp only [hne] at hin
      simpa using ih above a source hin
    | completed htoks hnone =>
      have hidle :=
        idle_submit (.within levels) s (Text.unlines (s.pending ++ [dropInvisible line]))
      rw [hidle.pending, (submit_of_none hnone).1] at hin
      rw [List.append_cons]
      rcases List.mem_append.mp hin with hin | hin
      · obtain ⟨e, he, heq⟩ := List.mem_map.mp hin
        cases heq
        cases buffer_of_mem he
        have hne : s.pending ++ [dropInvisible line] ≠ [] := by simp
        rw [String.toList_append, String.toList_append]
        exact (List.prefix_append_right_inj _).mpr (Text.prefix_unlines hne _)
      · exact hrest.prefixed_below (by simp) above ih hidle.pending a source hin

/-- **Reading line by line agrees with reading all at once.** Let no line be a control where it
could be one, let what is skipped as a blank line hold only characters that stand between tokens,
let no report be fatal and no command but the last be a value, and let the levels be enough for what
is fed. Then all lines as one text are read to the end with these levels, and the items are those
that the session shows, in order, each moved down by the line feeds of the text above its buffer. -/
theorem buffer_of_lines (levels : Nat) (settings : Settings) (mode : Option Mode)
    (lines : List String) (hmode : (start settings mode).mode = .single)
    (hundisturbed : (start settings mode).Undisturbed (.within levels) lines)
    (hcalm : Calm ((start settings mode).feedAll (.within levels) lines).2)
    (hvalues : ValuesLast
      (((start settings mode).feedAll (.within levels) lines).2.filterMap Event.command?)) :
    let shown := (start settings mode).located (.within levels) "" lines
    shown.map Prod.snd = ((start settings mode).feedAll (.within levels) lines).2 ∧
      Prefixed shown (Text.unlines (lines.map dropInvisible)) ∧
      Buffer.ofTokens levels (Stream.ofText (Text.unlines (lines.map dropInvisible))).tokens =
        ⟨placed shown, none⟩ := by
  have hfeeds : Feeds levels (start settings mode) lines :=
    ⟨(idle_start settings mode).coupled, hmode, rfl, hundisturbed, hcalm⟩
  have hlexed := Tokens.lexed_ofLines (lines.map dropInvisible)
  have hrun := hfeeds.buffer "" 0 hvalues hlexed.endsWith_self
  refine ⟨hfeeds.map_located "", ?_, (ofTokens_iff hlexed).mpr hrun⟩
  simpa [start] using hfeeds.prefixed ""

/-- The call `f()` on two lines, a blank line, an assignment to what has no place, and a value. -/
theorem buffer_of_lines_call :
    let lines := ["f(", ");", "", "[] = x;", "y"]
    let shown := (start .unset (some .single)).located (.within 30) "" lines
    Buffer.ofTokens 30 (Stream.ofText (Text.unlines (lines.map dropInvisible))).tokens =
        ⟨placed shown, none⟩ ∧
      ((placed shown).filterMap Item.command?).map (·.span.text) =
        ["1:1-2:3", "4:1-4:8", "5:1-5:2"] := by
  have h := buffer_of_lines 30 .unset (some .single) ["f(", ");", "", "[] = x;", "y"] rfl
    (by decide) (by decide) (by decide)
  exact ⟨h.2.2, by decide⟩

end Session

end CommandShell
