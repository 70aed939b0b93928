import CommandShell.Proofs.Sessions.Lines

/-! # Deeds: what is to be done with lines, told without a bracket count

What a session has to do with its lines is told here from the lines alone. A line counts as a
control or as blank only where nothing is kept. Elsewhere in multi-line mode all lines up to the
next blank one make a buffer; in single-line mode every further line is judged by the tokens of all
the lines that are kept, from the first on.

No line is lost, doubled or moved (`lines_deeds`), and a line that is never read is a control,
blank, refused for its tokens, or dropped for a closer that fits no bracket (`due_of_mem`). -/

namespace CommandShell

/-- What is done with some lines. -/
inductive Deed where
  /-- A control is obeyed. -/
  | control (line : String) (c : Control)
  /-- A blank line is skipped. -/
  | blank (line : String)
  /-- Lines are read as one buffer. -/
  | read (lines : List String)
  /-- Lines are dropped, and the line below them is read alone. -/
  | readLast (dropped : List String) (line : String)
  /-- Lines are dropped, since the last of them cannot be split into tokens. -/
  | refuse (lines : List String) (e : LexError)

namespace Deed

/-- The lines that something is done with. -/
def lines : Deed → List String
  | control line _ | blank line => [line]
  | read lines | refuse lines _ => lines
  | readLast dropped line => dropped ++ [line]

/-- The buffer that is read. -/
def source? : Deed → Option String
  | read lines => some (Text.unlines lines)
  | readLast _ line => some line
  | control _ _ | blank _ | refuse _ _ => none

/-- The mode behind the deed. -/
def nextMode (mode : Mode) : Deed → Mode
  | control _ .multiline => mode.toggled
  | _ => mode

end Deed

/-- Does the line hold more than blanks? -/
def isFilled (line : String) : Bool := !Text.isBlankLine line

/-- What the brackets of all lines say, if the last line can be split into tokens. -/
def judge (taken : List String) (line : String) : Except LexError Verdict := do
  let _ ← tokenize line
  let toks ← tokenize (Text.unlines (taken ++ [line]))
  return (Brackets.empty.scan toks).1

/-- What is done in single-line mode with the lines that are taken, the line below them and as many
more as are needed; and the lines that are left. -/
def cut (taken : List String) (line : String) (rest : List String) : Deed × List String :=
  match judge taken line with
  | .error e => (.refuse (taken ++ [line]) e, rest)
  | .ok .balanced => (.read (taken ++ [line]), rest)
  | .ok (.malformed _) => (.readLast taken line, rest)
  | .ok .needsMore =>
    match rest with
    | [] => (.read (taken ++ [line]), [])
    | next :: rest => cut (taken ++ [line]) next rest

/-- What is done first with the lines from a filled one on, and the lines that are left. -/
def gathered (mode : Mode) (line : String) (rest : List String) : Deed × List String :=
  match mode with
  | .single => cut [] line rest
  | .multi => (.read (line :: rest.takeWhile isFilled), rest.dropWhile isFilled)

/-- No line is lost, doubled or moved. -/
theorem lines_cut (taken : List String) (line : String) (rest : List String) :
    (cut taken line rest).1.lines ++ (cut taken line rest).2 = taken ++ line :: rest := by
  fun_induction cut with
  | case1 | case2 | case3 | case4 => simp [Deed.lines]
  | case5 taken line h next rest ih => rw [ih, List.append_assoc]; rfl

theorem length_cut_le (taken : List String) (line : String) (rest : List String) :
    (cut taken line rest).2.length ≤ rest.length := by
  fun_induction cut with
  | case1 | case2 | case3 | case4 => exact Nat.le_refl _
  | case5 taken line h next rest ih => exact Nat.le_succ_of_le ih

/-- Gathering lines does not change the mode. -/
theorem nextMode_cut (taken : List String) (line : String) (rest : List String) (mode : Mode) :
    (cut taken line rest).1.nextMode mode = mode := by
  fun_induction cut with
  | case1 | case2 | case3 | case4 => rfl
  | case5 taken line h next rest ih => exact ih

theorem lines_gathered (mode : Mode) (line : String) (rest : List String) :
    (gathered mode line rest).1.lines ++ (gathered mode line rest).2 = line :: rest := by
  cases mode with
  | single => exact lines_cut [] line rest
  | multi => simp [gathered, Deed.lines]

theorem length_gathered_le (mode : Mode) (line : String) (rest : List String) :
    (gathered mode line rest).2.length ≤ rest.length := by
  cases mode with
  | single => exact length_cut_le [] line rest
  | multi => exact (List.dropWhile_sublist _).length_le

theorem nextMode_gathered (mode mode' : Mode) (line : String) (rest : List String) :
    (gathered mode line rest).1.nextMode mode' = mode' := by
  cases mode with
  | single => exact nextMode_cut [] line rest mode'
  | multi => rfl

/-- What is done with lines, in order, when nothing is kept before them. -/
def deeds (mode : Mode) : List String → List Deed
  | [] => []
  | line :: rest =>
    match Control.ofLine? line with
    | some c => .control line c :: deeds ((Deed.control line c).nextMode mode) rest
    | none =>
      if Text.isBlankLine line then .blank line :: deeds mode rest
      else (gathered mode line rest).1 :: deeds mode (gathered mode line rest).2
termination_by lines => lines.length
decreasing_by
  all_goals simp only [List.length_cons]
  · exact Nat.lt_succ_self _
  · exact Nat.lt_succ_self _
  · exact Nat.lt_succ_of_le (length_gathered_le mode line rest)

/-- **Every line belongs to one deed, and the deeds keep the order of the lines.** -/
theorem lines_deeds (mode : Mode) (lines : List String) :
    (deeds mode lines).flatMap Deed.lines = lines := by
  fun_induction deeds with
  | case1 => rfl
  | case2 mode line rest c hc ih => rw [List.flatMap_cons, ih]; rfl
  | case3 mode line rest hc hblank ih => rw [List.flatMap_cons, ih]; rfl
  | case4 mode line rest hc hblank ih => rw [List.flatMap_cons, ih, lines_gathered]

/-! ### Why lines are not read -/

/-- Lines that are kept have been judged to need more. -/
def Kept (taken : List String) : Prop :=
  taken = [] ∨ ∃ above line, taken = above ++ [line] ∧ judge above line = .ok .needsMore

/-- The first of the lines is neither a control nor blank. -/
def Begun (lines : List String) : Prop :=
  ∃ line ∈ lines.head?, Control.ofLine? line = none ∧ isFilled line = true

/-- The reason for a deed. -/
def Deed.Due : Deed → Prop
  | control line c => Control.ofLine? line = some c
  | blank line => Text.isBlankLine line = true
  | read lines => Begun lines
  | readLast dropped line =>
    Begun (dropped ++ [line]) ∧ ∃ u, judge dropped line = .ok (.malformed u)
  | refuse lines e =>
    Begun lines ∧ ∃ taken line, lines = taken ++ [line] ∧ tokenize line = .error e

theorem judge_of_ok {taken : List String} {line : String} {toks ws : List Token}
    (htoks : tokenize line = .ok toks) (hws : tokenize (Text.unlines (taken ++ [line])) = .ok ws) :
    judge taken line = .ok (Brackets.empty.scan ws).1 := by
  rw [judge, htoks, hws]
  rfl

/-- What lines are judged to be is what their tokens say together. -/
theorem tokenize_of_judge {taken : List String} {line : String} {v : Verdict}
    (h : judge taken line = .ok v) :
    ∃ ws, tokenize (Text.unlines (taken ++ [line])) = .ok ws ∧ (Brackets.empty.scan ws).1 = v := by
  unfold judge at h
  cases htoks : tokenize line with
  | error e => rw [htoks] at h; cases h
  | ok toks =>
    cases hws : tokenize (Text.unlines (taken ++ [line])) with
    | error e => rw [htoks, hws] at h; cases h
    | ok ws =>
      rw [htoks, hws] at h
      cases h
      exact ⟨ws, rfl, rfl⟩

/-- Below lines that are kept, only the line itself can keep the lines from being judged. -/
theorem Kept.tokenize_of_refused {taken : List String} {line : String} {e : LexError}
    (h : Kept taken) (he : judge taken line = .error e) : tokenize line = .error e := by
  cases htoks : tokenize line with
  | error e' =>
    rw [judge, htoks] at he
    cases he
    rfl
  | ok toks =>
    obtain ⟨ws, hws⟩ : ∃ ws, tokenize (Text.unlines (taken ++ [line])) = .ok ws := by
      rcases h with rfl | ⟨above, last, rfl, hjudge⟩
      · rw [List.nil_append, Text.unlines_singleton]
        exact ⟨toks, htoks⟩
      · obtain ⟨us, hus, hverdict⟩ := tokenize_of_judge hjudge
        have htext := Text.toList_unlines_append (by simp : above ++ [last] ≠ [])
          (List.cons_ne_nil line [])
        rw [Text.unlines_singleton] at htext
        obtain ⟨ws, hws, -⟩ := scan_join htext hus htoks (Prod.ext hverdict rfl) nofun
        exact ⟨ws, hws⟩
    rw [judge_of_ok htoks hws] at he
    cases he

theorem due_cut (taken : List String) (line : String) (rest : List String) (hkept : Kept taken)
    (hbegun : Begun (taken ++ [line])) : (cut taken line rest).1.Due := by
  fun_induction cut with
  | case1 rest taken line e he => exact ⟨hbegun, taken, line, rfl, hkept.tokenize_of_refused he⟩
  | case2 | case4 => exact hbegun
  | case3 rest taken line u hu => exact ⟨hbegun, u, hu⟩
  | case5 taken line h next rest ih =>
    refine ih (Or.inr ⟨taken, line, rfl, h⟩) ?_
    obtain ⟨first, hfirst, hplain⟩ := hbegun
    exact ⟨first, by rw [List.head?_append_of_ne_nil _ (by simp)]; exact hfirst, hplain⟩

/-- **Every deed has its reason.** -/
theorem due_of_mem {mode : Mode} {lines : List String} : ∀ d ∈ deeds mode lines, d.Due := by
  fun_induction deeds with
  | case1 => exact fun _ hd => nomatch hd
  | case2 mode line rest c hc ih => exact List.forall_mem_cons.mpr ⟨hc, ih⟩
  | case3 mode line rest hc hblank ih => exact List.forall_mem_cons.mpr ⟨hblank, ih⟩
  | case4 mode line rest hc hblank ih =>
    have hplain : Control.ofLine? line = none ∧ isFilled line = true :=
      ⟨hc, by simpa [isFilled] using hblank⟩
    refine List.forall_mem_cons.mpr ⟨?_, ih⟩
    cases mode with
    | single => exact due_cut [] line rest (Or.inl rfl) ⟨line, rfl, hplain⟩
    | multi => exact ⟨line, rfl, hplain⟩

end CommandShell
