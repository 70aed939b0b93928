import CommandShell.Proofs.Lexing.Layout

/-! # Comments: what a comment adds to a text

A comment at the end of a line adds no token to the line, whatever it says, and leaves the lines
below it where they are (`tokenize_comment`). There is one exception: inside a comment the lexer
takes a NUL for the end of the text and stops, and a NUL begins no token. So a comment with a NUL in
it is a fault of the text.

A blank stands before the comment, so that no lexeme goes on into it (`next_before_space`); where
only a gap is left, the comment belongs to the gap up to its first NUL (`gap_comment`). -/

namespace CommandShell

/-- A blank and a comment with some text, up to the end of its line. -/
def commented (note : List Char) : List Char := ' ' :: '/' :: '/' :: note

/-- The text of a comment that the lexer passes over. -/
def passedNote (note : List Char) : List Char := note.takeWhile (· ≠ '\x00')

/-- What the lexer gives behind a comment at the end of a text: the end token, or a fault at the NUL
where it stopped. -/
def behindNote (p : Place) (note : List Char) : Except LexError Token :=
  if '\x00' ∈ note then .error ⟨.unexpectedCharacter '\x00', p.line, p.column⟩
  else .ok (.atEnd p.line p.column)

theorem isEof_of_behindNote {p : Place} {note : List Char} {t : Token}
    (h : behindNote p note = .ok t) : t.isEof = true := by
  unfold behindNote at h
  split_ifs at h
  cases h
  rfl

namespace Lexer

theorem gap_note : ∀ {note : List Char}, '\n' ∉ note →
    gap true note = (passedNote note, note.dropWhile (· ≠ '\x00'))
  | [], _ => rfl
  | c :: note, h => by
    rw [List.mem_cons, not_or] at h
    have ih := gap_note h.2
    by_cases hc : c = '\x00'
    · simp [gap, passedNote, hc]
    · simp [gap, passedNote, hc, Ne.symm h.1, ih]

/-- A blank and a comment belong to a gap, also where the gap ends in a comment already. -/
theorem gap_comment {note : List Char} (h : '\n' ∉ note) (inComment : Bool) :
    gap inComment (commented note) =
      (commented (passedNote note), note.dropWhile (· ≠ '\x00')) := by
  cases inComment <;> simp [commented, gap, isSpace, gap_note h]

/-- A token that is found is found there with a blank and anything behind it. -/
theorem next_before_space (tail : List Char) {l : Lexer} (h : l.skipGap.rest ≠ []) {t : Token}
    (ht : l.next.1 = .ok t) :
    (l.before (' ' :: tail)).next = (l.next.1, l.next.2.before (' ' :: tail)) := by
  refine next_before_of h (gap_stop tail (by decide) h) fun c cs hcs => ?_
  rcases hscan : scan l.skipGap.touchesOperand c cs with ⟨fault | kind, passed, rest⟩
  · rw [next_of_scan_error hcs hscan] at ht
    cases ht
  · rw [← hscan]
    exact scan_space tail (congrArg Scan.outcome hscan)

/-- What is left of a comment is its end, or a NUL at which no token begins. -/
theorem readToken_note {l : Lexer} {note : List Char} (h : l.rest = note.dropWhile (· ≠ '\x00')) :
    l.readToken.1 = behindNote l.place note := by
  unfold readToken behindNote
  split_ifs with hnul
  · obtain ⟨before, behind, rfl, hbefore⟩ := List.eq_append_cons_of_mem hnul
    have hstop : (before ++ '\x00' :: behind).dropWhile (· ≠ '\x00') = '\x00' :: behind := by
      rw [List.dropWhile_append_of_pos fun c hc => ?_]
      · rfl
      · have hne : c ≠ '\x00' := fun heq => hbefore (heq ▸ hc)
        simpa using hne
    rw [h, hstop]
    simp only [scan_nul]
  · have hend : note.dropWhile (· ≠ '\x00') = [] := by
      refine List.dropWhile_eq_nil_iff.mpr fun c hc => ?_
      have hne : c ≠ '\x00' := fun heq => hnul (heq ▸ hc)
      simpa using hne
    rw [h, hend]

/-- Where only a gap is left, the comment belongs to it. -/
theorem next_comment {l : Lexer} (h : l.skipGap.rest = []) {note : List Char}
    (hnote : '\n' ∉ note) :
    (l.before (commented note)).next.1 =
      behindNote (l.place.after (l.rest ++ commented (passedNote note))) note := by
  obtain ⟨b, hgap⟩ := gap_through (show (gap false l.rest).2 = [] from h)
  have hskip : (l.before (commented note)).skipGap =
      ⟨note.dropWhile (· ≠ '\x00'), l.place.after (l.rest ++ commented (passedNote note)),
        l.last⟩ := by
    simp only [skipGap, before, hgap, gap_comment hnote]
  unfold next
  rw [hskip]
  exact readToken_note rfl

/-- **A comment behind a text that is read to its end adds no token.** -/
theorem read_comment {note : List Char} (hnote : '\n' ∉ note) : ∀ (count : Nat) (l : Lexer)
    {t : Token}, 1 ≤ l.place.line → (read count l).ending = some (.ok t) →
    (read count (l.before (commented note))).tokens = (read count l).tokens ∧
      (read count (l.before (commented note))).ending =
        some (behindNote (l.place.after (l.rest ++ commented (passedNote note))) note)
  | 0, _, _, _, h => nomatch h
  | count + 1, l, t, hl, h => by
    rcases hnext : l.next with ⟨_ | u, l'⟩
    · simp [read, hnext] at h
    rcases next_ok hl hnext with ⟨hu, hr⟩ | ⟨hu, -, hl'⟩
    · have hread : (read (count + 1) l).tokens = [] := by simp [read, hnext, Token.isEof, hu]
      have hend := next_comment hr hnote
      rw [hread, read]
      -- What comes behind the comment ends the reading, whether it is the end token or a fault.
      rcases hcomment : (l.before (commented note)).next with ⟨given, m⟩
      rw [hcomment] at hend
      rw [← hend]
      cases given with
      | error e => exact ⟨rfl, rfl⟩
      | ok v =>
        simp only [isEof_of_behindNote hend.symm, if_true, and_self]
    · have hne : l.skipGap.rest ≠ [] := fun hr => by
        obtain ⟨v, hv, hk⟩ := next_end hr hnext
        cases hv
        exact hu.kind_ne_eof hk
      have hbefore : (l.before (commented note)).next = (.ok u, l'.before (commented note)) := by
        have h := next_before_space ('/' :: '/' :: note) hne (congrArg Prod.fst hnext)
        rwa [hnext] at h
      have hend : l'.place.after l'.rest = l.place.after l.rest := by
        simpa [hnext] using end_next l
      rw [read_step hnext hu.kind_ne_eof] at h ⊢
      rw [read_step hbefore hu.kind_ne_eof]
      obtain ⟨htokens, hending⟩ := read_comment hnote count l' hl' h
      rw [Place.after_append, hend, ← Place.after_append] at hending
      exact ⟨congrArg (u :: ·) htokens, hending⟩

end Lexer

/-- The tokens of a text with a comment behind it are those of the text. -/
theorem Tokens.ofChars_comment {cs note : List Char} {t : Token} (h : (ofChars cs).ending = .ok t)
    (hnote : '\n' ∉ note) : ofChars (cs ++ commented note) =
      ⟨(ofChars cs).items, behindNote (.behind (cs ++ commented (passedNote note))) note⟩ := by
  have hlt : cs.length < (cs ++ commented note).length + 1 := by
    rw [List.length_append]
    omega
  obtain ⟨hitems, hending⟩ := read_eq cs hlt
  obtain ⟨hitems', hending'⟩ := readAll_eq (cs ++ commented note)
  rw [h] at hending
  obtain ⟨htokens, hstop⟩ := Lexer.read_comment hnote _ _ (Int.le_refl 1) hending
  rw [hitems] at htokens
  refine eq_of_toList (hitems'.symm.trans htokens) ?_
  rw [← Place.after_start]
  exact Option.some.inj (hending'.symm.trans hstop)

/-- **The text of a comment does not matter**, unless a NUL is in it. Let `a` be read without a
fault. With a comment behind it on its last line, and more text below, the text is read just as
without the comment; but if a NUL is in the comment, that is where no token begins. -/
theorem tokenize_comment {a note : String} {toks : List Token} (ha : tokenize a = .ok toks)
    (hnote : '\n' ∉ note.toList) (b : String) :
    tokenize (a ++ " //" ++ note ++ "\n" ++ b) =
      if '\x00' ∈ note.toList then
        let stop := Place.behind ((a ++ " //").toList ++ note.toList.takeWhile (· ≠ '\x00'))
        .error ⟨.unexpectedCharacter '\x00', stop.line, stop.column⟩
      else tokenize (a ++ "\n" ++ b) := by
  have htext : (a ++ " //" ++ note ++ "\n" ++ b).toList =
      (a.toList ++ commented note.toList) ++ '\n' :: b.toList := by
    simp [commented]
  have htext' : (a ++ "\n" ++ b).toList = a.toList ++ '\n' :: b.toList := by simp
  have hstop : (a ++ " //").toList ++ note.toList.takeWhile (· ≠ '\x00') =
      a.toList ++ commented (passedNote note.toList) := by
    simp [commented, passedNote]
  have hlines : (a.toList ++ commented note.toList).count '\n' = a.toList.count '\n' := by
    simp [commented, List.count_eq_zero_of_not_mem hnote]
  rw [tokenize_eq] at ha
  cases hend : (Tokens.ofChars a.toList).ending with
  | error e =>
    rw [hend] at ha
    cases ha
  | ok t =>
    rw [tokenize_eq, tokenize_eq (a ++ "\n" ++ b), htext, htext', hstop, Tokens.ofChars_join,
      Tokens.ofChars_join, Tokens.ofChars_comment hend hnote, hlines]
    unfold Tokens.join behindNote
    rw [hend]
    split_ifs <;> rfl

/-- A comment with quotes and brackets in it changes nothing below it. -/
theorem tokenize_comment_quotes :
    tokenize ("x" ++ " //" ++ "'([\"" ++ "\n" ++ "y") = tokenize ("x" ++ "\n" ++ "y") := by
  have hx : tokenize "x" = .ok [⟨.ident, "x", 1, 1⟩, .atEnd 1 2] := by decide +kernel
  rw [tokenize_comment hx (by decide) "y", if_neg (by decide)]

/-- A NUL in a comment is read as the end of the comment, and as a character of no token. -/
theorem tokenize_comment_nul : tokenize "x" = .ok [⟨.ident, "x", 1, 1⟩, .atEnd 1 2] ∧
    '\n' ∉ "\x00".toList ∧
    tokenize ("x" ++ " //" ++ "\x00" ++ "\n" ++ "y") =
      .error ⟨.unexpectedCharacter '\x00', 1, 5⟩ ∧
    tokenize ("x" ++ "\n" ++ "y") =
      .ok [⟨.ident, "x", 1, 1⟩, ⟨.ident, "y", 2, 1⟩, .atEnd 2 2] := by
  decide +kernel

end CommandShell
