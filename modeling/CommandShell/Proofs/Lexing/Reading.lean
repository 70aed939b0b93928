import CommandShell.Lexer.Stream
import CommandShell.Proofs.Lexing.Scan

/-! # Reading: the tokens of a text

`Lexer.Answers` says once what a call of the lexer can answer: the end token, a lexeme or a fault.
Each call that gives a token other than the end takes a character, so that a reading with a count
above the number of characters ahead comes to the end or to a fault (`ending_read`), and a greater
count changes nothing (`read_of_lt`). Every token before the end is `Proper`: it is not the end, it
has the spelling of its kind, and it lies on a line from the first on. `Tokens.Lexed` collects what
a reader may rely on, and `tokenize_eq` says that the tokens of a text are those of its stream. -/

namespace CommandShell

namespace Place

theorem after_append (p : Place) (cs ds : List Char) : p.after (cs ++ ds) = (p.after cs).after ds :=
  List.foldl_append

theorem line_after : ∀ (cs : List Char) (p : Place), (p.after cs).line = p.line + cs.count '\n'
  | [], p => by simp [after]
  | c :: cs, p => by
    have ih := line_after cs (p.step c)
    simp only [after, List.foldl_cons] at ih ⊢
    rw [ih, List.count_cons]
    unfold step
    by_cases hc : c = '\n'
    · simp [hc]; omega
    · simp [hc]

theorem line_le_after (p : Place) (cs : List Char) : p.line ≤ (p.after cs).line := by
  rw [line_after]; omega

end Place

/-- A token before the end of its text: it is not the end, has the spelling of its kind if there is
only one, and lies on a line of the text. -/
structure Token.Proper (t : Token) : Prop where
  kind_ne_eof : t.kind ≠ .eof
  lexeme_eq : t.kind.spelling ≠ "" → t.lexeme = t.kind.spelling
  line_pos : 1 ≤ t.line

namespace Lexer

theorem rest_skipGap_append (l : Lexer) : (gap false l.rest).1 ++ l.skipGap.rest = l.rest :=
  gap_append false l.rest

theorem next_of_gap {l : Lexer} (h : l.skipGap.rest = []) :
    l.next = (.ok (.atEnd l.skipGap.place.line l.skipGap.place.column),
      ⟨[], l.skipGap.place, some (.atEnd l.skipGap.place.line l.skipGap.place.column)⟩) := by
  unfold next readToken
  rw [h]

section
variable {l : Lexer} {c : Char} {cs passed rest : List Char} (h : l.skipGap.rest = c :: cs)
include h

theorem next_of_scan_ok {kind : Kind}
    (hscan : scan l.skipGap.touchesOperand c cs = ⟨.ok kind, passed, rest⟩) :
    let t : Token := ⟨kind, String.ofList passed, l.skipGap.place.line, l.skipGap.place.column⟩
    l.next = (.ok t, ⟨rest, l.skipGap.place.after passed, some t⟩) := by
  unfold next readToken
  rw [h]
  simp only [hscan]

theorem next_of_scan_error {fault : LexFault}
    (hscan : scan l.skipGap.touchesOperand c cs = ⟨.error fault, passed, rest⟩) :
    l.next = (.error ⟨fault, l.skipGap.place.line, l.skipGap.place.column⟩,
      ⟨rest, l.skipGap.place.after passed, l.last⟩) := by
  unfold next readToken
  rw [h]
  simp only [hscan]
  rfl

end

/-- **What a call answers**, and the lexer behind it. Where nothing is ahead behind the gap, it is
the end token; else it is what the scan finds there, a lexeme or a fault, and the lexer stands where
the scan stops. A token is remembered, a fault is not. -/
inductive Answers (l : Lexer) : Except LexError Token × Lexer → Prop
  | atEnd {t} : l.skipGap.rest = [] →
      t = .atEnd l.skipGap.place.line l.skipGap.place.column →
      Answers l (.ok t, ⟨[], l.skipGap.place, some t⟩)
  | lexeme {c cs kind passed rest t} : l.skipGap.rest = c :: cs →
      scan l.skipGap.touchesOperand c cs = ⟨.ok kind, passed, rest⟩ →
      t = ⟨kind, String.ofList passed, l.skipGap.place.line, l.skipGap.place.column⟩ →
      Answers l (.ok t, ⟨rest, l.skipGap.place.after passed, some t⟩)
  | fault {c cs fault passed rest} : l.skipGap.rest = c :: cs →
      scan l.skipGap.touchesOperand c cs = ⟨.error fault, passed, rest⟩ →
      Answers l (.error ⟨fault, l.skipGap.place.line, l.skipGap.place.column⟩,
        ⟨rest, l.skipGap.place.after passed, l.last⟩)

theorem answers_next (l : Lexer) : l.Answers l.next := by
  cases hrest : l.skipGap.rest with
  | nil =>
    rw [next_of_gap hrest]
    exact .atEnd hrest rfl
  | cons c cs =>
    rcases hscan : scan l.skipGap.touchesOperand c cs with ⟨fault | kind, passed, rest⟩
    · rw [next_of_scan_error hrest hscan]
      exact .fault hrest hscan
    · rw [next_of_scan_ok hrest hscan]
      exact .lexeme hrest hscan rfl

theorem answers_of_next {l : Lexer} {r : Except LexError Token × Lexer} (h : l.next = r) :
    l.Answers r := h ▸ answers_next l

/-- The text ahead is the gap, what the scan passes over and the rest. -/
theorem rest_of_scan {l : Lexer} {c : Char} {cs passed rest : List Char}
    {outcome : Except LexFault Kind} (hrest : l.skipGap.rest = c :: cs)
    (hscan : scan l.skipGap.touchesOperand c cs = ⟨outcome, passed, rest⟩) :
    l.rest = (gap false l.rest).1 ++ (passed ++ rest) := by
  have hsplit := scan_append l.skipGap.touchesOperand c cs
  rw [hscan] at hsplit
  rw [hsplit, ← hrest, rest_skipGap_append]

theorem lexeme_of_scan {glued : Bool} {c : Char} {cs passed rest : List Char} {kind : Kind}
    (h : scan glued c cs = ⟨.ok kind, passed, rest⟩) : Spelled kind passed ∧ passed ≠ [] := by
  have hlexeme := scan_ok (congrArg Scan.outcome h)
  rwa [h] at hlexeme

/-- What is still ahead does not matter for where the text ends. -/
theorem end_next (l : Lexer) : l.next.2.place.after l.next.2.rest = l.place.after l.rest := by
  have hanswers := answers_next l
  have hskip : l.skipGap.place = l.place.after (gap false l.rest).1 := rfl
  generalize l.next = r at hanswers ⊢
  cases hanswers with
  | atEnd hrest =>
    have hgap := rest_skipGap_append l
    rw [hrest, List.append_nil] at hgap
    rw [hskip, hgap]
    rfl
  | lexeme hrest hscan | fault hrest hscan =>
    rw [rest_of_scan hrest hscan, Place.after_append, Place.after_append]
    rfl

theorem line_le_next (l : Lexer) : l.place.line ≤ l.next.2.place.line := by
  have hskip : l.place.line ≤ l.skipGap.place.line := Place.line_le_after _ _
  have hanswers := answers_next l
  generalize l.next = r at hanswers ⊢
  cases hanswers with
  | atEnd => exact hskip
  | lexeme | fault => exact Int.le_trans hskip (Place.line_le_after _ _)

/-- A token that is read is the end of the text, or proper and takes a character. -/
theorem next_ok {l l' : Lexer} {t : Token} (hl : 1 ≤ l.place.line) (h : l.next = (.ok t, l')) :
    (t.kind = .eof ∧ l.skipGap.rest = []) ∨
      (t.Proper ∧ l'.rest.length < l.rest.length ∧ 1 ≤ l'.place.line) := by
  have hline : l.place.line ≤ l'.place.line := by simpa [h] using line_le_next l
  have hskip : l.place.line ≤ l.skipGap.place.line := Place.line_le_after _ _
  cases answers_of_next h with
  | atEnd hrest ht => exact Or.inl ⟨congrArg Token.kind ht, hrest⟩
  | @lexeme c cs kind passed rest t hrest hscan ht =>
    obtain ⟨hspelled, hne⟩ := lexeme_of_scan hscan
    have hlength := congrArg List.length (rest_of_scan hrest hscan)
    have hpos := List.length_pos_iff.mpr hne
    rw [List.length_append, List.length_append] at hlength
    subst ht
    exact Or.inr ⟨⟨hspelled.1, hspelled.2, Int.le_trans hl hskip⟩, by simp only; omega,
      Int.le_trans hl hline⟩

/-! ### Readings -/

theorem read_proper : ∀ (count : Nat) (l : Lexer), 1 ≤ l.place.line →
    ∀ t ∈ (read count l).tokens, t.Proper
  | 0, _, _, t, ht => by cases ht
  | count + 1, l, hl, t, ht => by
    unfold read at ht
    split at ht
    · cases ht
    · next u l' h =>
      rcases next_ok hl h with ⟨hu, -⟩ | ⟨hu, -, hl'⟩
      · rw [if_pos (by simp [Token.isEof, hu])] at ht; cases ht
      · rw [if_neg (by simp [Token.isEof, hu.kind_ne_eof])] at ht
        rcases List.mem_cons.mp ht with rfl | ht
        · exact hu
        · exact read_proper count l' hl' t ht

/-- A reading stops at the end or at a fault if its count lasts. -/
theorem ending_read : ∀ (count : Nat) (l : Lexer), 1 ≤ l.place.line → l.rest.length < count →
    (∃ t, (read count l).ending = some (.ok t) ∧ t.kind = .eof) ∨
      ∃ e, (read count l).ending = some (.error e)
  | 0, _, _, h => absurd h (by omega)
  | count + 1, l, hl, hlen => by
    unfold read
    split
    · next e l' h => exact Or.inr ⟨e, rfl⟩
    · next u l' h =>
      rcases next_ok hl h with ⟨hu, -⟩ | ⟨hu, hlt, hl'⟩
      · rw [if_pos (by simp [Token.isEof, hu])]; exact Or.inl ⟨u, rfl, hu⟩
      · rw [if_neg (by simp [Token.isEof, hu.kind_ne_eof])]
        exact ending_read count l' hl' (by omega)

/-- A greater count reads no more. -/
theorem read_of_lt : ∀ (count more : Nat) (l : Lexer), 1 ≤ l.place.line → l.rest.length < count →
    l.rest.length < more → read count l = read more l
  | 0, _, _, _, h, _ => absurd h (by omega)
  | _ + 1, 0, _, _, _, h => absurd h (by omega)
  | count + 1, more + 1, l, hl, hc, hm => by
    unfold read
    split
    · rfl
    · next u l' h =>
      rcases next_ok hl h with ⟨hu, -⟩ | ⟨hu, hlt, hl'⟩
      · rw [if_pos (by simp [Token.isEof, hu]), if_pos (by simp [Token.isEof, hu])]
      · rw [read_of_lt count more l' hl' (by omega) (by omega)]

end Lexer

/-! ### The tokens of a text -/

/-- What a reader of tokens relies on: only the end of the tokens is an end token. -/
structure Tokens.Lexed (ts : Tokens) : Prop where
  proper : ∀ t ∈ ts.items.toList, t.Proper
  ending_eof : ∀ t, ts.ending = .ok t → t.kind = .eof

/-- The tokens of some characters. -/
def Tokens.ofChars (cs : List Char) : Tokens := Stream.tokens ⟨#[], none, .ofChars cs⟩

theorem tokens_ofText (s : String) : (Stream.ofText s).tokens = .ofChars s.toList := rfl

namespace Tokens

/-- The reading of a whole text gives its tokens. -/
theorem readAll_eq (cs : List Char) :
    (Lexer.ofChars cs).readAll.tokens = (ofChars cs).items.toList ∧
      (Lexer.ofChars cs).readAll.ending = some (ofChars cs).ending := by
  have hend := Lexer.ending_read (cs.length + 1) (Lexer.ofChars cs) (Int.le_refl 1)
    (Nat.lt_succ_self _)
  unfold ofChars Stream.tokens Stream.full Stream.grow
  unfold Lexer.readAll
  rcases hend with ⟨t, ht, -⟩ | ⟨e, he⟩
  · simp only [Lexer.ofChars] at ht ⊢
    rw [ht]; simp
  · simp only [Lexer.ofChars] at he ⊢
    rw [he]; simp

/-- A greater count reads the same. -/
theorem read_eq (cs : List Char) {count : Nat} (h : cs.length < count) :
    ((Lexer.ofChars cs).read count).tokens = (ofChars cs).items.toList ∧
      ((Lexer.ofChars cs).read count).ending = some (ofChars cs).ending := by
  have hread : (Lexer.ofChars cs).readAll = (Lexer.ofChars cs).read count :=
    Lexer.read_of_lt _ _ _ (Int.le_refl 1) (Nat.lt_succ_self _) h
  rw [← hread]
  exact readAll_eq cs

theorem lexed_ofChars (cs : List Char) : (ofChars cs).Lexed where
  proper t ht := by
    rw [← (readAll_eq cs).1] at ht
    exact Lexer.read_proper _ _ (Int.le_refl 1) t ht
  ending_eof t ht := by
    have h := (readAll_eq cs).2
    rcases Lexer.ending_read (cs.length + 1) (Lexer.ofChars cs) (Int.le_refl 1)
      (Nat.lt_succ_self _) with ⟨u, hu, hk⟩ | ⟨e, he⟩
    · rw [ht, show (Lexer.ofChars cs).readAll.ending = _ from hu] at h
      cases h; exact hk
    · rw [ht, show (Lexer.ofChars cs).readAll.ending = _ from he] at h
      cases h

end Tokens

/-- **The tokens of a text are those of its stream**, with the end token, unless a fault ends it. -/
theorem tokenize_eq (s : String) :
    tokenize s = (Tokens.ofChars s.toList).ending.map
      fun t => (Tokens.ofChars s.toList).items.toList ++ [t] := by
  obtain ⟨hitems, hending⟩ := Tokens.readAll_eq s.toList
  unfold tokenize Lexer.tokenize Lexer.ofText
  simp only [hending, hitems]
  cases (Tokens.ofChars s.toList).ending <;> rfl

end CommandShell
