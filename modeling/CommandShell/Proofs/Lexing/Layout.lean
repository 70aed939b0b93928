import CommandShell.Proofs.Lexing.Join
import Mathlib.Data.List.DropRight

/-! # Layout: a text is its lexemes and the gaps between them

A text that can be read is a row of lexemes with a gap before each and one at the end
(`layout_of_tokenize`): nothing else stands in it, and each token has the line and the column of the
first character of its lexeme, counted from the text before it.

* `Gap` says what separates tokens, and `gap_or_nul` that this is what the lexer passes over, up to
  a NUL, at which no lexeme begins.
* `Place.after_start` says that the place that the lexer keeps step by step is the place that is
  counted from the text before it.
* `Layout.ordered` and `Layout.between` draw the consequences: tokens stand one behind the other,
  and a lexeme is found in its line between the columns of its token. -/

namespace CommandShell

/-! ### Gaps -/

/-- What separates tokens: spaces, tabs, carriage returns, line ends, and comments, each of which
runs to a line end; at the end of the text the last may run to that end. -/
inductive Gap : (atEnd : Bool) → List Char → Prop
  | nil {atEnd} : Gap atEnd []
  | space {atEnd c cs} : c ∈ [' ', '\t', '\r', '\n'] → Gap atEnd cs → Gap atEnd (c :: cs)
  | comment {atEnd note cs} : '\n' ∉ note → Gap atEnd cs →
      Gap atEnd ('/' :: '/' :: (note ++ '\n' :: cs))
  | lastComment {note} : '\n' ∉ note → Gap true ('/' :: '/' :: note)

/-- A gap within a text can stand at its end. -/
theorem Gap.atEnd {cs : List Char} (h : Gap false cs) : Gap true cs := by
  generalize hb : false = b at h
  induction h with
  | nil => exact .nil
  | space hc _ ih => exact .space hc (ih hb)
  | comment hnote _ ih => exact .comment hnote (ih hb)
  | lastComment => cases hb

namespace Lexer

theorem mem_spaces {c : Char} : isSpace c = true ↔ c ∈ [' ', '\t', '\r', '\n'] := by
  simp [isSpace, or_assoc]

/-- What the lexer passes over from inside a comment: the rest of the comment, and a gap if a line
end was met. -/
theorem gap_of_comment : ∀ cs : List Char, ∃ note, '\n' ∉ note ∧
    ((gap true cs).1 = note ∧ ((gap true cs).2 = [] ∨ (gap true cs).2.head? = some '\x00') ∨
      ∃ more, cs = note ++ '\n' :: more ∧ (gap true cs).1 = note ++ '\n' :: (gap false more).1 ∧
        (gap true cs).2 = (gap false more).2)
  | [] => ⟨[], by simp, Or.inl ⟨rfl, Or.inl rfl⟩⟩
  | c :: cs => by
    by_cases hnul : c = '\x00'
    · subst hnul
      exact ⟨[], by simp, Or.inl ⟨rfl, Or.inr rfl⟩⟩
    by_cases hline : c = '\n'
    · subst hline
      exact ⟨[], by simp, Or.inr ⟨cs, rfl, rfl, rfl⟩⟩
    obtain ⟨note, hnote, hrest⟩ := gap_of_comment cs
    have hgap : gap true (c :: cs) = (c :: (gap true cs).1, (gap true cs).2) := by
      simp [gap, hnul, hline]
    refine ⟨c :: note, ?_, ?_⟩
    · intro hmem
      rcases List.mem_cons.mp hmem with h | h
      · exact hline h.symm
      · exact hnote h
    · rw [hgap]
      rcases hrest with ⟨hpassed, hend⟩ | ⟨more, hcs, hpassed, hahead⟩
      · exact Or.inl ⟨by rw [hpassed], hend⟩
      · refine Or.inr ⟨more, ?_, ?_, hahead⟩
        · rw [hcs, List.cons_append]
        · rw [hpassed, List.cons_append]

/-- **What the lexer passes over is a gap**, unless a NUL stands behind it. Only a gap up to the end
of the text may end in a comment without a line end. -/
theorem gap_or_nul : ∀ cs : List Char, Gap false (gap false cs).1 ∨
    Gap true (gap false cs).1 ∧ (gap false cs).2 = [] ∨ (gap false cs).2.head? = some '\x00'
  | [] => Or.inl .nil
  | c :: cs => by
    by_cases hspace : isSpace c
    · have hgap : gap false (c :: cs) = (c :: (gap false cs).1, (gap false cs).2) := by
        simp [gap, hspace]
      have hmem := mem_spaces.mp hspace
      rw [hgap]
      rcases gap_or_nul cs with h | ⟨h, hend⟩ | h
      · exact Or.inl (.space hmem h)
      · exact Or.inr (Or.inl ⟨.space hmem h, hend⟩)
      · exact Or.inr (Or.inr h)
    by_cases hnote : c = '/' ∧ cs.head? = some '/'
    · obtain ⟨rfl, hhead⟩ := hnote
      obtain ⟨ds, rfl⟩ : ∃ ds, cs = '/' :: ds := by
        cases cs with
        | nil => cases hhead
        | cons d ds => exact ⟨ds, by rw [Option.some.inj hhead]⟩
      have hgap : gap false ('/' :: '/' :: ds) =
          ('/' :: '/' :: (gap true ds).1, (gap true ds).2) := by
        simp [gap, isSpace]
      obtain ⟨note, hline, hrest⟩ := gap_of_comment ds
      rw [hgap]
      rcases hrest with ⟨hpassed, hend | hnul⟩ | ⟨more, hds, hpassed, hahead⟩
      · exact Or.inr (Or.inl ⟨by rw [hpassed]; exact .lastComment hline, hend⟩)
      · exact Or.inr (Or.inr hnul)
      · have hshorter : more.length < ds.length := by
          rw [hds, List.length_append, List.length_cons]
          omega
        rw [hpassed, hahead]
        rcases gap_or_nul more with h | ⟨h, hend⟩ | h
        · exact Or.inl (.comment hline h)
        · exact Or.inr (Or.inl ⟨.comment hline h, hend⟩)
        · exact Or.inr (Or.inr h)
    · have hgap : gap false (c :: cs) = ([], c :: cs) := by
        simp [gap, hspace, hnote]
      rw [hgap]
      exact Or.inl .nil
termination_by cs => cs.length
decreasing_by
  · simp
  · simp_all; omega

/-- What the lexer passes over can stand at the end of a text. -/
theorem gap_atEnd (cs : List Char) : Gap true (gap false cs).1 := by
  rcases gap_or_nul (gap false cs).1 with hclosed | ⟨hopen, -⟩ | hnul
  · rw [gap_gap] at hclosed
    exact hclosed.atEnd
  · rwa [gap_gap] at hopen
  · rw [gap_gap] at hnul
    cases hnul

/-- No lexeme begins with a NUL. -/
theorem scan_nul (glued : Bool) (cs : List Char) : scan glued '\x00' cs =
    ⟨.error (.unexpectedCharacter '\x00'), [], '\x00' :: cs⟩ :=
  scan_separator ⟨by decide, by decide, by decide⟩ (by decide) glued cs

/-! ### Lexemes lie on one line -/

theorem newline_not_mem_takeWhile {p : Char → Bool} (hp : p '\n' = false) (cs : List Char) :
    '\n' ∉ cs.takeWhile p := by
  intro h
  have hline : p '\n' = true := List.mem_takeWhile_imp h
  rw [hp] at hline
  cases hline

theorem newline_not_mem_stringBody (quote : Char) (cs : List Char) :
    '\n' ∉ (stringBody quote cs).1 := by
  fun_induction stringBody quote cs with
  | case1 | case2 | case4 => simp
  | case3 c cs hc r ih => simp [Ne.symm hc, r, ih]
  | case5 c cs hesc hc r ih =>
    rw [not_or] at hc
    simp [Ne.symm hc.2, r, ih]

theorem newline_not_mem_fraction (cs : List Char) : '\n' ∉ (fraction cs).1 := by
  fun_cases fraction cs with
  | case1 d cs hd =>
    have hd' : '\n' ≠ d := fun h => by rw [← h, isDigit_newline] at hd; cases hd
    have hcs := newline_not_mem_takeWhile isDigit_newline cs
    simp [hd', hcs]
  | case2 | case3 => simp

theorem newline_not_mem_exponent (cs : List Char) : '\n' ∉ (exponent cs).1 := by
  fun_cases exponent cs with
  | case1 e s cs he hs =>
    have hs' : '\n' ≠ s := fun h => by rw [← h, isDigit_newline] at hs; cases hs
    have he' : '\n' ≠ e := by rcases he with rfl | rfl <;> decide
    have hcs := newline_not_mem_takeWhile isDigit_newline cs
    simp [hs', he', hcs]
  | case2 e s cs he _ hs =>
    have hs' : '\n' ≠ s := by rcases hs.1 with rfl | rfl <;> decide
    have he' : '\n' ≠ e := by rcases he with rfl | rfl <;> decide
    have hcs := newline_not_mem_takeWhile isDigit_newline cs
    simp [hs', he', hcs]
  | case3 | case4 | case5 => simp

/-- **A lexeme lies on one line.** -/
theorem newline_not_mem_scan {glued : Bool} {c : Char} {cs : List Char} {k : Kind}
    (h : (scan glued c cs).outcome = .ok k) : '\n' ∉ (scan glued c cs).passed := by
  unfold scan at h ⊢
  split_ifs at h ⊢ with hquote hdigit hword
  · have hc : '\n' ≠ c := by rcases hquote with rfl | rfl <;> decide
    have hbody := newline_not_mem_stringBody c cs
    unfold scanString at h ⊢
    split at h
    · next body d rest hb =>
      rw [hb] at hbody
      split_ifs at h with hd
      simp [hd, hc, hbody]
    · cases h
  · have hwhole := newline_not_mem_takeWhile isDigit_newline (c :: cs)
    have hfraction := newline_not_mem_fraction ((c :: cs).dropWhile Text.isDigit)
    have hexponent := newline_not_mem_exponent
      (fraction ((c :: cs).dropWhile Text.isDigit)).2
    simp [scanNumber, hwhole, hfraction, hexponent]
  · exact newline_not_mem_takeWhile (by decide) (c :: cs)
  · rw [scanSign_eq] at h ⊢
    split at h
    · next e he => exact (spelled_of_mem_signs (List.mem_of_find?_eq_some he)).2.2
    · cases h

end Lexer

/-! ### Places counted from the text before them -/

/-- The characters behind the last line end of a text. -/
def lastLine (cs : List Char) : List Char := cs.rtakeWhile (· ≠ '\n')

theorem lastLine_concat (cs : List Char) (c : Char) :
    lastLine (cs ++ [c]) = if c = '\n' then [] else lastLine cs ++ [c] := by
  unfold lastLine
  rw [List.rtakeWhile_concat]
  by_cases hc : c = '\n' <;> simp [hc]

namespace Place

/-- The place behind a text: how many characters it has, how many line ends, and how many characters
stand behind the last of them. -/
def behind (before : List Char) : Place :=
  ⟨before.length, 1 + before.count '\n', 1 + (lastLine before).length⟩

/-- **The place that is kept step by step is the one that is counted.** -/
theorem after_start (before : List Char) : start.after before = behind before := by
  induction before using List.reverseRecOn with
  | nil => rfl
  | append_singleton cs c ih =>
    have hstep : start.after (cs ++ [c]) = (start.after cs).step c := by
      rw [after_append]
      rfl
    rw [hstep, ih]
    unfold behind step
    rw [lastLine_concat]
    by_cases hc : c = '\n'
    · simp [hc]
      omega
    · simp [hc]
      omega

theorem after_behind (before cs : List Char) :
    (behind before).after cs = behind (before ++ cs) := by
  rw [← after_start before, ← after_append, after_start]

/-- The place does not stand behind the other. -/
def NotBehind (p q : Place) : Prop := p.line < q.line ∨ p.line = q.line ∧ p.column ≤ q.column

theorem NotBehind.trans {p q r : Place} (h : p.NotBehind q) (h' : q.NotBehind r) :
    p.NotBehind r := by
  unfold NotBehind at *
  omega

theorem notBehind_after : ∀ (cs : List Char) (p : Place), p.NotBehind (p.after cs)
  | [], p => Or.inr ⟨rfl, Int.le_refl p.column⟩
  | c :: cs, p => by
    have hstep : p.NotBehind (p.step c) := by
      unfold step
      split_ifs
      · exact Or.inl (Int.lt_succ p.line)
      · exact Or.inr ⟨rfl, Int.le_of_lt (Int.lt_succ p.column)⟩
    exact hstep.trans (notBehind_after cs (p.step c))

theorem after_of_not_mem : ∀ (cs : List Char) (p : Place), '\n' ∉ cs →
    (p.after cs).line = p.line ∧ (p.after cs).column = p.column + cs.length
  | [], p, _ => ⟨rfl, by simp [after]⟩
  | c :: cs, p, h => by
    rw [List.mem_cons, not_or] at h
    have hstep : p.step c = ⟨p.offset + 1, p.line, p.column + 1⟩ := if_neg (Ne.symm h.1)
    obtain ⟨hline, hcolumn⟩ := after_of_not_mem cs (p.step c) h.2
    have hafter : p.after (c :: cs) = (p.step c).after cs := rfl
    rw [hafter, hline, hcolumn, hstep, List.length_cons]
    refine ⟨rfl, ?_⟩
    simp only
    omega

end Place

/-! ### Layout -/

/-- The text ahead, behind the text before it, is laid out as the tokens: before each lexeme a gap,
and each token at the place of the first character of its lexeme; then a last gap, and the end token
at the end of the text. -/
inductive Layout : (before ahead : List Char) → List Token → Prop
  | last {before gap} : Gap true gap →
      Layout before gap
        [.atEnd (Place.behind (before ++ gap)).line (Place.behind (before ++ gap)).column]
  | token {before gap t rest toks} : Gap false gap → t.kind ≠ .eof → t.lexeme.toList ≠ [] →
      '\n' ∉ t.lexeme.toList → t.line = (Place.behind (before ++ gap)).line →
      t.column = (Place.behind (before ++ gap)).column →
      Layout (before ++ gap ++ t.lexeme.toList) rest toks →
      Layout before (gap ++ (t.lexeme.toList ++ rest)) (t :: toks)

namespace Lexer

theorem newline_not_mem_of_scan {glued : Bool} {c : Char} {cs passed rest : List Char}
    {kind : Kind} (h : scan glued c cs = ⟨.ok kind, passed, rest⟩) : '\n' ∉ passed := by
  have hline := newline_not_mem_scan (congrArg Scan.outcome h)
  rwa [h] at hline

/-- A lexer that gives the end token stands at the end of the text. -/
theorem next_eof {l l' : Lexer} {t : Token} (h : l.next = (.ok t, l')) (hk : t.kind = .eof) :
    l.skipGap.rest = [] ∧ t = .atEnd l.skipGap.place.line l.skipGap.place.column ∧
      l' = ⟨[], l.skipGap.place, some t⟩ := by
  cases answers_of_next h with
  | atEnd hrest ht => exact ⟨hrest, ht, rfl⟩
  | lexeme _ hscan ht =>
    subst ht
    exact absurd hk (lexeme_of_scan hscan).1.1

/-- At the end of a text there is a last gap. -/
theorem next_last {l l' : Lexer} {t : Token} (h : l.next = (.ok t, l')) (hk : t.kind = .eof) :
    Gap true l.rest ∧
      t = .atEnd (l.place.after l.rest).line (l.place.after l.rest).column := by
  obtain ⟨hrest, ht, -⟩ := next_eof h hk
  have hgap := rest_skipGap_append l
  rw [hrest, List.append_nil] at hgap
  have hplace : l.skipGap.place = l.place.after (gap false l.rest).1 := rfl
  rw [hplace, hgap] at ht
  refine ⟨?_, ht⟩
  rw [← hgap]
  exact gap_atEnd l.rest

/-- A token that is read stands behind a gap, where its lexeme begins. -/
theorem next_lexeme {l l' : Lexer} {t : Token} (h : l.next = (.ok t, l')) (hk : t.kind ≠ .eof) :
    ∃ w, Gap false w ∧ l.rest = w ++ (t.lexeme.toList ++ l'.rest) ∧ t.lexeme.toList ≠ [] ∧
      '\n' ∉ t.lexeme.toList ∧ t.line = (l.place.after w).line ∧
      t.column = (l.place.after w).column ∧
      l'.place = (l.place.after w).after t.lexeme.toList := by
  cases answers_of_next h with
  | atEnd _ ht =>
    subst ht
    exact absurd rfl hk
  | @lexeme c cs kind passed rest t hrest hscan ht =>
    subst ht
    have hnul : c ≠ '\x00' := by
      rintro rfl
      rw [scan_nul] at hscan
      cases congrArg Scan.outcome hscan
    have hgap := gap_or_nul l.rest
    rw [show (gap false l.rest).2 = c :: cs from hrest] at hgap
    have hclosed : Gap false (gap false l.rest).1 := by
      rcases hgap with hclosed | ⟨-, hend⟩ | hhead
      · exact hclosed
      · cases hend
      · exact absurd (Option.some.inj hhead) hnul
    simp only [String.toList_ofList]
    exact ⟨_, hclosed, rest_of_scan hrest hscan, (lexeme_of_scan hscan).2,
      newline_not_mem_of_scan hscan, rfl, rfl, rfl⟩

/-- **What a lexer reads up to the end is laid out ahead of it.** -/
theorem layout_of_read : ∀ (count : Nat) {before : List Char} {l : Lexer} {last : Token},
    l.place = .behind before → (read count l).ending = some (.ok last) →
      Layout before l.rest ((read count l).tokens ++ [last])
  | 0, _, _, _, _, h => by cases h
  | count + 1, before, l, last, hplace, h => by
    have hbehind : ∀ cs, l.place.after cs = .behind (before ++ cs) := fun cs => by
      rw [hplace, Place.after_behind]
    rcases hnext : l.next with ⟨_ | t, l'⟩
    · simp [read, hnext] at h
    by_cases hk : t.kind = .eof
    · have hread : read (count + 1) l = ⟨[], some (.ok t), l'⟩ := by
        rw [read, hnext]
        simp [Token.isEof, hk]
      rw [hread] at h ⊢
      cases h
      obtain ⟨hgap, ht⟩ := next_last hnext hk
      rw [ht, hbehind]
      exact .last hgap
    · rw [read_step hnext hk] at h ⊢
      obtain ⟨w, hgap, hrest, hne, hline, htline, htcolumn, hplace'⟩ := next_lexeme hnext hk
      rw [hbehind] at htline htcolumn hplace'
      rw [Place.after_behind] at hplace'
      rw [hrest]
      exact .token hgap hk hne hline htline htcolumn (layout_of_read count hplace' h)

end Lexer

/-- The tokens of a text that is read are laid out in it. -/
theorem Tokens.layout_ofChars {cs : List Char} {t : Token} (h : (ofChars cs).ending = .ok t) :
    Layout [] cs ((ofChars cs).items.toList ++ [t]) := by
  obtain ⟨hitems, hending⟩ := readAll_eq cs
  rw [← hitems]
  exact Lexer.layout_of_read _ rfl (hending.trans (congrArg some h))

/-- Lexemes have no characters that the text does not have. -/
theorem Layout.mem_of_mem {before ahead : List Char} {toks : List Token}
    (h : Layout before ahead toks) : ∀ t ∈ toks, ∀ c ∈ t.lexeme.toList, c ∈ ahead := by
  induction h with
  | last =>
    intro t ht c hc
    rw [List.mem_singleton] at ht
    subst ht
    simp [Token.atEnd] at hc
  | token _ _ _ _ _ _ _ ih =>
    intro u hu c hc
    rcases List.mem_cons.mp hu with rfl | hu
    · simp [hc]
    · simp [ih u hu c hc]

/-- The end token has no lexeme. -/
theorem Layout.lexeme_of_eof {before ahead : List Char} {toks : List Token}
    (h : Layout before ahead toks) : ∀ t ∈ toks, t.kind = .eof → t.lexeme = "" := by
  induction h with
  | last =>
    intro t ht _
    rw [List.mem_singleton] at ht
    rw [ht]
    rfl
  | token _ hk _ _ _ _ _ ih =>
    intro u hu hu'
    rcases List.mem_cons.mp hu with rfl | hu
    · exact absurd hu' hk
    · exact ih u hu hu'

/-! ### Order -/

/-- The token stands before the other: on a line above, or on the same line and ending where the
other begins or before. -/
def Token.Before (t u : Token) : Prop :=
  t.line < u.line ∨ t.line = u.line ∧ t.column < t.endColumn ∧ t.endColumn ≤ u.column

/-- The tokens laid out ahead stand no earlier than where the text ahead begins. -/
theorem Layout.place_of_mem {before ahead : List Char} {toks : List Token}
    (h : Layout before ahead toks) : ∀ u ∈ toks, ∃ cs,
      u.line = (Place.behind (before ++ cs)).line ∧
        u.column = (Place.behind (before ++ cs)).column := by
  induction h with
  | @last before gap hgap =>
    intro u hu
    rw [List.mem_singleton] at hu
    subst hu
    exact ⟨gap, rfl, rfl⟩
  | @token before gap t rest toks hgap hk hne hnl hline hcolumn _ ih =>
    intro u hu
    rcases List.mem_cons.mp hu with rfl | hu
    · exact ⟨gap, hline, hcolumn⟩
    · obtain ⟨cs, hline', hcolumn'⟩ := ih u hu
      refine ⟨gap ++ (t.lexeme.toList ++ cs), ?_, ?_⟩
      · rw [hline', List.append_assoc, List.append_assoc]
      · rw [hcolumn', List.append_assoc, List.append_assoc]

/-- **Tokens stand one behind the other.** -/
theorem Layout.ordered {before ahead : List Char} {toks : List Token}
    (h : Layout before ahead toks) : toks.Pairwise Token.Before := by
  induction h with
  | last => exact List.pairwise_singleton _ _
  | @token before gap t rest toks hgap hk hne hnl hline hcolumn hrest ih =>
    refine List.Pairwise.cons (fun u hu => ?_) ih
    obtain ⟨cs, hline', hcolumn'⟩ := hrest.place_of_mem u hu
    -- The lexeme ends on its own line, and the other token stands at that end or behind it.
    obtain ⟨hsame, hend⟩ := Place.after_of_not_mem t.lexeme.toList (.behind (before ++ gap)) hnl
    have hlater := Place.notBehind_after cs (.behind (before ++ gap ++ t.lexeme.toList))
    rw [Place.after_behind] at hsame hend hlater
    unfold Place.NotBehind at hlater
    have hlength : t.endColumn = t.column + t.lexeme.toList.length := by
      rw [Token.endColumn, String.length_toList]
    have hpos : 0 < t.lexeme.toList.length := List.length_pos_iff.mpr hne
    unfold Token.Before
    omega

/-! ### Order before a fault -/

/-- The tokens stand one behind the other, and each of them has a width. -/
structure Tokens.Ordered (ts : Tokens) : Prop where
  before : ts.items.toList.Pairwise Token.Before
  wide : ∀ t ∈ ts.items.toList, t.column < t.endColumn

/-- The tokens that are read stand one behind the other, and none before the place of the lexer,
also where a fault ends them. -/
theorem Lexer.ordered_read : ∀ (count : Nat) (l : Lexer),
    (read count l).tokens.Pairwise Token.Before ∧ ∀ t ∈ (read count l).tokens,
      l.place.NotBehind ⟨0, t.line, t.column⟩ ∧ t.column < t.endColumn
  | 0, _ => ⟨.nil, fun _ ht => nomatch ht⟩
  | count + 1, l => by
    rcases hnext : l.next with ⟨_ | t, l'⟩
    · simp [read, hnext]
    by_cases hk : t.kind = .eof
    · simp [read, hnext, Token.isEof, hk]
    rw [read_step hnext hk]
    obtain ⟨w, -, -, hne, hnl, hline, hcolumn, hplace⟩ := next_lexeme hnext hk
    obtain ⟨hordered, hahead⟩ := ordered_read count l'
    obtain ⟨hsame, hend⟩ := Place.after_of_not_mem t.lexeme.toList (l.place.after w) hnl
    have hgap := Place.notBehind_after w l.place
    have hpos : 0 < t.lexeme.toList.length := List.length_pos_iff.mpr hne
    have hlength : t.endColumn = t.column + t.lexeme.toList.length := by
      rw [Token.endColumn, String.length_toList]
    have hfirst : l.place.NotBehind ⟨0, t.line, t.column⟩ ∧ t.column < t.endColumn := by
      unfold Place.NotBehind at *
      simp only
      omega
    -- The lexer stands behind the token when it reads on, and the place never moves back.
    have hbehind : ∀ u ∈ (read count l').tokens,
        t.Before u ∧ l.place.NotBehind ⟨0, u.line, u.column⟩ := by
      intro u hu
      have hu := (hahead u hu).1
      rw [hplace] at hu
      unfold Token.Before Place.NotBehind at *
      simp only at *
      omega
    refine ⟨List.pairwise_cons.mpr ⟨fun u hu => (hbehind u hu).1, hordered⟩, ?_⟩
    exact List.forall_mem_cons.mpr ⟨hfirst, fun u hu => ⟨(hbehind u hu).2, (hahead u hu).2⟩⟩

theorem Tokens.ordered_ofChars (cs : List Char) : (ofChars cs).Ordered := by
  obtain ⟨hordered, hahead⟩ := Lexer.ordered_read _ (Lexer.ofChars cs)
  rw [← Lexer.readAll, (readAll_eq cs).1] at hordered hahead
  exact ⟨hordered, fun t ht => (hahead t ht).2⟩

/-! ### Lexemes in their lines -/

/-- The characters of a line between two columns. Lines and columns are counted from one. -/
def textBetween (cs : List Char) (line column endColumn : Int) : List Char :=
  (((cs.splitOn '\n').getD (line - 1).toNat []).drop (column - 1).toNat).take
    (endColumn - column).toNat

theorem lastLine_of_not_mem {cs : List Char} (h : '\n' ∉ cs) : lastLine cs = cs := by
  refine List.rtakeWhile_eq_self_iff.mpr fun c hc => ?_
  have hne : c ≠ '\n' := fun heq => h (heq ▸ hc)
  simpa using hne

/-- Characters before a line end are not on the last line. -/
theorem lastLine_append_newline (upper cs : List Char) :
    lastLine (upper ++ '\n' :: cs) = lastLine cs := by
  induction cs using List.reverseRecOn with
  | nil =>
    rw [lastLine_concat, if_pos rfl]
    rfl
  | append_singleton cs c ih =>
    rw [← List.cons_append, ← List.append_assoc, lastLine_concat, lastLine_concat, ih]

/-- A text without a line end begins the first line of the texts that it begins. -/
theorem splitOn_append_of_not_mem {v : List Char} (hv : '\n' ∉ v) (rest : List Char) :
    ∃ tail lower, (v ++ rest).splitOn '\n' = (v ++ tail) :: lower := by
  by_cases hrest : '\n' ∈ rest
  · obtain ⟨tail, below, rfl, htail⟩ := List.eq_append_cons_of_mem hrest
    have hmem : '\n' ∉ v ++ tail := List.not_mem_append hv htail
    refine ⟨tail, below.splitOn '\n', ?_⟩
    rw [← List.append_assoc]
    exact List.splitOn_append_cons_self_of_not_mem hmem below
  · have hmem : '\n' ∉ v ++ rest := List.not_mem_append hv hrest
    exact ⟨rest, [], List.splitOn_eq_singleton hmem⟩

theorem length_splitOn (cs : List Char) : (cs.splitOn '\n').length = cs.count '\n' + 1 := by
  induction cs with
  | nil => rfl
  | cons c cs ih =>
    rw [List.splitOn_cons_eq_if_modifyHead]
    by_cases hc : c = '\n'
    · simp [hc, ih]
    · simp [hc, ih]

/-- The line on which a text without a line end stands, behind another text: what that text has on
its last line, the text itself, and more. -/
theorem getD_splitOn_append (before : List Char) {v : List Char} (hv : '\n' ∉ v)
    (rest : List Char) :
    ∃ tail, ((before ++ (v ++ rest)).splitOn '\n').getD (before.count '\n') [] =
      lastLine before ++ (v ++ tail) := by
  by_cases hbefore : '\n' ∈ before
  · obtain ⟨last, upper, hsplit, hlast⟩ :
        ∃ last upper, before = upper ++ '\n' :: last ∧ '\n' ∉ last := by
      obtain ⟨last, upper, hrev, hlast⟩ := List.eq_append_cons_of_mem (List.mem_reverse.mpr hbefore)
      refine ⟨last.reverse, upper.reverse, ?_, by simpa using hlast⟩
      rw [← List.reverse_reverse before, hrev]
      simp
    have hv' : '\n' ∉ last ++ v := List.not_mem_append hlast hv
    obtain ⟨tail, lower, hlines⟩ := splitOn_append_of_not_mem hv' rest
    have hcount : before.count '\n' = (upper.splitOn '\n').length := by
      rw [length_splitOn, hsplit, List.count_append, List.count_cons_self,
        List.count_eq_zero_of_not_mem hlast]
    refine ⟨tail, ?_⟩
    rw [hcount, hsplit, lastLine_append_newline, lastLine_of_not_mem hlast, List.append_assoc,
      List.cons_append, List.splitOn_append_cons_self, ← List.append_assoc last, hlines,
      List.append_assoc]
    simp
  · have hv' : '\n' ∉ before ++ v := List.not_mem_append hbefore hv
    obtain ⟨tail, lower, hlines⟩ := splitOn_append_of_not_mem hv' rest
    refine ⟨tail, ?_⟩
    rw [List.count_eq_zero_of_not_mem hbefore, lastLine_of_not_mem hbefore, ← List.append_assoc,
      hlines, List.append_assoc]
    rfl

/-- **A lexeme stands in its line between the columns of its token.** -/
theorem Layout.between {before ahead : List Char} {toks : List Token}
    (h : Layout before ahead toks) : ∀ t ∈ toks,
      textBetween (before ++ ahead) t.line t.column t.endColumn = t.lexeme.toList := by
  induction h with
  | @last before gap hgap =>
    intro t ht
    rw [List.mem_singleton] at ht
    subst ht
    simp [textBetween, Token.atEnd, Token.endColumn]
  | @token before gap t rest toks hgap hk hne hnl hline hcolumn hrest ih =>
    intro u hu
    rcases List.mem_cons.mp hu with rfl | hu
    · obtain ⟨tail, hlines⟩ := getD_splitOn_append (before ++ gap) hnl rest
      have hline' : (u.line - 1).toNat = (before ++ gap).count '\n' := by
        rw [hline]
        simp only [Place.behind]
        omega
      have hcolumn' : (u.column - 1).toNat = (lastLine (before ++ gap)).length := by
        rw [hcolumn]
        simp only [Place.behind]
        omega
      have hwidth : (u.endColumn - u.column).toNat = u.lexeme.toList.length := by
        rw [Token.endColumn, String.length_toList]
        omega
      rw [textBetween, hline', hcolumn', hwidth, ← List.append_assoc, hlines, List.drop_left,
        List.take_left]
    · have h := ih u hu
      rw [List.append_assoc, List.append_assoc] at h
      exact h

/-! ### Texts -/

/-- **A text is its lexemes and the gaps between them, and places are exact.** The text is laid out
as its tokens; these stand one behind the other, and each is found in the text at its place. -/
theorem layout_of_tokenize {s : String} {toks : List Token} (h : tokenize s = .ok toks) :
    Layout [] s.toList toks ∧ toks.Pairwise Token.Before ∧
      ∀ t ∈ toks, textBetween s.toList t.line t.column t.endColumn = t.lexeme.toList := by
  have hlayout : Layout [] s.toList toks := by
    obtain ⟨-, hending⟩ := Tokens.readAll_eq s.toList
    unfold tokenize Lexer.tokenize Lexer.ofText at h
    simp only [hending] at h
    cases hend : (Tokens.ofChars s.toList).ending with
    | error e =>
      rw [hend] at h
      cases h
    | ok last =>
      rw [hend] at h hending
      cases h
      exact Lexer.layout_of_read _ rfl hending
  exact ⟨hlayout, hlayout.ordered, hlayout.between⟩

/-- A safe access, a comment and a number with an exponent on the next line. -/
theorem layout_of_two_lines :
    let toks : List Token := [⟨.ident, "a", 1, 1⟩, ⟨.safeDot, "?.", 1, 2⟩, ⟨.ident, "b", 1, 4⟩,
      ⟨.number, "1e+2", 2, 2⟩, .atEnd 2 6]
    tokenize "a?.b//c\n 1e+2" = .ok toks ∧ Layout [] "a?.b//c\n 1e+2".toList toks ∧
      textBetween "a?.b//c\n 1e+2".toList 2 2 6 = "1e+2".toList := by
  have hlex : tokenize "a?.b//c\n 1e+2" = .ok [⟨.ident, "a", 1, 1⟩, ⟨.safeDot, "?.", 1, 2⟩,
    ⟨.ident, "b", 1, 4⟩, ⟨.number, "1e+2", 2, 2⟩, .atEnd 2 6] := by decide +kernel
  obtain ⟨hlayout, -, hbetween⟩ := layout_of_tokenize hlex
  exact ⟨hlex, hlayout, hbetween ⟨.number, "1e+2", 2, 2⟩ (by simp)⟩

end CommandShell
