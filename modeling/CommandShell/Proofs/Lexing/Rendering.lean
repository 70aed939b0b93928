import CommandShell.Proofs.Lexing.Join
import CommandShell.Proofs.Lexing.Layout
import CommandShell.Proofs.Lexing.Lexemes
import CommandShell.Proofs.Phrases.Pieces

/-! # Rendering: the canonical text of some words

The words of a text are written again with one blank between them, and none before a safe form
(`canonical`). The text is read as the same words (`Tokens.ofChars_canonical`): what separated them
before, blanks and comments, is gone but for the question whether a `?` touched the operand before.

A lexeme is found again because it is the longest of its form there too. What follows it now is a
blank, or a `?` behind an operand, and neither prolongs it (`IsLongest.again`, `scan_again`). It is
also found again before nothing at all; so the lexeme of a token tells its kind, and texts with the
same lexemes have the same words (`Token.Scanned.kind_eq`). -/

namespace CommandShell

/-! ### The canonical text -/

/-- The text of a word, behind a blank unless it is a safe form. -/
def Word.spaced (w : Word) : List Char :=
  if w.1 ∈ Kind.safeForms then w.2.toList else ' ' :: w.2.toList

/-- The text of some words with blanks between them, except before safe forms. -/
def canonical : List Word → List Char
  | [] => []
  | w :: ws => w.2.toList ++ ws.flatMap Word.spaced

/-- The canonical text of some tokens, of which the end token is none. -/
def canonicalText (toks : List Token) : String :=
  String.ofList (canonical ((toks.filter fun t => !t.isEof).map Token.word))

theorem Word.spaced_of_safe {w : Word} (h : w.1 ∈ Kind.safeForms) : w.spaced = w.2.toList :=
  if_pos h

theorem Word.spaced_of_plain {w : Word} (h : w.1 ∉ Kind.safeForms) :
    w.spaced = ' ' :: w.2.toList := if_neg h

namespace Lexer

/-! ### What follows a lexeme -/

/-- A text that may follow a lexeme of the kind: the end, a blank, or a `?` behind an operand. -/
def Follows (k : Kind) (tail : List Char) : Prop :=
  ∀ e ∈ tail.head?, e = ' ' ∨ e = '?' ∧ k.endsOperand = true

/-- A lexeme which what follows does not prolong is the longest of its form again. -/
theorem IsLongest.again {form : List Char → Prop} {v w tail : List Char}
    (h : IsLongest form (w ++ tail) v) (hw : form w)
    (hstop : ∀ e ∈ tail.head?, ∀ v, form v → ¬ w ++ [e] <+: v) : v = w := by
  have hwv : w <+: v :=
    List.prefix_of_prefix_length_le (List.prefix_append w tail) h.begins
      (h.longest w hw (List.prefix_append w tail))
  obtain ⟨x, rfl⟩ := hwv
  cases x with
  | nil => exact List.append_nil w
  | cons e x =>
    have hprolonged : w ++ [e] <+: w ++ e :: x := ⟨x, by simp⟩
    have he : tail.head? = some e := (begins_with_next rfl e).mp (hprolonged.trans h.begins)
    exact absurd hprolonged (hstop e he _ h.fits)

theorem mem_of_begins {w v : List Char} {e : Char} (h : w ++ [e] <+: v) : e ∈ v :=
  h.subset (by simp)

/-- No number holds a blank or a `?`. -/
theorem not_mem_of_isNumber {e : Char} (hd : Text.isDigit e = false)
    (he : e ∉ ['.', 'e', 'E', '+', '-']) {v : List Char} (h : IsNumber v) : e ∉ v := by
  have hdigits : ∀ {ds}, IsDigits ds → e ∉ ds := fun hds hmem => by
    cases hd.symm.trans (hds.2 e hmem)
  simp only [List.mem_cons, List.not_mem_nil, or_false, not_or] at he
  obtain ⟨hpoint, hsmall, hlarge, hplus, hminus⟩ := he
  obtain ⟨ds, f, x, hds, hf, hx, rfl⟩ := h
  have hfraction : e ∉ f := by
    cases hf with
    | none => nofun
    | some hds => exact List.not_mem_cons_of_ne_of_not_mem hpoint (hdigits hds)
  have hexponent : e ∉ x := by
    cases hx with
    | none => nofun
    | plain hletter hds =>
      rcases hletter with rfl | rfl <;>
        exact List.not_mem_cons_of_ne_of_not_mem ‹_› (hdigits hds)
    | signed hletter hsign hds =>
      rcases hletter with rfl | rfl <;> rcases hsign with rfl | rfl <;>
        exact List.not_mem_cons_of_ne_of_not_mem ‹_›
          (List.not_mem_cons_of_ne_of_not_mem ‹_› (hdigits hds))
  simp [hdigits hds, hfraction, hexponent]

/-- No sign goes on with a blank, and none that ends an operand with a `?`. -/
theorem not_begins_sign {k : Kind} (hk : k ∈ Kind.operators) {tail : List Char}
    (hfollows : Follows k tail) : ∀ e ∈ tail.head?, ∀ v, IsSign v →
      ¬ k.spelling.toList ++ [e] <+: v := by
  have hblank : ∀ k' ∈ Kind.operators, ' ' ∉ k'.spelling.toList := by decide
  have hquestion : ∀ k ∈ Kind.operators, k.endsOperand = true → ∀ k' ∈ Kind.operators,
      ¬ k.spelling.toList ++ ['?'] <+: k'.spelling.toList := by decide
  rintro e he v ⟨k', hk', rfl⟩ hbegins
  rcases hfollows e he with rfl | ⟨rfl, hoperand⟩
  · exact hblank k' hk' (mem_of_begins hbegins)
  · exact hquestion k hk hoperand k' hk' hbegins

theorem Follows.cases {k : Kind} {tail : List Char} (h : Follows k tail) {e : Char}
    (he : tail.head? = some e) : e = ' ' ∨ e = '?' := (h e he).imp id And.left

/-! ### A lexeme before another text -/

theorem Scan.eq_of_passed {s : Scan} {outcome : Except LexFault Kind} {w tail : List Char}
    (ho : s.outcome = outcome) (hw : s.passed = w) (happend : s.passed ++ s.rest = w ++ tail) :
    s = ⟨outcome, w, tail⟩ := by
  rw [hw] at happend
  rw [← ho, ← hw, ← List.append_cancel_left happend]

section
variable {c : Char} {w tail : List Char} {k : Kind} (hfollows : Follows k tail)
include hfollows

theorem scanNumber_again (hd : Text.isDigit c = true) (h : IsNumber (c :: w)) :
    scanNumber (c :: (w ++ tail)) = ⟨.ok .number, c :: w, tail⟩ := by
  have hlongest : IsLongest IsNumber (c :: w ++ tail) (scanNumber (c :: (w ++ tail))).passed :=
    isLongest_scanNumber hd (w ++ tail)
  have hpassed := hlongest.again h fun e he v hv hbegins => by
    have hmem := mem_of_begins hbegins
    rcases hfollows.cases he with rfl | rfl
    · exact not_mem_of_isNumber (by decide) (by decide) hv hmem
    · exact not_mem_of_isNumber (by decide) (by decide) hv hmem
  have happend := scanNumber_append (c :: (w ++ tail))
  have hrest : (scanNumber (c :: (w ++ tail))).rest = tail :=
    List.append_cancel_left ((hpassed ▸ happend : c :: w ++ _ = c :: (w ++ tail)))
  refine Scan.eq_of_passed ?_ hpassed happend
  rw [scanNumber_outcome, hrest, if_neg]
  cases htail : tail.head? with
  | none => simp
  | some e => rcases hfollows.cases htail with rfl | rfl <;> decide

theorem scanWord_again (hw : beginsWord c = true) (h : IsWord (c :: w)) :
    scanWord (c :: (w ++ tail)) = ⟨.ok (wordKind (c :: w)), c :: w, tail⟩ := by
  have hlongest : IsLongest IsWord (c :: w ++ tail) (scanWord (c :: (w ++ tail))).passed :=
    isLongest_scanWord hw (w ++ tail)
  have hpassed := hlongest.again h fun e he v hv hbegins => by
    have hcontinues := hv.2 e (mem_of_begins hbegins)
    rcases hfollows.cases he with rfl | rfl <;> exact absurd hcontinues (by decide)
  have hkind : (scanWord (c :: (w ++ tail))).outcome = .ok (wordKind (c :: w)) :=
    congrArg (fun v => Except.ok (wordKind v)) hpassed
  exact Scan.eq_of_passed hkind hpassed (scanWord_append (c :: (w ++ tail)))

theorem scanSign_again (hk : k ∈ Kind.operators) (hspelling : k.spelling.toList = c :: w) :
    scanSign false c (w ++ tail) = ⟨.ok k, c :: w, tail⟩ := by
  have hinj : ∀ k ∈ Kind.operators, ∀ k' ∈ Kind.operators,
      k.spelling.toList = k'.spelling.toList → k = k' := by decide
  have hbegins : k.spelling.toList <+: c :: (w ++ tail) := ⟨tail, by rw [hspelling]; rfl⟩
  obtain ⟨e, he⟩ := exists_find_of_begins hk hbegins
  obtain ⟨k', hk', rfl, hlongest⟩ := isLongest_of_find he
  have htext : c :: (w ++ tail) = k.spelling.toList ++ tail := by rw [hspelling]; rfl
  rw [htext] at hlongest
  have hsame := hlongest.again ⟨k, hk, rfl⟩ (not_begins_sign hk hfollows)
  cases hinj k' hk' k hk hsame
  have hfind : (signs false).find? (fun e => e.1.isPrefixOf (c :: (w ++ tail))) = _ := he
  rw [scanSign_eq, hfind]
  simp only [hspelling, htext]
  rw [← hspelling, List.drop_left]

end

/-- No word is a safe form. -/
theorem wordKind_not_mem (w : List Char) : wordKind w ∉ Kind.safeForms := by
  by_cases hw : ∃ k ∈ Kind.keywords, k.spelling.toList = w
  · obtain ⟨k, hk, rfl⟩ := hw
    rw [wordKind_spelling k hk]
    exact (by decide : ∀ k ∈ Kind.keywords, k ∉ Kind.safeForms) k hk
  · rw [wordKind_of_ne fun k hk heq => hw ⟨k, hk, heq⟩]
    decide

/-- Only a sign that touches an operand is a safe form. -/
theorem scan_safe {glued : Bool} {c : Char} {cs : List Char} {k : Kind}
    (h : (scan glued c cs).outcome = .ok k) (hk : k ∈ Kind.safeForms) :
    glued = true ∧ scan glued c cs = scanSign glued c cs := by
  unfold scan at h ⊢
  split_ifs at h ⊢ with hq hd hw
  · rcases scanString_cases hq cs with ⟨hok, -⟩ | herror
    · cases hok.symm.trans h
      exact absurd hk (by decide)
    · cases herror.symm.trans h
  · rw [scanNumber_outcome] at h
    split_ifs at h
    cases h
    exact absurd hk (by decide)
  · cases h
    exact absurd hk (wordKind_not_mem _)
  · refine ⟨?_, rfl⟩
    cases glued with
    | true => rfl
    | false =>
      rw [scanSign_eq] at h
      split at h
      · next e he =>
        cases h
        obtain ⟨k', hk', rfl, -⟩ := isLongest_of_find he
        exact absurd hk ((by decide : ∀ k ∈ Kind.operators, k ∉ Kind.safeForms) k' hk')
      · cases h

/-- A safe form is found under its spelling, which begins with a `?`. -/
theorem passed_of_safe {glued : Bool} {c : Char} {cs w : List Char} {k : Kind}
    (h : (scan glued c cs).outcome = .ok k) (hk : k ∈ Kind.safeForms)
    (hw : (scan glued c cs).passed = c :: w) : k.spelling.toList = c :: w ∧ c = '?' := by
  have hforms : ∀ k ∈ Kind.safeForms, k.spelling ≠ "" ∧ k.spelling.toList.head? = some '?' := by
    decide
  obtain ⟨hne, hhead⟩ := hforms k hk
  have hspelling : k.spelling.toList = c :: w := by
    rw [← (scan_ok h).1.2 hne, hw, String.toList_ofList]
  rw [hspelling] at hhead
  exact ⟨hspelling, Option.some.inj hhead⟩

/-- A safe form is found again where a sign touches an operand. -/
theorem scan_safe_again {glued : Bool} {c : Char} {cs w : List Char} {k : Kind}
    (h : (scan glued c cs).outcome = .ok k) (hw : (scan glued c cs).passed = c :: w)
    (hk : k ∈ Kind.safeForms) (tail : List Char) :
    scan true c (w ++ tail) = ⟨.ok k, c :: w, tail⟩ := by
  obtain ⟨hspelling, hquestion⟩ := passed_of_safe h hk hw
  have hbegins : k.spelling.toList <+: c :: (w ++ tail) := ⟨tail, by rw [hspelling]; rfl⟩
  have hfind := find_safeForm hk hbegins
  rw [scan_sign (by rw [hquestion]; unfold IsQuote; decide) (by rw [hquestion]; decide)
    (by rw [hquestion]; decide), scanSign_eq, hfind, hspelling]
  have hrest : (c :: w ++ tail).drop (c :: w).length = tail := List.drop_left
  exact congrArg (Scan.mk (.ok k) (c :: w)) hrest

/-- **A lexeme is found again before another text**, if that may follow it. -/
theorem scan_again {glued glued' : Bool} {c : Char} {cs w tail : List Char} {k : Kind}
    (h : (scan glued c cs).outcome = .ok k) (hw : (scan glued c cs).passed = c :: w)
    (hfollows : Follows k tail) (hglued : glued' = true ↔ k ∈ Kind.safeForms) :
    scan glued' c (w ++ tail) = ⟨.ok k, c :: w, tail⟩ := by
  by_cases hsafe : k ∈ Kind.safeForms
  · rw [hglued.mpr hsafe]
    exact scan_safe_again h hw hsafe tail
  · obtain rfl : glued' = false := by simpa using mt hglued.mp hsafe
    unfold scan at h hw ⊢
    split_ifs at h hw ⊢ with hq hd hword
    · rcases scanString_cases hq cs with ⟨hok, hform⟩ | herror
      · cases hok.symm.trans h
        rw [hw] at hform
        exact scanString_of_isString hq hform rfl
      · cases herror.symm.trans h
    · have hform := isNumber_scanNumber hd cs
      rw [hw] at hform
      rw [scanNumber_outcome] at h
      split_ifs at h
      cases h
      exact scanNumber_again hfollows hd hform
    · have hform := (isLongest_scanWord hword cs).fits
      have hkind : wordKind (scanWord (c :: cs)).passed = k := Except.ok.inj h
      rw [hw] at hform hkind
      rw [scanWord_again hfollows hword hform, hkind]
    · rw [scanSign_eq] at h hw
      split at h
      · next e he =>
        cases h
        rw [he] at hw
        obtain ⟨k, hk, rfl⟩ :=
          List.mem_map.mp (mem_gluedSignTable (List.mem_of_find?_eq_some he))
        exact scanSign_again hfollows ((List.mem_append.mp hk).resolve_left hsafe) hw
      · cases h

/-! ### A lexer of the canonical text -/

/-- The head of a text behind a gap begins no gap. -/
theorem head_of_gap {inComment : Bool} {cs rest : List Char} {c : Char}
    (h : (gap inComment cs).2 = c :: rest) :
    isSpace c = false ∧ ¬ (c = '/' ∧ rest.head? = some '/') := by
  fun_induction gap inComment cs with
  | case1 => cases h
  | case2 cs =>
    cases h
    exact ⟨by decide, fun h => absurd h.1 (by decide)⟩
  | case3 c' cs hc r ih | case4 b c' cs hb hs r ih | case5 b c' cs hb hs hc r ih => exact ih h
  | case6 b c' cs hb hs hc =>
    cases h
    exact ⟨by simpa using hs, hc⟩

/-- A lexeme at the head of a text is behind no gap, and a blank before it is all of one. -/
theorem gap_lexeme {c : Char} {cs w tail rest : List Char} {k : Kind} {inComment : Bool}
    (hgap : (gap inComment cs).2 = c :: (w ++ rest)) (hfollows : Follows k tail) :
    gap false (c :: (w ++ tail)) = ([], c :: (w ++ tail)) ∧
      gap false (' ' :: c :: (w ++ tail)) = ([' '], c :: (w ++ tail)) := by
  obtain ⟨hspace, hslash⟩ := head_of_gap hgap
  have hhead : ¬ (c = '/' ∧ (w ++ tail).head? = some '/') := by
    rintro ⟨rfl, hnext⟩
    cases w with
    | nil => rcases hfollows.cases hnext with h | h <;> exact absurd h (by decide)
    | cons d w => exact hslash ⟨rfl, hnext⟩
  have hfirst : gap false (c :: (w ++ tail)) = ([], c :: (w ++ tail)) := by
    rw [gap, if_neg Bool.false_ne_true, if_neg (by simp [hspace]), if_neg hhead]
  refine ⟨hfirst, ?_⟩
  rw [gap, hfirst]
  simp [isSpace]

/-- The lexers remember the same word, and the second stands right behind its own. -/
structure Behind (l m : Lexer) : Prop where
  word : m.last.map Token.word = l.last.map Token.word
  line : ∀ u ∈ m.last, u.line = m.place.line
  column : ∀ u ∈ m.last, u.endColumn = m.place.column

/-- A safe form touches the operand that both lexers remember. -/
theorem Behind.touchesOperand {l m : Lexer} (h : Behind l m)
    (htouches : l.skipGap.touchesOperand = true) : m.touchesOperand = true := by
  have hword := h.word
  unfold Lexer.touchesOperand at htouches ⊢
  have hlast : l.skipGap.last = l.last := rfl
  rw [hlast] at htouches
  cases hl : l.last with
  | none => rw [hl] at htouches; cases htouches
  | some t =>
    rw [hl] at htouches hword
    cases hm : m.last with
    | none => rw [hm] at hword; cases hword
    | some u =>
      rw [hm] at hword
      have hkind : u.kind = t.kind := congrArg Prod.fst (Option.some.inj hword)
      simp only [Bool.and_eq_true] at htouches
      simp [hkind, htouches.1.1, h.line u hm, h.column u hm]

/-- A token that is read is a lexeme that the scan finds behind the gap. -/
theorem next_eq_ok {l l' : Lexer} {t : Token} (h : l.next = (.ok t, l')) (hk : t.kind ≠ .eof) :
    ∃ c w rest, l.skipGap.rest = c :: (w ++ rest) ∧ t.lexeme.toList = c :: w ∧ '\n' ∉ c :: w ∧
      (scan l.skipGap.touchesOperand c (w ++ rest)).outcome = .ok t.kind ∧
      (scan l.skipGap.touchesOperand c (w ++ rest)).passed = c :: w ∧ l'.last = some t := by
  cases answers_of_next h with
  | atEnd _ ht =>
    subst ht
    exact absurd rfl hk
  | @lexeme c cs kind passed rest t hrest hscan ht =>
    subst ht
    have happend := scan_append l.skipGap.touchesOperand c cs
    obtain ⟨d, w, rfl⟩ := List.exists_cons_of_ne_nil (lexeme_of_scan hscan).2
    rw [hscan] at happend
    obtain ⟨rfl, rfl⟩ := List.cons.inj happend
    exact ⟨d, w, rest, hrest, String.toList_ofList, newline_not_mem_of_scan hscan,
      congrArg Scan.outcome hscan, congrArg Scan.passed hscan, rfl⟩

theorem skipGap_eq {m : Lexer} {passed rest : List Char} (h : gap false m.rest = (passed, rest)) :
    m.skipGap = { m with rest, place := m.place.after passed } := by
  rw [skipGap, h]

/-- Behind a blank no operand is touched. -/
theorem Behind.touches_nothing {l m : Lexer} (h : Behind l m) (rest : List Char) :
    (⟨rest, m.place.after [' '], m.last⟩ : Lexer).touchesOperand = false := by
  have hplace : (m.place.after [' ']).column = m.place.column + 1 := rfl
  unfold Lexer.touchesOperand
  cases hm : m.last with
  | none => rfl
  | some u =>
    have hne : ¬ u.endColumn = m.place.column + 1 := by
      rw [h.column u hm]
      omega
    simp [hplace, hne]

/-- A lexer of the canonical text comes to the next lexeme, and touches an operand there exactly
before a safe form. -/
theorem skipGap_rendered {l m : Lexer} {t : Token} {c : Char} {w tail : List Char}
    (hlexeme : t.lexeme.toList = c :: w)
    (hfirst : gap false (c :: (w ++ tail)) = ([], c :: (w ++ tail)))
    (hblank : gap false (' ' :: c :: (w ++ tail)) = ([' '], c :: (w ++ tail)))
    (hbehind : Behind l m) (htouches : t.kind ∈ Kind.safeForms → l.skipGap.touchesOperand = true)
    (hrest : m.rest = t.word.spaced ++ tail ∨
      m.last = none ∧ m.rest = t.lexeme.toList ++ tail) :
    m.skipGap.rest = c :: (w ++ tail) ∧
      (m.skipGap.touchesOperand = true ↔ t.kind ∈ Kind.safeForms) := by
  have hplain : t.lexeme.toList ++ tail = c :: (w ++ tail) := by rw [hlexeme]; rfl
  by_cases hsafe : t.kind ∈ Kind.safeForms
  · have hm : m.rest = c :: (w ++ tail) := by
      rw [← hplain]
      rcases hrest with hrest | ⟨-, hrest⟩
      · rwa [Word.spaced_of_safe hsafe] at hrest
      · exact hrest
    have hgap : gap false m.rest = ([], c :: (w ++ tail)) := by rw [hm, hfirst]
    rw [skipGap_eq hgap]
    exact ⟨rfl, iff_of_true (hbehind.touchesOperand (htouches hsafe)) hsafe⟩
  · rcases hrest with hrest | ⟨hnone, hrest⟩
    · have hm : m.rest = ' ' :: c :: (w ++ tail) := by
        rw [← hplain, hrest, Word.spaced_of_plain hsafe]
        rfl
      have hgap : gap false m.rest = ([' '], c :: (w ++ tail)) := by rw [hm, hblank]
      rw [skipGap_eq hgap]
      exact ⟨rfl, iff_of_false (by simp [hbehind.touches_nothing]) hsafe⟩
    · have hgap : gap false m.rest = ([], c :: (w ++ tail)) := by rw [hrest, hplain, hfirst]
      rw [skipGap_eq hgap]
      exact ⟨rfl, iff_of_false (by simp [Lexer.touchesOperand, hnone]) hsafe⟩

/-- **A lexer of the canonical text reads the next word**, and stands before what follows it. -/
theorem next_rendered {l l' m : Lexer} {t : Token} (h : l.next = (.ok t, l')) (hk : t.kind ≠ .eof)
    (hbehind : Behind l m) {tail : List Char} (hfollows : Follows t.kind tail)
    (hrest : m.rest = t.word.spaced ++ tail ∨
      m.last = none ∧ m.rest = t.lexeme.toList ++ tail) :
    ∃ u m', m.next = (.ok u, m') ∧ u.word = t.word ∧ Behind l' m' ∧ m'.rest = tail := by
  obtain ⟨c, w, rest, hahead, hlexeme, hline, hscan, hpassed, hlast⟩ := next_eq_ok h hk
  obtain ⟨hfirst, hblank⟩ := gap_lexeme hahead hfollows
  obtain ⟨hskip, hglued⟩ := skipGap_rendered hlexeme hfirst hblank hbehind
    (fun hsafe => (scan_safe hscan hsafe).1) hrest
  have hagain := scan_again hscan hpassed hfollows hglued
  have hnext : m.next = (.ok ⟨t.kind, String.ofList (c :: w), m.skipGap.place.line,
      m.skipGap.place.column⟩, ⟨tail, m.skipGap.place.after (c :: w),
        some ⟨t.kind, String.ofList (c :: w), m.skipGap.place.line, m.skipGap.place.column⟩⟩) :=
    next_of_scan_ok hskip hagain
  have hword : (⟨t.kind, String.ofList (c :: w), m.skipGap.place.line,
      m.skipGap.place.column⟩ : Token).word = t.word := by
    rw [Token.word, Token.word, ← hlexeme, String.ofList_toList]
  obtain ⟨hafterLine, hafterColumn⟩ := Place.after_of_not_mem (c :: w) m.skipGap.place hline
  refine ⟨_, _, hnext, hword, ⟨?_, ?_, ?_⟩, rfl⟩
  · rw [hlast]
    exact congrArg some hword
  · rintro u ⟨rfl⟩
    exact hafterLine.symm
  · rintro u ⟨rfl⟩
    rw [Token.endColumn, hafterColumn, String.length_ofList]

/-- What the next token is written as may follow the last one. -/
theorem follows_of_next {l l' : Lexer} {t u : Token} (hlast : l.last = some t)
    (h : l.next = (.ok u, l')) (hk : u.kind ≠ .eof) (tail : List Char) :
    Follows t.kind (u.word.spaced ++ tail) := by
  intro e he
  obtain ⟨c, w, rest, -, hlexeme, -, hscan, hpassed, -⟩ := next_eq_ok h hk
  by_cases hsafe : u.kind ∈ Kind.safeForms
  · have htouches := (scan_safe hscan hsafe).1
    rw [Word.spaced_of_safe (w := u.word) hsafe, show u.word.2.toList = c :: w from hlexeme] at he
    unfold Lexer.touchesOperand at htouches
    rw [show l.skipGap.last = some t from hlast] at htouches
    simp only [Bool.and_eq_true] at htouches
    cases he
    exact .inr ⟨(passed_of_safe hscan hsafe hpassed).2, htouches.1.1⟩
  · rw [Word.spaced_of_plain (w := u.word) hsafe] at he
    exact .inl (Option.some.inj he).symm

theorem follows_of_read (count : Nat) {l : Lexer} {t e : Token} (hlast : l.last = some t)
    (h : (read count l).ending = some (.ok e)) :
    Follows t.kind (((read count l).tokens.map Token.word).flatMap Word.spaced) := by
  cases count with
  | zero => cases h
  | succ count =>
    rcases hnext : l.next with ⟨_ | u, l'⟩
    · simp [read, hnext] at h
    · by_cases hu : u.kind = .eof
      · have hread : (read (count + 1) l).tokens = [] := by simp [read, hnext, Token.isEof, hu]
        rw [hread]
        intro e he
        cases he
      · rw [read_step hnext hu]
        exact follows_of_next hlast hnext hu _

/-- The lexer is before some words with blanks, or at the beginning of their canonical text. -/
def Renders (m : Lexer) (ws : List Word) : Prop :=
  m.rest = ws.flatMap Word.spaced ∨ m.last = none ∧ m.rest = canonical ws

theorem Renders.cons {m : Lexer} {t : Token} {ws : List Word} (h : m.Renders (t.word :: ws)) :
    m.rest = t.word.spaced ++ ws.flatMap Word.spaced ∨
      m.last = none ∧ m.rest = t.lexeme.toList ++ ws.flatMap Word.spaced := h

/-- A word takes at least one character. -/
theorem Renders.length_lt {m : Lexer} {t : Token} {ws : List Word} (h : m.Renders (t.word :: ws))
    (ht : t.lexeme.toList ≠ []) : (ws.flatMap Word.spaced).length < m.rest.length := by
  have hpos : 0 < t.lexeme.toList.length := List.length_pos_of_ne_nil ht
  have hspaced : t.lexeme.toList.length ≤ t.word.spaced.length := by
    by_cases hsafe : t.word.1 ∈ Kind.safeForms
    · rw [Word.spaced_of_safe hsafe]
      exact Nat.le_refl _
    · rw [Word.spaced_of_plain hsafe]
      exact Nat.le_succ _
  rcases h.cons with hrest | ⟨-, hrest⟩ <;> rw [hrest, List.length_append] <;> omega

/-- **A lexer of the canonical text reads the words again**, up to the end. -/
theorem read_rendered : ∀ (count more : Nat) {l m : Lexer} {e : Token}, Behind l m →
    (read count l).ending = some (.ok e) → m.Renders ((read count l).tokens.map Token.word) →
    m.rest.length < more →
    (read more m).tokens.map Token.word = (read count l).tokens.map Token.word ∧
      ∃ e', (read more m).ending = some (.ok e')
  | 0, _, _, _, _, _, h, _, _ => nomatch h
  | _ + 1, 0, _, _, _, _, _, _, h => absurd h (Nat.not_lt_zero _)
  | count + 1, more + 1, l, m, e, hbehind, h, hrest, hmore => by
    rcases hnext : l.next with ⟨_ | t, l'⟩
    · simp [read, hnext] at h
    by_cases ht : t.kind = .eof
    · have hread : (read (count + 1) l).tokens = [] := by simp [read, hnext, Token.isEof, ht]
      rw [hread] at hrest ⊢
      have hm : m.rest = [] := hrest.elim id And.right
      have hend : m.next.1 = .ok (.atEnd m.place.line m.place.column) := by
        simp [next, readToken, skipGap, hm, gap, Place.after]
      rcases hmnext : m.next with ⟨given, m'⟩
      rw [hmnext] at hend
      cases hend
      simp [read, hmnext, Token.isEof, Token.atEnd]
    · rw [read_step hnext ht] at h hrest ⊢
      obtain ⟨c, w, -, -, hlexeme, -, -, -, hlast⟩ := next_eq_ok hnext ht
      have hfollows := follows_of_read count hlast h
      obtain ⟨u, m', hmnext, hword, hbehind', hrest'⟩ :=
        next_rendered hnext ht hbehind hfollows hrest.cons
      have hkind : u.kind = t.kind := congrArg Prod.fst hword
      have hu : u.kind ≠ .eof := hkind ▸ ht
      have hlength : m'.rest.length < more := by
        have hlt := hrest.length_lt (by rw [hlexeme]; exact List.cons_ne_nil c w)
        rw [hrest']
        omega
      rw [read_step hmnext hu]
      obtain ⟨hwords, hending⟩ := read_rendered count more hbehind' h (.inl hrest') hlength
      exact ⟨by rw [List.map_cons, List.map_cons, hword, hwords], hending⟩

end Lexer

/-- **The canonical text of the words of a text** is read as the same words, to its end. -/
theorem Tokens.ofChars_canonical {cs : List Char} {t : Token}
    (h : (Tokens.ofChars cs).ending = .ok t) {ws : List Word}
    (hws : (Tokens.ofChars cs).items.toList.map Token.word = ws) :
    (∃ t', (Tokens.ofChars (canonical ws)).ending = .ok t') ∧
      (Tokens.ofChars (canonical ws)).items.toList.map Token.word = ws := by
  obtain ⟨hitems, hending⟩ := Tokens.readAll_eq cs
  obtain ⟨hitems', hending'⟩ := Tokens.readAll_eq (canonical ws)
  have hbehind : Lexer.Behind (Lexer.ofChars cs) (Lexer.ofChars (canonical ws)) :=
    ⟨rfl, nofun, nofun⟩
  rw [h] at hending
  rw [← hitems] at hws
  obtain ⟨hwords, e, he⟩ := Lexer.read_rendered _ _ hbehind hending (.inr ⟨rfl, by rw [← hws]; rfl⟩)
    (Nat.lt_succ_self _)
  refine ⟨⟨e, Option.some.inj (hending'.symm.trans he)⟩, ?_⟩
  rw [← hitems', ← hws]
  exact hws ▸ hwords

/-! ### Lexemes and kinds -/

/-- The token is what the scan finds at the head of some text. -/
def Token.Scanned (t : Token) : Prop :=
  ∃ glued c w rest, t.lexeme.toList = c :: w ∧
    (Lexer.scan glued c (w ++ rest)).outcome = .ok t.kind ∧
    (Lexer.scan glued c (w ++ rest)).passed = c :: w

/-- The scan finds the token again in its lexeme alone, as a safe form or as none. -/
theorem Token.Scanned.scan_lexeme {t : Token} (h : t.Scanned) :
    ∃ c w, t.lexeme.toList = c :: w ∧
      Lexer.scan (decide (t.kind ∈ Kind.safeForms)) c w = ⟨.ok t.kind, c :: w, []⟩ ∧
      (t.kind ∈ Kind.safeForms → t.kind.spelling.toList = c :: w ∧ c = '?') := by
  obtain ⟨glued, c, w, rest, hlexeme, hscan, hpassed⟩ := h
  have hfollows : Lexer.Follows t.kind [] := fun _ he => nomatch he
  have hagain := Lexer.scan_again hscan hpassed hfollows decide_eq_true_iff
  rw [List.append_nil] at hagain
  exact ⟨c, w, hlexeme, hagain, fun hk => Lexer.passed_of_safe hscan hk hpassed⟩

/-- The spelling of a safe form is not a lexeme of another kind. -/
theorem Token.Scanned.safe_of_lexeme {t u : Token} (ht : t.Scanned) (hu : u.Scanned)
    (h : t.lexeme = u.lexeme) (hk : t.kind ∈ Kind.safeForms) : u.kind ∈ Kind.safeForms := by
  have hapart : ∀ k ∈ Kind.safeForms,
      (Lexer.scan false '?' k.spelling.toList.tail).passed ≠ k.spelling.toList := by decide +kernel
  obtain ⟨c, w, hlexeme, -, hspelling⟩ := ht.scan_lexeme
  obtain ⟨c', w', hlexeme', hscan, -⟩ := hu.scan_lexeme
  obtain ⟨rfl, rfl⟩ := List.cons.inj (hlexeme.symm.trans (h ▸ hlexeme'))
  obtain ⟨hspelling, rfl⟩ := hspelling hk
  refine Decidable.byContradiction fun hplain => hapart _ hk ?_
  rw [decide_eq_false hplain] at hscan
  rw [hspelling, List.tail_cons, hscan]

/-- **The lexeme of a token tells its kind.** -/
theorem Token.Scanned.kind_eq {t u : Token} (ht : t.Scanned) (hu : u.Scanned)
    (h : t.lexeme = u.lexeme) : t.kind = u.kind := by
  have hsafe : t.kind ∈ Kind.safeForms ↔ u.kind ∈ Kind.safeForms :=
    ⟨ht.safe_of_lexeme hu h, hu.safe_of_lexeme ht h.symm⟩
  obtain ⟨c, w, hlexeme, hscan, -⟩ := ht.scan_lexeme
  obtain ⟨c', w', hlexeme', hscan', -⟩ := hu.scan_lexeme
  obtain ⟨rfl, rfl⟩ := List.cons.inj (hlexeme.symm.trans (h ▸ hlexeme'))
  rw [decide_eq_decide.mpr hsafe, hscan'] at hscan
  exact (Except.ok.inj (congrArg Lexer.Scan.outcome hscan)).symm

namespace Lexer

theorem read_scanned : ∀ (count : Nat) (l : Lexer), ∀ t ∈ (read count l).tokens, t.Scanned
  | 0, _, _, ht => nomatch ht
  | count + 1, l, t, ht => by
    rcases hnext : l.next with ⟨_ | u, l'⟩
    · simp [read, hnext] at ht
    by_cases hu : u.kind = .eof
    · simp [read, hnext, Token.isEof, hu] at ht
    · rw [read_step hnext hu] at ht
      rcases List.mem_cons.mp ht with rfl | ht
      · obtain ⟨c, w, rest, -, hlexeme, -, hscan, hpassed, -⟩ := next_eq_ok hnext hu
        exact ⟨_, c, w, rest, hlexeme, hscan, hpassed⟩
      · exact read_scanned count l' t ht

end Lexer

/-- Texts with the same lexemes have the same words. -/
theorem word_eq_of_scanned : ∀ {ts us : List Token}, (∀ t ∈ ts, t.Scanned) → (∀ u ∈ us, u.Scanned) →
    ts.map Token.lexeme = us.map Token.lexeme → ts.map Token.word = us.map Token.word
  | [], [], _, _, _ => rfl
  | t :: ts, u :: us, hts, hus, h => by
    obtain ⟨ht, hts⟩ := List.forall_mem_cons.mp hts
    obtain ⟨hu, hus⟩ := List.forall_mem_cons.mp hus
    obtain ⟨hlexeme, hlexemes⟩ := List.cons.inj h
    have hword : t.word = u.word := Prod.ext (ht.kind_eq hu hlexeme) hlexeme
    rw [List.map_cons, List.map_cons, hword, word_eq_of_scanned hts hus hlexemes]

end CommandShell
