import CommandShell.Lexer.Scan
import Mathlib.Tactic.Common

/-! # Scanning: what a scan takes, and where it stops

A scan takes a text apart and loses nothing (`scan_append`). When it finds a lexeme, it takes at
least one character, and it finds a kind of fixed spelling only under that spelling (`scan_ok`). It
does not look past a character that is no part of a number, a word or a sign (`Separates`), unless
it is inside a string. So what follows a line end changes nothing (`scan_newline`), since a string
stops there, and what follows a blank changes no lexeme that is found before it (`scan_space`). -/

namespace CommandShell.Lexer

/-! ### Nothing is lost -/

theorem gap_append (inComment : Bool) (cs : List Char) :
    (gap inComment cs).1 ++ (gap inComment cs).2 = cs := by
  fun_induction gap inComment cs with
  | case1 | case2 | case6 => rfl
  | case3 _ _ _ _ ih => exact congrArg _ ih
  | case4 _ _ _ _ _ r ih => exact congrArg _ ih
  | case5 _ _ _ _ _ _ r ih => exact congrArg _ ih

theorem stringBody_append (quote : Char) (cs : List Char) :
    (stringBody quote cs).1 ++ (stringBody quote cs).2 = cs := by
  fun_induction stringBody quote cs with
  | case1 | case2 | case4 => rfl
  | case3 c cs _ r ih => simpa using ih
  | case5 c cs _ _ r ih => simpa using ih

theorem scanString_append (quote : Char) (cs : List Char) :
    (scanString quote cs).passed ++ (scanString quote cs).rest = quote :: cs := by
  have h := stringBody_append quote cs
  unfold scanString
  rcases hb : stringBody quote cs with ⟨body, _ | ⟨c, rest⟩⟩
  · simpa [hb] using h
  · by_cases hc : c = quote
    · subst hc; simpa [hb] using h
    · simpa [hb, hc] using h

theorem fraction_append (cs : List Char) : (fraction cs).1 ++ (fraction cs).2 = cs := by
  fun_cases fraction cs <;> simp

theorem exponent_append (cs : List Char) : (exponent cs).1 ++ (exponent cs).2 = cs := by
  fun_cases exponent cs <;> simp

theorem scanNumber_append (cs : List Char) :
    (scanNumber cs).passed ++ (scanNumber cs).rest = cs := by
  simp only [scanNumber, List.append_assoc, exponent_append, fraction_append,
    List.takeWhile_append_dropWhile]

theorem scanWord_append (cs : List Char) : (scanWord cs).passed ++ (scanWord cs).rest = cs :=
  List.takeWhile_append_dropWhile

/-- The signs that a scan tries. -/
def signs (glued : Bool) : List (List Char × Kind) := if glued then gluedSignTable else signTable

theorem scanSign_eq (glued : Bool) (c : Char) (cs : List Char) :
    scanSign glued c cs = match (signs glued).find? fun e => e.1.isPrefixOf (c :: cs) with
      | some e => ⟨.ok e.2, e.1, (c :: cs).drop e.1.length⟩
      | none => ⟨.error (.unexpectedCharacter c), [], c :: cs⟩ := rfl

theorem scanSign_append (glued : Bool) (c : Char) (cs : List Char) :
    (scanSign glued c cs).passed ++ (scanSign glued c cs).rest = c :: cs := by
  rw [scanSign_eq]
  split
  · next e h =>
    have hp := List.find?_some h
    exact List.prefix_iff_eq_append.mp (List.isPrefixOf_iff_prefix.mp hp)
  · rfl

/-- **A scan loses nothing.** -/
theorem scan_append (glued : Bool) (c : Char) (cs : List Char) :
    (scan glued c cs).passed ++ (scan glued c cs).rest = c :: cs := by
  unfold scan
  split_ifs
  · exact scanString_append c cs
  · exact scanNumber_append (c :: cs)
  · exact scanWord_append (c :: cs)
  · exact scanSign_append glued c cs

/-! ### What a lexeme is -/

/-- A kind with a fixed spelling is read under it, and the end of the input is never read. -/
def Spelled (k : Kind) (cs : List Char) : Prop :=
  k ≠ .eof ∧ (k.spelling ≠ "" → String.ofList cs = k.spelling)

theorem mem_gluedSignTable {glued : Bool} {s : List Char × Kind} (h : s ∈ signs glued) :
    s ∈ gluedSignTable := by
  cases glued
  · obtain ⟨k, hk, rfl⟩ := List.mem_map.mp (show s ∈ signTable from h)
    exact List.mem_map.mpr ⟨k, List.mem_append_right _ hk, rfl⟩
  · exact h

theorem spelled_of_mem_signs {glued : Bool} {e : List Char × Kind} (h : e ∈ signs glued) :
    Spelled e.2 e.1 ∧ e.1 ≠ [] ∧ '\n' ∉ e.1 := by
  have hall : ∀ e ∈ gluedSignTable, (e.2 ≠ .eof ∧ e.1 = e.2.spelling.toList) ∧ e.1 ≠ [] ∧
      '\n' ∉ e.1 := by decide
  obtain ⟨⟨hk, hs⟩, hrest⟩ := hall e (mem_gluedSignTable h)
  exact ⟨⟨hk, fun _ => by rw [hs, String.ofList_toList]⟩, hrest⟩

theorem spelled_wordKind (word : List Char) : Spelled (wordKind word) word := by
  unfold wordKind
  rcases h : keywordTable.lookup word with _ | k
  · exact ⟨by decide, fun h => absurd rfl h⟩
  · have hall : ∀ e ∈ keywordTable, e.2 ≠ .eof ∧ e.1 = e.2.spelling.toList := by decide
    have hmem : (word, k) ∈ keywordTable := by
      obtain ⟨l₁, l₂, heq, -⟩ := List.lookup_eq_some_iff.mp h
      rw [heq]; simp
    obtain ⟨hk, hs⟩ := hall _ hmem
    exact ⟨hk, fun _ => by rw [show word = k.spelling.toList from hs, String.ofList_toList]; rfl⟩

/-- **A lexeme has a character and the spelling of its kind.** -/
theorem scan_ok {glued : Bool} {c : Char} {cs : List Char} {k : Kind}
    (h : (scan glued c cs).outcome = .ok k) :
    Spelled k (scan glued c cs).passed ∧ (scan glued c cs).passed ≠ [] := by
  unfold scan at h ⊢
  split_ifs at h ⊢ with hq hd hw
  · unfold scanString at h ⊢
    split at h
    · next body c' rest hb =>
      split_ifs at h with hc
      cases h
      simp [hc, Spelled, Kind.spelling]
    · cases h
  · unfold scanNumber at h ⊢
    simp only at h ⊢
    split_ifs at h
    cases h
    exact ⟨⟨by decide, fun h => absurd rfl h⟩, by simp [hd]⟩
  · cases h
    refine ⟨spelled_wordKind _, ?_⟩
    have hc : continuesWord c = true := by
      unfold beginsWord at hw
      unfold continuesWord Text.isAlphanumeric
      simp only [Bool.or_eq_true] at hw ⊢
      tauto
    simp [scanWord, hc]
  · rw [scanSign_eq] at h ⊢
    split at h
    · next e he =>
      cases h
      obtain ⟨hs, hne, -⟩ := spelled_of_mem_signs (List.mem_of_find?_eq_some he)
      exact ⟨hs, hne⟩
    · cases h

/-! ### Where a scan stops -/

/-- The scan of a text that goes on. -/
def Scan.before (s : Scan) (tail : List Char) : Scan := { s with rest := s.rest ++ tail }

/-- The character is no part of a number, a word or a sign. -/
structure Separates (e : Char) : Prop where
  digit : Text.isDigit e = false
  word : continuesWord e = false
  sign : ∀ s ∈ gluedSignTable, e ∉ s.1

theorem isDigit_newline : Text.isDigit '\n' = false := by decide

theorem separates_newline : Separates '\n' := ⟨isDigit_newline, by decide, by decide⟩

theorem separates_space : Separates ' ' := ⟨by decide, by decide, by decide⟩

variable {e : Char} (tail : List Char)

theorem Separates.beginsWord (he : Separates e) : beginsWord e = false := by
  have hword := he.word
  unfold continuesWord Text.isAlphanumeric at hword
  unfold Lexer.beginsWord
  simp only [Bool.or_eq_false_iff] at hword ⊢
  tauto

theorem Separates.ne_point (he : Separates e) : e ≠ '.' := by
  rintro rfl
  exact he.sign (['.'], .dot) (by decide) (.head _)

/-- The character is no letter and no sign of an exponent. -/
theorem Separates.not_exponent (he : Separates e) :
    ¬ (e = 'e' ∨ e = 'E') ∧ ¬ (e = '+' ∨ e = '-') := by
  have hword := he.word
  constructor
  · rintro (rfl | rfl) <;> exact absurd hword (by decide)
  · rintro (rfl | rfl)
    · exact he.sign (['+'], .plus) (by decide) (.head _)
    · exact he.sign (['-'], .minus) (by decide) (.head _)

theorem takeWhile_stop {p : Char → Bool} (hp : p e = false) (cs : List Char) :
    (cs ++ e :: tail).takeWhile p = cs.takeWhile p := by
  induction cs with
  | nil => simp [hp]
  | cons c cs ih => simp only [List.cons_append, List.takeWhile_cons, ih]

theorem dropWhile_stop {p : Char → Bool} (hp : p e = false) (cs : List Char) :
    (cs ++ e :: tail).dropWhile p = cs.dropWhile p ++ e :: tail := by
  induction cs with
  | nil => simp [hp]
  | cons c cs ih =>
    simp only [List.cons_append, List.dropWhile_cons, ih]
    split_ifs <;> rfl

theorem fraction_stop (he : Separates e) (cs : List Char) :
    fraction (cs ++ e :: tail) = ((fraction cs).1, (fraction cs).2 ++ e :: tail) := by
  have hd := he.digit
  fun_cases fraction cs with
  | case1 d cs hd' => simp [fraction, hd', takeWhile_stop tail hd, dropWhile_stop tail hd]
  | case2 d cs hd' => simp [fraction, hd']
  | case3 cs h =>
    rcases cs with _ | ⟨c, _ | ⟨d, cs⟩⟩
    · simp [fraction, he.ne_point]
    · by_cases hc : c = '.' <;> simp [fraction, hc, hd]
    · have hc : c ≠ '.' := fun hc => h d cs (by rw [hc])
      simp [fraction, hc]

theorem exponent_stop (he : Separates e) (cs : List Char) :
    exponent (cs ++ e :: tail) = ((exponent cs).1, (exponent cs).2 ++ e :: tail) := by
  have hd := he.digit
  obtain ⟨hletter, hsign⟩ := he.not_exponent
  rcases cs with _ | ⟨x, _ | ⟨s, cs⟩⟩
  · cases tail <;> simp [exponent, hletter]
  · simp [exponent, hd, hsign]
  · have hhead : ((cs ++ e :: tail).head?.any Text.isDigit) = cs.head?.any Text.isDigit := by
      cases cs <;> simp [hd]
    simp only [List.cons_append, exponent, hhead, takeWhile_stop tail hd, dropWhile_stop tail hd]
    split_ifs <;> rfl

theorem scanNumber_stop (he : Separates e) (cs : List Char) :
    scanNumber (cs ++ e :: tail) = (scanNumber cs).before (e :: tail) := by
  simp only [scanNumber, takeWhile_stop tail he.digit, dropWhile_stop tail he.digit,
    fraction_stop tail he, exponent_stop tail he, Scan.before]
  cases (exponent (fraction (cs.dropWhile Text.isDigit)).2).2 with
  | nil => simp [he.beginsWord]
  | cons c rest => simp only [List.cons_append, List.head?_cons]; rfl

theorem scanWord_stop (he : Separates e) (cs : List Char) :
    scanWord (cs ++ e :: tail) = (scanWord cs).before (e :: tail) := by
  simp only [scanWord, takeWhile_stop tail he.word, dropWhile_stop tail he.word, Scan.before]

theorem isPrefixOf_stop {sign : List Char} (hs : e ∉ sign) (cs : List Char) :
    sign.isPrefixOf (cs ++ e :: tail) = sign.isPrefixOf cs := by
  induction sign generalizing cs with
  | nil => simp
  | cons s sign ih =>
    simp only [List.mem_cons, not_or] at hs
    cases cs with
    | nil => simp [List.isPrefixOf, Ne.symm hs.1]
    | cons c cs => simp only [List.cons_append, List.isPrefixOf, ih hs.2]

theorem scanSign_stop (he : Separates e) (glued : Bool) (c : Char) (cs : List Char) :
    scanSign glued c (cs ++ e :: tail) = (scanSign glued c cs).before (e :: tail) := by
  have hfind : (signs glued).find? (fun s => s.1.isPrefixOf (c :: (cs ++ e :: tail))) =
      (signs glued).find? fun s => s.1.isPrefixOf (c :: cs) := by
    rw [← List.head?_filter, ← List.head?_filter]
    refine congrArg _ (List.filter_congr fun s hs => ?_)
    exact isPrefixOf_stop tail (he.sign s (mem_gluedSignTable hs)) (c :: cs)
  rw [scanSign_eq, scanSign_eq, hfind]
  split
  · next s h =>
    have hp := List.find?_some h
    have hlen := (List.isPrefixOf_iff_prefix.mp hp).length_le
    simp only [Scan.before, ← List.cons_append, List.drop_append_of_le_length hlen]
  · rfl

/-- **A scan does not look past a separator**, if it is not inside a string there. -/
theorem scan_stop (he : Separates e) {glued : Bool} {c : Char} {cs : List Char}
    (hstring : c = '"' ∨ c = '\'' →
      scanString c (cs ++ e :: tail) = (scanString c cs).before (e :: tail)) :
    scan glued c (cs ++ e :: tail) = (scan glued c cs).before (e :: tail) := by
  unfold scan
  split_ifs with hq
  · exact hstring hq
  · exact scanNumber_stop tail he (c :: cs)
  · exact scanWord_stop tail he (c :: cs)
  · exact scanSign_stop tail he glued c cs

/-- **No lexeme begins with a separator**, unless it is a quote. -/
theorem scan_separator (he : Separates e) (hquote : ¬ (e = '"' ∨ e = '\'')) (glued : Bool)
    (cs : List Char) : scan glued e cs = ⟨.error (.unexpectedCharacter e), [], e :: cs⟩ := by
  have hscan : scan glued e cs = scanSign glued e cs := by
    unfold scan
    rw [if_neg hquote, if_neg (by simp [he.digit]), if_neg (by simp [he.beginsWord])]
  rw [hscan, scanSign_eq]
  split
  · next s hs =>
    have hmem : s ∈ signs glued := List.mem_of_find?_eq_some hs
    have hstarts := List.find?_some hs
    have hprefix : s.1 <+: e :: cs := List.isPrefixOf_iff_prefix.mp hstarts
    obtain ⟨-, hne, -⟩ := spelled_of_mem_signs hmem
    obtain ⟨c, sign, hsign⟩ := List.exists_cons_of_ne_nil hne
    rw [hsign, List.cons_prefix_cons] at hprefix
    have hin : e ∈ s.1 := by rw [hsign, hprefix.1]; exact .head _
    exact absurd hin (he.sign s (mem_gluedSignTable hmem))
  · rfl

/-! ### Strings -/

theorem stringBody_newline {quote : Char} (hq : quote ≠ '\\') (cs : List Char) :
    stringBody quote (cs ++ '\n' :: tail) =
      ((stringBody quote cs).1, (stringBody quote cs).2 ++ '\n' :: tail) := by
  fun_induction stringBody quote cs with
  | case1 => simp [stringBody]
  | case2 cs => simp [stringBody]
  | case3 c cs hc r ih =>
    simp only [List.cons_append, stringBody, hc, if_false, ih]
    rfl
  | case4 c cs hesc hc =>
    have hb : c ≠ '\\' := by rcases hc with rfl | rfl; exacts [hq, by decide]
    simp [stringBody, hb, hc]
  | case5 c cs hesc hc r ih =>
    -- A backslash here is the last character, and the line end after it is not taken along.
    by_cases hb : c = '\\'
    · subst hb
      cases cs with
      | nil => simp [stringBody, r]
      | cons d ds => exact absurd rfl (hesc d ds rfl)
    · simp [stringBody, hb, hc, ih, r]

theorem scanString_newline {quote : Char} (hq : quote = '"' ∨ quote = '\'') (cs : List Char) :
    scanString quote (cs ++ '\n' :: tail) = (scanString quote cs).before ('\n' :: tail) := by
  have hne : quote ≠ '\\' ∧ '\n' ≠ quote := by rcases hq with rfl | rfl <;> decide
  unfold scanString
  rw [stringBody_newline tail hne.1]
  rcases stringBody quote cs with ⟨body, _ | ⟨c, rest⟩⟩
  · simp [hne.2, Scan.before]
  · by_cases hc : c = quote <;> simp [hc, Scan.before]

/-- The body of a string that is closed stays as it is, whatever follows. -/
theorem stringBody_closed {quote : Char} (hq : quote ≠ '\\') (cs : List Char) {c : Char}
    {rest : List Char} (h : (stringBody quote cs).2 = c :: rest) :
    stringBody quote (cs ++ tail) = ((stringBody quote cs).1, c :: rest ++ tail) := by
  fun_induction stringBody quote cs with
  | case1 => cases h
  | case2 cs => cases h; simp [stringBody]
  | case3 d cs hd r ih =>
    simp only [List.cons_append, stringBody, hd, if_false, ih h]
    rfl
  | case4 d cs hesc hd =>
    have hb : d ≠ '\\' := by rcases hd with rfl | rfl; exacts [hq, by decide]
    cases h
    simp [stringBody, hb, hd]
  | case5 d cs hesc hd r ih =>
    by_cases hb : d = '\\'
    · subst hb
      cases cs with
      | nil => simp [stringBody, r] at h
      | cons d ds => exact absurd rfl (hesc d ds rfl)
    · simp [stringBody, hb, hd, ih h, r]

/-- A string that stops before the end of the text stays as it is, whatever follows. -/
theorem scanString_settled {quote : Char} (hq : quote = '"' ∨ quote = '\'') {cs : List Char}
    (h : (stringBody quote cs).2 ≠ []) :
    scanString quote (cs ++ tail) = (scanString quote cs).before tail := by
  have hne : quote ≠ '\\' := by rcases hq with rfl | rfl <;> decide
  unfold scanString
  rcases hbody : stringBody quote cs with ⟨body, _ | ⟨c, rest⟩⟩
  · rw [hbody] at h
    exact absurd rfl h
  · rw [stringBody_closed tail hne cs (congrArg Prod.snd hbody), hbody]
    by_cases hc : c = quote <;> simp [hc, Scan.before]

theorem scanString_closed {quote : Char} (hq : quote = '"' ∨ quote = '\'') {cs : List Char}
    {k : Kind} (h : (scanString quote cs).outcome = .ok k) :
    scanString quote (cs ++ tail) = (scanString quote cs).before tail := by
  refine scanString_settled tail hq fun hopen => ?_
  unfold scanString at h
  rcases hbody : stringBody quote cs with ⟨body, _ | ⟨c, rest⟩⟩
  · rw [hbody] at h
    cases h
  · rw [hbody] at hopen
    cases hopen

/-- **A scan does not look past a line end.** -/
theorem scan_newline (glued : Bool) (c : Char) (cs : List Char) :
    scan glued c (cs ++ '\n' :: tail) = (scan glued c cs).before ('\n' :: tail) :=
  scan_stop tail separates_newline fun hq => scanString_newline tail hq cs

/-- **A lexeme that is found before a blank** is found there whatever follows the blank. -/
theorem scan_space {glued : Bool} {c : Char} {cs : List Char} {k : Kind}
    (h : (scan glued c cs).outcome = .ok k) :
    scan glued c (cs ++ ' ' :: tail) = (scan glued c cs).before (' ' :: tail) := by
  refine scan_stop tail separates_space fun hq => scanString_closed _ hq (k := k) ?_
  rwa [scan, if_pos hq] at h

/-! ### Gaps in a text that goes on -/

/-- A gap by itself is passed over as a gap. -/
theorem gap_gap (inComment : Bool) (cs : List Char) :
    gap inComment (gap inComment cs).1 = ((gap inComment cs).1, []) := by
  fun_induction gap inComment cs with
  | case1 | case2 | case6 => rfl
  | case3 c cs hc r ih =>
    simp only [r, gap, hc, if_true, if_false, ih]
  | case4 b c cs hb hs r ih =>
    cases Bool.not_eq_true b ▸ hb
    simp only [r, gap, Bool.false_eq_true, hs, if_true, if_false, ih]
  | case5 b c cs hb hs hc r ih =>
    cases Bool.not_eq_true b ▸ hb
    obtain ⟨rfl, hhead⟩ := hc
    -- The second slash is passed over too, so that both still open a comment.
    have hslash : (gap true cs).1.head? = some '/' := by
      cases cs with
      | nil => cases hhead
      | cons d cs =>
        cases hhead
        simp [gap]
    simp [r, gap, hs, hslash, ih]

/-- A gap that ends before the end of the text stays as it is. A comment might begin with the last
character of the text only if a slash followed it. -/
theorem gap_stop (he : e ≠ '/') {inComment : Bool} {cs : List Char}
    (h : (gap inComment cs).2 ≠ []) :
    gap inComment (cs ++ e :: tail) =
      ((gap inComment cs).1, (gap inComment cs).2 ++ e :: tail) := by
  fun_induction gap inComment cs with
  | case1 => exact absurd rfl h
  | case2 cs => simp [gap]
  | case3 c cs hc r ih => simp only [r, List.cons_append, gap, if_true, hc, if_false, ih h]
  | case4 b c cs hb hs r ih =>
    cases Bool.not_eq_true b ▸ hb
    simp [gap, hs, ih h, r]
  | case5 b c cs hb hs hc r ih =>
    cases Bool.not_eq_true b ▸ hb
    have hc' : c = '/' ∧ (cs ++ e :: tail).head? = some '/' := by
      cases cs with
      | nil => simp at hc
      | cons d cs => simpa using hc
    simp only [r, List.cons_append, gap, Bool.false_eq_true, if_false, hs, if_pos hc', ih h]
  | case6 b c cs hb hs hc =>
    cases Bool.not_eq_true b ▸ hb
    have hc' : ¬ (c = '/' ∧ (cs ++ e :: tail).head? = some '/') := by
      cases cs with
      | nil => simp [he]
      | cons d cs => simpa using hc
    simp only [List.cons_append, gap, Bool.false_eq_true, if_false, hs, if_neg hc']

/-- A gap that takes the whole text takes what follows as a gap too, inside a comment or not. -/
theorem gap_through {inComment : Bool} {cs : List Char} (h : (gap inComment cs).2 = []) :
    ∃ b, ∀ tail, gap inComment (cs ++ tail) = (cs ++ (gap b tail).1, (gap b tail).2) := by
  fun_induction gap inComment cs with
  | case1 inComment => exact ⟨inComment, fun _ => rfl⟩
  | case2 | case6 => cases h
  | case3 c cs hc r ih =>
    obtain ⟨b, hb⟩ := ih h
    exact ⟨b, fun tail => by simp only [List.cons_append, gap, if_true, hc, if_false, hb]⟩
  | case4 b c cs hb hs r ih =>
    cases Bool.not_eq_true b ▸ hb
    obtain ⟨b, hb⟩ := ih h
    exact ⟨b, fun tail => by simp [gap, hs, hb]⟩
  | case5 b c cs hb hs hc r ih =>
    cases Bool.not_eq_true b ▸ hb
    obtain ⟨b, hb⟩ := ih h
    refine ⟨b, fun tail => ?_⟩
    have hc' : c = '/' ∧ (cs ++ tail).head? = some '/' := by
      cases cs with
      | nil => simp at hc
      | cons d cs => simpa using hc
    simp only [List.cons_append, gap, Bool.false_eq_true, if_false, hs, if_pos hc', hb]

/-- **A gap that ends before a line end stays as it is; any other takes in the gap after the line
end.** -/
theorem gap_newline (inComment : Bool) (cs : List Char) :
    gap inComment (cs ++ '\n' :: tail) =
      if (gap inComment cs).2 = [] then (cs ++ '\n' :: (gap false tail).1, (gap false tail).2)
      else ((gap inComment cs).1, (gap inComment cs).2 ++ '\n' :: tail) := by
  split_ifs with h
  · obtain ⟨b, hb⟩ := gap_through h
    have hline : gap b ('\n' :: tail) = ('\n' :: (gap false tail).1, (gap false tail).2) := by
      cases b <;> simp [gap, isSpace]
    rw [hb, hline]
  · exact gap_stop tail (by decide) h

end CommandShell.Lexer
