import CommandShell.Proofs.Lexing.Comments
import CommandShell.Proofs.Phrases.Pieces
import CommandShell.Proofs.Sessions.Lines

/-! # Cutting: the lines of a file and the lines of the lexer

A file is cut into lines, and a session puts the lines of a command together again with line feeds.
The cut is made at more characters than the line feed; the lexer knows none of the others as a line
end, and reads them inside strings and comments only. So a file that can be read is cut inside a
string or a comment wherever it holds one of them (`ReadsAs.cut`).

A string that is cut is no string any more, and the file can no longer be read. A comment that is
cut ends there, and what was left of it is read as more of the program. Hence the file is read as
the same words exactly if no string is cut and what is cut off the comments holds no token
(`tokenize_unlines_lines`). -/

namespace CommandShell

/-! ### Line ends -/

namespace Text

/-- The line ends besides line feed and carriage return. -/
def strayEnds : List Char :=
  ['\x0b', '\x0c', '\x1c', '\x1d', '\x1e', '\u0085', '\u2028', '\u2029']

theorem mem_strayEnds {c : Char} (h : isLineEnd c = true) (hfeed : c ≠ '\n') (hreturn : c ≠ '\r') :
    c ∈ strayEnds := by
  have hcases : c.toNat = 10 ∨ c.toNat = 11 ∨ c.toNat = 12 ∨ c.toNat = 13 ∨ c.toNat = 0x1c ∨
      c.toNat = 0x1d ∨ c.toNat = 0x1e ∨ c.toNat = 0x85 ∨ c.toNat = 0x2028 ∨ c.toNat = 0x2029 := by
    simp only [isLineEnd, Bool.or_eq_true, Bool.and_eq_true, decide_eq_true_eq, beq_iff_eq] at h
    omega
  have hc : Char.ofNat c.toNat = c := Char.ofNat_toNat c
  rcases hcases with h | h | h | h | h | h | h | h | h | h <;> rw [h] at hc <;> subst hc
  · exact absurd rfl hfeed
  · decide
  · decide
  · exact absurd rfl hreturn
  all_goals decide

/-- A text with a line feed for each line end. -/
def leveled (cs : List Char) : List Char := cs.map fun c => if isLineEnd c then '\n' else c

theorem linesFrom_eq_nil (begun cs : List Char) (h : linesFrom begun cs = []) :
    begun = [] ∧ cs = [] := by
  fun_induction linesFrom begun cs with
  | case1 begun hbegun => exact ⟨List.isEmpty_iff.mp hbegun, rfl⟩
  | case2 | case3 | case4 => cases h
  | case5 begun c rest _ hc ih => exact absurd (ih h).1 (List.cons_ne_nil c begun)

theorem intercalate_cons (l m : List Char) (ls : List (List Char)) :
    ['\n'].intercalate (l :: m :: ls) = l ++ '\n' :: ['\n'].intercalate (m :: ls) := by
  rw [List.intercalate_cons_cons, List.append_assoc, List.singleton_append]

/-- **The lines of a text, put together with line feeds**, are the text with line feeds for line
ends, without the one at its end. -/
theorem leveled_eq_intercalate : ∀ (cs begun : List Char), '\r' ∉ cs →
    begun.reverse ++ leveled cs = ['\n'].intercalate (linesFrom begun cs) ∨
      begun.reverse ++ leveled cs = ['\n'].intercalate (linesFrom begun cs) ++ ['\n']
  | [], begun, _ => by
    refine Or.inl ?_
    cases begun <;> simp [leveled, linesFrom]
  | c :: cs, begun, h => by
    rw [List.mem_cons, not_or] at h
    have hlines : linesFrom begun (c :: cs) =
        if isLineEnd c then begun.reverse :: linesFrom [] cs else linesFrom (c :: begun) cs := by
      rw [linesFrom]
      exact fun _ hc => absurd hc.symm h.1
    rw [hlines]
    by_cases hc : isLineEnd c
    · have hleveled : leveled (c :: cs) = '\n' :: leveled cs := by simp [leveled, hc]
      rw [hleveled, if_pos hc]
      have ih := leveled_eq_intercalate cs [] h.2
      cases hrest : linesFrom [] cs with
      | nil =>
        obtain ⟨-, rfl⟩ := linesFrom_eq_nil [] cs hrest
        exact Or.inr (by simp [leveled])
      | cons l ls =>
        rw [hrest] at ih
        rw [intercalate_cons, List.append_assoc, List.cons_append]
        exact ih.imp (congrArg (begun.reverse ++ '\n' :: ·)) (congrArg (begun.reverse ++ '\n' :: ·))
    · have hleveled : leveled (c :: cs) = c :: leveled cs := by simp [leveled, hc]
      have ih := leveled_eq_intercalate cs (c :: begun) h.2
      rw [hleveled, if_neg hc]
      simpa using ih

/-! ### Pieces -/

/-- What is cut off a line: the pieces behind its first line end. -/
def cutOff (line : List Char) : List (List Char) := (line.splitOnP isLineEnd).tail

/-- What is cut off the lines of the lexer. -/
def strays (s : String) : List String :=
  ((s.toList.splitOn '\n').flatMap cutOff).map String.ofList

theorem leveled_eq_self {cs : List Char} (h : ∀ c ∈ cs, isLineEnd c = true → c = '\n') :
    leveled cs = cs := by
  refine (List.map_congr_left fun c hc => ?_).trans (List.map_id cs)
  split_ifs with hend
  · exact (h c hc hend).symm
  · rfl

theorem leveled_eq_pieces (cs : List Char) :
    leveled cs = ['\n'].intercalate (cs.splitOnP isLineEnd) := by
  induction cs with
  | nil => simp [leveled]
  | cons c cs ih =>
    have hcons : leveled (c :: cs) = (if isLineEnd c then '\n' else c) :: leveled cs := rfl
    obtain ⟨p, ps, hps⟩ := List.exists_cons_of_ne_nil (List.splitOnP_ne_nil isLineEnd cs)
    rw [hcons, ih, List.splitOnP_cons_eq_if_modifyHead, hps]
    by_cases hc : isLineEnd c
    · simp [hc]
    · cases ps <;> simp [hc]

theorem not_mem_of_mem_splitOn (cs : List Char) :
    ∀ line ∈ cs.splitOn '\n', '\n' ∉ line ∧ line ⊆ cs := by
  induction cs with
  | nil => simp
  | cons c cs ih =>
    obtain ⟨l, ls, hls⟩ := List.exists_cons_of_ne_nil (List.splitOn_ne_nil '\n' cs)
    rw [hls] at ih
    rw [List.splitOn_cons_eq_if_modifyHead, hls]
    obtain ⟨⟨hl, hsub⟩, hrest⟩ := List.forall_mem_cons.mp ih
    have hlater : ∀ line ∈ ls, '\n' ∉ line ∧ line ⊆ c :: cs := fun line hline =>
      ⟨(hrest line hline).1, List.subset_cons_of_subset c (hrest line hline).2⟩
    by_cases hc : c = '\n'
    · simp only [hc, beq_self_eq_true, if_true] at hlater ⊢
      refine List.forall_mem_cons.mpr ⟨by simp, List.forall_mem_cons.mpr ⟨?_, hlater⟩⟩
      exact ⟨hl, List.subset_cons_of_subset _ hsub⟩
    · simp only [beq_iff_eq, hc, if_false, List.modifyHead_cons]
      refine List.forall_mem_cons.mpr ⟨⟨?_, List.cons_subset_cons c hsub⟩, hlater⟩
      exact List.not_mem_cons_of_ne_of_not_mem (Ne.symm hc) hl

end Text

namespace Lexer

open Text

/-! ### A cut in a text that is read -/

variable {e : Char}

theorem separates_of_mem (h : e ∈ strayEnds) : Separates e := by
  simp only [strayEnds, List.mem_cons, List.not_mem_nil, or_false] at h
  rcases h with rfl | rfl | rfl | rfl | rfl | rfl | rfl | rfl <;>
    exact ⟨by decide +kernel, by decide +kernel, by decide⟩

/-- Outside strings and comments, no stray line end is known to the lexer. -/
theorem unknown_of_mem (h : e ∈ strayEnds) : isSpace e = false ∧ e ≠ '\n' ∧ e ≠ '/' ∧
    e ≠ '\\' ∧ ¬ (e = '"' ∨ e = '\'') := by
  simp only [strayEnds, List.mem_cons, List.not_mem_nil, or_false] at h
  rcases h with rfl | rfl | rfl | rfl | rfl | rfl | rfl | rfl <;> decide

/-- A string that is open where the text goes on takes the next character in. -/
theorem mem_stringBody_of_open {quote : Char} (hquote : e ≠ quote) (hfeed : e ≠ '\n')
    (hslash : e ≠ '\\') (tail cs : List Char) (h : (stringBody quote cs).2 = []) :
    e ∈ (stringBody quote (cs ++ e :: tail)).1 := by
  fun_induction stringBody quote cs with
  | case1 => simp [stringBody, hquote, hfeed, hslash]
  | case2 | case4 => cases h
  | case3 c cs hc r ih => simp [stringBody, hc, ih h]
  | case5 c cs hesc hc r ih =>
    by_cases hb : c = '\\'
    · subst hb
      cases cs with
      | nil => simp [stringBody, hfeed]
      | cons d ds => exact absurd rfl (hesc d ds rfl)
    · simp [stringBody, hb, hc, ih h]

theorem mem_passed_of_mem_body {quote : Char} {cs : List Char}
    (h : e ∈ (stringBody quote cs).1) : e ∈ (scanString quote cs).passed := by
  unfold scanString
  rcases hbody : stringBody quote cs with ⟨body, _ | ⟨c, rest⟩⟩ <;> rw [hbody] at h
  · simp [h]
  · by_cases hc : c = quote <;> simp [hc, h]

/-- Where only a gap stands before a stray line end, the line can be read on only if the gap ends in
a comment, and then it has no token behind the line end either. -/
theorem next_cut_end (he : e ∈ strayEnds) {tail : List Char} (htail : '\n' ∉ tail) {l : Lexer}
    (h : l.skipGap.rest = []) {t : Token} (ht : (l.before (e :: tail)).next.1 = .ok t) :
    t.isEof = true := by
  obtain ⟨hspace, hfeed, hslash, -, hquote⟩ := unknown_of_mem he
  obtain ⟨inComment, hgap⟩ := gap_through (show (gap false l.rest).2 = [] from h)
  have hrest : (l.before (e :: tail)).skipGap.rest = (gap inComment (e :: tail)).2 := by
    simp only [skipGap, before, hgap]
  cases inComment with
  | false =>
    have hstop : (gap false (e :: tail)).2 = e :: tail := by simp [gap, hspace, hslash]
    have hscan := scan_separator (separates_of_mem he) hquote
    rw [next_of_scan_error (hrest.trans hstop) (hscan _ tail)] at ht
    cases ht
  | true =>
    have hnote : '\n' ∉ e :: tail := List.not_mem_cons_of_ne_of_not_mem (Ne.symm hfeed) htail
    rw [gap_note hnote] at hrest
    exact isEof_of_behindNote ((readToken_note hrest).symm.trans ht)

/-- A gap that ends before a stray line end is the same whether the line goes on or not. -/
theorem skipGap_cut (he : e ∈ strayEnds) (tail : List Char) {l : Lexer}
    (hne : l.skipGap.rest ≠ []) :
    (l.before (e :: tail)).skipGap = l.skipGap.before (e :: tail) := by
  obtain ⟨-, -, hslash, -⟩ := unknown_of_mem he
  have hgap := gap_stop tail hslash (show (gap false l.rest).2 ≠ [] from hne)
  simp only [skipGap, before, hgap]

/-- No lexeme goes on over a stray line end, except a string. -/
theorem next_before_cut (he : e ∈ strayEnds) (tail : List Char) {l : Lexer}
    (hne : l.skipGap.rest ≠ [])
    (hclosed : ∀ quote cs, l.skipGap.rest = quote :: cs → quote = '"' ∨ quote = '\'' →
      (stringBody quote cs).2 ≠ []) :
    (l.before (e :: tail)).next = (l.next.1, l.next.2.before (e :: tail)) := by
  obtain ⟨-, -, hslash, -⟩ := unknown_of_mem he
  refine next_before_of hne (gap_stop tail hslash hne) fun c cs hcs => ?_
  exact scan_stop tail (separates_of_mem he) fun hquote =>
    scanString_settled _ hquote (hclosed c cs hcs hquote)

/-- A string that is open at a stray line end takes it in; where the text ends there, it is a
fault. -/
theorem next_cut_string (he : e ∈ strayEnds) (tail : List Char) {l : Lexer} {quote : Char}
    {cs : List Char} (hrest : l.skipGap.rest = quote :: cs) (hquote : quote = '"' ∨ quote = '\'')
    (hopen : (stringBody quote cs).2 = []) :
    (∃ fault, l.next.1 = .error fault) ∧
      ∀ t, (l.before (e :: tail)).next.1 = .ok t → e ∈ t.lexeme.toList := by
  obtain ⟨-, hfeed, -, hescape, hno⟩ := unknown_of_mem he
  constructor
  · have hscan : scan l.skipGap.touchesOperand quote cs =
        ⟨.error .unterminatedString, quote :: (stringBody quote cs).1, []⟩ := by
      unfold scan scanString
      rw [if_pos hquote, ← Prod.eta (stringBody quote cs), hopen]
    rw [next_of_scan_error hrest hscan]
    exact ⟨_, rfl⟩
  · intro t ht
    have hne : e ≠ quote := by
      rintro rfl
      exact hno hquote
    have hmem : e ∈ (scanString quote (cs ++ e :: tail)).passed :=
      mem_passed_of_mem_body (mem_stringBody_of_open hne hfeed hescape tail cs hopen)
    have hskip : (l.skipGap.before (e :: tail)).rest = quote :: (cs ++ e :: tail) := by
      rw [before, hrest]
      rfl
    have hahead : (l.before (e :: tail)).skipGap.rest = quote :: (cs ++ e :: tail) := by
      rw [skipGap_cut he tail (hrest ▸ List.cons_ne_nil quote cs), hskip]
    rcases hscan : scan (l.before (e :: tail)).skipGap.touchesOperand quote (cs ++ e :: tail) with
      ⟨fault | kind, passed, rest⟩
    · rw [next_of_scan_error hahead hscan] at ht
      cases ht
    · rw [next_of_scan_ok hahead hscan] at ht
      cases ht
      rw [scan, if_pos hquote] at hscan
      rw [hscan] at hmem
      simpa using hmem

/-- **A line that is read to its end**, with a stray line end in it: either the tokens all stand
before that, or the text before it cannot be read and one of the tokens has it in its lexeme. -/
theorem read_cut (he : e ∈ strayEnds) {tail : List Char} (htail : '\n' ∉ tail) :
    ∀ (count : Nat) (l : Lexer) {t : Token}, 1 ≤ l.place.line →
      (read count (l.before (e :: tail))).ending = some (.ok t) →
      ((∃ u, (read count l).ending = some (.ok u)) ∧
        (read count l).tokens = (read count (l.before (e :: tail))).tokens) ∨
      (∃ fault, (read count l).ending = some (.error fault)) ∧
        ∃ u ∈ (read count (l.before (e :: tail))).tokens, e ∈ u.lexeme.toList
  | 0, _, _, _, h => nomatch h
  | count + 1, l, t, hl, h => by
    rcases hlong : (l.before (e :: tail)).next with ⟨_ | u, m⟩
    · simp [read, hlong] at h
    have hfound : (l.before (e :: tail)).next.1 = .ok u := congrArg Prod.fst hlong
    by_cases hr : l.skipGap.rest = []
    · -- Only a gap is left before the line end, and no token behind it.
      have hu : u.isEof = true := next_cut_end he htail hr hfound
      rcases hnext : l.next with ⟨given, l'⟩
      obtain ⟨v, rfl, hv⟩ := next_end hr hnext
      have hread : read (count + 1) l = ⟨[], some (.ok v), l'⟩ := by
        simp [read, hnext, Token.isEof, hv]
      have hread' : (read (count + 1) (l.before (e :: tail))).tokens = [] := by
        simp only [read, hlong, hu, if_true]
      rw [hread, hread']
      exact Or.inl ⟨⟨v, rfl⟩, rfl⟩
    have hproper : u.kind ≠ .eof := by
      rcases next_ok (l := l.before (e :: tail)) hl hlong with ⟨-, hend⟩ | ⟨hu, -⟩
      · rw [skipGap_cut he tail hr, before] at hend
        exact absurd hend (by simp)
      · exact hu.kind_ne_eof
    rw [read_step hlong hproper] at h ⊢
    by_cases hstring : ∃ quote cs, l.skipGap.rest = quote :: cs ∧ (quote = '"' ∨ quote = '\'') ∧
        (stringBody quote cs).2 = []
    · obtain ⟨quote, cs, hrest, hquote, hopen⟩ := hstring
      obtain ⟨⟨fault, hfault⟩, htakes⟩ := next_cut_string he tail hrest hquote hopen
      have hread : (read (count + 1) l).ending = some (.error fault) := by
        rw [read, ← Prod.eta l.next, hfault]
      exact Or.inr ⟨⟨fault, hread⟩, u, .head _, htakes u hfound⟩
    · have hnext := next_before_cut he tail hr fun quote cs hrest hquote hopen =>
        hstring ⟨quote, cs, hrest, hquote, hopen⟩
      rw [hlong] at hnext
      rcases hshort : l.next with ⟨given, l'⟩
      rw [hshort] at hnext
      cases hnext
      have hl' : 1 ≤ l'.place.line := by
        have hline := line_le_next l
        rw [hshort] at hline
        exact Int.le_trans hl hline
      rw [read_step hshort hproper]
      rcases read_cut he htail count l' hl' h with ⟨hend, htokens⟩ | ⟨hfault, v, hv, hmem⟩
      · exact Or.inl ⟨hend, congrArg (u :: ·) htokens⟩
      · exact Or.inr ⟨hfault, v, .tail u hv, hmem⟩

end Lexer

/-! ### Texts by their words -/

/-- The text is read without a fault, and its tokens before the end have these words. -/
def ReadsAs (cs : List Char) (ws : List Word) : Prop :=
  ∃ t, (Tokens.ofChars cs).ending = .ok t ∧ (Tokens.ofChars cs).items.toList.map Token.word = ws

namespace ReadsAs

variable {cs ds : List Char} {us vs ws : List Word}

theorem unique (h : ReadsAs cs us) (h' : ReadsAs cs vs) : us = vs := by
  obtain ⟨-, -, rfl⟩ := h
  obtain ⟨-, -, rfl⟩ := h'
  rfl

theorem nil : ReadsAs [] [] := ⟨.atEnd 1 1, rfl, rfl⟩

theorem mem_of_mem (h : ReadsAs cs ws) : ∀ w ∈ ws, ∀ c ∈ w.2.toList, c ∈ cs := by
  obtain ⟨t, ht, rfl⟩ := h
  intro w hw c hc
  obtain ⟨u, hu, rfl⟩ := List.mem_map.mp hw
  exact (Tokens.layout_ofChars ht).mem_of_mem u (List.mem_append_left _ hu) c hc

/-- **Two texts with a line feed between them** are read as the words of both. -/
theorem join : ReadsAs (cs ++ '\n' :: ds) ws ↔
    ∃ us vs, ReadsAs cs us ∧ ReadsAs ds vs ∧ us ++ vs = ws := by
  have hword : Token.word ∘ Token.down (cs.count '\n' + 1) = Token.word := rfl
  unfold ReadsAs
  rw [Tokens.ofChars_join, Tokens.join]
  cases hfirst : (Tokens.ofChars cs).ending with
  | error e => simp [hfirst]
  | ok t =>
    cases hsecond : (Tokens.ofChars ds).ending with
    | error e => simp [givenDown, Except.map, Except.mapError]
    | ok u => simp [givenDown, Except.map, Except.mapError, hword]

theorem join_nil : ReadsAs (cs ++ '\n' :: ds) [] ↔ ReadsAs cs [] ∧ ReadsAs ds [] := by
  simp [join]

/-- A line feed at the end of a text adds no word. -/
theorem concat_newline : ReadsAs (cs ++ ['\n']) ws ↔ ReadsAs cs ws := by
  rw [join]
  constructor
  · rintro ⟨us, vs, hus, hvs, rfl⟩
    rwa [hvs.unique nil, List.append_nil]
  · exact fun h => ⟨ws, [], h, nil, List.append_nil ws⟩

/-- The word of the end token. -/
def endWord : Word := (.eof, "")

/-- What a caller is given for a text that is read. -/
theorem map_tokenize {s : String} (h : ReadsAs s.toList ws) :
    (tokenize s).map (List.map Token.word) = .ok (ws ++ [endWord]) := by
  obtain ⟨t, ht, rfl⟩ := h
  have hend : t.word = endWord := by
    have hk : t.kind = .eof := (Tokens.lexed_ofChars s.toList).ending_eof t ht
    have hlexeme := (Tokens.layout_ofChars ht).lexeme_of_eof t (by simp) hk
    rw [Token.word, hk, hlexeme, endWord]
  rw [tokenize_eq, ht]
  simp [Except.map, hend]

theorem of_tokenize {s : String} {toks : List Token} (h : tokenize s = .ok toks) :
    ∃ ws, ReadsAs s.toList ws ∧ toks.map Token.word = ws ++ [endWord] := by
  have htoks := h
  rw [tokenize_eq] at htoks
  cases ht : (Tokens.ofChars s.toList).ending with
  | error e =>
    rw [ht] at htoks
    cases htoks
  | ok t =>
    have hreads : ReadsAs s.toList ((Tokens.ofChars s.toList).items.toList.map Token.word) :=
      ⟨t, ht, rfl⟩
    have hwords := hreads.map_tokenize
    rw [h] at hwords
    exact ⟨_, hreads, Except.ok.inj hwords⟩

theorem iff_tokenize {s : String} : ReadsAs s.toList ws ↔
    (tokenize s).map (List.map Token.word) = .ok (ws ++ [endWord]) := by
  refine ⟨map_tokenize, fun h => ?_⟩
  cases htoks : tokenize s with
  | error e =>
    rw [htoks] at h
    cases h
  | ok toks =>
    obtain ⟨us, hus, hwords⟩ := of_tokenize htoks
    rw [htoks, Except.map, hwords] at h
    rwa [List.append_cancel_right (Except.ok.inj h)] at hus

/-- A text without a word is read as the end token only. -/
theorem nil_iff_tokenize {s : String} : ReadsAs s.toList [] ↔ ∃ t, tokenize s = .ok [t] := by
  constructor
  · intro h
    have hwords := h.map_tokenize
    cases htoks : tokenize s with
    | error e =>
      rw [htoks] at hwords
      cases hwords
    | ok toks =>
      rw [htoks] at hwords
      obtain ⟨t, rfl, -⟩ := List.map_eq_singleton_iff.mp (Except.ok.inj hwords)
      exact ⟨t, rfl⟩
  · rintro ⟨t, ht⟩
    obtain ⟨us, hus, hwords⟩ := of_tokenize ht
    have hnil : us = [] := by simpa using congrArg List.length hwords
    exact hnil ▸ hus

/-- The end token has no characters. -/
theorem forall_lexeme_iff {toks : List Token} (h : toks.map Token.word = ws ++ [endWord])
    {p : Char → Prop} :
    (∀ t ∈ toks, ∀ c ∈ t.lexeme.toList, p c) ↔ ∀ w ∈ ws, ∀ c ∈ w.2.toList, p c := by
  have hend : ∀ c ∈ endWord.2.toList, p c := fun _ hc => nomatch hc
  have hwords : (∀ w ∈ toks.map Token.word, ∀ c ∈ w.2.toList, p c) ↔
      ∀ w ∈ ws, ∀ c ∈ w.2.toList, p c := by
    rw [h, List.forall_mem_append, List.forall_mem_singleton]
    exact and_iff_left hend
  rw [← hwords, List.forall_mem_map]
  rfl

/-- **A line that is read**, with a stray line end in it: either it reads the same without what
stands behind that, or it does not read without it and one of its words has the line end in it. -/
theorem cut {e : Char} (he : e ∈ Text.strayEnds) (hds : '\n' ∉ ds)
    (h : ReadsAs (cs ++ e :: ds) ws) :
    ReadsAs cs ws ∨ (∀ us, ¬ ReadsAs cs us) ∧ ∃ w ∈ ws, e ∈ w.2.toList := by
  obtain ⟨t, ht, rfl⟩ := h
  have hlt : cs.length < (cs ++ e :: ds).length + 1 := by
    rw [List.length_append]
    omega
  obtain ⟨hitems, hending⟩ := Tokens.read_eq cs hlt
  obtain ⟨hitems', hending'⟩ := Tokens.readAll_eq (cs ++ e :: ds)
  rw [ht] at hending'
  rcases Lexer.read_cut he hds ((cs ++ e :: ds).length + 1) (Lexer.ofChars cs) (Int.le_refl 1)
    hending' with ⟨⟨u, hu⟩, htokens⟩ | ⟨⟨fault, hfault⟩, u, hu, hmem⟩
  · refine Or.inl ⟨u, Option.some.inj (hending.symm.trans hu), ?_⟩
    rw [← hitems, ← hitems', htokens]
    rfl
  · refine Or.inr ⟨?_, u.word, List.mem_map_of_mem (hitems' ▸ hu), hmem⟩
    rintro us ⟨v, hv, -⟩
    rw [hv, hfault] at hending
    cases hending

end ReadsAs

/-! ### What the cut does -/

open Text

/-- What the cut does to a text that is read as some words. No word is lost; and the words stay as
they are exactly if no lexeme is cut and what is cut off has no words. -/
structure Cuts (cs : List Char) (ws : List Word) (pieces : List (List Char)) : Prop where
  keeps : ∀ xs, ReadsAs (leveled cs) xs → ws.Sublist xs
  exact_iff : ReadsAs (leveled cs) ws ↔
    (∀ w ∈ ws, ∀ c ∈ w.2.toList, isLineEnd c = false) ∧ ∀ p ∈ pieces, ReadsAs p []

theorem readsAs_pieces : ∀ {ps : List (List Char)}, ps ≠ [] →
    (ReadsAs (['\n'].intercalate ps) [] ↔ ∀ p ∈ ps, ReadsAs p [])
  | [p], _ => by simp
  | p :: q :: ps, _ => by
    have ih := readsAs_pieces (List.cons_ne_nil q ps)
    rw [intercalate_cons, ReadsAs.join_nil, ih]
    exact (List.forall_mem_cons (p := fun p => ReadsAs p [])).symm

variable {ws : List Word}

/-- A line without a line end in it is not cut. -/
theorem cuts_whole {line : List Char} (hclean : ∀ c ∈ line, isLineEnd c = false)
    (h : ReadsAs line ws) : Cuts line ws (cutOff line) := by
  have hlevel : leveled line = line := leveled_eq_self (by simp_all)
  have hpieces : cutOff line = [] := by
    rw [cutOff, List.splitOnP_eq_singleton hclean]
    rfl
  refine ⟨fun xs hxs => ?_, ?_⟩
  · rw [hlevel] at hxs
    rw [h.unique hxs]
  · rw [hlevel, hpieces]
    exact iff_of_true h ⟨fun w hw c hc => hclean c (h.mem_of_mem w hw c hc), by simp⟩

/-- A line is cut at its first line end: behind its words, or in the lexeme of one. -/
theorem cuts_at {a b : List Char} {e : Char} (hclean : ∀ c ∈ a, isLineEnd c = false)
    (he : isLineEnd e = true) (hstray : e ∈ strayEnds) (hb : '\n' ∉ b)
    (h : ReadsAs (a ++ e :: b) ws) : Cuts (a ++ e :: b) ws (cutOff (a ++ e :: b)) := by
  have hlevel : leveled (a ++ e :: b) = a ++ '\n' :: leveled b := by
    have ha : leveled a = a := leveled_eq_self (by simp_all)
    unfold leveled at ha ⊢
    rw [List.map_append, ha, List.map_cons, if_pos he]
  have hpieces : cutOff (a ++ e :: b) = b.splitOnP isLineEnd := by
    rw [cutOff, List.splitOnP_append_cons_of_forall_mem hclean e he]
    rfl
  have hrest : ReadsAs (leveled b) [] ↔ ∀ p ∈ b.splitOnP isLineEnd, ReadsAs p [] := by
    rw [leveled_eq_pieces, readsAs_pieces (List.splitOnP_ne_nil isLineEnd b)]
  rcases h.cut hstray hb with hkept | ⟨hbroken, w, hw, hmem⟩
  · refine ⟨fun xs hxs => ?_, ?_⟩
    · rw [hlevel, ReadsAs.join] at hxs
      obtain ⟨us, vs, hus, -, rfl⟩ := hxs
      rw [hkept.unique hus]
      exact List.sublist_append_left us vs
    · rw [hlevel, hpieces, ReadsAs.join, ← hrest]
      constructor
      · rintro ⟨us, vs, hus, hvs, heq⟩
        have hnil : vs = [] := by simpa [hkept.unique hus] using heq
        exact ⟨fun w hw c hc => hclean c (hkept.mem_of_mem w hw c hc), hnil ▸ hvs⟩
      · exact fun hpieces => ⟨ws, [], hkept, hpieces.2, List.append_nil ws⟩
  · have hnone : ∀ xs, ¬ ReadsAs (leveled (a ++ e :: b)) xs := by
      intro xs hxs
      rw [hlevel, ReadsAs.join] at hxs
      obtain ⟨us, -, hus, -⟩ := hxs
      exact hbroken us hus
    refine ⟨fun xs hxs => absurd hxs (hnone xs), iff_of_false (hnone ws) fun hall => ?_⟩
    have hfalse := hall.1 w hw e hmem
    rw [he] at hfalse
    cases hfalse

theorem cuts_line {line : List Char} (hfeed : '\n' ∉ line) (hreturn : '\r' ∉ line)
    (h : ReadsAs line ws) : Cuts line ws (cutOff line) := by
  cases hfind : line.find? isLineEnd with
  | none => exact cuts_whole (by simpa using hfind) h
  | some e =>
    obtain ⟨he, a, b, rfl, ha⟩ := List.find?_eq_some_iff_append.mp hfind
    have hstray : e ∈ strayEnds := by
      refine mem_strayEnds he ?_ ?_ <;> rintro rfl
      · exact hfeed (by simp)
      · exact hreturn (by simp)
    exact cuts_at (by simpa using ha) he hstray (fun hmem => hfeed (by simp [hmem])) h

/-- **What the cut does to a text**, from what it does to its lines. -/
theorem cuts_lines : ∀ {ls : List (List Char)} {ws : List Word}, ls ≠ [] →
    (∀ l ∈ ls, '\n' ∉ l ∧ '\r' ∉ l) → ReadsAs (['\n'].intercalate ls) ws →
      Cuts (['\n'].intercalate ls) ws (ls.flatMap cutOff)
  | [l], ws, _, hls, h => by
    obtain ⟨hfeed, hreturn⟩ := hls l (.head _)
    rw [List.intercalate_singleton] at h ⊢
    simpa using cuts_line hfeed hreturn h
  | l :: m :: ls, ws, _, hls, h => by
    obtain ⟨⟨hfeed, hreturn⟩, hrest⟩ := List.forall_mem_cons.mp hls
    rw [intercalate_cons, ReadsAs.join] at h
    obtain ⟨us, vs, hus, hvs, rfl⟩ := h
    have hfirst := cuts_line hfeed hreturn hus
    have hlater := cuts_lines (List.cons_ne_nil m ls) hrest hvs
    have hlevel : leveled (['\n'].intercalate (l :: m :: ls)) =
        leveled l ++ '\n' :: leveled (['\n'].intercalate (m :: ls)) := by
      rw [intercalate_cons, leveled, List.map_append, List.map_cons]
      rfl
    refine ⟨fun xs hxs => ?_, ?_⟩
    · rw [hlevel, ReadsAs.join] at hxs
      obtain ⟨us', vs', hus', hvs', rfl⟩ := hxs
      exact (hfirst.keeps us' hus').append (hlater.keeps vs' hvs')
    · rw [hlevel, ReadsAs.join, List.flatMap_cons, List.forall_mem_append, List.forall_mem_append,
        and_and_and_comm, ← hfirst.exact_iff, ← hlater.exact_iff]
      constructor
      · rintro ⟨us', vs', hus', hvs', heq⟩
        -- Neither part has fewer words than before, so that neither has more.
        have hus := hfirst.keeps us' hus'
        have hvs := hlater.keeps vs' hvs'
        have hlength := congrArg List.length heq
        rw [List.length_append, List.length_append] at hlength
        have hle := hus.length_le
        have hle' := hvs.length_le
        rw [hus.eq_of_length (by omega), hvs.eq_of_length (by omega)]
        exact ⟨hus', hvs'⟩
      · exact fun ⟨hus', hvs'⟩ => ⟨us, vs, hus', hvs', rfl⟩

theorem leveled_eq_unlines {s : String} (h : '\r' ∉ s.toList) :
    leveled s.toList = (unlines (lines s)).toList ∨
      leveled s.toList = (unlines (lines s)).toList ++ ['\n'] := by
  have hlines : (unlines (lines s)).toList = ['\n'].intercalate (linesFrom [] s.toList) := by
    simp [toList_unlines, lines, Function.comp_def]
  rw [hlines]
  exact leveled_eq_intercalate s.toList [] h

/-- The lines of a text, put together again, are read like the text with line feeds for line
ends. -/
theorem readsAs_unlines {s : String} (h : '\r' ∉ s.toList) {ws : List Word} :
    ReadsAs (unlines (lines s)).toList ws ↔ ReadsAs (leveled s.toList) ws := by
  rcases leveled_eq_unlines h with hlevel | hlevel <;> rw [hlevel]
  exact ReadsAs.concat_newline.symm

/-- **The lines of a file are those of the lexer** as far as its strings and comments allow. Let a
text without invisible characters be read as some tokens, and let its lines be put together again
with line feeds. The tokens keep their words exactly if no lexeme has a line end in it, and no token
is in what is cut off the comments. This is so if the text has no line ends but line feeds; then
the lines are put together to the same text, but for a line feed at its end. -/
theorem tokenize_unlines_lines {s : String} {toks : List Token} (hplain : dropInvisible s = s)
    (h : tokenize s = .ok toks) :
    ((tokenize (unlines (lines s))).map (List.map Token.word) = .ok (toks.map Token.word) ↔
      (∀ t ∈ toks, ∀ c ∈ t.lexeme.toList, isLineEnd c = false) ∧
        ∀ piece ∈ strays s, ∃ t, tokenize piece = .ok [t]) ∧
    ((∀ c ∈ s.toList, isLineEnd c = true → c = '\n') →
      (tokenize (unlines (lines s))).map (List.map Token.word) = .ok (toks.map Token.word) ∧
        (unlines (lines s) = s ∨ unlines (lines s) ++ "\n" = s)) := by
  have hreturn : '\r' ∉ s.toList := by
    intro hmem
    rw [← hplain, dropInvisible, String.toList_ofList] at hmem
    simp [isInvisible] at hmem
  obtain ⟨ws, hws, hwords⟩ := ReadsAs.of_tokenize h
  rw [hwords, ← ReadsAs.iff_tokenize, readsAs_unlines hreturn]
  have hlines : ['\n'].intercalate (s.toList.splitOn '\n') = s.toList :=
    List.intercalate_splitOn '\n'
  have hcuts : Cuts s.toList ws ((s.toList.splitOn '\n').flatMap cutOff) := by
    have hls : ∀ l ∈ s.toList.splitOn '\n', '\n' ∉ l ∧ '\r' ∉ l := fun l hl =>
      have hline := not_mem_of_mem_splitOn s.toList l hl
      ⟨hline.1, fun hmem => hreturn (hline.2 hmem)⟩
    have hcuts := cuts_lines (List.splitOn_ne_nil '\n' s.toList) hls (hlines.symm ▸ hws)
    rwa [hlines] at hcuts
  constructor
  · have hpieces : (∀ p ∈ (s.toList.splitOn '\n').flatMap cutOff, ReadsAs p []) ↔
        ∀ piece ∈ strays s, ∃ t, tokenize piece = .ok [t] := by
      simp only [strays, List.forall_mem_map, ← ReadsAs.nil_iff_tokenize, String.toList_ofList]
    rw [hcuts.exact_iff, hpieces, ReadsAs.forall_lexeme_iff hwords]
  · intro hfeeds
    have hlevel : leveled s.toList = s.toList := leveled_eq_self hfeeds
    have hparts := leveled_eq_unlines hreturn
    rw [hlevel] at hparts ⊢
    refine ⟨hws, ?_⟩
    rw [← String.toList_inj, ← String.toList_inj, String.toList_append]
    exact hparts.imp Eq.symm Eq.symm

/-- A comment that is cut where another begins keeps the words as they are, and a text with line
feeds only is put together as it was. -/
theorem tokenize_unlines_lines_note :
    (dropInvisible "x //a\x0c//b\ny" = "x //a\x0c//b\ny" ∧
      (tokenize "x //a\x0c//b\ny").map (List.map Token.word) =
        .ok [(.ident, "x"), (.ident, "y"), (.eof, "")] ∧
      (tokenize (unlines (lines "x //a\x0c//b\ny"))).map (List.map Token.word) =
        .ok [(.ident, "x"), (.ident, "y"), (.eof, "")]) ∧
    dropInvisible "x //a\ny\n" = "x //a\ny\n" ∧
      (unlines (lines "x //a\ny\n") = "x //a\ny\n" ∨
        unlines (lines "x //a\ny\n") ++ "\n" = "x //a\ny\n") := by
  have hplain : dropInvisible "x //a\x0c//b\ny" = "x //a\x0c//b\ny" := by decide +kernel
  have hlex : tokenize "x //a\x0c//b\ny" =
      .ok [⟨.ident, "x", 1, 1⟩, ⟨.ident, "y", 2, 1⟩, .atEnd 2 2] := by decide +kernel
  have hstrays : strays "x //a\x0c//b\ny" = ["//b"] := by decide +kernel
  have hpiece : tokenize "//b" = .ok [.atEnd 1 4] := by decide +kernel
  have hplain' : dropInvisible "x //a\ny\n" = "x //a\ny\n" := by decide +kernel
  have hlex' : tokenize "x //a\ny\n" =
      .ok [⟨.ident, "x", 1, 1⟩, ⟨.ident, "y", 2, 1⟩, .atEnd 3 1] := by decide +kernel
  refine ⟨⟨hplain, by rw [hlex]; rfl, (tokenize_unlines_lines hplain hlex).1.mpr ⟨?_, ?_⟩⟩,
    hplain', ((tokenize_unlines_lines hplain' hlex').2 ?_).2⟩
  · simp [Token.atEnd, isLineEnd]
  · rw [hstrays]
    exact List.forall_mem_singleton.mpr ⟨.atEnd 1 4, hpiece⟩
  · simp [isLineEnd]

/-- A vertical tab in a string ends it, and one in a comment ends that. -/
theorem tokenize_unlines_lines_cut :
    (dropInvisible "f(\"a\x0bb\");" = "f(\"a\x0bb\");" ∧
      tokenize "f(\"a\x0bb\");" =
        .ok [⟨.ident, "f", 1, 1⟩, ⟨.lparen, "(", 1, 2⟩, ⟨.string, "\"a\x0bb\"", 1, 3⟩,
          ⟨.rparen, ")", 1, 8⟩, ⟨.semicolon, ";", 1, 9⟩, .atEnd 1 10] ∧
      tokenize (unlines (lines "f(\"a\x0bb\");")) = .error ⟨.unterminatedString, 1, 3⟩) ∧
    dropInvisible "x //a\x0by" = "x //a\x0by" ∧
      tokenize "x //a\x0by" = .ok [⟨.ident, "x", 1, 1⟩, .atEnd 1 8] ∧
      tokenize (unlines (lines "x //a\x0by")) =
        .ok [⟨.ident, "x", 1, 1⟩, ⟨.ident, "y", 2, 1⟩, .atEnd 2 2] := by
  decide +kernel

end CommandShell
