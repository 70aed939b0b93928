import CommandShell.Proofs.Lexing.Lexemes
import CommandShell.Proofs.Lexing.Places

/-! # Progress: a lexer moves on through its text

A lexer that is called again and again stands at an offset of its text, on the line and in the
column that are counted from the text before it, whether its calls give tokens or faults
(`within_afterCalls`). No call moves it back, and each that gives a token before the end moves it
on; at the end of the text it gives the end token for ever. A fault has the place of the first
character of its lexeme, and `StopsAt` says where it leaves the lexer. So reading all tokens comes
to an end, wherever the calls have led (`exists_tokenizes`).

`Moves` collects what one call does, and `moves_of_calls` says it of every call. -/

namespace CommandShell

@[simp] theorem Place.offset_after (p : Place) (cs : List Char) :
    (p.after cs).offset = p.offset + cs.length := by
  induction cs generalizing p with
  | nil => rfl
  | cons c cs ih =>
    have hstep : (p.step c).offset = p.offset + 1 := by
      unfold step
      split_ifs <;> rfl
    have hafter : p.after (c :: cs) = (p.step c).after cs := rfl
    rw [hafter, ih, hstep, List.length_cons]
    omega

namespace Lexer

/-! ### Where a lexer stands -/

/-- **No call moves a lexer back.** -/
theorem offset_le_of_le (l : Lexer) {j k : Nat} (h : j ≤ k) :
    (l.afterCalls j).place.offset ≤ (l.afterCalls k).place.offset := by
  obtain ⟨passed, -, hplace⟩ := passes_of_le l h
  rw [hplace, Place.offset_after]
  exact Nat.le_add_right _ _

/-- The lexer stands in the text at its offset, on the line and in the column that are counted from
the text before it, and the text behind is ahead of it. -/
structure Within (text : List Char) (l : Lexer) : Prop where
  offset_le : l.place.offset ≤ text.length
  line_eq : l.place.line = 1 + (text.take l.place.offset).count '\n'
  column_eq : l.place.column = 1 + (lastLine (text.take l.place.offset)).length
  rest_eq : l.rest = text.drop l.place.offset

theorem within_of_behind {before : List Char} {l : Lexer} (h : l.place = .behind before) :
    l.Within (before ++ l.rest) := by
  constructor <;> simp [h, Place.behind]

theorem within_afterCalls (text : List Char) (k : Nat) :
    ((ofChars text).afterCalls k).Within text := by
  obtain ⟨passed, hrest, hplace⟩ := passes_of_le (ofChars text) (Nat.zero_le k)
  have hbehind : ((ofChars text).afterCalls k).place = .behind passed :=
    hplace.trans (Place.after_start passed)
  have hwithin := within_of_behind hbehind
  rwa [← show text = passed ++ _ from hrest] at hwithin

/-- The place is the one that is counted from the text before the lexer. -/
theorem Within.place_eq {text : List Char} {l : Lexer} (h : l.Within text) :
    l.place = .behind (text.take l.place.offset) := by
  have hlength : (text.take l.place.offset).length = l.place.offset :=
    List.length_take_of_le h.offset_le
  have hplace : l.place = ⟨l.place.offset, l.place.line, l.place.column⟩ := rfl
  rw [Place.behind, hlength, ← h.line_eq, ← h.column_eq]

theorem Within.skipGap {text : List Char} {l : Lexer} (h : l.Within text) :
    l.skipGap.Within text := by
  have hplace : l.skipGap.place = .behind (text.take l.place.offset ++ (gap false l.rest).1) := by
    rw [← Place.after_behind, ← h.place_eq]
    rfl
  have hwithin := within_of_behind hplace
  rwa [List.append_assoc, rest_skipGap_append, h.rest_eq, List.take_append_drop] at hwithin

/-! ### The end of the text -/

theorem next_of_rest_nil {l : Lexer} (h : l.rest = []) :
    l.next = (.ok (.atEnd l.place.line l.place.column),
      { l with last := some (.atEnd l.place.line l.place.column) }) := by
  have hskip : l.skipGap = l := by
    unfold skipGap
    rw [h]
    obtain ⟨rest, place, last⟩ := l
    exact congrArg (fun cs => Lexer.mk cs place last) h.symm
  rw [next_of_gap (hskip.symm ▸ h), hskip, h]

/-- **At the end of the text a lexer gives the same end token for ever.** -/
theorem call_of_rest_nil {l : Lexer} (h : l.rest = []) (k : Nat) :
    l.call k = .ok (.atEnd l.place.line l.place.column) := by
  induction k generalizing l with
  | zero => exact call_zero_of_next (next_of_rest_nil h)
  | succ k ih =>
    rw [call_of_next (next_of_rest_nil h)]
    exact ih h

/-- **Once the end token is given, every later call gives it too.** -/
theorem call_of_eof {l : Lexer} {t : Token} (h : l.next.1 = .ok t) (hk : t.kind = .eof) (k : Nat) :
    l.call k = .ok t := by
  have hnext : l.next = (.ok t, l.next.2) := by rw [← h]
  cases k with
  | zero => exact h
  | succ k =>
    obtain ⟨-, ht, hlexer⟩ := next_eof hnext hk
    rw [call_of_next hnext, hlexer, ht]
    exact call_of_rest_nil rfl k

/-! ### Faults -/

/-- What a fault passes over from the first character of its lexeme on, and what is ahead then. A
string without a closing quote is passed over up to the line end or the end of the text, and a
number that a word follows up to its end; a character that begins no lexeme stays ahead. -/
inductive StopsAt : LexFault → (passed ahead : List Char) → Prop
  | string {quote body ahead} : IsQuote quote → '\n' ∉ body →
      ahead = [] ∨ ahead.head? = some '\n' → StopsAt .unterminatedString (quote :: body) ahead
  | number {w d ahead} : IsLongest IsNumber (w ++ d :: ahead) w → beginsWord d = true →
      StopsAt .invalidNumberSuffix w (d :: ahead)
  | character {c ahead} : StopsAt (.unexpectedCharacter c) [] (c :: ahead)

theorem stringBody_stops (quote : Char) (cs : List Char) {c : Char} {rest : List Char}
    (h : (stringBody quote cs).2 = c :: rest) : c = quote ∨ c = '\n' := by
  fun_induction stringBody quote cs with
  | case1 => cases h
  | case2 cs =>
    cases h
    exact Or.inr rfl
  | case3 d cs hd r ih => exact ih h
  | case4 d cs hesc hd =>
    cases h
    exact hd
  | case5 d cs hesc hd r ih => exact ih h

theorem stopsAt_scanString {quote : Char} (hq : IsQuote quote) {cs : List Char} {fault : LexFault}
    (h : (scanString quote cs).outcome = .error fault) :
    StopsAt fault (scanString quote cs).passed (scanString quote cs).rest := by
  have hline := newline_not_mem_stringBody quote cs
  rcases hbody : stringBody quote cs with ⟨body, _ | ⟨c, rest⟩⟩
  · rw [hbody] at hline
    rw [scanString, hbody] at h ⊢
    cases h
    exact .string hq hline (Or.inl rfl)
  · rw [hbody] at hline
    have hstops := stringBody_stops quote cs (congrArg Prod.snd hbody)
    rw [scanString, hbody] at h ⊢
    dsimp only at h ⊢
    split_ifs at h ⊢ with hc
    cases h
    exact .string hq hline (Or.inr (congrArg some (hstops.resolve_left hc)))

/-- **Where the scan of a lexeme that fails stops.** -/
theorem stopsAt_scan {glued : Bool} {c : Char} {cs : List Char} {fault : LexFault}
    (h : (scan glued c cs).outcome = .error fault) :
    StopsAt fault (scan glued c cs).passed (scan glued c cs).rest := by
  unfold scan at h ⊢
  split_ifs at h ⊢ with hq hd hw
  · exact stopsAt_scanString hq h
  · have hlongest := isLongest_scanNumber hd cs
    have hsplit := scanNumber_append (c :: cs)
    rw [scanNumber_outcome] at h
    split_ifs at h with hword
    cases h
    generalize scanNumber (c :: cs) = s at *
    obtain ⟨d, ahead, hrest⟩ : ∃ d ahead, s.rest = d :: ahead := by
      cases hrest : s.rest with
      | nil => simp [hrest] at hword
      | cons d ahead => exact ⟨d, ahead, rfl⟩
    rw [hrest] at hsplit hword ⊢
    rw [← hsplit] at hlongest
    exact .number hlongest hword
  · cases h
  · rw [scanSign_eq] at h ⊢
    split at h
    · cases h
    · next hnone =>
      cases h
      exact .character

/-- A fault behind some text: behind a gap stands the lexeme that fails, with the place of its first
character, and the lexer stops in it. Only before a NUL may the gap end inside a comment. -/
structure FailsBehind (before gap passed ahead : List Char) (e : LexError) : Prop where
  gap_eq : Gap false gap ∨ Gap true gap ∧ e.fault = .unexpectedCharacter '\x00'
  line_eq : e.line = (Place.behind (before ++ gap)).line
  column_eq : e.column = (Place.behind (before ++ gap)).column
  stops : StopsAt e.fault passed ahead

/-- **A call that meets a fault** says where the lexeme begins, and stops there. -/
theorem next_fault {before : List Char} {l l' : Lexer} {e : LexError}
    (hplace : l.place = .behind before) (h : l.next = (.error e, l')) :
    ∃ gap passed, l.rest = gap ++ (passed ++ l'.rest) ∧
      FailsBehind before gap passed l'.rest e := by
  cases answers_of_next h with
  | @fault c cs fault passed rest hrest hscan =>
    have hskip : l.skipGap.place = .behind (before ++ (gap false l.rest).1) := by
      rw [← Place.after_behind, ← hplace]
      rfl
    have hstops := stopsAt_scan (congrArg Scan.outcome hscan)
    rw [hscan] at hstops
    refine ⟨_, passed, rest_of_scan hrest hscan, ?_, congrArg Place.line hskip,
      congrArg Place.column hskip, hstops⟩
    have hgap := gap_or_nul l.rest
    rw [show (gap false l.rest).2 = c :: cs from hrest] at hgap
    rcases hgap with hclosed | ⟨-, hend⟩ | hhead
    · exact Or.inl hclosed
    · cases hend
    · cases hhead
      rw [scan_nul] at hscan
      cases hscan
      exact Or.inr ⟨gap_atEnd l.rest, rfl⟩

/-! ### One call after the other -/

/-- Reading all tokens gives those of the calls before the first that gives the end token or a
fault, and then what that call gives. -/
structure Tokenizes (l : Lexer) (ts : List Token) : Prop where
  gives : l.Gives ts
  length_le : ts.length ≤ l.rest.length
  kind_eof : ∀ t, l.call ts.length = .ok t → t.kind = .eof
  tokenize_eq :
    l.tokenize = ((l.call ts.length).map (ts ++ [·]), l.afterCalls (ts.length + 1))

/-- **Reading all tokens comes to an end**: every token takes a character. -/
theorem exists_tokenizes {l : Lexer} (hline : 1 ≤ l.place.line) : ∃ ts, l.Tokenizes ts := by
  have hreads : l.ReadsCalls (l.rest.length + 1) l.readAll := readsCalls_read _ l
  obtain ⟨x, hx⟩ : ∃ x, l.readAll.ending = some x := by
    rcases ending_read (l.rest.length + 1) l hline (Nat.lt_succ_self _) with ⟨t, ht, -⟩ | ⟨e, he⟩
    · exact ⟨_, ht⟩
    · exact ⟨_, he⟩
  obtain ⟨hlt, hcall, hlexer, heof⟩ := hreads.ended x hx
  refine ⟨l.readAll.tokens, hreads.gives, Nat.le_of_lt_succ hlt, fun t ht => ?_, ?_⟩
  · exact heof t (hcall.symm.trans ht)
  · unfold tokenize
    simp only [hx, hcall, ← hlexer]
    cases x <;> rfl

/-- What a call does with a lexer of the text. -/
structure Moves (text : List Char) (l : Lexer) : Prop where
  offset_le : l.place.offset ≤ l.next.2.place.offset
  offset_lt : ∀ t, l.next.1 = .ok t → t.kind ≠ .eof → l.place.offset < l.next.2.place.offset
  ended : ∀ t, l.next.1 = .ok t → t.kind = .eof → ∀ k, l.call k = .ok t
  failed : ∀ e, l.next.1 = .error e → ∃ gap passed,
    text.drop l.place.offset = gap ++ (passed ++ l.next.2.rest) ∧
      FailsBehind (text.take l.place.offset) gap passed l.next.2.rest e

theorem offset_lt_next {l l' : Lexer} {t : Token} (h : l.next = (.ok t, l')) (hk : t.kind ≠ .eof) :
    l.place.offset < l'.place.offset := by
  obtain ⟨w, -, -, hne, -, -, -, hplace⟩ := next_lexeme h hk
  have hpos : 0 < t.lexeme.toList.length := List.length_pos_iff.mpr hne
  rw [hplace, Place.offset_after, Place.offset_after]
  omega

theorem Within.moves {text : List Char} {l : Lexer} (h : l.Within text) : l.Moves text where
  offset_le := offset_le_of_le l (Nat.zero_le 1)
  offset_lt t ht hk := offset_lt_next (next_of_call (k := 0) ht) hk
  ended t ht hk k := call_of_eof ht hk k
  failed e he := by
    rw [← h.rest_eq]
    exact next_fault h.place_eq (next_of_call (k := 0) he)

/-- **A lexer moves on through its text, and its place is exact, faults or not.** After any number
of calls it stands in the text at its place. The next call does not move it back, and moves it on
if it gives a token before the end; the end token is given for ever; a fault has the place of the
first character of its lexeme, and leaves the lexer where `StopsAt` says. And reading all tokens
from there comes to an end. -/
theorem moves_of_calls (s : String) (k : Nat) :
    ((ofText s).afterCalls k).Within s.toList ∧ ((ofText s).afterCalls k).Moves s.toList ∧
      ∃ ts, ((ofText s).afterCalls k).Tokenizes ts := by
  have hwithin : ((ofText s).afterCalls k).Within s.toList := within_afterCalls s.toList k
  have hline : (1 : Int) ≤ ((ofText s).afterCalls k).place.line :=
    line_le_afterCalls (ofText s) k
  exact ⟨hwithin, hwithin.moves, exists_tokenizes hline⟩

/-- A number that a word follows, then that word, a string without its end, and the end. -/
theorem moves_of_calls_faults :
    let l := ofText "1x\n 'a"
    l.call 0 = .error ⟨.invalidNumberSuffix, 1, 1⟩ ∧ l.call 1 = .ok ⟨.ident, "x", 1, 2⟩ ∧
      l.call 2 = .error ⟨.unterminatedString, 2, 2⟩ ∧
      (∃ gap passed, "\n 'a".toList = gap ++ (passed ++ []) ∧
        FailsBehind ['1', 'x'] gap passed [] ⟨.unterminatedString, 2, 2⟩) ∧
      ∀ k, l.call (3 + k) = .ok (.atEnd 2 4) := by
  obtain ⟨-, hfault, -⟩ := moves_of_calls "1x\n 'a" 2
  obtain ⟨-, hend, -⟩ := moves_of_calls "1x\n 'a" 3
  refine ⟨rfl, rfl, rfl, hfault.failed _ rfl, fun k => ?_⟩
  rw [← call_add]
  exact hend.ended _ rfl rfl k

end Lexer

end CommandShell
