import CommandShell.Proofs.Lexing.Reading
import CommandShell.Text.Lines

/-! # Joining: two texts with a line end between them

The tokens of two texts with a line end between them are those of the first, without its end, and
those of the second, as many lines further down as the first text and the line end fill
(`ofChars_join`, and `tokenize_join` for what a caller is given); a fault of the first text is met
before the second is looked at.

Two facts make this true. A lexer whose text goes on after a line end reads the same tokens
(`next_before`), until only a gap is left; then it reads on behind the line end (`next_before_end`).
And a lexer that begins on a later line reads the same tokens on lower lines (`Below.next`): what it
remembers of the lines above does not touch it, since a token lies on one line. -/

namespace CommandShell

/-- The token some lines further down. -/
def Token.down (k : Int) (t : Token) : Token := { t with line := t.line + k }

/-- The fault some lines further down. -/
def LexError.down (k : Int) (e : LexError) : LexError := { e with line := e.line + k }

/-- What a lexer gives, some lines further down. -/
def givenDown (k : Int) (given : Except LexError Token) : Except LexError Token :=
  (given.map (.down k)).mapError (.down k)

namespace Lexer

/-! ### A lexer on a later line -/

/-- `m` has the text of `l` ahead, some lines further down, and remembers the token of `l`; if `l`
remembers none, `m` may remember one of a line above. -/
structure Below (k : Int) (l m : Lexer) : Prop where
  rest : m.rest = l.rest
  line : m.place.line = l.place.line + k
  column : m.place.column = l.place.column
  last : m.last = l.last.map (.down k) ∨ l.last = none ∧ ∀ t ∈ m.last, t.line < m.place.line

theorem after_below {k : Int} : ∀ (cs : List Char) {p q : Place}, q.line = p.line + k →
    q.column = p.column → (q.after cs).line = (p.after cs).line + k ∧
      (q.after cs).column = (p.after cs).column
  | [], _, _, hl, hc => ⟨hl, hc⟩
  | c :: cs, p, q, hl, hc => by
    refine after_below cs (p := p.step c) (q := q.step c) ?_ ?_
    · unfold Place.step; split_ifs <;> simp only <;> omega
    · unfold Place.step; split_ifs <;> simp only; omega

theorem Below.skipGap {k : Int} {l m : Lexer} (h : Below k l m) : Below k l.skipGap m.skipGap := by
  obtain ⟨hl, hc⟩ := after_below (gap false l.rest).1 h.line h.column
  refine ⟨?_, ?_, ?_, ?_⟩
  · simp only [Lexer.skipGap, h.rest]
  · simpa only [Lexer.skipGap, h.rest] using hl
  · simpa only [Lexer.skipGap, h.rest] using hc
  · rcases h.last with hlast | ⟨hnone, hm⟩
    · exact Or.inl hlast
    · exact Or.inr ⟨hnone, fun t ht => Int.lt_of_lt_of_le (hm t ht) (Place.line_le_after _ _)⟩

theorem Below.touchesOperand {k : Int} {l m : Lexer} (h : Below k l m) :
    m.touchesOperand = l.touchesOperand := by
  unfold Lexer.touchesOperand
  rcases h.last with hlast | ⟨hnone, hm⟩
  · rw [hlast]
    cases l.last with
    | none => rfl
    | some t =>
      -- Only whether the token ends on this line and at this column matters.
      have hline : (t.line + k == l.place.line + k) = (t.line == l.place.line) := by
        simp only [beq_eq_beq, Int.add_left_inj]
      simp only [Option.map_some, Token.down, Token.endColumn, h.line, h.column, hline]
  · rw [hnone]
    cases hlast : m.last with
    | none => rfl
    | some t =>
      have hne : (t.line == m.place.line) = false := by
        have := hm t hlast
        simp; omega
      simp [hne]

theorem Below.readToken {k : Int} {l m : Lexer} (h : Below k l m) :
    m.readToken.1 = givenDown k l.readToken.1 ∧ Below k l.readToken.2 m.readToken.2 := by
  unfold Lexer.readToken
  rw [h.rest, h.touchesOperand]
  split
  · next hr =>
    refine ⟨?_, ?_⟩
    · simp [givenDown, Token.atEnd, Token.down, h.line, h.column, Except.map, Except.mapError]
    · exact ⟨by simp, h.line, h.column,
        Or.inl (by simp [Token.atEnd, Token.down, h.line, h.column])⟩
  · next c cs hr =>
    obtain ⟨hl, hc⟩ := after_below (scan l.touchesOperand c cs).passed h.line h.column
    simp only
    split
    · next kind hk =>
      refine ⟨?_, ⟨rfl, hl, hc, Or.inl ?_⟩⟩
      · simp [givenDown, Token.down, h.line, h.column, Except.map, Except.mapError]
      · simp [Token.down, h.line, h.column]
    · next fault hf =>
      refine ⟨?_, ⟨rfl, hl, hc, ?_⟩⟩
      · simp [givenDown, LexError.down, h.line, h.column, Except.map, Except.mapError]
      · rcases h.last with hlast | ⟨hnone, hm⟩
        · exact Or.inl hlast
        · exact Or.inr ⟨hnone,
            fun t ht => Int.lt_of_lt_of_le (hm t ht) (Place.line_le_after _ _)⟩

theorem Below.next {k : Int} {l m : Lexer} (h : Below k l m) :
    m.next.1 = givenDown k l.next.1 ∧ Below k l.next.2 m.next.2 := h.skipGap.readToken

/-- **A lexer on a later line reads the same tokens on lower lines.** -/
theorem Below.read {k : Int} : ∀ (count : Nat) {l m : Lexer}, Below k l m →
    (read count m).tokens = (read count l).tokens.map (.down k) ∧
      (read count m).ending = (read count l).ending.map (givenDown k)
  | 0, _, _, _ => ⟨rfl, rfl⟩
  | count + 1, l, m, h => by
    obtain ⟨hgiven, hbelow⟩ := h.next
    unfold Lexer.read
    rcases hl : l.next with ⟨_ | t, l'⟩ <;> rcases hm : m.next with ⟨given, m'⟩ <;>
      rw [hl, hm] at hgiven hbelow
    · cases hgiven; exact ⟨rfl, rfl⟩
    · cases hgiven
      by_cases ht : t.isEof
      · have ht' : (t.down k).isEof = true := ht
        simp only [ht, ht', if_true]
        exact ⟨rfl, rfl⟩
      · have ht' : ¬ (t.down k).isEof = true := ht
        obtain ⟨htokens, hending⟩ := Below.read count hbelow
        simp only [ht, ht']
        exact ⟨by simp [htokens], hending⟩

/-! ### A lexer whose text goes on after a line end -/

/-- The lexer with more text at its end. -/
def before (l : Lexer) (tail : List Char) : Lexer := { l with rest := l.rest ++ tail }

variable (tail : List Char)

variable {tail} in
/-- Where the gap and the scan behind it do not look past the end of the text, nothing changes. -/
theorem next_before_of {l : Lexer} (h : l.skipGap.rest ≠ [])
    (hgap : gap false (l.rest ++ tail) = ((gap false l.rest).1, (gap false l.rest).2 ++ tail))
    (hscan : ∀ c cs, l.skipGap.rest = c :: cs →
      scan l.skipGap.touchesOperand c (cs ++ tail) =
        (scan l.skipGap.touchesOperand c cs).before tail) :
    (l.before tail).next = (l.next.1, l.next.2.before tail) := by
  have hskip : (l.before tail).skipGap = l.skipGap.before tail := by
    simp only [Lexer.skipGap, before, hgap]
  obtain ⟨c, cs, hcs⟩ := List.exists_cons_of_ne_nil h
  have hrest : (l.skipGap.before tail).rest = c :: (cs ++ tail) := by
    rw [before, hcs]; rfl
  unfold next
  rw [hskip]
  unfold Lexer.readToken
  rw [hrest, hcs]
  simp only [show (l.skipGap.before tail).touchesOperand = l.skipGap.touchesOperand from rfl,
    hscan c cs hcs]
  unfold Scan.before
  split <;> simp_all [before]

/-- Where more than a gap is left, what follows the line end changes nothing. -/
theorem next_before {l : Lexer} (h : l.skipGap.rest ≠ []) :
    (l.before ('\n' :: tail)).next = (l.next.1, l.next.2.before ('\n' :: tail)) :=
  next_before_of h (gap_stop tail (by decide) h) fun c cs _ => scan_newline tail _ c cs

/-- Where only a gap is left, the text is at its end. -/
theorem next_end {l l' : Lexer} {given : Except LexError Token} (h : l.skipGap.rest = [])
    (hnext : l.next = (given, l')) : ∃ t, given = .ok t ∧ t.kind = .eof := by
  cases answers_of_next hnext with
  | atEnd _ ht => exact ⟨_, rfl, congrArg Token.kind ht⟩
  | lexeme hrest | fault hrest => cases h.symm.trans hrest

/-- Where only a gap is left, the lexer reads on behind the line end. -/
theorem next_before_end {l : Lexer} (h : l.skipGap.rest = []) :
    (l.before ('\n' :: tail)).next =
      next ⟨tail, (l.place.after l.rest).step '\n', l.last⟩ := by
  have hgap := gap_newline tail false l.rest
  rw [if_pos (show (gap false l.rest).2 = [] from h)] at hgap
  have hskip : (l.before ('\n' :: tail)).skipGap =
      skipGap ⟨tail, (l.place.after l.rest).step '\n', l.last⟩ := by
    simp only [Lexer.skipGap, before, hgap, Place.after_append]
    rfl
  unfold next
  rw [hskip]

/-- The token remembered is not below the place. -/
def Above (l : Lexer) : Prop := ∀ t ∈ l.last, t.line ≤ l.place.line

theorem Above.next {l : Lexer} (h : l.Above) : l.next.2.Above := by
  have hskip : l.skipGap.Above := fun t ht => Int.le_trans (h t ht) (Place.line_le_after _ _)
  have hanswers := answers_next l
  generalize l.next = r at hanswers ⊢
  cases hanswers with
  | atEnd _ ht =>
    subst ht
    rintro u ⟨rfl⟩
    exact Int.le_refl _
  | lexeme _ _ ht =>
    subst ht
    rintro u ⟨rfl⟩
    exact Place.line_le_after _ _
  | fault => exact fun t ht => Int.le_trans (hskip t ht) (Place.line_le_after _ _)

theorem read_congr {l m : Lexer} (h : l.next = m.next) (count : Nat) :
    read (count + 1) l = read (count + 1) m := by
  unfold Lexer.read; rw [h]

theorem read_step {l l' : Lexer} {t : Token} (h : l.next = (.ok t, l')) (ht : t.kind ≠ .eof)
    (count : Nat) : read (count + 1) l =
      { read count l' with tokens := t :: (read count l').tokens } := by
  rw [Lexer.read, h]
  simp only
  rw [if_neg (by simpa [Token.isEof] using ht)]

/-- The reading `r` of a text and the reading `s` of the text with more behind a line end: a fault
ends both; after the end in `r`, `s` goes on where the next line begins. -/
def GoesOn (stop : Place) (r s : Reading) : Prop :=
  (∀ e, r.ending = some (.error e) → s.tokens = r.tokens ∧ s.ending = r.ending) ∧
  ∀ t, r.ending = some (.ok t) → ∃ last : Option Token, (∀ u ∈ last, u.line ≤ stop.line) ∧
    s.tokens = r.tokens ++ (readAll ⟨tail, stop.step '\n', last⟩).tokens ∧
    s.ending = (readAll ⟨tail, stop.step '\n', last⟩).ending

theorem GoesOn.cons {stop : Place} {r s : Reading} (h : GoesOn tail stop r s) (t : Token) :
    GoesOn tail stop { r with tokens := t :: r.tokens } { s with tokens := t :: s.tokens } := by
  refine ⟨fun e he => ?_, fun u hu => ?_⟩
  · obtain ⟨htokens, hending⟩ := h.1 e he
    exact ⟨congrArg (t :: ·) htokens, hending⟩
  · obtain ⟨last, hlast, htokens, hending⟩ := h.2 u hu
    exact ⟨last, hlast, congrArg (t :: ·) htokens, hending⟩

/-- **Reading two texts.** -/
theorem read_before : ∀ (count more : Nat) (l : Lexer), 1 ≤ l.place.line → l.Above →
    l.rest.length < count → (l.before ('\n' :: tail)).rest.length < more →
    GoesOn tail (l.place.after l.rest) (read count l) (read more (l.before ('\n' :: tail)))
  | 0, _, _, _, _, h, _ => absurd h (by omega)
  | _ + 1, 0, _, _, _, _, h => absurd h (by omega)
  | count + 1, more + 1, l, hl, habove, hc, hm => by
    rcases hnext : l.next with ⟨given, l'⟩
    have hgoes : l.skipGap.rest ≠ [] → (l.before ('\n' :: tail)).next =
        (given, l'.before ('\n' :: tail)) := fun h => by rw [next_before tail h, hnext]
    cases given with
    | error e =>
      have hne : l.skipGap.rest ≠ [] := fun hr => by
        obtain ⟨t, ht, -⟩ := next_end hr hnext
        cases ht
      simp only [Lexer.read, hnext, hgoes hne]
      exact ⟨fun _ _ => ⟨rfl, rfl⟩, fun _ ht => by cases ht⟩
    | ok t =>
      rcases next_ok hl hnext with ⟨ht, hr⟩ | ⟨ht, hlt, hl'⟩
      · -- Only a gap is left: the rest of the reading is that of the second text.
        have hline := Place.line_le_after l.place l.rest
        have hstop : 1 ≤ ((l.place.after l.rest).step '\n').line := by
          simp only [Place.step, if_true]; omega
        have hread : read (count + 1) l = ⟨[], some (.ok t), l'⟩ := by
          rw [Lexer.read, hnext]; simp [Token.isEof, ht]
        have hrest : read (more + 1) (l.before ('\n' :: tail)) =
            readAll ⟨tail, (l.place.after l.rest).step '\n', l.last⟩ := by
          rw [read_congr (next_before_end tail hr) more]
          refine read_of_lt _ _ _ hstop ?_ (Nat.lt_succ_self _)
          simp only [before, List.length_append, List.length_cons] at hm ⊢
          omega
        rw [hread, hrest]
        refine ⟨fun _ he => (by cases he), fun u _ => ⟨l.last, fun v hv => ?_, rfl, rfl⟩⟩
        exact Int.le_trans (habove v hv) hline
      · -- A token is read: both go on behind it, and the first text ends where it did.
        have hne : l.skipGap.rest ≠ [] := fun hr => by
          obtain ⟨u, hu, hk⟩ := next_end hr hnext
          cases hu
          exact ht.kind_ne_eof hk
        have hend : l'.place.after l'.rest = l.place.after l.rest := by
          simpa [hnext] using end_next l
        have hm' : (l'.before ('\n' :: tail)).rest.length < more := by
          simp only [before, List.length_append] at hm ⊢; omega
        have ih := read_before count more l' hl' (by simpa [hnext] using habove.next)
          (by omega) hm'
        rw [read_step hnext ht.kind_ne_eof, read_step (hgoes hne) ht.kind_ne_eof, ← hend]
        exact ih.cons tail t

end Lexer

namespace Tokens

/-- The tokens of two texts, those of the second some lines further down. A fault of the first text
hides the second. -/
def join (k : Int) (ts us : Tokens) : Tokens :=
  match ts.ending with
  | .ok _ => ⟨ts.items ++ us.items.map (.down k), givenDown k us.ending⟩
  | .error _ => ts

theorem eq_of_toList {ts us : Tokens} (hitems : ts.items.toList = us.items.toList)
    (hending : ts.ending = us.ending) : ts = us := by
  cases ts; cases us
  simp only [mk.injEq]
  exact ⟨Array.toList_inj.mp hitems, hending⟩

/-- **The tokens of two texts with a line end between them.** -/
theorem ofChars_join (cs ds : List Char) :
    ofChars (cs ++ '\n' :: ds) = (ofChars cs).join (cs.count '\n' + 1) (ofChars ds) := by
  have hgoes : Lexer.GoesOn ds (Place.start.after cs) (Lexer.ofChars cs).readAll
      (Lexer.ofChars (cs ++ '\n' :: ds)).readAll :=
    Lexer.read_before ds _ _ (Lexer.ofChars cs) (Int.le_refl 1) (fun t ht => by cases ht)
      (Nat.lt_succ_self _) (Nat.lt_succ_self _)
  obtain ⟨hitems, hending⟩ := readAll_eq (cs ++ '\n' :: ds)
  obtain ⟨hitems₁, hending₁⟩ := readAll_eq cs
  obtain ⟨hitems₂, hending₂⟩ := readAll_eq ds
  unfold join
  split
  · next t hc =>
    obtain ⟨last, hlast, htokens, hend⟩ := hgoes.2 t (hending₁.trans (by rw [hc]))
    have hline : (Place.start.after cs).line = 1 + cs.count '\n' := Place.line_after cs .start
    have hbelow : Lexer.Below (cs.count '\n' + 1) (Lexer.ofChars ds)
        ⟨ds, (Place.start.after cs).step '\n', last⟩ := by
      refine ⟨rfl, ?_, ?_, Or.inr ⟨rfl, fun u hu => ?_⟩⟩
      · show (Place.start.after cs).line + 1 = 1 + ((cs.count '\n' : Int) + 1)
        omega
      · simp only [Place.step, if_true]; rfl
      · have hu' : u.line ≤ (Place.start.after cs).line := hlast u hu
        simp only [Place.step, if_true]; omega
    obtain ⟨hdown, hdown'⟩ := hbelow.read (ds.length + 1)
    refine eq_of_toList ?_ ?_
    · rw [← hitems, htokens, hitems₁, Array.toList_append, Array.toList_map, ← hitems₂]
      exact congrArg _ hdown
    · refine Option.some_inj.mp (hending.symm.trans (hend.trans (hdown'.trans ?_)))
      exact congrArg (Option.map (givenDown _)) hending₂
  · next e hc =>
    obtain ⟨htokens, hend⟩ := hgoes.1 e (hending₁.trans (by rw [hc]))
    refine eq_of_toList ?_ ?_
    · rw [← hitems, ← hitems₁, htokens]
    · exact Option.some_inj.mp (hending.symm.trans (hend.trans hending₁))

/-- The end token is the only one that is left out of all tokens. -/
theorem Lexed.filter_isEof {ts : Tokens} (h : ts.Lexed) {t : Token} (ht : ts.ending = .ok t) :
    (ts.items.toList ++ [t]).filter (fun u => !u.isEof) = ts.items.toList := by
  have hitems : ts.items.toList.filter (fun u => !u.isEof) = ts.items.toList := by
    refine List.filter_eq_self.mpr fun u hu => ?_
    have hne : u.kind ≠ .eof := (h.proper u hu).kind_ne_eof
    simpa [Token.isEof] using hne
  have hend : t.isEof = true := by
    have hk : t.kind = .eof := h.ending_eof t ht
    simp [Token.isEof, hk]
  rw [List.filter_append, hitems]
  simp [hend]

end Tokens

/-- **Two texts with a line end between them**, as they are read. A fault of the first is the fault
of both; a fault of the second, and else its tokens with the end token, stand as many lines further
down as the first text and the line end fill, and in the same columns. -/
theorem tokenize_join (a b : String) :
    tokenize (a ++ "\n" ++ b) =
      match tokenize a, tokenize b with
      | .error e, _ => .error e
      | .ok _, .error e => .error (e.down (1 + a.toList.count '\n'))
      | .ok ts, .ok us =>
        .ok (ts.filter (fun t => !t.isEof) ++ us.map (.down (1 + a.toList.count '\n'))) := by
  have htext : (a ++ "\n" ++ b).toList = a.toList ++ '\n' :: b.toList := by
    rw [String.toList_append, String.toList_append, List.append_assoc]
    rfl
  have hlines : (a.toList.count '\n' : Int) + 1 = 1 + a.toList.count '\n' := Int.add_comm _ _
  have hlexed : (Tokens.ofChars a.toList).Lexed := Tokens.lexed_ofChars a.toList
  rw [tokenize_eq, tokenize_eq a, tokenize_eq b, htext, Tokens.ofChars_join, Tokens.join, hlines]
  cases hfirst : (Tokens.ofChars a.toList).ending with
  | error e =>
    simp only [hfirst]
    rfl
  | ok t =>
    have hfilter := hlexed.filter_isEof hfirst
    cases (Tokens.ofChars b.toList).ending with
    | error e =>
      simp only [givenDown]
      rfl
    | ok u =>
      simp only [givenDown, Except.map, Except.mapError, hfilter, Array.toList_append,
        Array.toList_map, List.map_append, List.append_assoc, List.map_cons, List.map_nil]

end CommandShell
