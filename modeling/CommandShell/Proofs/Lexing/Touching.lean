import CommandShell.Proofs.Lexing.Progress
import CommandShell.Proofs.Lexing.Rendering

/-! # Touching: an operand that ends where the lexer stands

A lexer tells from lines and columns whether an operand touches it: the token that it remembers ends
on its line and in its column. That is the same as to end at its offset, since a lexeme lies on one
line and every character leads to another line or column (`Place.after_same_iff`). The token that is
remembered is the one of the last call that gave a token (`last_afterCalls_iff`); faults behind it
leave it as it was, and lead away from its end only if they pass over some of the text.

So a safe form is read at an offset exactly where the lexer stands there with the form ahead, and a
token that can end an operand ends there (`safeForm_iff`). Any such token will do, since a token
that is read behind it would have led the lexer on. -/

namespace CommandShell

/-- **Characters lead away from a line and a column for good**: none at all lead back. -/
theorem Place.after_same_iff (p : Place) (cs : List Char) :
    (p.after cs).line = p.line ∧ (p.after cs).column = p.column ↔
      (p.after cs).offset = p.offset := by
  cases cs with
  | nil => exact iff_of_true ⟨rfl, rfl⟩ rfl
  | cons c cs =>
    have hlater := notBehind_after cs (p.step c)
    have hafter : p.after (c :: cs) = (p.step c).after cs := rfl
    have hstep : p.line < (p.step c).line ∨
        p.line = (p.step c).line ∧ p.column < (p.step c).column := by
      unfold step
      split_ifs
      · exact Or.inl (Int.lt_succ p.line)
      · exact Or.inr ⟨rfl, Int.lt_succ p.column⟩
    have hmoved : (p.after (c :: cs)).offset ≠ p.offset := by simp
    refine iff_of_false ?_ hmoved
    rw [hafter]
    unfold NotBehind at hlater
    omega

namespace Lexer

/-! ### The token that is remembered -/

theorem last_of_ok {l l' : Lexer} {t : Token} (h : l.next = (.ok t, l')) : l'.last = some t := by
  cases answers_of_next h <;> rfl

theorem last_of_error {l l' : Lexer} {e : LexError} (h : l.next = (.error e, l')) :
    l'.last = l.last := by
  cases answers_of_next h
  rfl

/-- Of a number of calls, the one with the index is the last that gives a token; those behind it
meet faults. -/
structure GivesLast (l : Lexer) (k j : Nat) : Prop where
  lt : j < k
  given : ∃ t, l.call j = .ok t
  faults : ∀ i, j < i → i < k → ∃ e, l.call i = .error e

theorem givesLast_of_ok {l : Lexer} {k j : Nat} {t : Token} (h : l.call k = .ok t) :
    l.GivesLast (k + 1) j ↔ j = k := by
  constructor
  · intro hj
    by_contra hne
    obtain ⟨e, he⟩ := hj.faults k (by have := hj.lt; omega) (Nat.lt_succ_self k)
    cases h.symm.trans he
  · rintro rfl
    exact ⟨Nat.lt_succ_self j, ⟨t, h⟩, fun i hlt hle => absurd hle (by omega)⟩

theorem givesLast_of_error {l : Lexer} {k j : Nat} {e : LexError} (h : l.call k = .error e) :
    l.GivesLast (k + 1) j ↔ l.GivesLast k j := by
  constructor
  · rintro ⟨hlt, ⟨t, ht⟩, hfaults⟩
    have hne : j ≠ k := by
      rintro rfl
      cases ht.symm.trans h
    exact ⟨by omega, ⟨t, ht⟩, fun i hi hik => hfaults i hi (Nat.lt_succ_of_lt hik)⟩
  · rintro ⟨hlt, hgiven, hfaults⟩
    refine ⟨Nat.lt_succ_of_lt hlt, hgiven, fun i hi hik => ?_⟩
    rcases Nat.lt_succ_iff_lt_or_eq.mp hik with hik | rfl
    · exact hfaults i hi hik
    · exact ⟨e, h⟩

/-- **A lexer remembers the token of the last call that gave one.** -/
theorem last_afterCalls_iff {l : Lexer} (hnone : l.last = none) (k : Nat) {t : Token} :
    (l.afterCalls k).last = some t ↔ ∃ j, l.GivesLast k j ∧ l.call j = .ok t := by
  induction k with
  | zero =>
    refine iff_of_false ?_ ?_
    · rw [afterCalls, hnone]
      exact Option.some_ne_none t ∘ Eq.symm
    · rintro ⟨j, hj, -⟩
      exact absurd hj.lt (Nat.not_lt_zero j)
  | succ k ih =>
    rw [afterCalls_succ]
    rcases hnext : (l.afterCalls k).next with ⟨e | u, l'⟩
    · have hcall : l.call k = .error e := congrArg Prod.fst hnext
      simp only [last_of_error hnext, ih, givesLast_of_error hcall]
    · have hcall : l.call k = .ok u := congrArg Prod.fst hnext
      simp only [last_of_ok hnext, givesLast_of_ok hcall, exists_eq_left, hcall, Option.some_inj,
        Except.ok.injEq]

/-! ### Where a token ends -/

/-- The offset at which the call with the index begins to read, behind the gap. -/
def lexemeOffset (l : Lexer) (k : Nat) : Nat := (l.afterCalls k).skipGap.place.offset

/-- The call with the index gives a token that can end an operand, and its lexeme ends at the
offset. -/
def OperandEnds (l : Lexer) (k offset : Nat) : Prop :=
  ∃ t, l.call k = .ok t ∧ t.kind.endsOperand = true ∧ l.lexemeOffset k + t.lexeme.length = offset

/-- A token that is given ends where the lexer stands then. -/
theorem next_ends {l l' : Lexer} {t : Token} (h : l.next = (.ok t, l')) :
    l'.place.line = t.line ∧ l'.place.column = t.endColumn ∧
      l'.place.offset = l.skipGap.place.offset + t.lexeme.length := by
  cases answers_of_next h with
  | atEnd _ ht =>
    subst ht
    exact ⟨rfl, (Int.add_zero _).symm, rfl⟩
  | @lexeme c cs kind passed rest t _ hscan ht =>
    subst ht
    have hnewline := newline_not_mem_of_scan hscan
    obtain ⟨hline, hcolumn⟩ := Place.after_of_not_mem passed l.skipGap.place hnewline
    refine ⟨hline, ?_, ?_⟩
    · rw [hcolumn, Token.endColumn, String.length_ofList]
    · rw [Place.offset_after, String.length_ofList]

variable {l : Lexer} {j k : Nat}

theorem offset_le_lexemeOffset : (l.afterCalls k).place.offset ≤ l.lexemeOffset k := by
  have hgap : l.lexemeOffset k =
      (l.afterCalls k).place.offset + (gap false (l.afterCalls k).rest).1.length :=
    Place.offset_after _ _
  omega

/-- An operand that has been read does not end behind the lexer. -/
theorem OperandEnds.le {o : Nat} (h : l.OperandEnds j o) (hj : j < k) :
    o ≤ (l.afterCalls k).place.offset := by
  obtain ⟨t, ht, -, rfl⟩ := h
  have hends := (next_ends (next_of_call ht)).2.2
  have hlater := offset_le_of_le l (j := j + 1) hj
  unfold lexemeOffset
  omega

/-! ### Operands that touch the lexer -/

/-- A lexer that stands behind some calls, maybe behind the gap there too, is touched by an operand
exactly if the last token given is one that ends at its offset. -/
theorem touchesOperand_of_last {t : Token} (hj : l.GivesLast k j) (hcall : l.call j = .ok t)
    {m : Lexer} (hlast : m.last = some t) {g : List Char}
    (hplace : m.place = (l.afterCalls k).place.after g) :
    m.touchesOperand = true ↔
      t.kind.endsOperand = true ∧ l.lexemeOffset j + t.lexeme.length = m.place.offset := by
  obtain ⟨hline, hcolumn, hoffset⟩ := next_ends (next_of_call hcall)
  obtain ⟨passed, -, hpassed⟩ := passes_of_le l hj.lt
  rw [hpassed, ← Place.after_append] at hplace
  have hsame := Place.after_same_iff (l.afterCalls (j + 1)).place (passed ++ g)
  rw [← hplace, hline, hcolumn, hoffset] at hsame
  unfold touchesOperand
  rw [hlast]
  simp only [Bool.and_eq_true, beq_iff_eq, and_assoc]
  refine and_congr_right fun _ => ?_
  rw [eq_comm (a := t.line), eq_comm (a := t.endColumn), hsame]
  exact eq_comm

/-- **An operand touches the lexer where its token ends in the text.** -/
theorem touchesOperand_iff (hnone : l.last = none) {m : Lexer}
    (hlast : m.last = (l.afterCalls k).last) {g : List Char}
    (hplace : m.place = (l.afterCalls k).place.after g) :
    m.touchesOperand = true ↔ ∃ j, l.GivesLast k j ∧ l.OperandEnds j m.place.offset := by
  constructor
  · intro htouches
    obtain ⟨t, ht⟩ : ∃ t, m.last = some t := by
      cases hm : m.last with
      | none => simp [touchesOperand, hm] at htouches
      | some t => exact ⟨t, rfl⟩
    obtain ⟨j, hj, hcall⟩ := (last_afterCalls_iff hnone k).mp (hlast ▸ ht)
    exact ⟨j, hj, t, hcall, (touchesOperand_of_last hj hcall ht hplace).mp htouches⟩
  · rintro ⟨j, hj, t, hcall, hends⟩
    have ht : m.last = some t := hlast.trans ((last_afterCalls_iff hnone k).mpr ⟨j, hj, hcall⟩)
    exact (touchesOperand_of_last hj hcall ht hplace).mpr hends

theorem touchesOperand_afterCalls_iff (hnone : l.last = none) :
    (l.afterCalls k).touchesOperand = true ↔
      ∃ j, l.GivesLast k j ∧ l.OperandEnds j (l.afterCalls k).place.offset :=
  touchesOperand_iff (m := l.afterCalls k) (g := []) hnone rfl rfl

theorem touchesOperand_skipGap_iff (hnone : l.last = none) :
    (l.afterCalls k).skipGap.touchesOperand = true ↔
      ∃ j, l.GivesLast k j ∧ l.OperandEnds j (l.lexemeOffset k) :=
  touchesOperand_iff (m := (l.afterCalls k).skipGap) hnone rfl rfl

/-! ### Safe forms -/

/-- A safe form that is read stands behind the gap, and an operand touches the lexer there. -/
theorem next_eq_safe {l l' : Lexer} {t : Token} (h : l.next = (.ok t, l'))
    (hk : t.kind ∈ Kind.safeForms) :
    t.kind.spelling.toList <+: l.skipGap.rest ∧ l.skipGap.touchesOperand = true := by
  have hne : t.kind ≠ .eof := by
    rintro heof
    rw [heof] at hk
    exact absurd hk (by decide)
  obtain ⟨c, w, rest, hrest, -, -, hscan, hpassed, -⟩ := next_eq_ok h hne
  obtain ⟨hspelling, -⟩ := passed_of_safe hscan hk hpassed
  refine ⟨?_, (scan_safe hscan hk).1⟩
  rw [hspelling, hrest]
  exact ⟨rest, rfl⟩

/-- Safe forms begin with a `?`. -/
theorem eq_cons_of_safe {kind : Kind} (hk : kind ∈ Kind.safeForms) {text : List Char}
    (h : kind.spelling.toList <+: text) : ∃ cs, text = '?' :: cs := by
  have hforms : ∀ k ∈ Kind.safeForms, k.spelling.toList.head? = some '?' := by decide
  have hhead := hforms kind hk
  obtain ⟨rest, rfl⟩ := h
  obtain ⟨c, cs, hspelling⟩ : ∃ c cs, kind.spelling.toList = c :: cs := by
    cases hspelling : kind.spelling.toList with
    | nil => simp [hspelling] at hhead
    | cons c cs => exact ⟨c, cs, rfl⟩
  rw [hspelling] at hhead ⊢
  cases hhead
  exact ⟨cs ++ rest, rfl⟩

/-- Behind an operand that ends where the lexer stands now, with text ahead of it, only faults have
been met: a token would have led the lexer on, and the end token stands at the end. -/
theorem givesLast_of_ends (hj : j < k) (hends : l.OperandEnds j (l.afterCalls k).place.offset)
    (hrest : (l.afterCalls k).rest ≠ []) : l.GivesLast k j := by
  refine ⟨hj, hends.imp fun _ h => h.1, fun i hji hik => ?_⟩
  cases hcall : l.call i with
  | error e => exact ⟨e, rfl⟩
  | ok u =>
    have hnext := next_of_call hcall
    by_cases hk : u.kind = .eof
    · obtain ⟨-, -, hlexer⟩ := next_eof hnext hk
      obtain ⟨passed, hpassed, -⟩ := passes_of_le l hik
      rw [hlexer] at hpassed
      exact absurd (List.append_eq_nil_iff.mp hpassed.symm).2 hrest
    · have hbefore := hends.le hji
      have hmoves := offset_lt_next hnext hk
      have hafter := offset_le_of_le l (j := i + 1) hik
      omega

/-- Before a `?` there is no gap. -/
theorem skipGap_question {l : Lexer} {cs : List Char} (h : l.rest = '?' :: cs) : l.skipGap = l := by
  have hgap : gap false l.rest = ([], '?' :: cs) := by
    rw [h]
    simp [gap, isSpace]
  rw [skipGap_eq hgap, ← h]
  rfl

/-- A safe form that is read begins right where the lexer stood, and an operand ends there. -/
theorem operandEnds_of_safe (hnone : l.last = none) {t : Token} (ht : l.call k = .ok t)
    (hk : t.kind ∈ Kind.safeForms) :
    (l.afterCalls k).place.offset = l.lexemeOffset k ∧
      ∃ j < k, l.OperandEnds j (l.lexemeOffset k) := by
  obtain ⟨-, htouches⟩ := next_eq_safe (next_of_call ht) hk
  obtain ⟨j, hj, hends⟩ := (touchesOperand_skipGap_iff hnone).mp htouches
  exact ⟨Nat.le_antisymm offset_le_lexemeOffset (hends.le hj.lt), j, hj.lt, hends⟩

/-- Where an operand ends and a safe form is ahead, the safe form is read. -/
theorem call_of_operandEnds (hnone : l.last = none) {kind : Kind} (hk : kind ∈ Kind.safeForms)
    (hahead : kind.spelling.toList <+: (l.afterCalls k).rest) (hj : j < k)
    (hends : l.OperandEnds j (l.afterCalls k).place.offset) :
    (∃ t, l.call k = .ok t ∧ t.kind = kind) ∧
      l.lexemeOffset k = (l.afterCalls k).place.offset := by
  obtain ⟨cs, hrest⟩ := eq_cons_of_safe hk hahead
  have hskip := skipGap_question hrest
  have hlast := givesLast_of_ends hj hends (by simp [hrest])
  have htouches : (l.afterCalls k).skipGap.touchesOperand = true := by
    rw [hskip]
    exact (touchesOperand_afterCalls_iff hnone).mpr ⟨j, hlast, hends⟩
  have hquestion : (l.afterCalls k).skipGap.rest = '?' :: cs := by rw [hskip, hrest]
  rw [hrest] at hahead
  obtain ⟨rest, -, hnext⟩ := next_safeForm hquestion (by unfold IsQuote; decide) (by decide)
    (by decide) htouches hk hahead
  exact ⟨⟨_, congrArg Prod.fst hnext, rfl⟩, by rw [lexemeOffset, hskip]⟩

/-- **A safe form is read at an offset exactly where the lexer stands there with the form ahead and
an operand ends there.** -/
theorem safeForm_iff {text : List Char} (hnone : l.last = none)
    (hwithin : (l.afterCalls k).Within text) {kind : Kind} (hk : kind ∈ Kind.safeForms) (o : Nat) :
    (∃ t, l.call k = .ok t ∧ t.kind = kind ∧ l.lexemeOffset k = o) ↔
      kind.spelling.toList <+: text.drop o ∧ (l.afterCalls k).place.offset = o ∧
        ∃ j < k, l.OperandEnds j o := by
  constructor
  · rintro ⟨t, ht, rfl, rfl⟩
    obtain ⟨hahead, -⟩ := next_eq_safe (next_of_call ht) hk
    rw [hwithin.skipGap.rest_eq] at hahead
    exact ⟨hahead, operandEnds_of_safe hnone ht hk⟩
  · rintro ⟨hahead, rfl, j, hj, hends⟩
    rw [← hwithin.rest_eq] at hahead
    obtain ⟨⟨t, ht, hkind⟩, hoffset⟩ := call_of_operandEnds hnone hk hahead hj hends
    exact ⟨t, ht, hkind, hoffset⟩

/-- **The test by lines and columns is adjacency in the text**, after any number of calls, faults or
not. The lexeme of a token stands in the text from the offset at which its call begins to read. An
operand touches the lexer exactly if the last token given can end an operand and ends at the offset
of the lexer. And a call reads a safe form at an offset exactly if the text has the form there, the
lexer stands there, and a token that can end an operand ends there. -/
theorem touchesOperand_of_calls (s : String) (k : Nat) :
    (∀ t, (ofText s).call k = .ok t →
      t.lexeme.toList <+: s.toList.drop ((ofText s).lexemeOffset k)) ∧
    (((ofText s).afterCalls k).touchesOperand = true ↔
      ∃ j, (ofText s).GivesLast k j ∧
        (ofText s).OperandEnds j ((ofText s).afterCalls k).place.offset) ∧
    ∀ kind ∈ Kind.safeForms, ∀ o,
      ((∃ t, (ofText s).call k = .ok t ∧ t.kind = kind ∧ (ofText s).lexemeOffset k = o) ↔
        kind.spelling.toList <+: s.toList.drop o ∧ ((ofText s).afterCalls k).place.offset = o ∧
          ∃ j < k, (ofText s).OperandEnds j o) := by
  have hwithin : ((ofText s).afterCalls k).Within s.toList := within_afterCalls s.toList k
  refine ⟨fun t ht => ?_, touchesOperand_afterCalls_iff rfl, fun kind hk o => ?_⟩
  · have hbegins := (stands_next hwithin.place_eq).begins
    rw [show ((ofText s).afterCalls k).next.1 = .ok t from ht, hwithin.skipGap.rest_eq] at hbegins
    exact hbegins.1
  · exact safeForm_iff rfl hwithin hk o

/-- A fault between a name and the word behind a number: the name does not touch the lexer any more,
and the word does. -/
theorem touchesOperand_of_calls_fault :
    let l := ofText "a 1x?["
    l.call 1 = .error ⟨.invalidNumberSuffix, 1, 3⟩ ∧ (l.afterCalls 2).touchesOperand = false ∧
      Kind.safeLsquare ∈ Kind.safeForms ∧ l.OperandEnds 2 4 ∧
      ∃ t, l.call 3 = .ok t ∧ t.kind = .safeLsquare ∧ l.lexemeOffset 3 = 4 := by
  have hends : (ofText "a 1x?[").OperandEnds 2 4 := ⟨_, rfl, rfl, rfl⟩
  have hread := (touchesOperand_of_calls "a 1x?[" 3).2.2 .safeLsquare (by decide) 4
  exact ⟨rfl, rfl, by decide, hends, hread.mpr ⟨⟨[], rfl⟩, rfl, 2, by decide, hends⟩⟩

end Lexer

end CommandShell
