import CommandShell.Proofs.Lexing.Layout
import CommandShell.Proofs.Lexing.Streams

/-! # Places: where tokens and faults stand

Whatever a call of the lexer gives stands in the text right where its place says: a token with its
lexeme ahead, the end token with nothing ahead, and a fault at the lexeme that cannot be read
(`Lexer.Stands`). Calls pass over the text one behind the other (`Lexer.passes_of_le`), so every
index has a place in the text (`Tokens.stands_ofChars`). -/

namespace CommandShell

namespace Lexer

/-- The line and the column where a token begins, or the lexeme of a fault. -/
def start : Except LexError Token → Int × Int
  | .ok t => (t.line, t.column)
  | .error e => (e.line, e.column)

/-- What begins a text: the lexeme of a token, nothing at all, or what cannot be read. -/
def Begins (ahead : List Char) : Except LexError Token → Prop
  | .ok t => t.lexeme.toList <+: ahead ∧ (t.kind = .eof → ahead = [])
  | .error e => ∃ glued c cs, ahead = c :: cs ∧ (scan glued c cs).outcome = .error e.fault

/-- A token or a fault stands between what is before it in a text and what is ahead. -/
structure Stands (before ahead : List Char) (r : Except LexError Token) : Prop where
  start_eq : start r = ((Place.behind before).line, (Place.behind before).column)
  begins : Begins ahead r

/-- Lines and columns are counted from one. -/
theorem Stands.pos {before ahead : List Char} {r : Except LexError Token}
    (h : Stands before ahead r) : 1 ≤ (start r).1 ∧ 1 ≤ (start r).2 := by
  rw [h.start_eq]
  simp only [Place.behind]
  omega

/-- What is read next stands behind the gap. -/
theorem stands_next {before : List Char} {l : Lexer} (hplace : l.place = .behind before) :
    Stands (before ++ (gap false l.rest).1) l.skipGap.rest l.next.1 := by
  have hskip : l.skipGap.place = .behind (before ++ (gap false l.rest).1) := by
    rw [← Place.after_behind, ← hplace]
    rfl
  have hstart : (l.skipGap.place.line, l.skipGap.place.column) =
      ((Place.behind (before ++ (gap false l.rest).1)).line,
        (Place.behind (before ++ (gap false l.rest).1)).column) := by rw [hskip]
  have hanswers := answers_next l
  generalize l.next = r at hanswers ⊢
  cases hanswers with
  | atEnd hrest ht =>
    subst ht
    exact ⟨hstart, List.nil_prefix, fun _ => hrest⟩
  | @lexeme c cs kind passed rest t hrest hscan ht =>
    subst ht
    have hpassed := scan_append l.skipGap.touchesOperand c cs
    rw [hscan] at hpassed
    refine ⟨hstart, ?_, fun hk => absurd hk (lexeme_of_scan hscan).1.1⟩
    rw [String.toList_ofList, hrest]
    exact ⟨rest, hpassed⟩
  | fault hrest hscan => exact ⟨hstart, _, _, _, hrest, congrArg Scan.outcome hscan⟩

/-- A call passes over some of the text ahead, whatever it gives. -/
theorem next_passes (l : Lexer) :
    ∃ passed, l.rest = passed ++ l.next.2.rest ∧ l.next.2.place = l.place.after passed := by
  have hanswers := answers_next l
  generalize l.next = r at hanswers ⊢
  cases hanswers with
  | atEnd hrest =>
    have hgap := rest_skipGap_append l
    rw [hrest] at hgap
    exact ⟨(gap false l.rest).1, hgap.symm, rfl⟩
  | @lexeme _ _ _ passed rest _ hrest hscan | @fault _ _ _ passed rest hrest hscan =>
    refine ⟨(gap false l.rest).1 ++ passed, ?_, (Place.after_append _ _ _).symm⟩
    rw [List.append_assoc]
    exact rest_of_scan hrest hscan

/-- Calls pass over some of the text ahead, whatever they give. -/
theorem passes_of_le (l : Lexer) {j k : Nat} (h : j ≤ k) : ∃ passed,
    (l.afterCalls j).rest = passed ++ (l.afterCalls k).rest ∧
      (l.afterCalls k).place = (l.afterCalls j).place.after passed := by
  induction h with
  | refl => exact ⟨[], rfl, rfl⟩
  | @step k _ ih =>
    obtain ⟨passed, hrest, hplace⟩ := ih
    obtain ⟨more, hmore, hnext⟩ := next_passes (l.afterCalls k)
    rw [← afterCalls_succ] at hmore hnext
    refine ⟨passed ++ more, ?_, ?_⟩
    · rw [hrest, hmore, List.append_assoc]
    · rw [hnext, hplace, Place.after_append]

/-- Whatever a call gives has its place in the text ahead. -/
theorem stands_call (k : Nat) {before : List Char} {l : Lexer} (hplace : l.place = .behind before) :
    ∃ passed ahead, l.rest = passed ++ ahead ∧ Stands (before ++ passed) ahead (l.call k) := by
  obtain ⟨passed, hrest, hafter⟩ := passes_of_le l (Nat.zero_le k)
  have hbehind : (l.afterCalls k).place = .behind (before ++ passed) := by
    rw [← Place.after_behind, ← hplace]
    exact hafter
  have hstands := stands_next hbehind
  have hgap := rest_skipGap_append (l.afterCalls k)
  rw [List.append_assoc] at hstands
  refine ⟨passed ++ (gap false (l.afterCalls k).rest).1, (l.afterCalls k).skipGap.rest, ?_, hstands⟩
  rw [List.append_assoc, hgap]
  exact hrest

end Lexer

/-- **Every index has its place in the text**, where the token with it begins or the fault that ends
the tokens. -/
theorem Tokens.stands_ofChars (cs : List Char) (k : Nat) :
    ∃ before ahead, cs = before ++ ahead ∧ Lexer.Stands before ahead ((ofChars cs).get k) := by
  have hplace : (Lexer.ofChars cs).place = .behind [] := rfl
  rw [(calls_ofChars cs).get_eq]
  exact Lexer.stands_call _ hplace

end CommandShell
