import CommandShell.Proofs.Commands.Buffers
import CommandShell.Proofs.Parsing.Nesting

/-! # Balance: a buffer that is read to its end has balanced brackets

Each command closes the brackets that it opens, so that after the last one none is open. Therefore
lines that the bracket count holds back, or takes to be beyond mending, could not be read to their
end. -/

namespace CommandShell

open CommandShell.Parser CommandShell.Grammar

variable {ts : Tokens} {levels i j : Nat} {ds : List Diagnostic} (h : ts.Lexed)
include h

namespace Command

theorem nested_operands {es : List Expr} (hes : Separated ts (OperandRun levels ts) i es j ds) :
    ts.Nested i j := nested_separated h (fun _ _ _ _ he => nested_expr_of_runs h he) hes

theorem nested_tail {e : Expr} {r : Request} : TailRun levels ts e i r j ds → ts.Nested i j
  | .value _ => .refl
  | .terminated _ hsemicolon => h.nested_last rfl hsemicolon
  | .assignment _ hassign hv hsemicolon => by
    have hrest := (nested_expr_of_runs h hv).trans (h.nested_last rfl hsemicolon)
    exact h.nested_has rfl hassign hrest
  | .compound _ hsign hop hv hsemicolon => by
    have hrest := (nested_expr_of_runs h hv).trans (h.nested_last rfl hsemicolon)
    exact h.nested_at hsign (isPlain_of_compound (by rw [hop]; rfl)) hrest
  | .parallel _ hothers _ hsign hassign _ hvalues hsemicolon => by
    have hothers := nested_more h (fun _ _ _ _ he => nested_expr_of_runs h he) hothers
    have hrest := (nested_operands h hvalues).trans (h.nested_last rfl hsemicolon)
    exact hothers.trans (h.nested_has rfl ⟨_, hsign, hassign⟩ hrest)

theorem nested_command {c : Command} : CommandRun levels ts i c j ds → ts.Nested i j
  | .mk _ (.statement _ hs) _ => nested_stmt_of_runs h hs
  | .mk _ (.expression _ he htail) _ => (nested_expr_of_runs h he).trans (nested_tail h htail)

/-- **A row of commands closes the brackets that it opens.** -/
theorem nested_buffer {items : List Item} (hi : i ≤ ts.items.size)
    (hrun : BufferRun levels ts i items) : ts.Nested i ts.items.size := by
  induction hrun with
  | stop heof =>
    rw [Nat.le_antisymm hi (h.size_le_of_eof heof)]
    exact .refl
  | more _ hc _ ih => exact (nested_command h hc).trans (ih (hc.lt h).2)

theorem ending_of_buffer {items : List Item} (hi : i ≤ ts.items.size)
    (hrun : BufferRun levels ts i items) : ∃ last, ts.ending = .ok last := by
  induction hrun with
  | stop heof =>
    obtain ⟨t, ht, hk⟩ := heof
    have hsize := h.size_le_of_eof ⟨t, ht, hk⟩
    rw [Tokens.At, Tokens.get, dif_neg (Nat.not_lt.mpr hsize)] at ht
    exact ⟨t, ht⟩
  | more _ hc _ ih => exact ih (hc.lt h).2

/-- The tokens of a buffer that is read to its end are balanced. -/
theorem scan_buffer {items : List Item} (hrun : BufferRun levels ts 0 items) :
    ∃ last, ts.ending = .ok last ∧
      Brackets.empty.scan (ts.items.toList ++ [last]) = (.balanced, .empty) := by
  obtain ⟨last, hlast⟩ := ending_of_buffer h (Nat.zero_le _) hrun
  obtain ⟨w, hw, hscan⟩ := nested_buffer h (Nat.zero_le _) hrun
  rw [List.drop_zero, List.drop_eq_nil_of_le (by simp), List.append_nil] at hw
  refine ⟨last, hlast, ?_⟩
  rw [hw, hscan, Brackets.scan_eof (h.ending_eof last hlast)]
  rfl

omit h in
/-- The tokens of a text that is read to its end are balanced. -/
theorem scan_of_read {text : String} {levels : Nat}
    (hnone : (Buffer.ofTokens levels (Stream.ofText text).tokens).failure = none) :
    ∃ toks, tokenize text = .ok toks ∧ Brackets.empty.scan toks = (.balanced, .empty) := by
  have h : (Stream.ofText text).tokens.Lexed := Tokens.lexed_ofChars text.toList
  rcases hb : Buffer.ofTokens levels (Stream.ofText text).tokens with ⟨items, failure⟩
  rw [hb] at hnone
  cases hnone
  obtain ⟨last, hlast, hscan⟩ := scan_buffer h ((ofTokens_iff h).mp hb)
  rw [tokens_ofText] at hlast hscan
  exact ⟨_, by rw [tokenize_eq, hlast]; rfl, hscan⟩

end Command

omit h in
/-- **A text that is read to its end has balanced brackets**, so that reading fails wherever the
bracket count of its tokens waits for more or finds a closer that fits no bracket. -/
theorem balanced_of_read (levels : Nat) (s : String) :
    ((Buffer.ofTokens levels (Stream.ofText s).tokens).failure = none →
      ∃ toks, tokenize s = .ok toks ∧ Brackets.empty.scan toks = (.balanced, .empty)) ∧
    ∀ toks, tokenize s = .ok toks → (Brackets.empty.scan toks).1 ≠ .balanced →
      (Buffer.ofTokens levels (Stream.ofText s).tokens).failure ≠ none := by
  refine ⟨Command.scan_of_read, fun toks htoks hverdict hnone => hverdict ?_⟩
  obtain ⟨toks', htoks', hscan⟩ := Command.scan_of_read hnone
  rw [htoks] at htoks'
  cases htoks'
  rw [hscan]

omit h in
/-- `f([1])` is read to its end, and `f([1)` is not. -/
theorem balanced_of_read_call :
    (∃ toks, tokenize "f([1])" = .ok toks ∧ Brackets.empty.scan toks = (.balanced, .empty)) ∧
      (Buffer.ofTokens 40 (Stream.ofText "f([1)").tokens).failure ≠ none := by
  refine ⟨(balanced_of_read 40 "f([1])").1 rfl, ?_⟩
  exact (balanced_of_read 40 "f([1)").2 [⟨.ident, "f", 1, 1⟩, ⟨.lparen, "(", 1, 2⟩,
    ⟨.lsquare, "[", 1, 3⟩, ⟨.number, "1", 1, 4⟩, ⟨.rparen, ")", 1, 5⟩, .atEnd 1 6]
    (by decide) (by decide)

end CommandShell
