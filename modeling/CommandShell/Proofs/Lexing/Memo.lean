import CommandShell.Proofs.Lexing.Reading
import CommandShell.Proofs.Parsing.Walking

/-! # Memo: how much of a text is read

The tokens with an index below a count are those that the lexer gives when it is called that many
times (`get?_read_ofText`), and a stream that is asked for them keeps no more of them than that
(`lexed_upTo_le`). -/

namespace CommandShell

/-- What the call of the lexer with an index gave, the last of them once the reading has ended. -/
def Lexer.Reading.get? (r : Lexer.Reading) (k : Nat) : Option (Except LexError Token) :=
  (r.tokens[k]?.map .ok).or r.ending

namespace Lexer

theorem get?_cons_zero (t : Token) (r : Reading) :
    Reading.get? { r with tokens := t :: r.tokens } 0 = some (.ok t) := rfl

theorem get?_cons_succ (t : Token) (r : Reading) (k : Nat) :
    Reading.get? { r with tokens := t :: r.tokens } (k + 1) = r.get? k := rfl

/-- The count does not matter for the calls below it. -/
theorem get?_read {count : Nat} : ∀ {more k : Nat} (l : Lexer), k < count → k < more →
    (read count l).get? k = (read more l).get? k := by
  induction count with
  | zero => intro more k l hcount; omega
  | succ count ih =>
    intro more k l hcount hmore
    obtain ⟨more, rfl⟩ : ∃ n, more = n + 1 := ⟨more - 1, by omega⟩
    rw [read, read]
    split
    · rfl
    · next t l' h =>
      split
      · rfl
      · cases k with
        | zero => rw [get?_cons_zero, get?_cons_zero]
        | succ k =>
          rw [get?_cons_succ, get?_cons_succ]
          exact ih l' (by omega) (by omega)

/-- A reading takes no more tokens than its count, the end token among them. -/
theorem length_read : ∀ (count : Nat) (l : Lexer),
    (read count l).tokens.length ≤ count ∧
      (∀ t, (read count l).ending = some (.ok t) → (read count l).tokens.length < count)
  | 0, _ => ⟨Nat.le_refl 0, nofun⟩
  | count + 1, l => by
    unfold read
    split
    · exact ⟨Nat.zero_le _, nofun⟩
    · next t l' h =>
      split
      · exact ⟨Nat.zero_le _, fun _ _ => Nat.succ_pos _⟩
      · obtain ⟨hle, hlt⟩ := length_read count l'
        exact ⟨Nat.succ_le_succ hle, fun t ht => Nat.succ_lt_succ (hlt t ht)⟩

end Lexer

/-- The tokens of a text are those that the calls of the lexer give. -/
theorem Tokens.get_ofChars (cs : List Char) {count k : Nat} (hk : k < count) :
    some ((ofChars cs).get k) = ((Lexer.ofChars cs).read count).get? k := by
  obtain ⟨hitems, hending⟩ := readAll_eq cs
  have hline : (1 : Int) ≤ (Lexer.ofChars cs).place.line := Int.le_refl 1
  have hall : (Lexer.ofChars cs).readAll =
      (Lexer.ofChars cs).read (max (cs.length + 1) (k + 1)) := by
    refine Lexer.read_of_lt _ _ _ hline (Nat.lt_succ_self _) ?_
    show cs.length < _
    omega
  have hget : (Lexer.ofChars cs).readAll.get? k = some ((ofChars cs).get k) := by
    unfold Lexer.Reading.get? Tokens.get
    rw [hitems, hending]
    split
    · next h => simp [h]
    · next h => simp [h]
  rw [← hget, hall]
  exact Lexer.get?_read _ (by omega) hk

/-- Texts from which the lexer reads the same have the same tokens. -/
theorem Tokens.agreesTo_of_read {s s' : String} {n : Nat}
    (htokens : ((Lexer.ofText s').read (n + 1)).tokens = ((Lexer.ofText s).read (n + 1)).tokens)
    (hending : ((Lexer.ofText s').read (n + 1)).ending = ((Lexer.ofText s).read (n + 1)).ending) :
    (Stream.ofText s').tokens.AgreesTo (Stream.ofText s).tokens n := by
  intro k hk
  have hlt : k < n + 1 := Nat.lt_succ_of_le hk
  refine Option.some.inj ?_
  rw [tokens_ofText, tokens_ofText, get_ofChars s'.toList hlt, get_ofChars s.toList hlt]
  show ((Lexer.ofText s').read (n + 1)).get? k = ((Lexer.ofText s).read (n + 1)).get? k
  unfold Lexer.Reading.get?
  rw [htokens, hending]

/-- A stream that is asked for the tokens below an index keeps no more than these, or what it had.
-/
theorem Stream.lexed_upTo_le (st : Stream) (n : Nat) : (st.upTo n).1.lexed ≤ max st.lexed n := by
  obtain ⟨items, eof, lexer⟩ := st
  unfold upTo grow
  cases eof with
  | some t => exact Nat.le_max_left _ _
  | none =>
    obtain ⟨hle, hlt⟩ := lexer.length_read (n - items.size)
    have hsize : (items ++ (lexer.read (n - items.size)).tokens.toArray).size =
        items.size + (lexer.read (n - items.size)).tokens.length := by simp
    dsimp only
    split
    · show (items ++ _).size + 0 ≤ max (items.size + 0) n
      omega
    · next t ht =>
      have hlt := hlt t ht
      show (items ++ _).size + 1 ≤ max (items.size + 0) n
      omega
    · show (items ++ _).size + 0 ≤ max (items.size + 0) n
      omega

end CommandShell
