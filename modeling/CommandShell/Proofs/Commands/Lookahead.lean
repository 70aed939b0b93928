import CommandShell.Grammar.Cursor
import CommandShell.Proofs.Commands.Conduct
import CommandShell.Proofs.Lexing.Memo

/-! # Lookahead: a command does not depend on what follows

A command looks at no token behind the one where it stops. So it is read in the same way from every
text that has the same tokens up to there, whatever comes after, and nothing more is kept of the
text (`read_of_agreement`). A buffer therefore yields the commands before a fault or an error. -/

namespace CommandShell

open CommandShell.Parser CommandShell.Grammar

namespace Command

/-- Commands that are read one after the other, with what was reported before each: from the place
`i` the items lead to the place `j`. -/
inductive Row (levels : Nat) (ts : Tokens) : Nat → List Item → Nat → Prop
  | nil {i} : Row levels ts i [] i
  | cons {i c items j} : (read levels ts i).outcome = .ok c →
      Row levels ts (read levels ts i).next items j →
      Row levels ts i ((read levels ts i).found.map .diagnostic ++ .command c :: items) j

variable {levels : Nat} {ts us : Tokens} {i j : Nat} {c : Command} {items : List Item}

theorem Row.concat (h : Row levels ts i items j) (hc : (read levels ts j).outcome = .ok c) :
    Row levels ts i (items ++ ((read levels ts j).found.map .diagnostic ++ [.command c]))
      (read levels ts j).next := by
  induction h with
  | nil => exact .cons hc .nil
  | cons hfirst _ ih =>
    rw [List.append_assoc]
    exact .cons hfirst (ih hc)

section
variable (hts : ts.Lexed)
include hts

theorem walked_read (hc : (read levels ts i).outcome = .ok c) :
    Walked (read levels) ts i [] [] (read levels ts i) ∧ i < (read levels ts i).next :=
  (walks_read hts (Nat.le_refl i)).ok hc

theorem Row.le (h : Row levels ts i items j) : i ≤ j := by
  induction h with
  | nil => exact Nat.le_refl _
  | cons hc _ ih =>
    have hlt := (walked_read hts hc).2
    omega

/-- Commands are read in the same way from tokens that agree up to where they stop. -/
theorem Row.of_agreesTo (hus : us.Lexed) (h : Row levels ts i items j)
    (hagrees : us.AgreesTo ts j) : Row levels us i items j := by
  induction h with
  | nil => exact .nil
  | @cons i c items j hc hrow ih =>
    have hsame := (walked_read hts hc).1.same hus (hagrees.mono (hrow.le hts))
    have hrow : Row levels us i _ j := .cons (hsame ▸ hc) (hsame ▸ ih hagrees)
    rwa [hsame] at hrow

/-- A command that is read is read in a round. -/
theorem readRound_of_read (hc : (read levels ts i).outcome = .ok c) :
    (readRound levels ts i).outcome = .ok (some c) ∧
      (readRound levels ts i).next = (read levels ts i).next ∧
      (readRound levels ts i).found = (read levels ts i).found := by
  obtain ⟨hwalked, hlt⟩ := walked_read hts hc
  obtain ⟨t, ht, hk⟩ := hwalked.walk.exists_at i (Nat.le_refl i) hlt
  have hrun : Runs (read levels) ts i c (read levels ts i).next (read levels ts i).found :=
    runs_iff.mpr ⟨hc, rfl, rfl⟩
  have hround := (runs_readRound hts).mpr (Or.inr ⟨⟨t, ht, hk⟩, c, (runs_read hts).mp hrun, rfl⟩)
  exact runs_iff.mp hround

/-- **A buffer yields every command that is complete**, whatever happens behind it. -/
theorem Row.prefix_readFrom (h : Row levels ts i items j) :
    ∀ {rounds : Nat}, ts.items.size < i + rounds →
      items <+: (Buffer.readFrom levels ts rounds i).items := by
  induction h with
  | nil => intro rounds _; exact List.nil_prefix
  | @cons i c items j hc hrow ih =>
    intro rounds hrounds
    obtain ⟨hwalked, hlt⟩ := walked_read hts hc
    have hsize := hwalked.walk.le_size hts hlt
    obtain ⟨rounds, rfl⟩ : ∃ n, rounds = n + 1 := ⟨rounds - 1, by omega⟩
    obtain ⟨hround, hnext, hfound⟩ := readRound_of_read hts hc
    have hrest := @ih rounds (by omega)
    unfold Buffer.readFrom
    simp only [hround, hnext, hfound]
    exact (List.prefix_append_right_inj _).mpr (List.cons_prefix_cons.mpr ⟨rfl, hrest⟩)

end

end Command

/-- **A command does not depend on what follows.** Let a command be read from the place `p` of a
text and stop at `q`. From every text on which the first `q + 1` calls of the lexer give the same,
the same command is read at `p`, with the same stop and the same reports. A cursor that reads it
keeps at most `q + 1` tokens, if it did before. If there are only commands up to `p`, the buffer of
the other text begins with these and the command. -/
theorem read_of_agreement (levels : Nat) (s s' : String) (p : Nat) {c : Command}
    (hc : (Command.read levels (Stream.ofText s).tokens p).outcome = .ok c)
    (htokens : ((Lexer.ofText s').read
        ((Command.read levels (Stream.ofText s).tokens p).next + 1)).tokens =
      ((Lexer.ofText s).read ((Command.read levels (Stream.ofText s).tokens p).next + 1)).tokens)
    (hending : ((Lexer.ofText s').read
        ((Command.read levels (Stream.ofText s).tokens p).next + 1)).ending =
      ((Lexer.ofText s).read ((Command.read levels (Stream.ofText s).tokens p).next + 1)).ending) :
    Command.read levels (Stream.ofText s').tokens p =
        Command.read levels (Stream.ofText s).tokens p ∧
      (∀ (st : Stream) (ds : List Diagnostic), st.tokens = (Stream.ofText s).tokens →
        st.lexed ≤ (Command.read levels (Stream.ofText s).tokens p).next + 1 →
        ((Cursor.mk st p ds).run (Command.read levels)).2.stream.lexed ≤
          (Command.read levels (Stream.ofText s).tokens p).next + 1) ∧
      ∀ items, Command.Row levels (Stream.ofText s).tokens 0 items p →
        items ++ ((Command.read levels (Stream.ofText s).tokens p).found.map .diagnostic ++
            [.command c]) <+:
          (Buffer.ofTokens levels (Stream.ofText s').tokens).items := by
  have hts : (Stream.ofText s).tokens.Lexed := Tokens.lexed_ofChars s.toList
  have hus : (Stream.ofText s').tokens.Lexed := Tokens.lexed_ofChars s'.toList
  have hagrees := Tokens.agreesTo_of_read htokens hending
  obtain ⟨hwalked, -⟩ := Command.walked_read hts hc
  refine ⟨hwalked.same hus hagrees, fun st ds hst hlexed => ?_, fun items hrow => ?_⟩
  · have hmemo := st.lexed_upTo_le (Command.read levels (Stream.ofText s).tokens p).reach
    have hreach := hwalked.reach_le
    unfold Cursor.run
    rw [if_neg (by simp)]
    simp only [hst, Int.toNat_natCast]
    omega
  · have hrow := (hrow.concat hc).of_agreesTo hts hus hagrees
    exact hrow.prefix_readFrom hus (by omega)

/-- Two commands, and the same before a character that begins no token: the second command does not
depend on it, and both are there in the buffer. -/
theorem read_of_agreement_fault :
    (∃ e, tokenize "a; b = 1; c #" = .error e) ∧
      Command.read 30 (Stream.ofText "a; b = 1; c #").tokens 2 =
        Command.read 30 (Stream.ofText "a; b = 1; c").tokens 2 ∧
      2 ≤ (Buffer.ofTokens 30 (Stream.ofText "a; b = 1; c #").tokens).items.length := by
  obtain ⟨c, hc⟩ : ∃ c, (Command.read 30 (Stream.ofText "a; b = 1; c").tokens 2).outcome = .ok c :=
    ⟨_, rfl⟩
  obtain ⟨hsame, -, hitems⟩ := read_of_agreement 30 "a; b = 1; c" "a; b = 1; c #" 2 hc
    (by decide) rfl
  refine ⟨⟨_, rfl⟩, hsame, ?_⟩
  have hrow : Command.Row 30 (Stream.ofText "a; b = 1; c").tokens 0 _ 2 := .cons rfl .nil
  have hlength := (hitems _ hrow).length_le
  simp only [List.length_append, List.length_cons, List.length_nil] at hlength
  omega

end CommandShell
