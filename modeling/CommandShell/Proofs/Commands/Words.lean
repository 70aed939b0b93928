import CommandShell.Proofs.Commands.Buffers
import CommandShell.Proofs.Phrases.Written

/-! # Words: nothing is lost, invented or reordered

The tree of what is read from a text has, written out again, the words of the text. For a single
phrase these are the words from where its reading began to where it stopped; for a buffer without a
failure they are all words of the text. The tokens that the trees show are tokens of the text, in
its order. -/

namespace CommandShell

/-- The command of an item. -/
def Item.command? : Item → Option Command
  | .diagnostic _ => none
  | .command c => some c

/-- The commands of a buffer. -/
def Buffer.commands (b : Buffer) : List Command := b.items.filterMap Item.command?

/-- From `i` up to `j`, before the end token, the tokens have the words of the tree, and those that
it shows are among them, in order and where they stand. -/
structure Yields (ts : List Token) (i j : Nat) (tree : Tree) : Prop where
  words_eq : ((ts.drop i).take (j - i)).map Token.word = tree.words
  tokens_sublist : tree.tokens.Sublist ((ts.drop i).take (j - i))
  lt : i < j
  lt_length : j < ts.length

/-! ### Windows -/

theorem words_of_fits {ps : List Piece} {window : List Token}
    (h : List.Forall₂ Piece.Fits ps window) : window.map Token.word = ps.map Piece.word := by
  induction h with
  | nil => rfl
  | @cons p t ps window hp _ ih =>
    cases p with
    | fixed => rw [List.map_cons, List.map_cons, ih, show t.word = _ from hp]; rfl
    | token => rw [List.map_cons, List.map_cons, ih, show t = _ from hp]; rfl

variable {ts : Tokens} {levels i j : Nat} {ps : List Piece}

/-- The pieces read give the words and the tokens of a window of the text. -/
theorem Tokens.Reads.yields {last : Token} {tree : Tree} (h : ts.Reads i ps j) (hne : ps ≠ [])
    (hpieces : tree.pieces = ps) (htree : tree.tokens = Piece.kept ps) :
    Yields (ts.items.toList ++ [last]) i j tree := by
  obtain ⟨hij, hj⟩ := h.lt hne
  obtain ⟨w, hw, rfl, hps⟩ := h
  have hwindow : ((ts.items.toList ++ [last]).drop i).take (i + w.length - i) = w := by
    rw [List.drop_append_of_le_length (by simp; omega), hw, Nat.add_sub_cancel_left,
      List.append_assoc, List.take_left]
  constructor
  · rw [hwindow, Tree.words, hpieces]; exact words_of_fits hps
  · rw [hwindow, htree]; exact kept_sublist_of_fits hps
  · exact hij
  · simp; omega

/-- What is entered and read is between where the reading begins and where it stops. -/
theorem runs_of_enter {α : Type} {rule : Rule α} {a : α}
    (h : (Grammar.enter levels rule ts i).outcome = .ok a) :
    ∃ ds, Parser.Runs (Grammar.parse levels rule) ts i a (Grammar.enter levels rule ts i).next ds :=
  ⟨_, (Grammar.runs_enter.mp (Parser.runs_iff.mpr ⟨h, rfl, rfl⟩)).2⟩

theorem commands_diagnostics (ds : List Diagnostic) :
    (ds.map Item.diagnostic).filterMap Item.command? = [] := by
  induction ds with
  | nil => rfl
  | cons d ds ih => rw [List.map_cons, List.filterMap_cons_none rfl, ih]

/-- **A row of commands is read from its own pieces, up to the end.** -/
theorem reads_buffer (h : ts.Lexed) {items : List Item} (hi : i ≤ ts.items.size)
    (hrun : Command.BufferRun levels ts i items) :
    ts.Reads i ((items.filterMap Item.command?).flatMap fun c => c.request.pieces)
      ts.items.size := by
  induction hrun with
  | stop heof =>
    have hsize := Nat.le_antisymm hi (h.size_le_of_eof heof)
    rw [hsize]
    exact .nil
  | more _ hc _ ih =>
    have hrest := (Command.reads_command h hc).append (ih (hc.lt h).2)
    rw [List.filterMap_append, commands_diagnostics]
    exact hrest

theorem words_requests (cs : List Command) :
    (cs.flatMap fun c => c.request.pieces).map Piece.word = cs.flatMap (·.tree.words) := by
  induction cs with
  | nil => rfl
  | cons c cs ih =>
    rw [List.flatMap_cons, List.flatMap_cons, List.map_append, ih, Tree.words, Command.tree,
      Request.pieces_tree]

theorem kept_requests (cs : List Command) :
    Piece.kept (cs.flatMap fun c => c.request.pieces) = cs.flatMap (·.tree.tokens) := by
  induction cs with
  | nil => rfl
  | cons c cs ih =>
    rw [List.flatMap_cons, List.flatMap_cons, Piece.kept_append, ih, Command.tree,
      Request.tokens_tree]

/-! ### Texts -/

/-- What a text that can be split into tokens has for a reader. -/
theorem tokens_of_tokenize {s : String} {toks : List Token} (h : tokenize s = .ok toks) :
    ∃ last, toks = (Stream.ofText s).tokens.items.toList ++ [last] := by
  rw [tokenize_eq] at h
  rw [tokens_ofText]
  cases hending : (Tokens.ofChars s.toList).ending with
  | error e => rw [hending] at h; cases h
  | ok t => rw [hending] at h; cases h; exact ⟨t, rfl⟩

/-- **Nothing is lost, invented or reordered.** The tree of an expression, a statement or a primary
expression read from any place before the end token says what the tokens say from there to where the
reading stops, and the end token is never passed. The trees of the commands of a buffer without a
failure say all that the text says. -/
theorem words_of_text (levels : Nat) {s : String} {toks : List Token} (h : tokenize s = .ok toks) :
    (∀ i,
      (∀ e, (Grammar.enter levels .expr (Stream.ofText s).tokens i).outcome = .ok e →
        Yields toks i (Grammar.enter levels .expr (Stream.ofText s).tokens i).next e.tree) ∧
      (∀ e, (Grammar.enter levels .primary (Stream.ofText s).tokens i).outcome = .ok e →
        Yields toks i (Grammar.enter levels .primary (Stream.ofText s).tokens i).next e.tree) ∧
      ∀ st, (Grammar.enter levels .stmt (Stream.ofText s).tokens i).outcome = .ok st →
        Yields toks i (Grammar.enter levels .stmt (Stream.ofText s).tokens i).next st.tree) ∧
    ((Buffer.ofTokens levels (Stream.ofText s).tokens).failure = none →
      (Buffer.ofTokens levels (Stream.ofText s).tokens).commands.flatMap (·.tree.words) =
        toks.dropLast.map Token.word ∧
      ((Buffer.ofTokens levels (Stream.ofText s).tokens).commands.flatMap (·.tree.tokens)).Sublist
        toks.dropLast) := by
  obtain ⟨last, rfl⟩ := tokens_of_tokenize h
  have hlexed : (Stream.ofText s).tokens.Lexed := Tokens.lexed_ofChars s.toList
  refine ⟨fun i => ⟨fun e he => ?_, fun e he => ?_, fun st hst => ?_⟩, fun hnone => ?_⟩
  · obtain ⟨ds, hrun⟩ := runs_of_enter he
    exact (Grammar.reads_expr_of_runs hlexed hrun).yields e.pieces_ne_nil e.pieces_tree
      e.tokens_tree
  · obtain ⟨ds, hrun⟩ := runs_of_enter he
    exact (Grammar.reads_primary_of_runs hlexed hrun).yields e.pieces_ne_nil e.pieces_tree
      e.tokens_tree
  · obtain ⟨ds, hrun⟩ := runs_of_enter hst
    exact (Grammar.reads_stmt_of_runs hlexed hrun).yields st.pieces_ne_nil st.pieces_tree
      st.tokens_tree
  · rcases hb : Buffer.ofTokens levels (Stream.ofText s).tokens with ⟨items, failure⟩
    rw [hb] at hnone
    cases hnone
    have hreads := reads_buffer hlexed (Nat.zero_le _) ((Command.ofTokens_iff hlexed).mp hb)
    obtain ⟨w, hw, hlen, hps⟩ := hreads
    have hall : w = (Stream.ofText s).tokens.items.toList := by
      rw [List.drop_zero, List.drop_eq_nil_of_le (by simp), List.append_nil] at hw
      exact hw.symm
    subst hall
    rw [List.dropLast_concat]
    constructor
    · rw [words_of_fits hps, words_requests]; rfl
    · have hkept := kept_sublist_of_fits hps
      rw [kept_requests] at hkept
      exact hkept

/-- The call in `f(1)` is read from all four tokens. -/
theorem words_of_call :
    let tree := Tree.node "call"
      [.token ⟨.ident, "f", 1, 1⟩, .node "args" [.token ⟨.number, "1", 1, 3⟩]]
    Yields [⟨.ident, "f", 1, 1⟩, ⟨.lparen, "(", 1, 2⟩, ⟨.number, "1", 1, 3⟩, ⟨.rparen, ")", 1, 4⟩,
      .atEnd 1 5] 0 4 tree ∧
      tree.words = [(.ident, "f"), (.lparen, "("), (.number, "1"), (.rparen, ")")] := by
  have hlex : tokenize "f(1)" = .ok [⟨.ident, "f", 1, 1⟩, ⟨.lparen, "(", 1, 2⟩,
    ⟨.number, "1", 1, 3⟩, ⟨.rparen, ")", 1, 4⟩, .atEnd 1 5] := by decide
  exact ⟨((words_of_text 20 hlex).1 0).1
    (.call false (.atom ⟨.ident, "f", 1, 1⟩) [.atom ⟨.number, "1", 1, 3⟩]) rfl, rfl⟩

end CommandShell
