import CommandShell.Proofs.Commands.Codes
import CommandShell.Proofs.Commands.Unfinished
import CommandShell.Proofs.Lexing.Rendering
import CommandShell.Proofs.Parsing.Blind
import CommandShell.Proofs.Sessions.Cutting

/-! # Wording: what the commands of a text depend on

The commands of a text are those of its words. Blanks and comments tell where its lexemes begin and
end, and nothing else. So what is read from a text is read from its canonical text too, which keeps
of blanks and comments only whether a `?` touches the operand before it (`tokenize_canonicalText`).

The reading of commands is blind to places, as the rules are; the span of a command is the one thing
that is made of places alone, and is left out (`blind_read`). -/

namespace CommandShell

open CommandShell.Parser CommandShell.Grammar

/-! ### Commands without places -/

/-- The request without the places of its tokens. -/
def Request.unplaced : Request → Request
  | .statement s => .statement s.unplaced
  | .expression e terminated => .expression e.unplaced terminated
  | .assignment t v => .assignment t.unplaced v.unplaced
  | .compound t op v => .compound t.unplaced op v.unplaced
  | .parallel ts sign vs =>
    .parallel (ts.map Expr.unplaced) sign.unplaced (vs.map Expr.unplaced)

/-- The command at no span. -/
def Command.spanless (c : Command) : Command := ⟨c.request, ⟨0, 0, 0, 0⟩⟩

/-- The command without its span and the places of its tokens. -/
def Command.unplaced (c : Command) : Command := ⟨c.request.unplaced, ⟨0, 0, 0, 0⟩⟩

/-- The item with commands at no span. -/
def Item.spanless : Item → Item
  | .diagnostic d => .diagnostic d
  | .command c => .command c.spanless

/-- The item without places. -/
def Item.unplaced : Item → Item
  | .diagnostic d => .diagnostic d.unplaced
  | .command c => .command c.unplaced

/-- The buffer with commands at no span. -/
def Buffer.spanless (b : Buffer) : Buffer := ⟨b.items.map Item.spanless, b.failure⟩

/-- The buffer without places. -/
def Buffer.unplaced (b : Buffer) : Buffer :=
  ⟨b.items.map Item.unplaced, b.failure.map Failure.unplaced⟩

namespace Command

variable {levels : Nat} {ts : Tokens}

theorem blind_operand : Blind Expr.unplaced (operand levels) (operand levels) ts :=
  blind_enter levels .expr

theorem blind_checkTargetWithin (e : Expr) : Blind id (checkTargetWithin levels e)
    (checkTargetWithin levels e.unplaced) ts := by
  have hiff : e.unplaced.TargetWithin levels ↔ e.TargetWithin levels := by
    rw [Expr.TargetWithin, e.isTarget_unplaced, e.tree_unplaced, Tree.searchDepth_unplaced]
    rfl
  unfold checkTargetWithin
  simp only [hiff]
  exact .ite blind_checkTarget blind_tooDeep

theorem blind_checkEffectWithin (e : Expr) : Blind id (checkEffectWithin levels e)
    (checkEffectWithin levels e.unplaced) ts := by
  have hiff : e.unplaced.EffectWithin levels ↔ e.EffectWithin levels := by
    rw [Expr.EffectWithin, e.hasEffect_unplaced, e.tree_unplaced, Tree.searchDepth_unplaced]
    rfl
  unfold checkEffectWithin
  simp only [hiff]
  exact .ite blind_checkEffect blind_tooDeep

theorem blind_assignmentRest (target : Expr) : Blind Expr.unplaced (assignmentRest levels target)
    (assignmentRest levels target.unplaced) ts :=
  (blind_checkTargetWithin target).bind fun _ => blind_operand.bind fun _ =>
    blind_expectSemicolon.map fun _ => rfl

theorem blind_checkTargets (targets : List Expr) :
    Blind id (targets.forM (checkTargetWithin levels))
      ((targets.map Expr.unplaced).forM (checkTargetWithin levels)) ts := by
  induction targets with
  | nil => exact blind_pure rfl
  | cons t targets ih => exact (blind_checkTargetWithin t).bind fun _ => ih

theorem blind_parallelRest (first : Expr) : Blind Request.unplaced (parallelRest levels first)
    (parallelRest levels first.unplaced) ts := by
  refine blind_operand.more.bind fun others => blind_expectAs.bind fun sign =>
    (blind_checkTargets (first :: others)).bind fun _ =>
      blind_operand.separated.bind fun values => ?_
  have hrest : Blind Request.unplaced (do
      let _ ← expectSemicolon
      return Request.parallel (first :: others) sign values) (do
      let _ ← expectSemicolon
      return Request.parallel (first.unplaced :: others.map Expr.unplaced) sign.unplaced
        (values.map Expr.unplaced)) ts := blind_expectSemicolon.map fun _ => rfl
  simp only [List.length_cons, List.length_map]
  exact .ite (blind_report.bind fun _ => hrest) hrest

theorem blind_afterExpression (e : Expr) : Blind Request.unplaced (afterExpression levels e)
    (afterExpression levels e.unplaced) ts := by
  refine blind_current.bind fun t => ?_
  simp only [Token.kind_unplaced]
  split
  · exact (blind_checkEffectWithin e).bind fun _ => blind_advance.map fun _ => rfl
  · exact blind_advance.bind fun _ => (blind_assignmentRest e).map fun _ => rfl
  · exact blind_parallelRest e
  · exact blind_pure rfl
  · split
    · exact blind_advance.bind fun _ => (blind_assignmentRest e).map fun _ => rfl
    · exact blind_failHere

theorem blind_readRequest :
    Blind Request.unplaced (readRequest levels) (readRequest levels) ts := by
  refine blind_opening.bind fun opens => ?_
  cases opens with
  | statement => exact (blind_enter levels .stmt).map fun _ => rfl
  | expression => exact blind_operand.bind fun e => blind_afterExpression e

/-- One parser after the other, with a last touch to what the second reads. -/
theorem blind_bindMap {α β : Type} {u : α → α} {v k : β → β} {p q : Parser α}
    {f g : α → Parser β} (hp : Blind u p q ts) (hf : ∀ a, Blind v (f a) (k <$> g (u a)) ts) :
    Blind v (p >>= f) (k <$> (q >>= g)) ts := by
  have hmap : k <$> (q >>= g) = q >>= fun a => k <$> g a := bind_bind q g _
  rw [hmap]
  exact hp.bind hf

/-- The reading of a command is blind to places, but for its span. -/
theorem blind_read : Blind Command.unplaced (read levels) (spanless <$> read levels) ts := by
  have hspan : ∀ (start : Token) (r : Request), (do
      let span ← spanSince start
      return (⟨r, span⟩ : Command)) = (do
      let last ← previous
      return ⟨r, .over start (last.getD start)⟩) := fun _ _ => bind_bind previous _ _
  rw [read_eq]
  simp only [hspan]
  exact blind_bindMap blind_current fun _ => blind_bindMap blind_readRequest fun _ =>
    blind_bindMap blind_previous fun _ _ => rfl

theorem blind_readRound : Blind (Option.map Command.unplaced) (readRound levels)
    (Option.map spanless <$> readRound levels) ts := by
  refine blind_bindMap blind_sees fun sees => ?_
  cases sees with
  | true => exact fun _ => rfl
  | false =>
    have hinner : Option.map spanless <$> some <$> read levels =
        read levels >>= fun c => pure (some c.spanless) := bind_bind (read levels) _ _
    have houter : some <$> spanless <$> read levels =
        read levels >>= fun c => pure (some c.spanless) := bind_bind (read levels) _ _
    have hround : Blind (Option.map Command.unplaced) (some <$> read levels)
        (Option.map spanless <$> some <$> read levels) ts := by
      rw [hinner, ← houter]
      exact blind_read.map fun _ => rfl
    exact hround

end Command

/-! ### Buffers without places -/

/-- What a parser does with a last touch to what it reads. -/
theorem Parser.run_map {α β : Type} (f : α → β) (p : Parser α) (ts : Tokens) (i : Nat) :
    (f <$> p) ts i = ⟨(p ts i).outcome.map f, (p ts i).next, (p ts i).found, (p ts i).reach⟩ := by
  have hmap : f <$> p = p >>= fun a => pure (f a) := rfl
  rw [hmap]
  cases h : (p ts i).outcome with
  | error e => exact bind_of_error h
  | ok a =>
    rw [bind_of_ok h]
    exact congrArg₂ (Parsed.mk _ _) (List.append_nil _) (Nat.max_zero _)

theorem diagnostics_unplaced (found : List Diagnostic) :
    ((found.map Diagnostic.unplaced).map Item.diagnostic).map Item.spanless =
      (found.map Item.diagnostic).map Item.unplaced := by
  rw [List.map_map, List.map_map, List.map_map]
  rfl

theorem Buffer.readFrom_unplaced (levels : Nat) (ts : Tokens) : ∀ rounds i : Nat,
    (readFrom levels ts.unplaced rounds i).spanless = (readFrom levels ts rounds i).unplaced
  | 0, _ => rfl
  | rounds + 1, i => by
    have hround : (Option.map Command.spanless <$> Command.readRound levels) ts.unplaced i = _ :=
      Command.blind_readRound i
    rw [run_map] at hround
    unfold readFrom
    generalize Command.readRound levels ts i = r at hround ⊢
    generalize Command.readRound levels ts.unplaced i = r' at hround ⊢
    obtain ⟨outcome, next, found, reach⟩ := r
    obtain ⟨outcome', next', found', reach'⟩ := r'
    simp only [Parsed.unplaced, Parsed.mk.injEq] at hround
    obtain ⟨houtcome, rfl, rfl, -⟩ := hround
    have hfound := diagnostics_unplaced found
    rcases outcome with f | _ | c <;> rcases outcome' with f' | _ | c' <;>
      simp only [Except.map, Except.mapError, Option.map_none, Option.map_some, Except.ok.injEq,
        Except.error.injEq, Option.some.injEq, reduceCtorEq] at houtcome
    · exact congrArg₂ Buffer.mk hfound (congrArg some houtcome)
    · exact congrArg (Buffer.mk · none) hfound
    · have hrest := readFrom_unplaced levels ts rounds next'
      have hitems := congrArg Buffer.items hrest
      have hfailure := congrArg Buffer.failure hrest
      simp only [Buffer.spanless, Buffer.unplaced] at hitems hfailure ⊢
      rw [List.map_append, List.map_append, hfound, List.map_cons, List.map_cons, hitems, hfailure,
        Item.spanless, Item.unplaced, houtcome]

/-- The commands of some tokens without places are their commands without places. -/
theorem Buffer.ofTokens_unplaced (levels : Nat) (ts : Tokens) :
    (ofTokens levels ts.unplaced).spanless = (ofTokens levels ts).unplaced := by
  unfold ofTokens
  rw [ts.size_unplaced]
  exact readFrom_unplaced levels ts _ 0

/-! ### Texts with the same lexemes -/

/-- The tokens of texts with the same lexemes are the same without their places. -/
theorem tokens_unplaced_eq {s s' : String} {toks toks' : List Token} (h : tokenize s = .ok toks)
    (h' : tokenize s' = .ok toks') (hlexemes : toks'.map Token.lexeme = toks.map Token.lexeme) :
    (Stream.ofText s').tokens.unplaced = (Stream.ofText s).tokens.unplaced := by
  obtain ⟨last, hlast, rfl⟩ := ending_of_tokenize h
  obtain ⟨last', hlast', rfl⟩ := ending_of_tokenize h'
  have hscanned : ∀ (s : String), ∀ t ∈ (Stream.ofText s).tokens.items.toList, t.Scanned := by
    intro s t ht
    rw [tokens_ofText, ← (Tokens.readAll_eq s.toList).1] at ht
    exact Lexer.read_scanned _ _ t ht
  have hend : ∀ {s : String} {items : List Token} {last : Token},
      tokenize s = .ok (items ++ [last]) → last.word = ReadsAs.endWord := by
    intro s items last h
    obtain ⟨ws, -, hwords⟩ := ReadsAs.of_tokenize h
    rw [List.map_append] at hwords
    exact List.singleton_inj.mp (List.append_inj_right' hwords rfl)
  rw [List.map_append, List.map_append] at hlexemes
  have hitems := word_eq_of_scanned (hscanned s') (hscanned s) (List.append_inj_left' hlexemes rfl)
  exact Tokens.unplaced_eq _ hitems hlast' hlast ((hend h').trans (hend h).symm)

/-! ### The canonical text -/

namespace ReadsAs

variable {cs : List Char} {ws : List Word}

theorem kind_ne_eof (h : ReadsAs cs ws) : ∀ w ∈ ws, w.1 ≠ .eof := by
  obtain ⟨t, ht, rfl⟩ := h
  exact List.forall_mem_map.mpr fun t ht => ((Tokens.lexed_ofChars cs).proper t ht).kind_ne_eof

/-- The canonical text of the words of a text is read as these words. -/
theorem canonical (h : ReadsAs cs ws) : ReadsAs (canonical ws) ws := by
  obtain ⟨t, ht, hws⟩ := h
  obtain ⟨⟨t', ht'⟩, hws'⟩ := Tokens.ofChars_canonical ht hws
  exact ⟨t', ht', hws'⟩

/-- The canonical text of the tokens is that of their words. -/
theorem canonicalText_eq (h : ReadsAs cs ws) {toks : List Token}
    (hwords : toks.map Token.word = ws ++ [endWord]) :
    canonicalText toks = String.ofList (CommandShell.canonical ws) := by
  have hfilter : (toks.filter fun t => !t.isEof).map Token.word =
      (toks.map Token.word).filter fun w => w.1 != .eof := by
    rw [List.filter_map]
    rfl
  have hproper : ws.filter (fun w => w.1 != .eof) = ws :=
    List.filter_eq_self.mpr fun w hw => by simpa using h.kind_ne_eof w hw
  rw [canonicalText, hfilter, hwords, List.filter_append, hproper]
  exact congrArg (fun vs => String.ofList (CommandShell.canonical vs)) (List.append_nil ws)

end ReadsAs

/-- **The canonical text is read as the text is.** Let a text be read as some tokens, and let these
be written again with one blank between any two, but none before a safe form. This text is read as
the same kinds and lexemes. And whatever text has these lexemes, whichever blanks and comments stand
between them: every rule, from every place on, and the reading of commands take the same from it,
report the same and fail with the same, but for places. -/
theorem tokenize_canonicalText {s : String} {toks : List Token} (h : tokenize s = .ok toks) :
    (tokenize (canonicalText toks)).map (List.map Token.word) = .ok (toks.map Token.word) ∧
    ∀ s', (tokenize s').map (List.map Token.lexeme) = .ok (toks.map Token.lexeme) →
      (∀ (levels i : Nat) {α : Type} (rule : Rule α),
        (parse levels rule (Stream.ofText s').tokens i).unplaced rule.forget =
          (parse levels rule (Stream.ofText s).tokens i).unplaced rule.forget) ∧
      (Buffer.ofText s').unplaced = (Buffer.ofText s).unplaced := by
  obtain ⟨ws, hws, hwords⟩ := ReadsAs.of_tokenize h
  constructor
  · have hcanonical := hws.canonical
    rw [hws.canonicalText_eq hwords, hwords, ← ReadsAs.iff_tokenize, String.toList_ofList]
    exact hcanonical
  · intro s' hlexemes
    obtain ⟨toks', h', heq⟩ : ∃ toks', tokenize s' = .ok toks' ∧
        toks'.map Token.lexeme = toks.map Token.lexeme := by
      cases htoks : tokenize s' with
      | error e =>
        rw [htoks] at hlexemes
        cases hlexemes
      | ok toks' =>
        rw [htoks] at hlexemes
        exact ⟨toks', rfl, Except.ok.inj hlexemes⟩
    have htokens := tokens_unplaced_eq h h' heq
    refine ⟨fun levels i α rule => ?_, ?_⟩
    · rw [← blind_parse levels rule i, ← blind_parse levels rule i, htokens]
    · unfold Buffer.ofText
      rw [← Buffer.ofTokens_unplaced, ← Buffer.ofTokens_unplaced, htokens]

/-- A call that touches its target is read again as such, and a conditional with blanks around it;
the comment is gone. -/
theorem tokenize_canonicalText_question :
    tokenize "f?(x) ?y:z // note" = .ok [⟨.ident, "f", 1, 1⟩, ⟨.safeLparen, "?(", 1, 2⟩,
      ⟨.ident, "x", 1, 4⟩, ⟨.rparen, ")", 1, 5⟩, ⟨.question, "?", 1, 7⟩, ⟨.ident, "y", 1, 8⟩,
      ⟨.colon, ":", 1, 9⟩, ⟨.ident, "z", 1, 10⟩, .atEnd 1 19] ∧
    (tokenize "f?( x ) ? y : z").map (List.map Token.word) = .ok [(.ident, "f"),
      (.safeLparen, "?("), (.ident, "x"), (.rparen, ")"), (.question, "?"), (.ident, "y"),
      (.colon, ":"), (.ident, "z"), (.eof, "")] ∧
    (Buffer.ofText "f?( x ) ? y : z").unplaced = (Buffer.ofText "f?(x) ?y:z // note").unplaced := by
  have hlex : tokenize "f?(x) ?y:z // note" = .ok [⟨.ident, "f", 1, 1⟩, ⟨.safeLparen, "?(", 1, 2⟩,
      ⟨.ident, "x", 1, 4⟩, ⟨.rparen, ")", 1, 5⟩, ⟨.question, "?", 1, 7⟩, ⟨.ident, "y", 1, 8⟩,
      ⟨.colon, ":", 1, 9⟩, ⟨.ident, "z", 1, 10⟩, .atEnd 1 19] := by decide +kernel
  obtain ⟨hagain, hsame⟩ := tokenize_canonicalText hlex
  have htext : canonicalText [⟨.ident, "f", 1, 1⟩, ⟨.safeLparen, "?(", 1, 2⟩,
      ⟨.ident, "x", 1, 4⟩, ⟨.rparen, ")", 1, 5⟩, ⟨.question, "?", 1, 7⟩, ⟨.ident, "y", 1, 8⟩,
      ⟨.colon, ":", 1, 9⟩, ⟨.ident, "z", 1, 10⟩, .atEnd 1 19] = "f?( x ) ? y : z" := by
    decide +kernel
  rw [htext] at hagain
  exact ⟨hlex, hagain, (hsame "f?( x ) ? y : z" (by decide +kernel)).2⟩

end CommandShell
