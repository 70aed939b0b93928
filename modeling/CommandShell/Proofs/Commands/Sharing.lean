import CommandShell.Grammar.Cursor
import CommandShell.Grammar.Opening
import CommandShell.Proofs.Commands.Heedful
import CommandShell.Proofs.Lexing.Streams

/-! # Sharing: readers of one stream do not disturb each other

A stream may be asked for tokens by index, for all of them, and for how what follows is to be read,
in any order. Up to the first fault each answer is that of the whole text
(`Stream.Holds.answer_eq`), because a stream that met no fault goes on where the calls of its lexer
stopped. On a text that lexes, parsers can share a cursor as well: each call does what it does
alone, and it depends only on tokens that are kept when it is over (`Cursor.Called.repeats`).

A call that runs out of levels inside the lexer loses a token. What is kept is still right, but the
stream goes on behind the token, and later calls miss it (`answers_of_lost`). -/

namespace CommandShell

open CommandShell.Parser CommandShell.Grammar

/-! ### Asking a stream -/

/-- What a stream may be asked for: the token with an index, how what follows an index is to be
read, or all tokens. -/
inductive Ask : Type → Type
  | tokenAt (i : Nat) : Ask Token
  | openingAt (i : Nat) : Ask Opening
  | all : Ask (List Token)

/-- What the tokens of a text answer. -/
def Ask.answer (ts : Tokens) : {α : Type} → Ask α → Except CursorError α
  | _, .tokenAt i => (ts.get i).mapError fun e => .failure (.lex e)
  | _, .openingAt i => (opening ts i).outcome.mapError .failure
  | _, .all => (ts.ending.map (ts.items.toList ++ [·])).mapError fun e => .failure (.lex e)

/-- What a stream answers, and the stream after it. -/
def Stream.ask (st : Stream) : {α : Type} → Ask α → Except CursorError α × Stream
  | _, .tokenAt i => ((st.get i).1.mapError fun e => .failure (.lex e), (st.get i).2)
  | _, .openingAt i =>
    (((Cursor.mk st i []).run opening).1, ((Cursor.mk st i []).run opening).2.stream)
  | _, .all => (st.toList.1.mapError fun e => .failure (.lex e), st.toList.2)

/-! ### Parsers that look at tokens only -/

theorem Tokens.get_of_le {ts : Tokens} {k n : Nat} {t : Token} (h : ts.get n = .ok t)
    (hle : k ≤ n) : ∃ u, ts.get k = .ok u := by
  unfold Tokens.get at h ⊢
  split at h
  · next hn => exact ⟨_, dif_pos (Nat.lt_of_le_of_lt hle hn)⟩
  · split
    · exact ⟨_, rfl⟩
    · exact ⟨t, h⟩

/-- A parser that succeeds has met no fault, however far it looked. -/
def Parser.Sighted {α : Type} (p : Parser α) (ts : Tokens) : Prop :=
  ∀ i a, (p ts i).outcome = .ok a → ∀ k < (p ts i).reach, ∃ t, ts.get k = .ok t

section
variable {α β : Type} {ts : Tokens}

theorem sighted_pure {a : α} : Sighted (pure a) ts := fun _ _ _ _ hk =>
  absurd hk (Nat.not_lt_zero _)

theorem sighted_peek {ahead : Nat} : Sighted (peek ahead) ts := by
  intro i t h k hk
  cases hget : ts.get (i + ahead) with
  | error e =>
    unfold peek at h
    rw [hget] at h
    cases h
  | ok u => exact Tokens.get_of_le hget (Nat.le_of_lt_succ hk)

theorem Parser.Sighted.bind {p : Parser α} {f : α → Parser β} (hp : Sighted p ts)
    (hf : ∀ a, Sighted (f a) ts) : Sighted (p >>= f) ts := by
  intro i b h k hk
  cases hfirst : (p ts i).outcome with
  | error e =>
    rw [bind_of_error hfirst] at h
    cases h
  | ok a =>
    rw [bind_of_ok hfirst] at h hk
    simp only at hk
    by_cases hlt : k < (p ts i).reach
    · exact hp i a hfirst k hlt
    · exact hf a _ b h k (by omega)

theorem sighted_opening : Sighted opening ts := by
  refine sighted_peek.bind fun t => ?_
  split
  · exact sighted_pure
  · split
    · exact sighted_peek.bind fun _ => sighted_pure
    · split
      · exact sighted_peek.bind fun _ => sighted_pure
      · exact sighted_pure

end

/-! ### Streams that have been asked -/

theorem ok_of_mapError {ε ε' α : Type} {f : ε → ε'} {x : Except ε α} {a : α}
    (h : x.mapError f = .ok a) : x = .ok a := by
  cases x with
  | error => cases h
  | ok => exact congrArg Except.ok (Except.ok.inj h)

theorem Cursor.runAt_eq {α : Type} (c : Cursor) (p : Parser α) (pos : Nat) :
    c.runAt pos p = ((p c.stream.tokens pos).outcome.mapError .failure,
      ⟨(c.stream.upTo (p c.stream.tokens pos).reach).1, (p c.stream.tokens pos).next,
        c.found ++ (p c.stream.tokens pos).found⟩) := by
  unfold runAt seek run
  rw [if_neg (by simp)]
  rfl

/-- A stream of a text that has been asked for something again and again, and met no fault. -/
inductive Stream.Asked (s : String) : Stream → Prop
  | fresh : Asked s (.ofText s)
  | ask {α : Type} {st st' : Stream} {a : α} {q : Ask α} :
      Asked s st → st.ask q = (.ok a, st') → Asked s st'

namespace Stream

variable {s : String} {st : Stream} {l : Lexer} {α : Type}

/-- No fault is met where the tokens end with the end token. -/
theorem Grown.fault_eq_none {count : Nat} {st' : Stream} {fault? : Option LexError} {ts : Tokens}
    {last : Token} (h : st.Grown l count st' fault?) (hcalls : ts.Calls l)
    (hlast : ts.ending = .ok last) : fault? = none := by
  cases fault? with
  | none => rfl
  | some e =>
    rw [(h.ending_of_fault hcalls).2] at hlast
    cases hlast

/-- How what follows is to be read is told like any parser tells it. -/
theorem ask_openingAt (st : Stream) (i : Nat) : st.ask (.openingAt i) =
    ((opening st.tokens i).outcome.mapError .failure,
      (st.upTo (opening st.tokens i).reach).1) := by
  have hrun : (Cursor.mk st i []).run opening = _ := Cursor.runAt_eq ⟨st, i, []⟩ opening i
  exact congrArg (fun r => (r.1, r.2.stream)) hrun

section
variable (h : st.Holds l) (hline : 1 ≤ l.place.line)
include h hline

/-- Whatever is asked, the stream grows, and where there is an answer it has met no fault. -/
theorem Holds.ask (q : Ask α) : ∃ count fault?, st.Grown l count (st.ask q).2 fault? ∧
    ∀ a, (st.ask q).1 = .ok a → fault? = none := by
  cases q with
  | tokenAt i =>
    obtain ⟨hnext, hok⟩ := st.get_grows i
    have hgrown : st.Grown l (i + 1 - st.items.size) (st.get i).2 (st.upTo (i + 1)).2 := by
      rw [hnext]
      exact h.grown rfl
    exact ⟨_, _, hgrown, fun t ht => hok t (ok_of_mapError ht)⟩
  | all =>
    obtain ⟨hnext, hok⟩ := st.toList_grows
    have hgrown : st.Grown l (st.lexer.rest.length + 1) st.toList.2 st.full.2 := by
      rw [hnext]
      exact h.grown rfl
    exact ⟨_, _, hgrown, fun ts hts => hok ts (ok_of_mapError hts)⟩
  | openingAt i =>
    have hcalls := h.calls hline
    have hgrown : st.Grown l _ (st.upTo (opening st.tokens i).reach).1
        (st.upTo (opening st.tokens i).reach).2 := h.grown rfl
    rw [ask_openingAt]
    refine ⟨_, _, hgrown, fun o ho => ?_⟩
    have hsighted := sighted_opening i o (ok_of_mapError ho)
    cases hfault : (st.upTo (opening st.tokens i).reach).2 with
    | none => rfl
    | some e =>
      -- The fault lies below the reach, where there are tokens only.
      rw [hfault] at hgrown
      obtain ⟨hlt, -⟩ := hgrown.fault e rfl
      obtain ⟨hsame, hending⟩ := hgrown.ending_of_fault hcalls
      have hle := hgrown.le
      obtain ⟨t, ht⟩ := hsighted st.tokens.items.size (by omega)
      rw [Tokens.get_of_size_le (Nat.le_refl _), hending] at ht
      cases ht

/-- **A stream that met no fault answers what all its tokens answer.** -/
theorem Holds.answer_eq (q : Ask α) : (st.ask q).1 = q.answer st.tokens := by
  cases q with
  | tokenAt i =>
    show (st.get i).1.mapError _ = _
    rw [h.get_eq hline]
    rfl
  | all =>
    show st.toList.1.mapError _ = _
    rw [h.toList_eq hline]
    rfl
  | openingAt i =>
    rw [ask_openingAt]
    rfl

end

theorem Asked.holds (h : Asked s st) : st.Holds (.ofText s) := by
  induction h with
  | fresh => exact holds_fresh _
  | ask _ hask ih =>
    obtain ⟨count, fault?, hgrown, hok⟩ := ih.ask (Int.le_refl 1) _
    rw [hask] at hgrown hok
    exact (hgrown.holds (hok _ rfl)).1

/-- A stream of a text has the tokens of the text ahead, whatever it keeps. -/
theorem Holds.tokens_eq (h : st.Holds (.ofText s)) : st.tokens = (ofText s).tokens :=
  (h.calls (Int.le_refl 1)).unique (Tokens.calls_ofChars s.toList)

/-- Tokens that agree with all that is kept below an index agree below it: if the end is kept, there
is nothing behind. -/
theorem Grown.agreesBelow {ts us : Tokens} {n : Nat} {st' : Stream}
    (h : st.Grown l (n - st.items.size) st' none) (hcalls : ts.Calls l) (hus : us.Lexed)
    (hagrees : us.AgreesBelow ts st'.lexed) : us.AgreesBelow ts n := by
  intro k hk
  have hlexed : ∀ {m}, k < m → m ≤ st'.lexed → us.get k = ts.get k := fun hkm hm =>
    hagrees k (Nat.lt_of_lt_of_le hkm hm)
  cases heof : st'.eof with
  | none =>
    have hsize := (h.holds rfl).2 heof
    refine hlexed hk ?_
    unfold lexed
    omega
  | some t =>
    obtain ⟨hsame, hending⟩ := h.keeps.ending_of_eof hcalls heof
    have hlast : st'.lexed = ts.items.size + 1 := by
      unfold lexed
      rw [heof, hsame]
      rfl
    by_cases hlt : k < ts.items.size + 1
    · exact hlexed hlt (Nat.le_of_eq hlast.symm)
    · have hend : us.get ts.items.size = .ok t := by
        rw [hagrees _ (by omega), Tokens.get_of_size_le (Nat.le_refl _), hending]
      have hsize := hus.size_le_of_eof ⟨t, hend, hcalls.eof t hending⟩
      rw [Tokens.get_of_size_le (by omega), Tokens.get_of_size_le (by omega), hending, ← hend,
        Tokens.get_of_size_le hsize]

end Stream

/-! ### Cursors that are shared -/

/-- The outcome is that the input is nested too deeply. -/
def CursorError.IsTooDeep {α : Type} (outcome : Except CursorError α) : Prop :=
  ∃ t, outcome = .error (.failure (.parse ⟨.nestedTooDeeply, some t⟩))

/-- A cursor in a text at which rules were entered again and again, wherever and whether they were
read or failed, as long as no token was lost, while its stream may have been asked for anything
between. -/
inductive Cursor.Called (stack : Stack) (s : String) : Cursor → Prop
  | fresh : Called stack s (.ofText s)
  | asked {α : Type} {c : Cursor} (q : Ask α) :
      Called stack s c → Called stack s { c with stream := (c.stream.ask q).2 }
  | entered {α : Type} {c : Cursor} (rule : Rule α) (pos : Nat) : Called stack s c →
      c.loses stack rule pos = false → Called stack s (c.enterAt stack rule pos).2

/-- A rule is read at a shared cursor as it is alone at a fresh one: it gives the same, stops at the
same place and adds the same reports. No token is lost. What is kept then is the beginning of what
the lexer gives call after call, and on all tokens that begin so the same is read. -/
structure Cursor.Repeats {α : Type} (c : Cursor) (s : String) (stack : Stack) (rule : Rule α)
    (pos : Nat) : Prop where
  outcome : (c.enterAt stack rule pos).1 = ((ofText s).enterAt stack rule pos).1
  next : (c.enterAt stack rule pos).2.pos = ((ofText s).enterAt stack rule pos).2.pos
  found : (c.enterAt stack rule pos).2.found =
    c.found ++ ((ofText s).enterAt stack rule pos).2.found
  keeps : c.loses stack rule pos = false
  kept : (c.enterAt stack rule pos).2.stream.kept.map .ok =
    (List.range (c.enterAt stack rule pos).2.stream.lexed).map (Lexer.ofText s).call
  settled (us : Tokens) : us.Lexed →
    us.AgreesBelow (Stream.ofText s).tokens (c.enterAt stack rule pos).2.stream.lexed →
      enter (stack.levels 0) rule us pos =
        enter (stack.levels 0) rule (Stream.ofText s).tokens pos

/-- What begins with the token at a place looks at it. -/
theorem lt_reach_bindCurrent {α : Type} {f : Token → Parser α} {ts : Tokens} {i : Nat} :
    i < ((current >>= f) ts i).reach := by
  cases hcurrent : (current ts i).outcome with
  | error e =>
    rw [bind_of_error hcurrent]
    exact Nat.lt_succ_self i
  | ok t =>
    rw [bind_of_ok hcurrent]
    exact Nat.lt_of_lt_of_le (Nat.lt_succ_self i) (Nat.le_max_left _ _)

namespace Cursor

variable {stack : Stack} {s : String} {c : Cursor} {last : Token} {α : Type} {rule : Rule α}
  {pos : Nat}

/-- Where no token is lost, a rule is entered like any parser is run. -/
theorem enterAt_of_keeps (h : c.loses stack rule pos = false) :
    c.enterAt stack rule pos = c.runAt pos (enter (c.levels stack) rule) := by
  unfold enterAt
  rw [h]
  rfl

/-- A token is only lost where the levels run out. -/
theorem exhausted_of_loses (h : c.loses stack rule pos = true) :
    (parse (c.levels stack) rule c.stream.tokens pos).outcome = .error .exhausted := by
  unfold loses at h
  rw [if_neg (by simp)] at h
  split at h
  · cases h
  · next place hplace =>
    unfold exhaustedAt? at hplace
    simp only at hplace
    split at hplace
    · next hout => exact hout
    · cases hplace

/-- What a rule gives alone with the fewest levels, it gives with those that a cursor has. -/
theorem enter_eq_alone (halone : ¬ CursorError.IsTooDeep ((ofText s).enterAt stack rule pos).1) :
    enter (c.levels stack) rule (Stream.ofText s).tokens pos =
      enter (stack.levels 0) rule (Stream.ofText s).tokens pos := by
  rcases enter_of_le (stack.fewest c.stream.lexed) rule (Stream.ofText s).tokens pos with
    heq | ⟨⟨t, -, hdeep⟩, -⟩
  · exact heq.symm
  · refine absurd ⟨t, ?_⟩ halone
    have hfirst : ((ofText s).enterAt stack rule pos).1 =
        ((ofText s).runAt pos (enter (stack.levels 0) rule)).1 := rfl
    have hfresh : (ofText s).stream.tokens = (Stream.ofText s).tokens := rfl
    rw [hfirst, runAt_eq, hfresh, hdeep]
    rfl

section
variable (hlast : (Stream.ofText s).tokens.ending = .ok last)
include hlast

/-- On a text that lexes, asking for more keeps what a stream holds. -/
theorem holds_grown {st st' : Stream} {count : Nat} {fault? : Option LexError}
    (h : st.Grown (.ofText s) count st' fault?) : st'.Holds (.ofText s) := by
  have hcalls : (Stream.ofText s).tokens.Calls (.ofText s) := Tokens.calls_ofChars s.toList
  exact (h.holds (h.fault_eq_none hcalls hlast)).1

theorem Called.holds (h : Called stack s c) : c.stream.Holds (.ofText s) := by
  induction h with
  | fresh => exact Stream.holds_fresh _
  | asked q _ ih =>
    obtain ⟨count, fault?, hgrown, -⟩ := ih.ask (Int.le_refl 1) q
    exact holds_grown hlast hgrown
  | entered rule pos _ hkeeps ih =>
    rw [enterAt_of_keeps hkeeps, runAt_eq]
    exact holds_grown hlast (ih.grown rfl)

/-- **A call that loses a token fails**, as the input is nested too deeply. -/
theorem Called.tooDeep_of_loses (h : Called stack s c) (hloses : c.loses stack rule pos = true) :
    CursorError.IsTooDeep (c.enterAt stack rule pos).1 := by
  have hexhausted := exhausted_of_loses hloses
  have hfirst : (c.enterAt stack rule pos).1 = (c.runAt pos (enter (c.levels stack) rule)).1 := rfl
  rw [hfirst, runAt_eq]
  rw [(h.holds hlast).tokens_eq] at hexhausted ⊢
  obtain ⟨t, ht⟩ : ∃ t, (Stream.ofText s).tokens.get pos = .ok t := by
    unfold Tokens.get
    split
    · exact ⟨_, rfl⟩
    · exact ⟨last, hlast⟩
  have hcurrent := congrArg Parsed.outcome (current_of_at ht)
  refine ⟨t, ?_⟩
  rw [enter_eq hcurrent, hexhausted]
  rfl

/-- **A rule is entered at a shared cursor as it is at a fresh one**, if alone it does not run out of
levels. -/
theorem Called.repeats (h : Called stack s c)
    (halone : ¬ CursorError.IsTooDeep ((ofText s).enterAt stack rule pos).1) :
    c.Repeats s stack rule pos := by
  have hlexed : (Stream.ofText s).tokens.Lexed := Tokens.lexed_ofChars s.toList
  have hcalls : (Stream.ofText s).tokens.Calls (.ofText s) := Tokens.calls_ofChars s.toList
  have hholds := h.holds hlast
  have htokens := hholds.tokens_eq
  have hsame := enter_eq_alone (c := c) halone
  have hgrown : c.stream.Grown (.ofText s) _ (c.stream.upTo
      (enter (stack.levels 0) rule (Stream.ofText s).tokens pos).reach).1 _ := hholds.grown rfl
  have hshared : c.runAt pos (enter (c.levels stack) rule) = _ := runAt_eq c _ pos
  rw [htokens, hsame] at hshared
  have hfresh : (ofText s).runAt pos (enter (stack.levels 0) rule) = _ := runAt_eq (ofText s) _ pos
  have hlevels : (ofText s).levels stack = stack.levels 0 := rfl
  have hkeeps : ∀ {c'}, Called stack s c' → (c'.enterAt stack rule pos).1 =
      ((ofText s).enterAt stack rule pos).1 → c'.loses stack rule pos = false := by
    intro c' hc' heq
    refine Bool.eq_false_iff.mpr fun hloses => halone ?_
    rw [← heq]
    exact hc'.tooDeep_of_loses hlast hloses
  have houtcome : (c.enterAt stack rule pos).1 = ((ofText s).enterAt stack rule pos).1 := by
    unfold enterAt
    rw [hlevels, hshared, hfresh]
    rfl
  rw [← hlevels] at hfresh
  constructor
  · exact houtcome
  · rw [enterAt_of_keeps (hkeeps h houtcome), enterAt_of_keeps (hkeeps .fresh rfl), hshared, hfresh]
    rfl
  · rw [enterAt_of_keeps (hkeeps h houtcome), enterAt_of_keeps (hkeeps .fresh rfl), hshared, hfresh]
    exact congrArg (c.found ++ ·) (List.nil_append _).symm
  · exact hkeeps h houtcome
  · rw [enterAt_of_keeps (hkeeps h houtcome), hshared]
    exact hgrown.keeps.kept_eq
  · intro us hus hagrees
    rw [enterAt_of_keeps (hkeeps h houtcome), hshared] at hagrees
    have hheedful : Heedful (enter (stack.levels 0) rule) (Stream.ofText s).tokens pos :=
      heedful_enter ((heedful_parse hlexed (stack.levels 0)).heedful rule)
    have hreach : pos < (enter (stack.levels 0) rule (Stream.ofText s).tokens pos).reach :=
      lt_reach_bindCurrent
    refine (hheedful pos (Nat.le_refl pos)).same hus ?_
    rw [Nat.max_eq_right (Nat.le_of_lt hreach)]
    have hnone := hgrown.fault_eq_none hcalls hlast
    rw [hnone] at hgrown
    exact hgrown.agreesBelow hcalls hus hagrees

end

end Cursor

/-! ### Texts -/

/-- **It does not show what was read before, unless a token was lost.** The calls of a fresh lexer
give tokens up to the end token or the first fault, and every index from there on stands for that. A
stream of the text that was asked for things in any order, and met no fault, answers the next
question as all these tokens do, the first fault included, and keeps the beginning of what the calls
give. If the text lexes, a rule that is entered at a shared cursor gives what it gives alone at a
fresh one, wherever other rules were entered before and whether they were read or failed. This is so
for a rule that has levels enough alone, as long as no call before has lost a token; and a call only
loses one if it fails because the input is nested too deeply. -/
theorem answers_of_text (s : String) :
    (∃ n, (Lexer.ofText s).EndsAt n ∧
      ∀ k, (Stream.ofText s).tokens.get k = (Lexer.ofText s).call (min k n)) ∧
    (∀ st, Stream.Asked s st → ∀ {α : Type} (q : Ask α),
      (st.ask q).1 = q.answer (Stream.ofText s).tokens ∧
      (st.ask q).2.kept.map .ok = (List.range (st.ask q).2.lexed).map (Lexer.ofText s).call) ∧
    ∀ toks, tokenize s = .ok toks → ∀ stack c, Cursor.Called stack s c →
      ∀ {α : Type} (rule : Rule α) (pos : Nat),
        (¬ CursorError.IsTooDeep ((Cursor.ofText s).enterAt stack rule pos).1 →
          c.Repeats s stack rule pos) ∧
        (c.loses stack rule pos = true →
          CursorError.IsTooDeep (c.enterAt stack rule pos).1) := by
  have hcalls : (Stream.ofText s).tokens.Calls (.ofText s) := Tokens.calls_ofChars s.toList
  refine ⟨⟨_, hcalls.endsAt, hcalls.get_eq⟩, fun st hst α q => ?_,
    fun toks htoks stack c hc α rule pos => ?_⟩
  · have hholds := hst.holds
    obtain ⟨_, _, hgrown, -⟩ := hholds.ask (Int.le_refl 1) q
    rw [hholds.answer_eq (Int.le_refl 1), hholds.tokens_eq]
    exact ⟨rfl, hgrown.keeps.kept_eq⟩
  · rw [tokenize_eq, ← tokens_ofText] at htoks
    cases hending : (Stream.ofText s).tokens.ending with
    | error e =>
      rw [hending] at htoks
      cases htoks
    | ok last => exact ⟨hc.repeats hending, hc.tooDeep_of_loses hending⟩

/-- The first token is asked for after the third, and a sum is read where an operand was not found
at its sign before. -/
theorem answers_of_sum :
    let st := ((Stream.ofText "a + b").get 2).2
    let c := ((Cursor.ofText "a + b").enterAt (.even 30) .primary 1).2
    Stream.Asked "a + b" st ∧ st.lexed = 3 ∧
      (st.ask (.tokenAt 0)).1 = .ok ⟨.ident, "a", 1, 1⟩ ∧
      Cursor.Called (.even 30) "a + b" c ∧ c.stream.lexed = 2 ∧
      (c.enterAt (.even 30) .expr 0).1 =
        ((Cursor.ofText "a + b").enterAt (.even 30) .expr 0).1 := by
  intro st c
  have hst : Stream.Asked "a + b" st := .ask (q := .tokenAt 2) .fresh rfl
  have hc : Cursor.Called (.even 30) "a + b" c := .entered .primary 1 .fresh rfl
  obtain ⟨-, hanswers, hrepeats⟩ := answers_of_text "a + b"
  have hlex : tokenize "a + b" = .ok [⟨.ident, "a", 1, 1⟩, ⟨.plus, "+", 1, 3⟩,
    ⟨.ident, "b", 1, 5⟩, .atEnd 1 6] := by decide +kernel
  have halone : ¬ CursorError.IsTooDeep
      ((Cursor.ofText "a + b").enterAt (.even 30) .expr 0).1 := by
    rintro ⟨t, ht⟩
    cases ht
  refine ⟨hst, rfl, ?_, hc, rfl, ((hrepeats _ hlex _ c hc .expr 0).1 halone).outcome⟩
  rw [(hanswers st hst (.tokenAt 0)).1]
  rfl

/-- With eight levels an expression in a parenthesis is nested too deeply. Where the stack tears, the
number in it is lost, and is not found when it is asked for again. -/
theorem answers_of_lost :
    let c := ((Cursor.ofText "(1").enterAt (.even 8) .expr 0).2
    (Cursor.ofText "(1").loses (.even 8) .expr 0 = true ∧
      (c.enterAt (.even 8) .expr 1).1 =
        .error (.failure (.parse ⟨.unexpectedEnd, some (.atEnd 1 3)⟩)) ∧
      ((Cursor.ofText "(1").enterAt (.even 8) .expr 1).1 =
        .ok (.atom ⟨.number, "1", 1, 2⟩) := ⟨rfl, rfl, rfl⟩

end CommandShell
