import CommandShell.Proofs.Commands.Conduct
import CommandShell.Proofs.Parsing.Standing

/-! # Codes: what the code of an error tells about its token

The code of a parse error and the token that it is about agree (`Faithful`): the end of the input
has a code of its own, which no other token gets, but a missing terminator is reported as such
there too. What is missing is missed at the first token that has not been taken (`FailsAt`).

This holds for the expressions, the statements and the primary expressions of any text that can be
split into tokens, and for its commands, from any place on and with any levels for the nesting
(`codes_of_text`). -/

namespace CommandShell

open CommandShell.Parser CommandShell.Grammar

/-! ### Codes and tokens -/

/-- The code of the error and its token agree. The token is one of the tokens from the place on
where the reading began; if it is said to lack a terminator before it, the reading has taken all
tokens up to it. -/
structure ParseError.Faithful (toks : List Token) (start : Nat) (takenTo : Nat → Prop)
    (e : ParseError) : Prop where
  placed : ∃ k t, start ≤ k ∧ toks[k]? = some t ∧ e.token = some t ∧
    (e.code = .expectedTerminator → takenTo k)
  code_mem : e.code ∈
    [.unexpectedToken, .expectedTerminator, .unexpectedEof, .expectedToken, .nestingTooDeep]
  eof : e.code = .unexpectedEof → ∀ t ∈ e.token, t.kind = .eof
  ne_eof : e.code = .unexpectedToken ∨ e.code = .expectedToken → ∀ t ∈ e.token, t.kind ≠ .eof
  ne_semicolon : e.code = .expectedTerminator → ∀ t ∈ e.token, t.kind ≠ .semicolon
  at_eof : (∃ t ∈ e.token, t.kind = .eof) → e.code ≠ .nestingTooDeep →
    e.code = .unexpectedEof ∨ e.fault = .missingTerminator ∧ e.code = .expectedTerminator

/-- May an error about a token of the kind have the code? -/
def Code.Suits (k : Kind) : Code → Prop
  | .unexpectedEof => k = .eof
  | .unexpectedToken | .expectedToken => k ≠ .eof
  | .expectedTerminator => k ≠ .semicolon
  | .nestingTooDeep => True
  | _ => False

namespace ParseFault

variable {fault : ParseFault} {k : Kind}

theorem suits_of_arises (h : fault.Arises k) : fault.code.Suits k := by
  cases fault <;> first | exact h | exact False.elim h

theorem suits_of_belated (h : fault.isBelated = true) (hk : k ≠ .eof) : fault.code.Suits k := by
  cases fault <;> first | exact hk | cases h

theorem eq_missingTerminator_of_arises (h : fault.Arises k)
    (hcode : fault.code = .expectedTerminator) : fault = .missingTerminator := by
  cases fault <;> first | rfl | exact False.elim h | cases hcode

theorem code_ne_of_belated (h : fault.isBelated = true) : fault.code ≠ .expectedTerminator := by
  intro hcode
  cases fault <;> first | (cases h; done) | cases hcode

end ParseFault

/-- A code that suits the token, and a missing terminator where the reading stands. -/
theorem ParseError.faithful_of_suits {toks : List Token} {start k : Nat} {takenTo : Nat → Prop}
    {t : Token} {e : ParseError} (hk : start ≤ k) (ht : toks[k]? = some t)
    (htoken : e.token = some t) (hsuits : e.code.Suits t.kind)
    (hmissing : e.code = .expectedTerminator → e.fault = .missingTerminator ∧ takenTo k) :
    e.Faithful toks start takenTo where
  placed := ⟨k, t, hk, ht, htoken, fun hcode => (hmissing hcode).2⟩
  code_mem := by
    cases hcode : e.code <;> rw [hcode] at hsuits <;> first | exact hsuits.elim | simp
  eof hcode u hu := by
    cases htoken.symm.trans hu
    rw [hcode] at hsuits
    exact hsuits
  ne_eof hcode u hu := by
    cases htoken.symm.trans hu
    rcases hcode with hcode | hcode <;> rw [hcode] at hsuits <;> exact hsuits
  ne_semicolon hcode u hu := by
    cases htoken.symm.trans hu
    rw [hcode] at hsuits
    exact hsuits
  at_eof := by
    rintro ⟨u, hu, heof⟩ hdeep
    cases htoken.symm.trans hu
    rw [heof] at hsuits
    cases hcode : e.code with
    | unexpectedEof => exact .inl rfl
    | expectedTerminator => exact .inr ⟨(hmissing hcode).1, rfl⟩
    | nestingTooDeep => exact absurd hcode hdeep
    | unexpectedToken | expectedToken => rw [hcode] at hsuits; exact absurd rfl hsuits
    | _ => rw [hcode] at hsuits; exact hsuits.elim

/-! ### Tokens of a text -/

section
variable {ts : Tokens} {toks : List Token} {last : Token} {i k : Nat} {t : Token}

theorem Tokens.getElem?_append_ending (hlast : ts.ending = .ok last) (ht : ts.At k t)
    (hk : k ≤ ts.items.size) : (ts.items.toList ++ [last])[k]? = some t := by
  unfold Tokens.At Tokens.get at ht
  split at ht
  · next hlt =>
    cases ht
    rw [List.getElem?_append_left (by simpa using hlt)]
    simp [hlt]
  · next hlt =>
    have hsize : k = ts.items.toList.length := by simp only [Array.length_toList]; omega
    rw [hlast] at ht
    cases ht
    rw [hsize, List.getElem?_concat_length]

/-- **An error that ends a reading has the code that suits its token**, if what is missing is missed
where the reading stands. -/
theorem Tokens.Stuck.faithful (hlexed : ts.Lexed) (hlast : ts.ending = .ok last)
    (hi : i ≤ ts.items.size) {deep : Prop} {takenTo : Nat → Prop} {e : ParseError}
    (h : ts.Stuck deep i i [] (.parse e))
    (htaken : e.fault = .missingTerminator → ∃ k t, i ≤ k ∧ k ≤ ts.items.size ∧ ts.At k t ∧
      e.token = some t ∧ takenTo k) :
    e.Faithful (ts.items.toList ++ [last]) i takenTo := by
  have hwithin : ∀ {k σ}, ts.Walk i [] k σ → i ≤ k ∧ k ≤ ts.items.size := by
    intro k σ hwalk
    refine ⟨hwalk.le, ?_⟩
    rcases Nat.eq_or_lt_of_le hwalk.le with rfl | hlt
    · exact hi
    · exact hwalk.le_size hlexed hlt
  cases h with
  | @here k τ t fault hwalk ht hfault =>
    have hsuits := ParseFault.suits_of_arises hfault
    obtain ⟨hik, hk⟩ := hwithin hwalk
    by_cases hmissing : fault = .missingTerminator
    · obtain ⟨m, u, him, hm, hu, hut, htaken⟩ := htaken hmissing
      cases hut
      exact ParseError.faithful_of_suits him (getElem?_append_ending hlast hu hm) rfl hsuits
        fun _ => ⟨hmissing, htaken⟩
    · exact ParseError.faithful_of_suits hik (getElem?_append_ending hlast ht hk) rfl hsuits
        fun hcode => absurd (ParseFault.eq_missingTerminator_of_arises hfault hcode) hmissing
  | @behind k τ m t fault hwalk him hmk ht hfault =>
    obtain ⟨u, hu, hne⟩ := hwalk.exists_at m him hmk
    cases ht.unique hu
    have hm : m ≤ ts.items.size := Nat.le_trans (Nat.le_of_lt hmk) (hwithin hwalk).2
    exact ParseError.faithful_of_suits him (getElem?_append_ending hlast ht hm) rfl
      (ParseFault.suits_of_belated hfault hne)
      fun hcode => absurd hcode (ParseFault.code_ne_of_belated hfault)

end

/-! ### Where a reading stands when it fails -/

/-- The reading of a rule fails when it has taken all tokens up to the place `k`. -/
def Grammar.FailsAt {α : Type} (levels : Nat) (rule : Rule α) (ts : Tokens) (i k : Nat)
    (f : Failure) : Prop :=
  (parse levels rule ts i).outcome = .error f ∧ (parse levels rule ts i).next = k

/-- The reading of a command fails when it has taken all tokens up to the place `k`: the command
itself, or an expression or a statement that begins where the command stands. -/
def Command.FailsAt (levels : Nat) (ts : Tokens) (i k : Nat) (f : Failure) : Prop :=
  let j := (read levels ts i).next
  j = k ∨ Grammar.FailsAt levels .expr ts j k f ∨ Grammar.FailsAt levels .stmt ts j k f

namespace Grammar

variable {α : Type} {levels : Nat} {rule : Rule α} {ts : Tokens} {i : Nat} {f : Failure}

/-- A rule that is entered fails where it begins, as the rule does or about the token there. -/
theorem error_of_enter (h : (enter levels rule ts i).outcome = .error f) :
    (enter levels rule ts i).next = i ∧
      ((∃ e, f = .lex e) ∨ (∃ t, f = .parse ⟨.nestedTooDeeply, some t⟩) ∨
        (parse levels rule ts i).outcome = .error f) := by
  cases hget : ts.get i with
  | error e =>
    have hcurrent := current_of_fault hget
    have heq : enter levels rule ts i = _ := bind_of_error (congrArg Parsed.outcome hcurrent)
    rw [heq] at h ⊢
    rw [hcurrent]
    cases h
    exact ⟨rfl, .inl ⟨e, rfl⟩⟩
  | ok t =>
    have heq : enter levels rule ts i = _ :=
      enter_eq (congrArg Parsed.outcome (current_of_at hget))
    cases hparse : (parse levels rule ts i).outcome with
    | ok a =>
      rw [heq, hparse] at h
      cases h
    | error g =>
      rw [hparse] at heq
      rw [heq] at h ⊢
      refine ⟨rfl, ?_⟩
      cases h
      unfold placeFailure
      split
      · exact .inr (.inl ⟨t, rfl⟩)
      · exact .inr (.inr rfl)

/-- A rule that lacks a terminator stands at the token before which it lacks. -/
theorem stands_of_missing (hlexed : ts.Lexed) (hi : i ≤ ts.items.size) {t? : Option Token}
    (hf : f = .parse ⟨.missingTerminator, t?⟩)
    (h : (parse levels rule ts i).outcome = .error f) :
    ∃ k t, i ≤ k ∧ k ≤ ts.items.size ∧ ts.At k t ∧ t? = some t ∧ FailsAt levels rule ts i k f := by
  have hstands : StandsAt (fun _ _ => False) (parse levels rule) ts i :=
    stands_parse hlexed levels rule i
  subst hf
  rcases hstands.stands h with (hbelated | hdeep | ⟨t, ht, hat⟩) | hinner
  · cases hbelated
  · cases hdeep
  · exact ⟨_, t, hstands.le_next, hstands.next_le hi, hat, ht, h, rfl⟩
  · exact hinner.elim

end Grammar

namespace Command

variable {levels : Nat} {ts : Tokens} {i : Nat}

/-- The failure is that of an expression or a statement which begins at the place. -/
def Inside (levels : Nat) (ts : Tokens) (j : Nat) (f : Failure) : Prop :=
  (parse levels .expr ts j).outcome = .error f ∨ (parse levels .stmt ts j).outcome = .error f

section
variable (hlexed : ts.Lexed)
include hlexed

/-- A rule that is entered stands where it begins. -/
theorem stands_enter {α : Type} {rule : Rule α} (hinside : ∀ {j f},
    (parse levels rule ts j).outcome = .error f → Inside levels ts j f) :
    Stands (Inside levels ts) (enter levels rule) ts := by
  intro i
  cases h : (enter levels rule ts i).outcome with
  | error f =>
    obtain ⟨hnext, hfail⟩ := error_of_enter h
    refine ⟨Nat.le_of_eq hnext.symm, fun hi => hnext.symm ▸ hi, fun {g} hg => ?_⟩
    cases h.symm.trans hg
    rw [hnext]
    rcases hfail with ⟨e, rfl⟩ | ⟨t, rfl⟩ | hfail
    · exact .inl trivial
    · exact .inl (.inr (.inl rfl))
    · exact .inr (hinside hfail)
  | ok a =>
    obtain ⟨-, hrun⟩ := runs_enter.mp (runs_iff.mpr ⟨h, rfl, rfl⟩)
    obtain ⟨-, hnext, -⟩ := runs_iff.mp hrun
    have hrule : StandsAt (fun _ _ => False) (parse levels rule) ts i :=
      stands_parse hlexed levels rule i
    refine ⟨hnext ▸ hrule.le_next, hnext ▸ hrule.next_le, fun {g} hg => ?_⟩
    cases h.symm.trans hg

theorem stands_operand : Stands (Inside levels ts) (operand levels) ts :=
  stands_enter hlexed .inl

section
omit hlexed
variable {inner : Nat → Failure → Prop}

theorem stands_checkTargetWithin {e : Expr} : Stands inner (checkTargetWithin levels e) ts :=
  .ite stands_checkTarget stands_tooDeep

theorem stands_checkEffectWithin {e : Expr} : Stands inner (checkEffectWithin levels e) ts :=
  .ite stands_checkEffect stands_tooDeep

theorem stands_checkTargets (targets : List Expr) :
    Stands inner (targets.forM (checkTargetWithin levels)) ts := by
  induction targets with
  | nil => exact stands_pure
  | cons t targets ih => exact stands_checkTargetWithin.bind fun _ => ih

end

theorem stands_assignmentRest (target : Expr) :
    Stands (Inside levels ts) (assignmentRest levels target) ts :=
  stands_checkTargetWithin.bind fun _ => (stands_operand hlexed).bind fun _ =>
    (stands_expectSemicolon hlexed).map

theorem stands_parallelRest (first : Expr) :
    Stands (Inside levels ts) (parallelRest levels first) ts := by
  refine ((stands_operand hlexed).more hlexed).bind fun others =>
    (stands_expectAs hlexed).bind fun sign => (stands_checkTargets _).bind fun _ =>
      ((stands_operand hlexed).separated hlexed).bind fun values => .ite ?_ ?_
  · exact stands_report.bind fun _ => (stands_expectSemicolon hlexed).map
  · exact (stands_expectSemicolon hlexed).map

theorem stands_afterExpression (e : Expr) :
    Stands (Inside levels ts) (afterExpression levels e) ts := by
  refine stands_current.bind fun t => ?_
  split
  · exact stands_checkEffectWithin.bind fun _ => (stands_advance hlexed).map
  · exact (stands_advance hlexed).bind fun _ => (stands_assignmentRest hlexed e).map
  · exact stands_parallelRest hlexed e
  · exact stands_pure
  · split
    · exact (stands_advance hlexed).bind fun _ => (stands_assignmentRest hlexed e).map
    · exact stands_failHere

omit hlexed in
theorem stands_spanSince {inner : Nat → Failure → Prop} (start : Token) :
    Stands inner (spanSince start) ts := by
  refine Stands.bind (p := previous) (fun i => ?_) fun _ => stands_pure
  cases i with
  | zero => exact ⟨Nat.le_refl _, id, nofun⟩
  | succ i =>
    refine ⟨Nat.le_refl _, id, fun {f} hf => ?_⟩
    have hf : ((ts.get i).mapError Failure.lex).map some = .error f := hf
    cases hget : ts.get i <;> rw [hget] at hf <;> cases hf
    exact .inl trivial

/-- A command that fails stands at what it fails about, or where the expression or the statement
begins that fails. -/
theorem stands_read : Stands (Inside levels ts) (read levels) ts := by
  refine stands_current.bind fun start => stands_opening.bind fun opens => ?_
  cases opens with
  | statement =>
    exact (stands_enter hlexed .inr).map.bind fun _ => (stands_spanSince start).map
  | expression =>
    exact (stands_operand hlexed).bind fun e => (stands_afterExpression hlexed e).bind fun _ =>
      (stands_spanSince start).map

/-- A command that lacks a terminator stands at the token before which it lacks. -/
theorem stands_of_missing (hi : i ≤ ts.items.size) {f : Failure} {t? : Option Token}
    (hf : f = .parse ⟨.missingTerminator, t?⟩) (h : (read levels ts i).outcome = .error f) :
    ∃ k t, i ≤ k ∧ k ≤ ts.items.size ∧ ts.At k t ∧ t? = some t ∧ FailsAt levels ts i k f := by
  have hstands : StandsAt (Inside levels ts) (read levels) ts i := stands_read hlexed i
  have hle := hstands.le_next
  have hsize := hstands.next_le hi
  rcases hstands.stands h with hat | hinside | hinside
  · subst hf
    rcases hat with hbelated | hdeep | ⟨t, ht, hat⟩
    · cases hbelated
    · cases hdeep
    · exact ⟨_, t, hle, hsize, hat, ht, .inl rfl⟩
  · obtain ⟨k, t, hjk, hk, hat, ht, hfails⟩ := Grammar.stands_of_missing hlexed hsize hf hinside
    exact ⟨k, t, Nat.le_trans hle hjk, hk, hat, ht, .inr (.inl hfails)⟩
  · obtain ⟨k, t, hjk, hk, hat, ht, hfails⟩ := Grammar.stands_of_missing hlexed hsize hf hinside
    exact ⟨k, t, Nat.le_trans hle hjk, hk, hat, ht, .inr (.inr hfails)⟩

end

end Command

/-- A text that can be split into tokens has an end token. -/
theorem ending_of_tokenize {s : String} {toks : List Token} (h : tokenize s = .ok toks) :
    ∃ last, (Stream.ofText s).tokens.ending = .ok last ∧
      toks = (Stream.ofText s).tokens.items.toList ++ [last] := by
  rw [tokenize_eq] at h
  rw [tokens_ofText]
  cases hending : (Tokens.ofChars s.toList).ending with
  | error e => rw [hending] at h; cases h
  | ok t => rw [hending] at h; cases h; exact ⟨t, rfl, rfl⟩

/-- **The code of an error suits its token.** Take a text that can be split into tokens, and a place
that is not behind its end token. Where the reading of an expression, a statement, a primary
expression or a command ends with a parse error, its token is one of the text from that place on,
the code is one of five, and it fits the token; if a terminator is missing, the reading has taken
all tokens up to the one before which it is missing. -/
theorem codes_of_text (levels : Nat) {s : String} {toks : List Token} (h : tokenize s = .ok toks)
    {i : Nat} (hi : i < toks.length) :
    let ts := (Stream.ofText s).tokens
    (∀ e, (enter levels .expr ts i).outcome = .error (.parse e) →
      e.Faithful toks i fun k => Grammar.FailsAt levels .expr ts i k (.parse e)) ∧
    (∀ e, (enter levels .stmt ts i).outcome = .error (.parse e) →
      e.Faithful toks i fun k => Grammar.FailsAt levels .stmt ts i k (.parse e)) ∧
    (∀ e, (enter levels .primary ts i).outcome = .error (.parse e) →
      e.Faithful toks i fun k => Grammar.FailsAt levels .primary ts i k (.parse e)) ∧
    ∀ e, (Command.read levels ts i).outcome = .error (.parse e) →
      e.Faithful toks i fun k => Command.FailsAt levels ts i k (.parse e) := by
  intro ts
  have hlexed : ts.Lexed := Tokens.lexed_ofChars s.toList
  obtain ⟨last, hlast, rfl⟩ := ending_of_tokenize h
  have hi : i ≤ ts.items.size := by simpa using Nat.le_of_lt_succ (by simpa using hi)
  have hrule : ∀ {α : Type} (rule : Rule α),
      (∀ σ, Walks True i (parse levels rule) ts i σ σ (fun _ j => i < j)) →
      ∀ e, (enter levels rule ts i).outcome = .error (.parse e) →
        e.Faithful (ts.items.toList ++ [last]) i
          fun k => Grammar.FailsAt levels rule ts i k (.parse e) := by
    intro α rule hwalks e he
    have hwalk : Walks False i (enter levels rule) ts i [] [] _ := walks_enter (hwalks [])
    refine (hwalk.stuck he).faithful hlexed hlast hi fun hmissing => ?_
    obtain ⟨fault, t?⟩ := e
    cases hmissing
    have hparse : (parse levels rule ts i).outcome = _ :=
      ((error_of_enter he).2.resolve_left nofun).resolve_left nofun
    exact Grammar.stands_of_missing hlexed hi rfl hparse
  refine ⟨hrule .expr fun σ => walks_parse hlexed levels .expr σ trivial (Nat.le_refl i),
    hrule .stmt fun σ => walks_parse hlexed levels .stmt σ trivial (Nat.le_refl i),
    hrule .primary fun σ => walks_parse hlexed levels .primary σ trivial (Nat.le_refl i),
    fun e he => ?_⟩
  refine ((Command.walks_read hlexed (Nat.le_refl i)).stuck he).faithful hlexed hlast hi
    fun hmissing => ?_
  obtain ⟨fault, t?⟩ := e
  cases hmissing
  exact Command.stands_of_missing hlexed hi rfl he

/-- A missing terminator in the body of a function that is assigned. -/
theorem codes_of_text_function :
    let ts := (Stream.ofText "x = fn() { y z }").tokens
    let e : ParseError := ⟨.missingTerminator, some ⟨.ident, "z", 1, 14⟩⟩
    ∃ toks, tokenize "x = fn() { y z }" = .ok toks ∧
      (Command.read 50 ts 0).outcome = .error (.parse e) ∧
      e.Faithful toks 0 fun k => Command.FailsAt 50 ts 0 k (.parse e) :=
  ⟨_, rfl, rfl, (codes_of_text 50 rfl (by decide : 0 < 10)).2.2.2 _ rfl⟩

end CommandShell
