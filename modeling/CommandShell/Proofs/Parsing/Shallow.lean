import CommandShell.Proofs.Parsing.Heeding

/-! # Shallow: where the nesting does not stop a parser

A parser is shallow from a place on if at that place, and at every later one that it can be brought
to by taking tokens, it does not stop because no level is left, and stays among those places
(`Shallow`).

Every way to build a parser keeps this. What goes on behind a token that was surely taken needs to
be shallow at later places only (`Tokens.Later`); that is where a grammar may call itself. The
rounds of a repetition that take a token each are no more than the tokens, so that their count
lasts. -/

namespace CommandShell

open CommandShell.Parser

/-- Is the failure that no level is left, or that of an input that is nested too deeply? -/
def Failure.IsDeep : Failure → Prop
  | .lex _ => False
  | .parse e => e.code = .nestingTooDeep
  | .exhausted => True

namespace Tokens

variable {ts : Tokens} {i j k : Nat}

/-- The place `j` lies behind a token that was taken at `i` or behind it. -/
def Later (ts : Tokens) (i j : Nat) : Prop := i < j ∧ i < ts.items.size

/-- The place `j` is `i` or later. -/
def Onward (ts : Tokens) (i j : Nat) : Prop := j = i ∨ ts.Later i j

theorem Onward.refl : ts.Onward i i := Or.inl rfl

theorem Later.onward (h : ts.Later i j) : ts.Onward i j := Or.inr h

theorem Later.trans_onward (h : ts.Later i j) : ts.Onward j k → ts.Later i k
  | .inl heq => heq ▸ h
  | .inr hjk => ⟨Nat.lt_trans h.1 hjk.1, h.2⟩

theorem Onward.trans (h : ts.Onward i j) (h' : ts.Onward j k) : ts.Onward i k := by
  rcases h with rfl | h
  · exact h'
  · exact (h.trans_onward h').onward

theorem Onward.trans_later (h : ts.Onward i j) (h' : ts.Later j k) : ts.Later i k := by
  rcases h with rfl | h
  · exact h'
  · exact h.trans_onward h'.onward

theorem Onward.of_lt (h : ts.Onward i j) (hlt : i < j) : ts.Later i j := by
  rcases h with rfl | h
  · exact absurd hlt (Nat.lt_irrefl _)
  · exact h

theorem Lexed.later (h : ts.Lexed) {t : Token} (ht : ts.At i t) (hk : t.kind ≠ .eof) :
    ts.Later i (i + 1) := ⟨Nat.lt_succ_self i, h.lt_size ht hk⟩

end Tokens

namespace Parser

variable {α β : Type}

/-- At the place the nesting does not stop the parser, which does not move back, and moves only by
taking tokens. -/
structure ShallowAt (p : Parser α) (ts : Tokens) (i : Nat) : Prop where
  not_deep {f : Failure} : (p ts i).outcome = .error f → ¬ f.IsDeep
  onward : ts.Onward i (p ts i).next

/-- The parser is so from the place on. -/
def Shallow (p : Parser α) (ts : Tokens) (i : Nat) : Prop :=
  ∀ j, ts.Onward i j → ShallowAt p ts j

section
variable {ts : Tokens} {i j : Nat} {p q : Parser α}

theorem Shallow.at (h : Shallow p ts i) : ShallowAt p ts i := h i .refl

theorem Shallow.onward (h : Shallow p ts i) (hij : ts.Onward i j) : Shallow p ts j :=
  fun k hjk => h k (hij.trans hjk)

theorem ShallowAt.congr (h : ShallowAt q ts i) (heq : p ts i = q ts i) : ShallowAt p ts i where
  not_deep hfail := h.not_deep (heq ▸ hfail)
  onward := heq ▸ h.onward

/-! ### One parser after the other -/

theorem ShallowAt.bind {f : α → Parser β} (hp : ShallowAt p ts i)
    (hf : ∀ {a j ds}, Runs p ts i a j ds → ts.Onward i j → ShallowAt (f a) ts j) :
    ShallowAt (p >>= f) ts i := by
  cases h : (p ts i).outcome with
  | error e =>
    refine ⟨fun {f'} hfail => ?_, ?_⟩ <;> rw [bind_of_error h] at *
    · cases hfail
      exact hp.not_deep h
    · exact hp.onward
  | ok a =>
    have hrest := hf (runs_iff.mpr ⟨h, rfl, rfl⟩) hp.onward
    refine ⟨fun {f'} hfail => ?_, ?_⟩ <;> rw [bind_of_ok h] at *
    · exact hrest.not_deep hfail
    · exact hp.onward.trans hrest.onward

theorem Shallow.bind {f : α → Parser β} (hp : Shallow p ts i) (hf : ∀ a, Shallow (f a) ts i) :
    Shallow (p >>= f) ts i := fun i hij => (hp i hij).bind fun _ hjk => hf _ _ (hij.trans hjk)

theorem shallow_pure {a : α} : Shallow (pure a) ts i := fun _ _ => ⟨nofun, .refl⟩

theorem Shallow.map {f : α → β} (h : Shallow p ts i) : Shallow (f <$> p) ts i :=
  h.bind fun _ => shallow_pure

theorem Shallow.ite {c : Prop} [Decidable c] (hp : Shallow p ts i) (hq : Shallow q ts i) :
    Shallow (if c then p else q) ts i := by
  split
  · exact hp
  · exact hq

theorem shallow_fail {f : Failure} (hf : ¬ f.IsDeep) : Shallow (fail f : Parser α) ts i :=
  fun _ _ => ⟨fun h => by cases h; exact hf, .refl⟩

theorem shallow_failAt {fault : ParseFault} (hfault : fault.code ≠ .nestingTooDeep) (t : Token) :
    Shallow (failAt fault t : Parser α) ts i :=
  shallow_fail (show ¬ Failure.IsDeep (.parse ⟨fault, some t⟩) from hfault)

theorem shallow_report {d : Diagnostic} : Shallow (report d) ts i := fun _ _ => ⟨nofun, .refl⟩

/-! ### Tokens -/

theorem shallow_peek {ahead : Nat} : Shallow (peek ahead) ts i := by
  intro j _
  refine ⟨fun {f} hfail => ?_, .refl⟩
  unfold peek at hfail
  cases hget : ts.get (j + ahead) <;> rw [hget] at hfail <;> cases hfail
  exact id

theorem shallow_current : Shallow current ts i := shallow_peek

theorem shallow_sees {k : Kind} : Shallow (sees k) ts i := shallow_current.map

theorem shallow_seesAny {ks : List Kind} : Shallow (seesAny ks) ts i := shallow_current.map

theorem shallow_failHere {fault : ParseFault} (hfault : fault.code ≠ .nestingTooDeep) :
    Shallow (failHere fault : Parser α) ts i := by
  unfold failHere faultHere
  rw [bind_bind]
  refine shallow_current.bind fun t => ?_
  rw [pure_bind]
  refine shallow_fail ?_
  split
  · nofun
  · exact hfault

section
variable (hlexed : ts.Lexed)
include hlexed

theorem shallow_advance : Shallow advance ts i := by
  intro j _
  refine ⟨fun {f} hfail => ?_, ?_⟩ <;> rw [advance_eq] at *
  · split at hfail <;> cases hfail
    exact id
  · split
    · exact .refl
    · next t ht =>
      simp only
      split_ifs with heof
      · exact .refl
      · exact (hlexed.later ht (by simpa [Token.isEof] using heof)).onward

/-- Taking a token that is known, and going on behind it. -/
theorem ShallowAt.bindAdvance {t : Token} {f : Token → Parser α} (ht : ts.At i t)
    (hk : t.kind ≠ .eof) (hf : ∀ {j}, ts.Later i j → Shallow (f t) ts j) :
    ShallowAt (advance >>= f) ts i := by
  refine (shallow_advance hlexed).at.bind fun hrun _ => ?_
  obtain ⟨rfl, rfl, -⟩ := (runs_advanceAt ht hk).mp hrun
  exact (hf (hlexed.later ht hk)).at

theorem shallow_bindSees {k : Kind} (hk : k ≠ .eof) {f : Token → Parser α}
    (hf : ∀ t {j}, ts.Later i j → Shallow (f t) ts j) (hq : Shallow q ts i) :
    Shallow (do if ← sees k then advance >>= f else q) ts i := by
  intro j hij
  refine (shallow_sees j hij).bind fun hrun _ => ?_
  obtain ⟨t, ht, rfl, rfl, -⟩ := runs_sees.mp hrun
  split
  · next hsees =>
    have hne : t.kind ≠ .eof := by rw [eq_of_beq hsees]; exact hk
    exact .bindAdvance hlexed ht hne fun hjk => hf t (hij.trans_later hjk)
  · exact hq _ hij

theorem shallow_accept {k : Kind} : Shallow (accept k) ts i :=
  shallow_sees.bind fun _ => .ite (shallow_advance hlexed).map shallow_pure

theorem shallow_bindAccept {k : Kind} (hk : k ≠ .eof)
    (hp : ∀ {j}, ts.Later i j → Shallow p ts j) (hq : Shallow q ts i) :
    Shallow (do if ← accept k then p else q) ts i := by
  intro j hij
  refine (shallow_accept hlexed j hij).bind fun hrun hjk => ?_
  obtain ⟨t, ht, -, ⟨rfl, rfl, rfl⟩ | ⟨-, rfl, rfl⟩⟩ := (runs_accept hk).mp hrun
  · exact (hp (hij.trans_later (hlexed.later ht hk))).at
  · exact hq _ hij

theorem shallow_expectAs {k : Kind} {w : Wanted} : Shallow (expectAs k w) ts i :=
  shallow_sees.bind fun _ => .ite (shallow_advance hlexed) (shallow_failHere nofun)

theorem shallow_bindExpectAs {k : Kind} {w : Wanted} (hk : k ≠ .eof) {f : Token → Parser α}
    (hf : ∀ t {j}, ts.Later i j → Shallow (f t) ts j) : Shallow (expectAs k w >>= f) ts i := by
  intro j hij
  refine (shallow_expectAs hlexed j hij).bind fun hrun _ => ?_
  obtain ⟨ht, rfl, rfl, -⟩ := (runs_expectAs hk).mp hrun
  exact (hf _ (hij.trans_later (hlexed.later ht hk))).at

theorem shallow_expectSemicolon : Shallow expectSemicolon ts i :=
  shallow_current.bind fun _ => .ite (shallow_advance hlexed) (shallow_fail nofun)

end

/-- Looking at the token at the place, and going on with it. -/
theorem shallow_bindCurrent {f : Token → Parser α}
    (hf : ∀ t {j}, ts.At j t → ts.Onward i j → ShallowAt (f t) ts j) :
    Shallow (current >>= f) ts i := by
  intro j hij
  refine (shallow_current j hij).bind fun hrun _ => ?_
  obtain ⟨ht, rfl, -⟩ := runs_current.mp hrun
  exact hf _ ht hij

theorem shallow_opening : Shallow opening ts i := by
  refine shallow_current.bind fun t => ?_
  split
  · exact shallow_pure
  · split
    · exact shallow_peek.map
    · split
      · exact shallow_peek.map
      · exact shallow_pure

/-! ### Checks -/

theorem shallow_checkTarget {e : Expr} : Shallow (checkTarget e) ts i := by
  unfold checkTarget
  exact .ite shallow_pure shallow_report

theorem shallow_checkEffect {e : Expr} : Shallow (checkEffect e) ts i := by
  unfold checkEffect
  exact .ite shallow_pure shallow_report

theorem shallow_warnIfEmpty {owner : Kind} {s : Stmt} : Shallow (warnIfEmpty owner s) ts i := by
  unfold warnIfEmpty
  split
  · exact shallow_report
  · exact shallow_pure

/-! ### Repetitions -/

section
variable {deep : Prop}

/-- The rounds that are left are more than the tokens that are left. -/
theorem shallow_collectUpTo {item? : Parser (Option α)} (hround : Shallow item? ts i)
    (hwalks : ∀ {j}, Walks deep 0 item? ts j [] [] (fun a? k => a?.isSome → j < k)) :
    ∀ {rounds j}, ts.Onward i j → ts.items.size - j < rounds →
      ShallowAt (collectUpTo item? rounds) ts j
  | rounds + 1, j, hij, hrounds => by
    refine (hround j hij).bind fun {a? k ds} hrun hjk => ?_
    cases a? with
    | none => exact shallow_pure.at
    | some a =>
      obtain ⟨hok, rfl, -⟩ := runs_iff.mp hrun
      have hlt := (hwalks.ok hok).2 rfl
      have hsize := (hjk.of_lt hlt).2
      have hrounds' : ts.items.size - (item? ts j).next < rounds := by omega
      have hrest := shallow_collectUpTo hround hwalks (hij.trans hjk) hrounds'
      exact hrest.bind fun _ _ => shallow_pure.at

theorem shallow_collect {item? : Parser (Option α)} (hround : Shallow item? ts i)
    (hwalks : ∀ {j}, Walks deep 0 item? ts j [] [] (fun a? k => a?.isSome → j < k)) :
    Shallow (collect item?) ts i := fun _ hij =>
  (shallow_collectUpTo hround hwalks hij (Nat.lt_succ_of_le (Nat.sub_le _ _))).congr rfl

theorem shallow_chainUpTo {grow? : α → Parser (Option α)} (hround : ∀ a, Shallow (grow? a) ts i)
    (hwalks : ∀ a {j}, Walks deep 0 (grow? a) ts j [] [] (fun b? k => b?.isSome → j < k)) :
    ∀ {rounds j} (a : α), ts.Onward i j → ts.items.size - j < rounds →
      ShallowAt (chainUpTo grow? rounds a) ts j
  | rounds + 1, j, a, hij, hrounds => by
    refine (hround a j hij).bind fun {b? k ds} hrun hjk => ?_
    cases b? with
    | none => exact shallow_pure.at
    | some b =>
      obtain ⟨hok, rfl, -⟩ := runs_iff.mp hrun
      have hlt := ((hwalks a).ok hok).2 rfl
      have hsize := (hjk.of_lt hlt).2
      exact shallow_chainUpTo hround hwalks b (hij.trans hjk) (by omega)

theorem shallow_chain {grow? : α → Parser (Option α)} (hround : ∀ a, Shallow (grow? a) ts i)
    (hwalks : ∀ a {j}, Walks deep 0 (grow? a) ts j [] [] (fun b? k => b?.isSome → j < k))
    (a : α) : Shallow (chain grow? a) ts i := fun _ hij =>
  (shallow_chainUpTo hround hwalks a hij (Nat.lt_succ_of_le (Nat.sub_le _ _))).congr rfl

theorem shallow_separated (hlexed : ts.Lexed) {item : Parser α} (hitem : Shallow item ts i)
    (hwalks : ∀ {j}, Walks deep 0 item ts j [] [] (fun _ k => j < k)) :
    Shallow (separated item) ts i := by
  have hround : Shallow (do if ← accept .comma then some <$> item else return none) ts i :=
    (shallow_accept hlexed).bind fun _ => .ite hitem.map shallow_pure
  have hmore : Shallow (more item) ts i :=
    shallow_collect hround fun {_} => walks_moreRound hwalks
  exact hitem.bind fun _ => hmore.map

end

end

end Parser

end CommandShell
