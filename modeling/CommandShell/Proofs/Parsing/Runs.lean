import CommandShell.Grammar.Parser
import Mathlib.Tactic.Common

/-! # Runs: what it takes for a parser to succeed

`Runs p ts i a j ds` says that the parser `p`, started at the index `i` of the tokens `ts`, reads
`a`, stops at `j` and has reported `ds`. For each way to build a parser there is a lemma that says
when it runs, in terms of its parts; together they take any rule of the grammar apart. The lemmas
`runs_bind…` on a first step and what goes on after it are meant to be used before `runs_bind`
(`↓`), which splits the two. A repetition runs if its rounds do (`Collected`, `Chained`), the last
of which reads nothing. -/

namespace CommandShell

/-- The token with an index. -/
def Tokens.At (ts : Tokens) (i : Nat) (t : Token) : Prop := ts.get i = .ok t

theorem Tokens.At.unique {ts : Tokens} {i : Nat} {t u : Token} (h : ts.At i t) (h' : ts.At i u) :
    t = u := Except.ok.inj (h.symm.trans h')

/-- A token of the kind has the index. -/
def Tokens.Has (ts : Tokens) (i : Nat) (k : Kind) : Prop := ∃ t, ts.At i t ∧ t.kind = k

/-- A token of another kind has the index. -/
def Tokens.Lacks (ts : Tokens) (i : Nat) (k : Kind) : Prop := ∃ t, ts.At i t ∧ t.kind ≠ k

theorem Tokens.Has.lacks {ts : Tokens} {i : Nat} {k k' : Kind} (hne : k ≠ k') :
    ts.Has i k → ts.Lacks i k'
  | ⟨t, ht, hk⟩ => ⟨t, ht, hk ▸ hne⟩

namespace Parser

/-- What is read from an index on, where the reading stops and what it reports. -/
abbrev Shape (α : Type) : Type := Nat → α → Nat → List Diagnostic → Prop

/-- The rounds of a list: each reads an item, up to one that reads none. -/
inductive Collected {α : Type} (round : Shape (Option α)) : Shape (List α)
  | stop {i j ds} : round i none j ds → Collected round i [] j ds
  | more {i a j ds₁ as k ds₂} : round i (some a) j ds₁ → Collected round j as k ds₂ →
      Collected round i (a :: as) k (ds₁ ++ ds₂)

/-- The rounds of a chain, by their number: each makes more of what there is, up to one that leaves
it. -/
inductive Chained {α : Type} (round : α → Shape (Option α)) : Nat → α → Shape α
  | stop {a i j ds} : round a i none j ds → Chained round 0 a i a j ds
  | more {n a i b j ds₁ c k ds₂} : round a i (some b) j ds₁ → Chained round n b j c k ds₂ →
      Chained round (n + 1) a i c k (ds₁ ++ ds₂)

variable {α β : Type} {ts : Tokens} {i j k : Nat} {ds : List Diagnostic}

theorem Collected.imp {round round' : Shape (Option α)} {as : List α}
    (h : ∀ {i a? j ds}, round i a? j ds → round' i a? j ds) {i j : Nat} {ds : List Diagnostic} :
    Collected round i as j ds → Collected round' i as j ds
  | .stop hr => .stop (h hr)
  | .more hr hc => .more (h hr) (hc.imp h)

theorem Chained.imp {round round' : α → Shape (Option α)} {a b : α}
    (h : ∀ {a i b? j ds}, round a i b? j ds → round' a i b? j ds) {n i j : Nat}
    {ds : List Diagnostic} :
    Chained round n a i b j ds → Chained round' n a i b j ds
  | .stop hr => .stop (h hr)
  | .more hr hc => .more (h hr) (hc.imp h)

/-- The parser succeeds: from `i` on it reads `a`, stops at `j` and has reported `ds`. -/
def Runs (p : Parser α) (ts : Tokens) : Shape α := fun i a j ds =>
  ∃ reach, p ts i = ⟨.ok a, j, ds, reach⟩

theorem runs_iff {p : Parser α} {a : α} : Runs p ts i a j ds ↔
    (p ts i).outcome = .ok a ∧ (p ts i).next = j ∧ (p ts i).found = ds := by
  unfold Runs
  constructor
  · rintro ⟨reach, h⟩; simp [h]
  · rintro ⟨h₁, h₂, h₃⟩; exact ⟨(p ts i).reach, by rw [← h₁, ← h₂, ← h₃]⟩

/-- A parser reads one thing from a place. -/
theorem Runs.unique {p : Parser α} {a b : α} {ds' : List Diagnostic} (h : Runs p ts i a j ds)
    (h' : Runs p ts i b k ds') : a = b ∧ j = k ∧ ds = ds' := by
  obtain ⟨reach, hp⟩ := h
  obtain ⟨reach', hp'⟩ := h'
  cases hp.symm.trans hp'
  exact ⟨rfl, rfl, rfl⟩

@[simp] theorem runs_pure {a b : α} : Runs (pure a) ts i b j ds ↔ b = a ∧ j = i ∧ ds = [] := by
  show Runs (Parser.pure a) ts i b j ds ↔ _
  simp only [runs_iff, Parser.pure, Except.ok.injEq, eq_comm]

@[simp] theorem runs_bind {p : Parser α} {f : α → Parser β} {b : β} :
    Runs (p >>= f) ts i b k ds ↔ ∃ a j ds₁ ds₂,
      Runs p ts i a j ds₁ ∧ Runs (f a) ts j b k ds₂ ∧ ds = ds₁ ++ ds₂ := by
  show Runs (Parser.bind p f) ts i b k ds ↔ _
  simp only [runs_iff, Parser.bind]
  cases h : (p ts i).outcome with
  | error e => simp
  | ok a =>
    simp only [Except.ok.injEq]
    constructor
    · rintro ⟨hb, hk, hds⟩
      exact ⟨a, _, _, _, ⟨rfl, rfl, rfl⟩, ⟨hb, hk, rfl⟩, hds.symm⟩
    · rintro ⟨_, _, _, _, ⟨rfl, rfl, rfl⟩, ⟨hb, hk, rfl⟩, hds⟩
      exact ⟨hb, hk, hds.symm⟩

@[simp] theorem runs_map {p : Parser α} {f : α → β} {b : β} :
    Runs (f <$> p) ts i b j ds ↔ ∃ a, Runs p ts i a j ds ∧ b = f a := by
  show Runs (p >>= fun a => pure (f a)) ts i b j ds ↔ _
  simp only [runs_bind, runs_pure]
  constructor
  · rintro ⟨a, j', ds₁, ds₂, h, ⟨hb, rfl, rfl⟩, rfl⟩; exact ⟨a, by simpa using h, hb⟩
  · rintro ⟨a, h, hb⟩; exact ⟨a, j, ds, [], h, ⟨hb, rfl, rfl⟩, by simp⟩

@[simp] theorem runs_ite {c : Prop} [Decidable c] {p q : Parser α} {a : α} :
    Runs (if c then p else q) ts i a j ds ↔
      c ∧ Runs p ts i a j ds ∨ ¬ c ∧ Runs q ts i a j ds := by
  split_ifs with h <;> simp [h]

@[simp] theorem not_runs_fail {e : Failure} {a : α} : ¬ Runs (fail e) ts i a j ds := by
  simp [runs_iff, fail]

@[simp] theorem runs_report {d : Diagnostic} {a : Unit} :
    Runs (report d) ts i a j ds ↔ j = i ∧ ds = [d] := by
  simp only [runs_iff, report, true_and, eq_comm]

/-! ### Single tokens -/

@[simp] theorem runs_peek {ahead : Nat} {t : Token} :
    Runs (peek ahead) ts i t j ds ↔ ts.At (i + ahead) t ∧ j = i ∧ ds = [] := by
  simp only [runs_iff, peek, Tokens.At]
  cases ts.get (i + ahead) <;> simp [Except.mapError, eq_comm]

@[simp] theorem runs_current {t : Token} :
    Runs current ts i t j ds ↔ ts.At i t ∧ j = i ∧ ds = [] := runs_peek

/-- Behind the beginning there is a token before the place. -/
@[simp] theorem runs_previous_succ {t? : Option Token} :
    Runs previous ts (i + 1) t? j ds ↔ ∃ t, ts.At i t ∧ t? = some t ∧ j = i + 1 ∧ ds = [] := by
  simp only [runs_iff, previous, Tokens.At]
  cases ts.get i <;> simp [Except.mapError, Except.map, eq_comm]

@[simp] theorem runs_move {a : Unit} : Runs move ts i a j ds ↔ j = i + 1 ∧ ds = [] := by
  simp only [runs_iff, move, true_and, eq_comm]

@[simp] theorem runs_advance {t : Token} :
    Runs advance ts i t j ds ↔ ts.At i t ∧ j = (if t.kind = .eof then i else i + 1) ∧ ds = [] := by
  simp only [advance, runs_bind, runs_current, runs_ite, runs_pure, runs_move, Token.isEof,
    beq_iff_eq]
  constructor
  · rintro ⟨u, _, _, _, ⟨hu, rfl, rfl⟩, ⟨he, rfl, rfl, rfl⟩ | ⟨he, _, _, _, _, ⟨rfl, rfl⟩,
      ⟨rfl, rfl, rfl⟩, rfl⟩, rfl⟩
    · simp [hu, he]
    · simp [hu, he]
  · rintro ⟨ht, rfl, rfl⟩
    refine ⟨t, i, [], [], ⟨ht, rfl, rfl⟩, ?_, rfl⟩
    by_cases he : t.kind = .eof <;> simp [he]

/-- Taking a token that is known, and going on with it. -/
theorem runs_bindAdvance {f : Token → Parser α} {t : Token} {a : α} (ht : ts.At i t)
    (hk : t.kind ≠ .eof) :
    Runs (advance >>= f) ts i a j ds ↔ Runs (f t) ts (i + 1) a j ds := by
  simp only [runs_bind, runs_advance]
  constructor
  · rintro ⟨u, _, _, _, ⟨hu, rfl, rfl⟩, h, rfl⟩
    cases ht.unique hu
    simpa [hk] using h
  · intro h
    exact ⟨t, i + 1, [], ds, ⟨ht, by simp [hk], rfl⟩, h, rfl⟩

/-- Taking a token that is known. -/
theorem runs_advanceAt {t u : Token} (ht : ts.At i t) (hk : t.kind ≠ .eof) :
    Runs advance ts i u j ds ↔ u = t ∧ j = i + 1 ∧ ds = [] := by
  rw [runs_advance]
  constructor
  · rintro ⟨hu, rfl, rfl⟩
    cases ht.unique hu
    exact ⟨rfl, if_neg hk, rfl⟩
  · rintro ⟨rfl, rfl, rfl⟩
    exact ⟨ht, (if_neg hk).symm, rfl⟩

/-- Taking a token that is known, and making something of it. -/
theorem runs_mapAdvance {f : Token → α} {t : Token} {a : α} (ht : ts.At i t) (hk : t.kind ≠ .eof) :
    Runs (f <$> advance) ts i a j ds ↔ a = f t ∧ j = i + 1 ∧ ds = [] :=
  (runs_bindAdvance ht hk).trans runs_pure

@[simp] theorem runs_sees {kind : Kind} {b : Bool} :
    Runs (sees kind) ts i b j ds ↔ ∃ t, ts.At i t ∧ b = (t.kind == kind) ∧ j = i ∧ ds = [] := by
  simp only [sees, runs_bind, runs_current, runs_pure]
  constructor
  · rintro ⟨t, _, _, _, ⟨ht, rfl, rfl⟩, ⟨rfl, rfl, rfl⟩, rfl⟩; exact ⟨t, ht, rfl, rfl, rfl⟩
  · rintro ⟨t, ht, rfl, rfl, rfl⟩; exact ⟨t, j, [], [], ⟨ht, rfl, rfl⟩, ⟨rfl, rfl, rfl⟩, rfl⟩

@[simp] theorem runs_seesAny {kinds : List Kind} {b : Bool} : Runs (seesAny kinds) ts i b j ds ↔
    ∃ t, ts.At i t ∧ b = kinds.contains t.kind ∧ j = i ∧ ds = [] := by
  simp only [seesAny, runs_bind, runs_current, runs_pure]
  constructor
  · rintro ⟨t, _, _, _, ⟨ht, rfl, rfl⟩, ⟨rfl, rfl, rfl⟩, rfl⟩; exact ⟨t, ht, rfl, rfl, rfl⟩
  · rintro ⟨t, ht, rfl, rfl, rfl⟩; exact ⟨t, j, [], [], ⟨ht, rfl, rfl⟩, ⟨rfl, rfl, rfl⟩, rfl⟩

/-- A token is taken if it is of the kind, and left otherwise. -/
theorem runs_accept {kind : Kind} {b : Bool} (hkind : kind ≠ .eof) :
    Runs (accept kind) ts i b j ds ↔ ∃ t, ts.At i t ∧ ds = [] ∧
      (t.kind = kind ∧ b = true ∧ j = i + 1 ∨ t.kind ≠ kind ∧ b = false ∧ j = i) := by
  simp only [accept, runs_bind, runs_sees, runs_ite, runs_pure, runs_advance]
  constructor
  · rintro ⟨_, _, _, _, ⟨t, ht, rfl, rfl, rfl⟩, ⟨hk, _, _, _, _, ⟨hu, rfl, rfl⟩, ⟨rfl, rfl, rfl⟩,
      rfl⟩ | ⟨hk, rfl, rfl, rfl⟩, rfl⟩
    · cases ht.unique hu
      have hk : t.kind = kind := by simpa using hk
      exact ⟨t, ht, rfl, Or.inl ⟨hk, rfl, by rw [if_neg (hk ▸ hkind)]⟩⟩
    · exact ⟨t, ht, rfl, Or.inr ⟨by simpa using hk, rfl, rfl⟩⟩
  · rintro ⟨t, ht, rfl, ⟨hk, rfl, rfl⟩ | ⟨hk, rfl, rfl⟩⟩
    · exact ⟨_, i, [], [], ⟨t, ht, rfl, rfl, rfl⟩, Or.inl ⟨by simpa using hk, t, i + 1, [], [],
        ⟨ht, by rw [if_neg (hk ▸ hkind)], rfl⟩, ⟨rfl, rfl, rfl⟩, rfl⟩, rfl⟩
    · exact ⟨_, j, [], [], ⟨t, ht, rfl, rfl, rfl⟩, Or.inr ⟨by simpa using hk, rfl, rfl, rfl⟩, rfl⟩

@[simp] theorem not_runs_failAt {fault : ParseFault} {t : Token} {a : α} :
    ¬ Runs (failAt fault t) ts i a j ds := not_runs_fail

@[simp] theorem not_runs_failHere {fault : ParseFault} {a : α} :
    ¬ Runs (failHere fault) ts i a j ds := by
  simp [failHere]

/-- A token that is expected is there. -/
theorem runs_expectAs {kind : Kind} {w : Wanted} {t : Token} (hkind : kind ≠ .eof) :
    Runs (expectAs kind w) ts i t j ds ↔ ts.At i t ∧ t.kind = kind ∧ j = i + 1 ∧ ds = [] := by
  simp only [expectAs, expectOr, runs_bind, runs_sees, runs_ite, runs_advance, not_runs_failHere,
    and_false, or_false]
  constructor
  · rintro ⟨_, _, _, _, ⟨u, hu, rfl, rfl, rfl⟩, ⟨hk, ht, rfl, rfl⟩, rfl⟩
    cases hu.unique ht
    have hk : t.kind = kind := by simpa using hk
    exact ⟨ht, hk, by rw [if_neg (hk ▸ hkind)], rfl⟩
  · rintro ⟨ht, hk, rfl, rfl⟩
    exact ⟨_, i, [], [], ⟨t, ht, rfl, rfl, rfl⟩,
      ⟨by simpa using hk, ht, by rw [if_neg (hk ▸ hkind)], rfl⟩, rfl⟩

@[simp] theorem runs_expectSemicolon {t : Token} : Runs expectSemicolon ts i t j ds ↔
    ts.At i t ∧ t.kind = .semicolon ∧ j = i + 1 ∧ ds = [] := by
  simp only [expectSemicolon, runs_bind, runs_current, runs_ite, runs_advance, not_runs_failAt,
    and_false, or_false]
  constructor
  · rintro ⟨u, _, _, _, ⟨hu, rfl, rfl⟩, ⟨hk, ht, rfl, rfl⟩, rfl⟩
    cases hu.unique ht
    exact ⟨ht, hk, by simp [hk], rfl⟩
  · rintro ⟨ht, hk, rfl, rfl⟩
    exact ⟨t, i, [], [], ⟨ht, rfl, rfl⟩, ⟨hk, ht, by simp [hk], rfl⟩, rfl⟩

/-! ### First steps

What a parser reads that takes a single step and then goes on. -/

section
variable {kind : Kind} {a : α}

theorem runs_bindPure {p : Parser β} {f : β → α} :
    Runs (p >>= fun b => pure (f b)) ts i a j ds ↔ ∃ b, Runs p ts i b j ds ∧ a = f b := runs_map

/-- A step that only reports, and what goes on after it. -/
theorem runs_bindReports {q : Parser Unit} {reports : List Diagnostic} {p : Parser α}
    (hq : ∀ {i u j ds}, Runs q ts i u j ds ↔ j = i ∧ ds = reports) :
    Runs (do q; p) ts i a j ds ↔ ∃ ds₁, Runs p ts i a j ds₁ ∧ ds = reports ++ ds₁ := by
  simp only [runs_bind, hq]
  constructor
  · rintro ⟨_, _, _, ds₁, ⟨rfl, rfl⟩, h, rfl⟩; exact ⟨ds₁, h, rfl⟩
  · rintro ⟨ds₁, h, rfl⟩; exact ⟨(), i, reports, ds₁, ⟨rfl, rfl⟩, h, rfl⟩

/-- What goes on unless something is wrong. -/
theorem runs_guard {c : Prop} [Decidable c] {fault : ParseFault} {t : Token} {f : β → Parser α}
    {p : Parser α} : Runs (if c then failAt fault t >>= f else p) ts i a j ds ↔
      ¬ c ∧ Runs p ts i a j ds := by
  simp only [runs_ite, runs_bind, not_runs_failAt, false_and, exists_false, and_false, false_or]

theorem runs_bindPeek {ahead : Nat} {f : Token → Parser α} :
    Runs (peek ahead >>= f) ts i a j ds ↔ ∃ t, ts.At (i + ahead) t ∧ Runs (f t) ts i a j ds := by
  simp only [runs_bind, runs_peek]
  constructor
  · rintro ⟨t, _, _, _, ⟨ht, rfl, rfl⟩, h, rfl⟩; exact ⟨t, ht, h⟩
  · rintro ⟨t, ht, h⟩; exact ⟨t, i, [], ds, ⟨ht, rfl, rfl⟩, h, rfl⟩

theorem runs_bindCurrent {f : Token → Parser α} :
    Runs (current >>= f) ts i a j ds ↔ ∃ t, ts.At i t ∧ Runs (f t) ts i a j ds := runs_bindPeek

theorem runs_bindSees {p q : Parser α} : Runs (do if ← sees kind then p else q) ts i a j ds ↔
    ts.Has i kind ∧ Runs p ts i a j ds ∨ ts.Lacks i kind ∧ Runs q ts i a j ds := by
  simp only [runs_bind, runs_sees, runs_ite]
  constructor
  · rintro ⟨_, _, _, _, ⟨t, ht, rfl, rfl, rfl⟩, ⟨hk, h⟩ | ⟨hk, h⟩, rfl⟩
    · exact Or.inl ⟨⟨t, ht, by simpa using hk⟩, h⟩
    · exact Or.inr ⟨⟨t, ht, by simpa using hk⟩, h⟩
  · rintro (⟨⟨t, ht, hk⟩, h⟩ | ⟨⟨t, ht, hk⟩, h⟩)
    · exact ⟨_, i, [], ds, ⟨t, ht, rfl, rfl, rfl⟩, Or.inl ⟨by simpa using hk, h⟩, rfl⟩
    · exact ⟨_, i, [], ds, ⟨t, ht, rfl, rfl, rfl⟩, Or.inr ⟨by simpa using hk, h⟩, rfl⟩

theorem runs_bindSeesAny {kinds : List Kind} {p q : Parser α} :
    Runs (do if ← seesAny kinds then p else q) ts i a j ds ↔ ∃ t, ts.At i t ∧
      (t.kind ∈ kinds ∧ Runs p ts i a j ds ∨ t.kind ∉ kinds ∧ Runs q ts i a j ds) := by
  simp only [runs_bind, runs_seesAny, runs_ite]
  constructor
  · rintro ⟨_, _, _, _, ⟨t, ht, rfl, rfl, rfl⟩, h, rfl⟩; exact ⟨t, ht, by simpa using h⟩
  · rintro ⟨t, ht, h⟩; exact ⟨_, i, [], ds, ⟨t, ht, rfl, rfl, rfl⟩, by simpa using h, rfl⟩

/-- Taking a token that was seen. -/
theorem has_bindAdvance (hkind : kind ≠ .eof) {f : Token → Parser α} :
    ts.Has i kind ∧ Runs (advance >>= f) ts i a j ds ↔
      ∃ t, ts.At i t ∧ t.kind = kind ∧ Runs (f t) ts (i + 1) a j ds := by
  constructor
  · rintro ⟨⟨t, ht, hk⟩, h⟩; exact ⟨t, ht, hk, (runs_bindAdvance ht (hk ▸ hkind)).mp h⟩
  · rintro ⟨t, ht, hk, h⟩; exact ⟨⟨t, ht, hk⟩, (runs_bindAdvance ht (hk ▸ hkind)).mpr h⟩

theorem runs_bindAccept (hkind : kind ≠ .eof) {p q : Parser α} :
    Runs (do if ← accept kind then p else q) ts i a j ds ↔
      ts.Has i kind ∧ Runs p ts (i + 1) a j ds ∨ ts.Lacks i kind ∧ Runs q ts i a j ds := by
  simp only [runs_bind, runs_accept hkind, runs_ite]
  constructor
  · rintro ⟨_, _, _, _, ⟨t, ht, rfl, ⟨hk, rfl, rfl⟩ | ⟨hk, rfl, rfl⟩⟩, ⟨hb, h⟩ | ⟨hb, h⟩, rfl⟩
    · exact Or.inl ⟨⟨t, ht, hk⟩, h⟩
    · exact absurd rfl hb
    · cases hb
    · exact Or.inr ⟨⟨t, ht, hk⟩, h⟩
  · rintro (⟨⟨t, ht, hk⟩, h⟩ | ⟨⟨t, ht, hk⟩, h⟩)
    · exact ⟨_, _, [], ds, ⟨t, ht, rfl, Or.inl ⟨hk, rfl, rfl⟩⟩, Or.inl ⟨rfl, h⟩, rfl⟩
    · exact ⟨_, _, [], ds, ⟨t, ht, rfl, Or.inr ⟨hk, rfl, rfl⟩⟩, Or.inr ⟨nofun, h⟩, rfl⟩

theorem runs_bindExpectAs (hkind : kind ≠ .eof) {w : Wanted} {f : Token → Parser α} :
    Runs (expectAs kind w >>= f) ts i a j ds ↔
      ∃ t, ts.At i t ∧ t.kind = kind ∧ Runs (f t) ts (i + 1) a j ds := by
  simp only [runs_bind, runs_expectAs hkind]
  constructor
  · rintro ⟨t, _, _, _, ⟨ht, hk, rfl, rfl⟩, h, rfl⟩; exact ⟨t, ht, hk, h⟩
  · rintro ⟨t, ht, hk, h⟩; exact ⟨t, i + 1, [], ds, ⟨ht, hk, rfl, rfl⟩, h, rfl⟩

/-- Taking a token that leaves nothing but its kind behind. -/
theorem runs_bindToken (hkind : kind ≠ .eof) {w : Wanted} {p : Parser α} :
    Runs (do let _ ← expectAs kind w; p) ts i a j ds ↔
      ts.Has i kind ∧ Runs p ts (i + 1) a j ds := by
  rw [runs_bindExpectAs hkind]
  exact ⟨fun ⟨t, ht, hk, h⟩ => ⟨⟨t, ht, hk⟩, h⟩, fun ⟨⟨t, ht, hk⟩, h⟩ => ⟨t, ht, hk, h⟩⟩

theorem runs_bindExpect (hkind : kind ≠ .eof) {p : Parser α} :
    Runs (do let _ ← expect kind; p) ts i a j ds ↔
      ts.Has i kind ∧ Runs p ts (i + 1) a j ds := runs_bindToken hkind

theorem runs_bindCloser (hkind : kind ≠ .eof) {p : Parser α} :
    Runs (do let _ ← expectCloser kind; p) ts i a j ds ↔
      ts.Has i kind ∧ Runs p ts (i + 1) a j ds := runs_bindToken hkind

/-- What ends with a closing bracket. -/
theorem runs_closed (hkind : kind ≠ .eof) {p : Parser β} {f : β → α} :
    Runs (do let b ← p; let _ ← expectCloser kind; return f b) ts i a j ds ↔
      ∃ b k, Runs p ts i b k ds ∧ ts.Has k kind ∧ a = f b ∧ j = k + 1 := by
  simp only [runs_bind, ↓runs_bindCloser hkind, runs_pure]
  constructor
  · rintro ⟨b, k, ds₁, _, hb, ⟨hclose, rfl, rfl, rfl⟩, rfl⟩
    exact ⟨b, k, by rwa [List.append_nil], hclose, rfl, rfl⟩
  · rintro ⟨b, k, hb, hclose, rfl, rfl⟩
    exact ⟨b, k, ds, [], hb, ⟨hclose, rfl, rfl, rfl⟩, (List.append_nil ds).symm⟩

theorem runs_bindSemicolon {p : Parser α} :
    Runs (do let _ ← expectSemicolon; p) ts i a j ds ↔
      ts.Has i .semicolon ∧ Runs p ts (i + 1) a j ds := by
  simp only [runs_bind, runs_expectSemicolon]
  constructor
  · rintro ⟨t, _, _, _, ⟨ht, hk, rfl, rfl⟩, h, rfl⟩; exact ⟨⟨t, ht, hk⟩, h⟩
  · rintro ⟨⟨t, ht, hk⟩, h⟩; exact ⟨t, i + 1, [], ds, ⟨ht, hk, rfl, rfl⟩, h, rfl⟩

/-- What ends with a semicolon. -/
theorem runs_terminated {p : Parser β} {f : β → α} :
    Runs (do let b ← p; let _ ← expectSemicolon; return f b) ts i a j ds ↔
      ∃ b k, Runs p ts i b k ds ∧ ts.Has k .semicolon ∧ a = f b ∧ j = k + 1 := by
  simp only [runs_bind, ↓runs_bindSemicolon, runs_pure]
  constructor
  · rintro ⟨b, k, ds₁, _, hb, ⟨hsemicolon, rfl, rfl, rfl⟩, rfl⟩
    exact ⟨b, k, by rwa [List.append_nil], hsemicolon, rfl, rfl⟩
  · rintro ⟨b, k, hb, hsemicolon, rfl, rfl⟩
    exact ⟨b, k, ds, [], hb, ⟨hsemicolon, rfl, rfl, rfl⟩, (List.append_nil ds).symm⟩

end

/-! ### Repetition -/

theorem runs_collectUpTo {item? : Parser (Option α)} : ∀ {rounds i j : Nat} {as : List α} {ds},
    Runs (collectUpTo item? rounds) ts i as j ds ↔
      Collected (Runs item? ts) i as j ds ∧ as.length < rounds
  | 0, i, j, as, ds => by simp [collectUpTo, tooDeep]
  | rounds + 1, i, j, as, ds => by
    simp only [collectUpTo, runs_bind]
    constructor
    · rintro ⟨_ | a, j', ds₁, ds₂, h, hrest, rfl⟩
      · obtain ⟨rfl, rfl, rfl⟩ := runs_pure.mp hrest
        exact ⟨by simpa using Collected.stop h, Nat.succ_pos _⟩
      · obtain ⟨as', k, ds₃, ds₄, has, hpure, rfl⟩ := runs_bind.mp hrest
        obtain ⟨rfl, rfl, rfl⟩ := runs_pure.mp hpure
        obtain ⟨hc, hlen⟩ := runs_collectUpTo.mp has
        exact ⟨by simpa using Collected.more h hc, Nat.succ_lt_succ hlen⟩
    · rintro ⟨hc, hlen⟩
      cases hc with
      | stop h => exact ⟨none, j, ds, [], h, runs_pure.mpr ⟨rfl, rfl, rfl⟩, by simp⟩
      | @more _ a j' ds₁ as _ ds₂ h hc =>
        refine ⟨some a, j', ds₁, ds₂, h, ?_, rfl⟩
        exact runs_bind.mpr ⟨as, j, ds₂, [], runs_collectUpTo.mpr ⟨hc, Nat.lt_of_succ_lt_succ hlen⟩,
          runs_pure.mpr ⟨rfl, rfl, rfl⟩, by simp⟩

theorem runs_collect {item? : Parser (Option α)} {as : List α} :
    Runs (collect item?) ts i as j ds ↔
      Collected (Runs item? ts) i as j ds ∧ as.length ≤ ts.items.size := by
  rw [← Nat.lt_succ_iff, ← runs_collectUpTo]; rfl

theorem runs_chainUpTo {grow? : α → Parser (Option α)} : ∀ {rounds i j : Nat} {a b : α} {ds},
    Runs (chainUpTo grow? rounds a) ts i b j ds ↔
      ∃ n < rounds, Chained (fun a => Runs (grow? a) ts) n a i b j ds
  | 0, i, j, a, b, ds => by simp [chainUpTo, tooDeep]
  | rounds + 1, i, j, a, b, ds => by
    simp only [chainUpTo, runs_bind]
    constructor
    · rintro ⟨_ | c, j', ds₁, ds₂, h, hrest, rfl⟩
      · obtain ⟨rfl, rfl, rfl⟩ := runs_pure.mp hrest
        exact ⟨0, Nat.succ_pos _, by simpa using Chained.stop h⟩
      · obtain ⟨n, hn, hc⟩ := runs_chainUpTo.mp hrest
        exact ⟨n + 1, Nat.succ_lt_succ hn, .more h hc⟩
    · rintro ⟨n, hn, hc⟩
      cases hc with
      | stop h => exact ⟨none, j, ds, [], h, runs_pure.mpr ⟨rfl, rfl, rfl⟩, by simp⟩
      | @more n _ _ c j' ds₁ _ _ ds₂ h hc =>
        exact ⟨some c, j', ds₁, ds₂, h, runs_chainUpTo.mpr ⟨n, Nat.lt_of_succ_lt_succ hn, hc⟩, rfl⟩

theorem runs_chain {grow? : α → Parser (Option α)} {a b : α} : Runs (chain grow? a) ts i b j ds ↔
    ∃ n ≤ ts.items.size, Chained (fun a => Runs (grow? a) ts) n a i b j ds := by
  simp only [← Nat.lt_succ_iff]
  exact runs_chainUpTo

end Parser

end CommandShell
