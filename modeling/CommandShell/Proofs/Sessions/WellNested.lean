import CommandShell.Proofs.Sessions.Lines
import Mathlib.Data.List.Induction

/-! # Well nested texts: what the bracket count decides

A text is well nested if each opening bracket is closed by a closer of its own and everything
between the two is well nested again (`WellNested`). The bracket count decides this, and it may be
interrupted between any two tokens (`Brackets.decides_of_reached`):

* it is balanced exactly if the text is well nested, read behind the brackets that were open before;
* it needs more exactly if the text is not well nested but can be completed, and then the closers
  that it awaits are the shortest completion;
* it is malformed exactly if nothing completes the text, and names the first token behind which
  nothing does.

A single token changes the awaited closers in one of three ways or stops the count (`scan_cons`);
every induction over the tokens goes by these cases. -/

namespace CommandShell

/-- Texts in which each opening bracket is closed by its closer, the innermost first. What is
neither an opening nor a closing bracket may stand anywhere. -/
inductive WellNested : List Token → Prop
  | nil : WellNested []
  | plain {t ts} : t.kind.closer? = none → t.kind.isCloser = false → WellNested ts →
      WellNested (t :: ts)
  | pair {o inner c rest} : o.kind.closer? = some c.kind → WellNested inner → WellNested rest →
      WellNested (o :: inner ++ c :: rest)

theorem WellNested.append {us vs : List Token} (hu : WellNested us) (hv : WellNested vs) :
    WellNested (us ++ vs) := by
  induction hu with
  | nil => exact hv
  | plain hopens hcloses _ ih => exact .plain hopens hcloses ih
  | pair hpair hinner _ _ ih =>
    have h := WellNested.pair hpair hinner ih
    simpa using h

/-- A text whose tokens close the awaited brackets, innermost first, with well nested texts before
each closer and behind the last. -/
def Completes : List Kind → List Token → Prop
  | [], us => WellNested us
  | closer :: outer, us => ∃ inner t rest, us = inner ++ t :: rest ∧ WellNested inner ∧
      t.kind = closer ∧ Completes outer rest

theorem Completes.after {us vs : List Token} (hu : WellNested us) :
    ∀ {σ : List Kind}, Completes σ vs → Completes σ (us ++ vs)
  | [], h => hu.append h
  | _ :: _, ⟨inner, t, rest, hvs, hinner, ht, hrest⟩ =>
    ⟨us ++ inner, t, rest, by rw [hvs, List.append_assoc], hu.append hinner, ht, hrest⟩

namespace Brackets

variable {b b' : Brackets} {σ τ : List Kind} {t : Token} {us vs : List Token}

/-! ### One token -/

/-- What a token that can be taken does to the awaited closers. -/
inductive Turns (t : Token) : List Kind → List Kind → Prop
  | opens {closer : Kind} {σ : List Kind} : t.kind.closer? = some closer → Turns t σ (closer :: σ)
  | closes {σ : List Kind} : t.kind.isCloser = true → Turns t (t.kind :: σ) σ
  | passes {σ : List Kind} : t.kind.closer? = none → t.kind.isCloser = false → Turns t σ σ

/-- **A token is taken, or it is a closer that is not awaited and stops the count.** -/
theorem scan_cons (t : Token) (σ : List Kind) :
    (∃ τ, Turns t σ τ ∧ ∀ us, scan ⟨σ⟩ (t :: us) = scan ⟨τ⟩ us) ∨
      t.kind.isCloser = true ∧ ∀ us, scan ⟨σ⟩ (t :: us) = (.malformed t, ⟨σ⟩) := by
  cases hopens : t.kind.closer? with
  | some closer => exact Or.inl ⟨_, .opens hopens, fun us => by rw [scan, hopens]⟩
  | none =>
    cases hcloses : t.kind.isCloser with
    | false => exact Or.inl ⟨_, .passes hopens hcloses, fun us => by simp [scan, hopens, hcloses]⟩
    | true =>
      by_cases hhead : ∃ outer, σ = t.kind :: outer
      · obtain ⟨outer, rfl⟩ := hhead
        exact Or.inl ⟨_, .closes hcloses, fun us => scan_closer hcloses outer us⟩
      · refine Or.inr ⟨rfl, fun us => ?_⟩
        rw [scan, hopens]
        rcases σ with _ | ⟨closer, outer⟩
        · simp [hcloses]
        · have hne : closer ≠ t.kind := fun h => hhead ⟨outer, by rw [h]⟩
          simp [hcloses, hne]

/-! ### Well nested texts -/

/-- A well nested text leaves the count as it is. -/
theorem scan_wellNested (h : WellNested us) : ∀ (b : Brackets) (vs : List Token),
    b.scan (us ++ vs) = b.scan vs := by
  induction h with
  | nil => exact fun _ _ => rfl
  | @plain t ts hopens hcloses _ ih =>
    intro b vs
    rw [← ih b vs, List.cons_append, scan, hopens]
    simp [hcloses]
  | @pair o inner c rest hpair _ _ ihinner ihrest =>
    intro b vs
    have hc := Kind.isCloser_of_closer? hpair
    calc b.scan ((o :: inner ++ c :: rest) ++ vs)
        = scan ⟨c.kind :: b.awaited⟩ (inner ++ (c :: (rest ++ vs))) := by
          rw [List.append_assoc, List.cons_append, scan_opener hpair, List.cons_append]
      _ = scan ⟨c.kind :: b.awaited⟩ (c :: (rest ++ vs)) := ihinner _ _
      _ = b.scan (rest ++ vs) := scan_closer hc b.awaited _
      _ = b.scan vs := ihrest b vs

/-- What is found balanced completes the brackets that were open before. -/
theorem completes_of_scan : ∀ {us : List Token} {σ : List Kind},
    (scan ⟨σ⟩ us).1 = .balanced → Completes σ us
  | [], [], _ => .nil
  | [], _ :: _, h => nomatch h
  | t :: us, σ, h => by
    rcases scan_cons t σ with ⟨τ, hturns, hscan⟩ | ⟨-, hscan⟩
    · rw [hscan] at h
      have hrest := completes_of_scan h
      cases hturns with
      | opens hopens =>
        obtain ⟨inner, c, rest, rfl, hinner, rfl, hrest⟩ := hrest
        have hpair := Completes.after (.pair hopens hinner .nil) hrest
        simpa using hpair
      | closes hcloses => exact ⟨[], t, us, rfl, .nil, rfl, hrest⟩
      | passes hopens hcloses => exact hrest.after (.plain hopens hcloses .nil)
    · rw [hscan] at h
      cases h

theorem wellNested_iff : WellNested us ↔ (empty.scan us).1 = .balanced := by
  refine ⟨fun h => ?_, fun h => completes_of_scan h⟩
  have hscan := scan_wellNested h empty []
  rw [List.append_nil] at hscan
  rw [hscan]
  rfl

/-! ### Brackets that are open -/

/-- The tokens open the brackets whose closers are awaited, the outermost first. -/
def OpenedBy (b : Brackets) (opened : List Token) : Prop :=
  opened.map (·.kind.closer?) = b.awaited.reverse.map some

theorem scan_opened : ∀ {opened : List Token} {τ : List Kind} (σ : List Kind) (us : List Token),
    opened.map (·.kind.closer?) = τ.map some →
      scan ⟨σ⟩ (opened ++ us) = scan ⟨τ.reverse ++ σ⟩ us
  | [], [], _, _, _ => rfl
  | [], _ :: _, _, _, h => nomatch h
  | _ :: _, [], _, _, h => nomatch h
  | o :: opened, closer :: τ, σ, us, h => by
    rw [List.map_cons, List.map_cons, List.cons.injEq] at h
    rw [List.cons_append, scan_opener h.1, scan_opened _ us h.2, List.reverse_cons,
      List.append_assoc]
    rfl

/-- To have brackets open is to have read tokens that open them. -/
theorem OpenedBy.scan_eq {opened : List Token} (h : b.OpenedBy opened) (us : List Token) :
    empty.scan (opened ++ us) = b.scan us := by
  rw [empty, scan_opened [] us h, List.reverse_reverse, List.append_nil]

/-- The states of a count: what some texts leave open, one after the other. -/
inductive Reached : Brackets → Prop
  | empty : Reached empty
  | scan {b : Brackets} (us : List Token) : Reached b → Reached (b.scan us).2

theorem awaited_of_turns (h : Turns t σ τ) {k : Kind} (hk : k ∈ τ) :
    k ∈ σ ∨ k.isCloser = true := by
  cases h with
  | opens hopens =>
    rcases List.mem_cons.mp hk with rfl | hk
    · exact Or.inr (Kind.isCloser_of_closer? hopens)
    · exact Or.inl hk
  | closes => exact Or.inl (List.mem_cons_of_mem _ hk)
  | passes => exact Or.inl hk

/-- Only closers are awaited. -/
theorem awaited_of_scan : ∀ (us : List Token) {σ : List Kind} {k : Kind},
    k ∈ (scan ⟨σ⟩ us).2.awaited → k ∈ σ ∨ k.isCloser = true
  | [], _, _, hk => Or.inl hk
  | t :: us, σ, k, hk => by
    rcases scan_cons t σ with ⟨τ, hturns, hscan⟩ | ⟨-, hscan⟩ <;> rw [hscan] at hk
    · rcases awaited_of_scan us hk with hk | hk
      · exact awaited_of_turns hturns hk
      · exact Or.inr hk
    · exact Or.inl hk

theorem Reached.isCloser (h : b.Reached) : ∀ k ∈ b.awaited, k.isCloser = true := by
  induction h with
  | empty => exact fun _ hk => nomatch hk
  | scan us _ ih => exact fun k hk => (awaited_of_scan us hk).elim (ih k) id

theorem exists_opened : ∀ {τ : List Kind}, (∀ k ∈ τ, k.isCloser = true) →
    ∃ opened : List Token, opened.map (·.kind.closer?) = τ.map some
  | [], _ => ⟨[], rfl⟩
  | k :: τ, h => by
    obtain ⟨opened, hopened⟩ := exists_opened fun k hk => h k (List.mem_cons_of_mem _ hk)
    have hopener : ∃ o : Kind, o.closer? = some k := by
      have hk := h k List.mem_cons_self
      cases k <;> try cases hk
      · exact ⟨.lparen, rfl⟩
      · exact ⟨.lsquare, rfl⟩
      · exact ⟨.lbrace, rfl⟩
    obtain ⟨o, ho⟩ := hopener
    exact ⟨⟨o, "", 0, 0⟩ :: opened, by rw [List.map_cons, List.map_cons, hopened, ho]⟩

/-! ### Completions -/

/-- Tokens that close brackets. -/
def closing (σ : List Kind) : List Token := σ.map (⟨·, "", 0, 0⟩)

theorem map_kind_closing (σ : List Kind) : (closing σ).map Token.kind = σ := by
  rw [closing, List.map_map]
  exact List.map_id σ

/-- The awaited closers complete what is open. -/
theorem scan_awaited : ∀ {more : List Token} {σ : List Kind}, (∀ k ∈ σ, k.isCloser = true) →
    more.map Token.kind = σ → (scan ⟨σ⟩ more).1 = .balanced
  | [], _, _, rfl => rfl
  | t :: more, _, hclosers, rfl => by
    rw [List.map_cons] at hclosers ⊢
    rw [scan_closer (hclosers _ List.mem_cons_self)]
    exact scan_awaited (fun k hk => hclosers k (List.mem_cons_of_mem _ hk)) rfl

/-- What completes the open brackets has a closer for each, and if it has nothing else it is the
awaited closers. -/
theorem awaited_of_balanced : ∀ {more : List Token} {σ : List Kind},
    (scan ⟨σ⟩ more).1 = .balanced →
      σ.length ≤ more.length ∧ (more.length ≤ σ.length → more.map Token.kind = σ)
  | [], [], _ => ⟨Nat.le_refl 0, fun _ => rfl⟩
  | [], _ :: _, h => nomatch h
  | t :: more, σ, h => by
    rcases scan_cons t σ with ⟨τ, hturns, hscan⟩ | ⟨-, hscan⟩ <;> rw [hscan] at h
    · obtain ⟨hle, heq⟩ := awaited_of_balanced h
      cases hturns with
      | opens =>
        simp only [List.length_cons] at hle ⊢
        exact ⟨by omega, fun hge => by omega⟩
      | closes =>
        simp only [List.length_cons, List.map_cons, List.cons.injEq, true_and]
        exact ⟨by omega, fun hge => heq (by omega)⟩
      | passes =>
        simp only [List.length_cons]
        exact ⟨by omega, fun hge => by omega⟩
    · cases h

/-- A text that is not malformed so far is read on from what it leaves open. -/
theorem balanced_append_iff (h : ∀ t, (b.scan us).1 ≠ .malformed t) {more : List Token} :
    (b.scan (us ++ more)).1 = .balanced ↔ ((b.scan us).2.scan more).1 = .balanced := by
  rw [scan_append rfl h]

theorem scan_nil_goes (b : Brackets) (t : Token) : (b.scan []).1 ≠ .malformed t := by
  intro h
  rw [scan] at h
  split at h <;> cases h

/-- What stops the count stops it whatever follows. -/
theorem scan_append_malformed : ∀ {us : List Token} {b b' : Brackets},
    b.scan us = (.malformed t, b') → ∀ more, b.scan (us ++ more) = (.malformed t, b')
  | [], b, _, h, _ => absurd (congrArg Prod.fst h) (scan_nil_goes b t)
  | u :: us, ⟨σ⟩, b', h, more => by
    rw [List.cons_append]
    rcases scan_cons u σ with ⟨τ, -, hscan⟩ | ⟨-, hscan⟩ <;> rw [hscan] at h ⊢
    · exact scan_append_malformed h more
    · exact h

/-- Where the count stops, the tokens before were taken, and the next one cannot be. -/
theorem exists_stop : ∀ {us : List Token} {b b' : Brackets}, b.scan us = (.malformed t, b') →
    ∃ taken rest, us = taken ++ t :: rest ∧ (∀ u, (b.scan taken).1 ≠ .malformed u) ∧
      (b.scan taken).2 = b' ∧ b'.scan [t] = (.malformed t, b')
  | [], b, _, h => absurd (congrArg Prod.fst h) (scan_nil_goes b t)
  | u :: us, ⟨σ⟩, b', h => by
    rcases scan_cons u σ with ⟨τ, hturns, hscan⟩ | ⟨-, hscan⟩ <;> rw [hscan] at h
    · obtain ⟨taken, rest, rfl, htaken, hafter, hstop⟩ := exists_stop h
      exact ⟨u :: taken, rest, rfl, by rwa [hscan], by rwa [hscan], hstop⟩
    · cases h
      exact ⟨[], us, rfl, scan_nil_goes ⟨σ⟩, rfl, hscan []⟩

/-! ### Texts in parts -/

/-- The verdict on the last of some texts read one after the other, and what is open then. -/
def feedAll (b : Brackets) (parts : List (List Token)) : Verdict × Brackets :=
  parts.foldl (fun r us => r.2.scan us) (b.scan [])

/-- Reading a text in parts gives what reading it at once does. -/
theorem feedAll_eq_scan (b : Brackets) : ∀ parts : List (List Token),
    (∀ before after, parts = before ++ after → after ≠ [] →
      ∀ t, (b.feedAll before).1 ≠ .malformed t) → b.feedAll parts = b.scan parts.flatten := by
  intro parts
  induction parts using List.reverseRecOn with
  | nil => exact fun _ => rfl
  | append_singleton parts us ih =>
    intro hparts
    have hbefore := ih fun before after heq hne =>
      hparts before (after ++ [us]) (by rw [heq, List.append_assoc]) (by simp)
    have hgoes := hparts parts [us] rfl (by simp)
    rw [hbefore] at hgoes
    have hfeed : b.feedAll (parts ++ [us]) = (b.feedAll parts).2.scan us := List.foldl_concat ..
    rw [hfeed, hbefore, List.flatten_concat, ← scan_append rfl hgoes]

/-! ### The decision -/

/-- Is the text a shortest one that completes another? -/
def ShortestAfter (us more : List Token) : Prop :=
  WellNested (us ++ more) ∧ ∀ other, WellNested (us ++ other) → more.length ≤ other.length

section
variable {opened : List Token} (hopened : b.OpenedBy opened)
include hopened

theorem OpenedBy.wellNested_iff (us : List Token) :
    WellNested (opened ++ us) ↔ (b.scan us).1 = .balanced := by
  rw [Brackets.wellNested_iff, hopened.scan_eq]

/-- What completes a text is what closes the brackets that it leaves open. -/
theorem OpenedBy.wellNested_append_iff (h : ∀ t, (b.scan us).1 ≠ .malformed t)
    (more : List Token) :
    WellNested (opened ++ us ++ more) ↔ ((b.scan us).2.scan more).1 = .balanced := by
  rw [List.append_assoc, hopened.wellNested_iff, balanced_append_iff h]

/-- Nothing completes a text that stops the count. -/
theorem OpenedBy.not_wellNested (h : (b.scan us).1 = .malformed t) (more : List Token) :
    ¬ WellNested (opened ++ us ++ more) := by
  intro hnested
  rw [List.append_assoc, hopened.wellNested_iff,
    scan_append_malformed (Prod.ext h rfl : b.scan us = (.malformed t, (b.scan us).2))] at hnested
  cases hnested

variable (hclosers : ∀ k ∈ b.awaited, k.isCloser = true)
include hclosers

/-- The awaited closers complete a text that does not stop the count. -/
theorem OpenedBy.wellNested_of_awaited (h : ∀ t, (b.scan us).1 ≠ .malformed t)
    {more : List Token} (hmore : more.map Token.kind = (b.scan us).2.awaited) :
    WellNested (opened ++ us ++ more) := by
  refine (hopened.wellNested_append_iff h more).mpr (scan_awaited (fun k hk => ?_) hmore)
  exact (awaited_of_scan us hk).elim (hclosers k) id

theorem OpenedBy.exists_wellNested (h : ∀ t, (b.scan us).1 ≠ .malformed t) :
    ∃ more, WellNested (opened ++ us ++ more) :=
  ⟨_, hopened.wellNested_of_awaited hclosers h (map_kind_closing _)⟩

/-- The shortest texts that complete a text are the awaited closers, the innermost first. -/
theorem OpenedBy.shortestAfter_iff (h : ∀ t, (b.scan us).1 ≠ .malformed t) (more : List Token) :
    ShortestAfter (opened ++ us) more ↔ more.map Token.kind = (b.scan us).2.awaited := by
  constructor
  · rintro ⟨hmore, hshort⟩
    have hle := hshort _ (hopened.wellNested_of_awaited hclosers h (map_kind_closing _))
    rw [closing, List.length_map] at hle
    exact (awaited_of_balanced ((hopened.wellNested_append_iff h more).mp hmore)).2 hle
  · intro hmore
    refine ⟨hopened.wellNested_of_awaited hclosers h hmore, fun other hother => ?_⟩
    have hlen := congrArg List.length hmore
    rw [List.length_map] at hlen
    rw [hlen]
    exact (awaited_of_balanced ((hopened.wellNested_append_iff h other).mp hother)).1

end

/-- **The bracket count decides whether a text is well nested, and may be interrupted.** Let `b` be
a state of the count. There are tokens that open its brackets, and whatever they are, the verdict on
a text says whether the text, read behind them, is well nested, can be completed, or neither. If it
needs more, the awaited closers are its shortest completion. If it is malformed, its token is the
first behind which nothing completes the text, and the open brackets are those before it. Read in
parts, none of which but the last is malformed, a text gets the verdict that it gets at once. -/
theorem decides_of_reached (hb : b.Reached) : (∃ opened, b.OpenedBy opened) ∧
    ∀ opened, b.OpenedBy opened → ∀ us : List Token,
      ((b.scan us).1 = .balanced ↔ WellNested (opened ++ us)) ∧
      ((b.scan us).1 = .needsMore ↔
        ¬ WellNested (opened ++ us) ∧ ∃ more, WellNested (opened ++ us ++ more)) ∧
      ((b.scan us).1 = .needsMore →
        ∀ more, ShortestAfter (opened ++ us) more ↔ more.map Token.kind = (b.scan us).2.awaited) ∧
      ((∃ t, (b.scan us).1 = .malformed t) ↔ ∀ more, ¬ WellNested (opened ++ us ++ more)) ∧
      (∀ t, (b.scan us).1 = .malformed t → ∃ before after, us = before ++ t :: after ∧
        (∃ more, WellNested (opened ++ before ++ more)) ∧
        (∀ more, ¬ WellNested (opened ++ (before ++ [t]) ++ more)) ∧
        (b.scan us).2 = (b.scan before).2) ∧
      ∀ parts : List (List Token), parts.flatten = us →
        (∀ before after, parts = before ++ after → after ≠ [] →
          ∀ t, (b.feedAll before).1 ≠ .malformed t) → b.feedAll parts = b.scan us := by
  have hclosers := hb.isCloser
  refine ⟨exists_opened fun k hk => hclosers k (List.mem_reverse.mp hk),
    fun opened hopened us => ⟨(hopened.wellNested_iff us).symm, ?_, fun hmore => ?_, ?_,
      fun t ht => ?_, fun parts hparts hgoes => hparts ▸ feedAll_eq_scan b parts hgoes⟩⟩
  · rw [hopened.wellNested_iff]
    constructor
    · intro h
      exact ⟨by simp [h], hopened.exists_wellNested hclosers (by simp [h])⟩
    · rintro ⟨hunbalanced, more, hmore⟩
      cases h : (b.scan us).1 with
      | balanced => exact absurd h hunbalanced
      | needsMore => rfl
      | malformed t => exact absurd hmore (hopened.not_wellNested h more)
  · exact hopened.shortestAfter_iff hclosers (by simp [hmore])
  · constructor
    · rintro ⟨t, ht⟩
      exact hopened.not_wellNested ht
    · intro hnone
      by_contra hgoes
      obtain ⟨more, hmore⟩ := hopened.exists_wellNested hclosers (not_exists.mp hgoes)
      exact hnone more hmore
  · have hscan : b.scan us = (.malformed t, (b.scan us).2) := Prod.ext ht rfl
    obtain ⟨before, after, hus, hbefore, hafter, hstop⟩ := exists_stop hscan
    refine ⟨before, after, hus, hopened.exists_wellNested hclosers hbefore, ?_, hafter.symm⟩
    refine hopened.not_wellNested (t := t) ?_
    rw [scan_append rfl hbefore, hafter, hstop]

/-- Two brackets are open, one of them a safe form, and each is closed by its closer. -/
theorem decides_of_two_open : Reached ⟨[.rsquare, .rparen]⟩ ∧
    WellNested [⟨.safeLparen, "?(", 1, 2⟩, ⟨.lsquare, "[", 1, 4⟩, ⟨.number, "1", 2, 1⟩,
      ⟨.rsquare, "]", 2, 2⟩, ⟨.rparen, ")", 2, 3⟩] := by
  have hb : Reached ⟨[.rsquare, .rparen]⟩ :=
    .scan [⟨.safeLparen, "?(", 1, 2⟩, ⟨.lsquare, "[", 1, 4⟩] .empty
  have hopened : OpenedBy ⟨[.rsquare, .rparen]⟩
      [⟨.safeLparen, "?(", 1, 2⟩, ⟨.lsquare, "[", 1, 4⟩] := rfl
  exact ⟨hb, ((decides_of_reached hb).2 _ hopened
    [⟨.number, "1", 2, 1⟩, ⟨.rsquare, "]", 2, 2⟩, ⟨.rparen, ")", 2, 3⟩]).1.mp (by decide)⟩

end Brackets

end CommandShell
