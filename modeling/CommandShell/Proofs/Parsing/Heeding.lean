import CommandShell.Proofs.Parsing.Walks
import CommandShell.Proofs.Parsing.Yield

/-! # Heeding: what a parser depends on, and where it reports

`Heeds` says what holds of a parser at a place whether it succeeds or fails:

* it does not move back, and has looked at every token that it has passed;
* it would do the same on all tokens that agree with these below its reach;
* each of its reports stands at a token from a given place on, unless it is about an expression in
  which no token is shown.

Every way to build a parser keeps this at all places (`Heedful`). Most parsers keep it whatever they
have read; a check needs to know where the expression stands that it is about, and takes that from
the run that read it (`Heedful.bindRuns`). -/

namespace CommandShell

open CommandShell.Parser

/-! ### Reports and places -/

/-- A report at a token from the place `low` on, or about an expression that stands there and in
which no token is shown. -/
inductive Tokens.Reported (ts : Tokens) (low : Nat) : Diagnostic → Prop
  | placed {d k t} : low ≤ k → ts.At k t → d.line = t.line → d.column = t.column →
      Reported ts low d
  | unplaced {d i e j} : low ≤ i → ts.Reads i e.pieces j → e.firstToken? = none →
      d = .badTarget e ∨ d = .noEffect e → Reported ts low d

section
variable {ts : Tokens} {low i j : Nat} {e : Expr}

/-- A token that is shown of what was read stands behind the place where the reading began. -/
theorem Tokens.Reads.at_of_kept {ps : List Piece} (h : ts.Reads i ps j) {t : Token}
    (ht : t ∈ Piece.kept ps) : ∃ k, i ≤ k ∧ ts.At k t := by
  obtain ⟨w, hw, -, hps⟩ := h
  have hmem : t ∈ ts.items.toList.drop i := by
    rw [hw]
    exact List.mem_append_left _ ((kept_sublist_of_fits hps).subset ht)
  obtain ⟨n, hn, hget⟩ := List.getElem_of_mem hmem
  have hlt : i + n < ts.items.size := by
    simp only [List.length_drop, Array.length_toList] at hn
    omega
  refine ⟨i + n, Nat.le_add_right i n, (Tokens.at_of_lt hlt).mpr ?_⟩
  simpa using hget

theorem Tokens.Reads.reported (h : ts.Reads i e.pieces j) (hlow : low ≤ i) {d : Diagnostic}
    (hd : d = .badTarget e ∨ d = .noEffect e) : ts.Reported low d := by
  cases hfirst : e.firstToken? with
  | none => exact .unplaced hlow h hfirst hd
  | some t =>
    have hkept : t ∈ Piece.kept e.pieces := by
      have hhead := hfirst
      rw [Expr.firstToken?, Tree.firstToken?_eq, e.tokens_tree] at hhead
      exact List.mem_of_head? hhead
    obtain ⟨k, hik, ht⟩ := h.at_of_kept hkept
    refine .placed (Nat.le_trans hlow hik) ht ?_ ?_ <;> rcases hd with rfl | rfl <;>
      simp only [Diagnostic.badTarget, Diagnostic.noEffect, hfirst, Diagnostic.at?]

end

namespace Parser

variable {α β : Type}

/-- What a parser depends on at a place, and where its reports stand, whatever its outcome is. -/
structure Heeds (p : Parser α) (ts : Tokens) (low i : Nat) : Prop where
  le : i ≤ (p ts i).next
  le_reach : (p ts i).next ≤ max i (p ts i).reach
  same {us : Tokens} : us.Lexed → us.AgreesBelow ts (max i (p ts i).reach) → p us i = p ts i
  found {d : Diagnostic} : d ∈ (p ts i).found → ts.Reported low d

/-- The parser does so at every place from `low` on. -/
def Heedful (p : Parser α) (ts : Tokens) (low : Nat) : Prop :=
  ∀ i, low ≤ i → Heeds p ts low i

section
variable {ts : Tokens} {low i : Nat} {p : Parser α}

/-! ### One parser after the other -/

theorem Heeds.bind {f : α → Parser β} (hp : Heeds p ts low i)
    (hf : ∀ {a j ds}, i ≤ j → Runs p ts i a j ds → Heeds (f a) ts low j) :
    Heeds (p >>= f) ts low i := by
  cases h : (p ts i).outcome with
  | error e =>
    have heq := bind_of_error (f := f) h
    refine ⟨?_, ?_, fun hus hagrees => ?_, ?_⟩ <;> rw [heq] at *
    · exact hp.le
    · exact hp.le_reach
    · have hsame := hp.same hus hagrees
      rw [bind_of_error (hsame ▸ h), hsame]
    · exact hp.found
  | ok a =>
    have heq := bind_of_ok (f := f) h
    have hrest := hf hp.le (runs_iff.mpr ⟨h, rfl, rfl⟩)
    have hreach := hp.le_reach
    have hreach' := hrest.le_reach
    refine ⟨?_, ?_, fun hus hagrees => ?_, fun hd => ?_⟩ <;> rw [heq] at *
    · exact Nat.le_trans hp.le hrest.le
    · show (f a ts (p ts i).next).next ≤ max i (max _ _)
      omega
    · have hfirst := hp.same hus (hagrees.mono (by simp only; omega))
      have hsecond := hrest.same hus (hagrees.mono (by simp only; omega))
      rw [bind_of_ok (hfirst ▸ h), hfirst, hsecond]
    · exact (List.mem_append.mp hd).elim hp.found hrest.found

theorem Heedful.bind {f : α → Parser β} (hp : Heedful p ts low) (hf : ∀ a, Heedful (f a) ts low) :
    Heedful (p >>= f) ts low := fun i hlow =>
  (hp i hlow).bind fun hij _ => hf _ _ (Nat.le_trans hlow hij)

/-- What is read first may decide what goes on. -/
theorem Heedful.bindRuns {f : α → Parser β} (hp : Heedful p ts low)
    (hf : ∀ {i a j ds}, low ≤ i → i ≤ j → Runs p ts i a j ds → Heeds (f a) ts low j) :
    Heedful (p >>= f) ts low := fun i hlow => (hp i hlow).bind fun hij hrun => hf hlow hij hrun

theorem heedful_pure {a : α} : Heedful (pure a) ts low := fun _ _ =>
  ⟨Nat.le_refl _, Nat.le_max_left _ _, fun _ _ => rfl, nofun⟩

theorem Heedful.map {f : α → β} (h : Heedful p ts low) : Heedful (f <$> p) ts low :=
  h.bind fun _ => heedful_pure

theorem Heedful.ite {c : Prop} [Decidable c] {q : Parser α} (hp : Heedful p ts low)
    (hq : Heedful q ts low) : Heedful (if c then p else q) ts low := by
  split
  · exact hp
  · exact hq

theorem heedful_fail {f : Failure} : Heedful (fail f : Parser α) ts low := fun _ _ =>
  ⟨Nat.le_refl _, Nat.le_max_left _ _, fun _ _ => rfl, nofun⟩

theorem heeds_report {d : Diagnostic} (h : ts.Reported low d) : Heeds (report d) ts low i :=
  ⟨Nat.le_refl _, Nat.le_max_left _ _, fun _ _ => rfl, fun hd => List.mem_singleton.mp hd ▸ h⟩

/-- A check of what was read before, and what goes on behind it. -/
theorem Heeds.bindCheck {q : Parser Unit} (hlow : low ≤ i) (hq : Heeds q ts low i)
    (hp : Heedful p ts low) : Heeds (do q; p) ts low i :=
  hq.bind fun hij _ => hp _ (Nat.le_trans hlow hij)

/-! ### Single tokens -/

theorem heedful_peek {ahead : Nat} : Heedful (peek ahead) ts low := by
  intro i _
  refine ⟨Nat.le_refl i, Nat.le_max_left _ _, fun {us} _ hagrees => ?_, nofun⟩
  have hget : us.get (i + ahead) = ts.get (i + ahead) :=
    hagrees _ (Nat.lt_of_lt_of_le (Nat.lt_succ_self _) (Nat.le_max_right _ _))
  unfold peek
  rw [hget]

theorem heedful_current : Heedful current ts low := heedful_peek

theorem heedful_previous : Heedful previous ts low := by
  intro i _
  cases i with
  | zero => exact ⟨Nat.le_refl _, Nat.le_max_left _ _, fun _ _ => rfl, nofun⟩
  | succ i =>
    refine ⟨Nat.le_refl _, Nat.le_max_left _ _, fun {us} _ hagrees => ?_, nofun⟩
    have hget : us.get i = ts.get i :=
      hagrees i (Nat.lt_of_lt_of_le (Nat.lt_succ_self i) (Nat.le_max_left _ _))
    unfold previous
    simp only [hget]

theorem advance_eq (ts : Tokens) (i : Nat) : advance ts i =
    match ts.get i with
    | .error e => ⟨.error (.lex e), i, [], i + 1⟩
    | .ok t => ⟨.ok t, if t.isEof then i else i + 1, [], i + 1⟩ := by
  cases hget : ts.get i with
  | error e =>
    have hcurrent := current_of_fault hget
    unfold advance
    rw [bind_of_error (congrArg Parsed.outcome hcurrent), hcurrent]
  | ok t =>
    have hcurrent := current_of_at hget
    unfold advance
    rw [bind_of_ok (congrArg Parsed.outcome hcurrent), hcurrent]
    by_cases heof : t.isEof = true <;> simp only [heof, if_true] <;> rfl

/-- A token is passed only when it has been looked at. -/
theorem heedful_advance : Heedful advance ts low := by
  intro i _
  have hreach : (advance ts i).reach = i + 1 := by rw [advance_eq]; split <;> rfl
  have hnext : i ≤ (advance ts i).next ∧ (advance ts i).next ≤ i + 1 := by
    rw [advance_eq]
    split
    · simp
    · simp only; split_ifs <;> omega
  refine ⟨hnext.1, ?_, fun {us} _ hagrees => ?_, fun hd => ?_⟩
  · rw [hreach]
    exact Nat.le_trans hnext.2 (Nat.le_max_right _ _)
  · rw [hreach] at hagrees
    have hget : us.get i = ts.get i :=
      hagrees i (Nat.lt_of_lt_of_le (Nat.lt_succ_self i) (Nat.le_max_right _ _))
    rw [advance_eq, advance_eq, hget]
  · rw [advance_eq] at hd
    split at hd <;> cases hd

theorem heedful_sees {k : Kind} : Heedful (sees k) ts low := heedful_current.map

theorem heedful_seesAny {ks : List Kind} : Heedful (seesAny ks) ts low := heedful_current.map

theorem heedful_accept {k : Kind} : Heedful (accept k) ts low :=
  heedful_sees.bind fun _ => .ite heedful_advance.map heedful_pure

theorem heedful_failHere {fault : ParseFault} : Heedful (failHere fault : Parser α) ts low := by
  refine Heedful.bind (heedful_current.bind fun t => ?_) fun _ => heedful_fail
  split <;> exact heedful_pure

theorem heedful_expectAs {k : Kind} {w : Wanted} : Heedful (expectAs k w) ts low :=
  heedful_sees.bind fun _ => .ite heedful_advance heedful_failHere

theorem heedful_expectSemicolon : Heedful expectSemicolon ts low :=
  heedful_current.bind fun _ => .ite heedful_advance heedful_fail

theorem heedful_opening : Heedful opening ts low := by
  refine heedful_current.bind fun t => ?_
  split
  · exact heedful_pure
  · split
    · exact heedful_peek.map
    · split
      · exact heedful_peek.map
      · exact heedful_pure

/-! ### Repetitions

The count of a repetition is given by the tokens. A round that reads something takes a token, so
that the count lasts on all tokens that agree up to there; this is taken from the walks. -/

theorem Heeds.congr {q : Parser α} (hlexed : ts.Lexed) (h : Heeds q ts low i)
    (heq : ∀ {us : Tokens}, us.Lexed → us.AgreesBelow ts i → p us i = q us i) :
    Heeds p ts low i := by
  have hts : p ts i = q ts i := heq hlexed fun _ _ => rfl
  refine ⟨hts ▸ h.le, hts ▸ h.le_reach, fun hus hagrees => ?_, fun hd => h.found (hts ▸ hd)⟩
  rw [hts] at hagrees ⊢
  rw [heq hus (hagrees.mono (Nat.le_max_left _ _)), h.same hus hagrees]

section
variable {deep : Prop} (hlexed : ts.Lexed)
include hlexed

/-- The rounds of a chain. What is known of the value grows with it. -/
theorem heeds_chainFrom {known : α → Nat → Prop} {grow? : α → Parser (Option α)}
    (hround : ∀ a {i}, known a i → low ≤ i → Heeds (grow? a) ts low i)
    (hknown : ∀ {a i b j ds}, known a i → low ≤ i → Runs (grow? a) ts i (some b) j ds → known b j)
    (hwalks : ∀ a {i}, Walks deep 0 (grow? a) ts i [] [] (fun b? j => b?.isSome → i < j))
    (a : α) {i k : Nat} (ha : known a i) (hlow : low ≤ i) (hpassed : ts.Passed k i) :
    Heeds (chainFrom grow? k a) ts low i := by
  refine Heeds.congr hlexed ((hround a ha hlow).bind fun {b? j ds} hij hrun => ?_)
    fun hus hagrees => chainFrom_eq a (hpassed.le_size hus hagrees)
  have hlow' := Nat.le_trans hlow hij
  cases b? with
  | none => exact heedful_pure _ hlow'
  | some b =>
    obtain ⟨hok, rfl, -⟩ := runs_iff.mp hrun
    obtain ⟨hwalked, hlt⟩ := (hwalks a).ok hok
    have hsize := hwalked.walk.le_size hlexed (hlt rfl)
    have hlt := hlt rfl
    exact heeds_chainFrom hround hknown hwalks b (hknown ha hlow hrun) hlow'
      (hpassed.succ hwalked.walk hlt)
termination_by ts.items.size - i

theorem heeds_chain {known : α → Nat → Prop} {grow? : α → Parser (Option α)}
    (hround : ∀ a {i}, known a i → low ≤ i → Heeds (grow? a) ts low i)
    (hknown : ∀ {a i b j ds}, known a i → low ≤ i → Runs (grow? a) ts i (some b) j ds → known b j)
    (hwalks : ∀ a {i}, Walks deep 0 (grow? a) ts i [] [] (fun b? j => b?.isSome → i < j))
    (a : α) (ha : known a i) (hlow : low ≤ i) : Heeds (chain grow? a) ts low i :=
  heeds_chainFrom hlexed hround hknown hwalks a ha hlow .zero

theorem heedful_collectFrom {item? : Parser (Option α)} (hround : Heedful item? ts low)
    (hwalks : ∀ {i}, Walks deep 0 item? ts i [] [] (fun a? j => a?.isSome → i < j))
    {i k : Nat} (hlow : low ≤ i) (hpassed : ts.Passed k i) :
    Heeds (collectFrom item? k) ts low i := by
  refine Heeds.congr hlexed ((hround i hlow).bind fun {a? j ds} hij hrun => ?_)
    fun hus hagrees => collectFrom_eq (hpassed.le_size hus hagrees)
  have hlow' := Nat.le_trans hlow hij
  cases a? with
  | none => exact heedful_pure _ hlow'
  | some a =>
    obtain ⟨hok, rfl, -⟩ := runs_iff.mp hrun
    obtain ⟨hwalked, hlt⟩ := hwalks.ok hok
    have hsize := hwalked.walk.le_size hlexed (hlt rfl)
    have hlt := hlt rfl
    have hrest := heedful_collectFrom hround hwalks hlow' (hpassed.succ hwalked.walk hlt)
    exact hrest.bind fun hjk _ => heedful_pure _ (Nat.le_trans hlow' hjk)
termination_by ts.items.size - i

theorem heedful_collect {item? : Parser (Option α)} (hround : Heedful item? ts low)
    (hwalks : ∀ {i}, Walks deep 0 item? ts i [] [] (fun a? j => a?.isSome → i < j)) :
    Heedful (collect item?) ts low := fun _ hlow =>
  heedful_collectFrom hlexed hround hwalks hlow .zero

section
variable {item : Parser α} (hitem : Heedful item ts low)
  (hwalks : ∀ {i}, Walks deep 0 item ts i [] [] (fun _ j => i < j))
include hitem hwalks

theorem heedful_more : Heedful (more item) ts low := by
  exact heedful_collect hlexed (heedful_accept.bind fun _ => .ite hitem.map heedful_pure)
    fun {_} => walks_moreRound hwalks

theorem heedful_separated : Heedful (separated item) ts low :=
  hitem.bind fun _ => (heedful_more hlexed hitem hwalks).map

end

end

end

end Parser

end CommandShell
