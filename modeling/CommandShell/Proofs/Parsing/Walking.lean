import CommandShell.Proofs.Parsing.Limits
import CommandShell.Proofs.Parsing.Nesting

/-! # Walking: from token to token

A parser takes the tokens from the place where it begins one after the other. The closers that the
brackets opened on the way wait for are kept on a stack, so that no closer is taken but the one that
is awaited (`Tokens.Walk`). Where it fails, it has walked to a token that it cannot take, and the
failure is about that token or one that it has passed (`Tokens.Stuck`). -/

namespace CommandShell

open CommandShell.Parser

/-! ### Stacks of awaited closers -/

/-- What becomes of the awaited closers when a token of the kind is taken. The end of the input is
never taken, and neither is a closer that is not awaited. -/
def Kind.turn (k : Kind) (σ : List Kind) : Option (List Kind) :=
  if k = .eof then none
  else
    match k.closer? with
    | some closer => some (closer :: σ)
    | none =>
      if k.isCloser then
        match σ with
        | closer :: outer => if closer = k then some outer else none
        | [] => none
      else some σ

namespace Kind

variable {k : Kind} {σ τ : List Kind}

theorem turn_plain (h : k.isPlain = true) (σ : List Kind) : k.turn σ = some σ := by
  simp only [isPlain, Bool.and_eq_true, beq_iff_eq, Bool.not_eq_true', bne_iff_ne] at h
  obtain ⟨⟨hopens, hcloses⟩, hne⟩ := h
  unfold turn
  rw [if_neg hne, hopens, hcloses]
  rfl

theorem turn_closer (h : k.isCloser = true) (σ : List Kind) : k.turn (k :: σ) = some σ := by
  revert h
  cases k <;> simp [turn, isCloser, closer?]

theorem ne_eof_of_turn (h : k.turn σ = some τ) : k ≠ .eof := by
  rintro rfl
  cases h

/-- The stack below does not matter. -/
theorem turn_append (h : k.turn σ = some τ) (outer : List Kind) :
    k.turn (σ ++ outer) = some (τ ++ outer) := by
  have hne := ne_eof_of_turn h
  unfold turn at h ⊢
  rw [if_neg hne] at h ⊢
  split at h
  · cases h; rfl
  · split_ifs at h ⊢ with hcloses
    · split at h
      · next closer σ =>
        split_ifs at h with hk
        cases h
        exact if_pos hk
      · cases h
    · cases h; rfl

end Kind

theorem Brackets.scan_turn {t : Token} {σ τ : List Kind} (h : t.kind.turn σ = some τ)
    (rest : List Token) : scan ⟨σ⟩ (t :: rest) = scan ⟨τ⟩ rest := by
  unfold Kind.turn at h
  rw [if_neg (Kind.ne_eof_of_turn h)] at h
  split at h
  · next closer hopens => cases h; exact scan_opener hopens ⟨σ⟩ rest
  · next hopens =>
    split_ifs at h with hcloses
    · split at h
      · next closer σ =>
        split_ifs at h with hk
        cases h
        rw [hk]
        exact scan_closer hcloses _ rest
      · cases h
    · cases h
      rw [scan, hopens]
      simp [hcloses]

/-! ### Walks -/

namespace Tokens

/-- From the place `i` with the awaited closers `σ` the tokens lead to the place `j` with `τ`. -/
inductive Walk (ts : Tokens) : Nat → List Kind → Nat → List Kind → Prop
  | refl {i σ} : Walk ts i σ i σ
  | step {i σ t ρ j τ} : ts.At i t → t.kind.turn σ = some ρ → Walk ts (i + 1) ρ j τ →
      Walk ts i σ j τ

/-- Two inputs have the same tokens up to an index, that one included. -/
def AgreesTo (us ts : Tokens) (n : Nat) : Prop := ∀ k ≤ n, us.get k = ts.get k

theorem AgreesTo.mono {us ts : Tokens} {m n : Nat} (h : us.AgreesTo ts n) (hmn : m ≤ n) :
    us.AgreesTo ts m := fun k hk => h k (Nat.le_trans hk hmn)

/-- Two inputs have the same tokens below an index. -/
def AgreesBelow (us ts : Tokens) (n : Nat) : Prop := ∀ k < n, us.get k = ts.get k

theorem AgreesBelow.mono {us ts : Tokens} {m n : Nat} (h : us.AgreesBelow ts n) (hmn : m ≤ n) :
    us.AgreesBelow ts m := fun k hk => h k (Nat.lt_of_lt_of_le hk hmn)

theorem AgreesTo.below {us ts : Tokens} {n : Nat} (h : us.AgreesTo ts n) : us.AgreesBelow ts n :=
  fun k hk => h k (Nat.le_of_lt hk)

namespace Walk

variable {ts : Tokens} {i j k : Nat} {σ ρ τ : List Kind}

theorem single {t : Token} (ht : ts.At i t) (hturn : t.kind.turn σ = some τ) :
    ts.Walk i σ (i + 1) τ := .step ht hturn .refl

theorem trans (h : ts.Walk i σ j ρ) (h' : ts.Walk j ρ k τ) : ts.Walk i σ k τ := by
  induction h with
  | refl => exact h'
  | step ht hturn _ ih => exact .step ht hturn (ih h')

theorem le (h : ts.Walk i σ j τ) : i ≤ j := by
  induction h with
  | refl => exact Nat.le_refl _
  | step _ _ _ ih => omega

/-- The stack below does not matter. -/
theorem append (h : ts.Walk i σ j τ) (outer : List Kind) :
    ts.Walk i (σ ++ outer) j (τ ++ outer) := by
  induction h with
  | refl => exact .refl
  | step ht hturn _ ih => exact .step ht (Kind.turn_append hturn outer) ih

/-- The tokens that are passed are there, and none of them is the end. -/
theorem exists_at (h : ts.Walk i σ j τ) : ∀ k, i ≤ k → k < j → ∃ t, ts.At k t ∧ t.kind ≠ .eof := by
  induction h with
  | refl => intro k hik hkj; omega
  | @step i σ t ρ j τ ht hturn _ ih =>
    intro k hik hkj
    rcases Nat.eq_or_lt_of_le hik with rfl | hlt
    · exact ⟨t, ht, Kind.ne_eof_of_turn hturn⟩
    · exact ih k hlt hkj

/-- A walk that moves does not leave the tokens. -/
theorem le_size (hlexed : ts.Lexed) (h : ts.Walk i σ j τ) (hij : i < j) : j ≤ ts.items.size := by
  obtain ⟨t, ht, hk⟩ := h.exists_at (j - 1) (by omega) (by omega)
  have hlt := hlexed.lt_size ht hk
  omega

/-- What the bracket count says of the tokens ahead it says of those behind a walk. -/
theorem scan_eq (hlexed : ts.Lexed) (h : ts.Walk i σ j τ) (rest : List Token) :
    Brackets.scan ⟨σ⟩ (ts.items.toList.drop i ++ rest) =
      Brackets.scan ⟨τ⟩ (ts.items.toList.drop j ++ rest) := by
  induction h with
  | refl => rfl
  | step ht hturn _ ih =>
    rw [hlexed.drop_eq ht (Kind.ne_eof_of_turn hturn), List.cons_append,
      Brackets.scan_turn hturn, ih]

end Walk

/-- At least `k` tokens have been taken up to the place, so that all tokens which agree below it are
that many. -/
structure Passed (ts : Tokens) (k i : Nat) : Prop where
  le : k ≤ i
  le_size {us : Tokens} : us.Lexed → us.AgreesBelow ts i → k ≤ us.items.size

theorem Passed.zero {ts : Tokens} {i : Nat} : ts.Passed 0 i :=
  ⟨Nat.zero_le i, fun _ _ => Nat.zero_le _⟩

theorem Passed.succ {ts : Tokens} {k i j : Nat} {σ τ : List Kind} (h : ts.Passed k i)
    (hwalk : ts.Walk i σ j τ) (hij : i < j) : ts.Passed (k + 1) j where
  le := Nat.lt_of_le_of_lt h.le hij
  le_size hus hagrees := by
    obtain ⟨t, ht, hk⟩ := hwalk.exists_at (j - 1) (by omega) (by omega)
    have hlt := hus.lt_size ((hagrees (j - 1) (by omega)).trans ht) hk
    have hle := h.le
    omega

end Tokens

/-! ### Failures on the way -/

/-- May the fault be about a token of the kind where it cannot be taken? -/
def ParseFault.Arises (k : Kind) : ParseFault → Prop
  | .unexpectedEnd => k = .eof
  | .missingTerminator => k ≠ .semicolon
  | .unexpectedToken | .wanted _ => k ≠ .eof
  | .nestedTooDeeply => True
  | _ => False

/-- Is the fault about a token that was taken before it turned out to be wrong? -/
def ParseFault.isBelated : ParseFault → Bool
  | .constantWithoutValue | .tryWithoutHandler | .strayForwarding _ => true
  | _ => false

/-- From the place `i` with the awaited closers `σ` the tokens lead to where the failure arises. It
is about the token there, or about one that was passed, though not before the place `low`. `deep`
tells if it may be that no level is left. -/
inductive Tokens.Stuck (ts : Tokens) (deep : Prop) (low i : Nat) (σ : List Kind) : Failure → Prop
  | lexical {k τ e} : ts.Walk i σ k τ → ts.get k = .error e → Stuck ts deep low i σ (.lex e)
  | here {k τ t fault} : ts.Walk i σ k τ → ts.At k t → fault.Arises t.kind →
      Stuck ts deep low i σ (.parse ⟨fault, some t⟩)
  | behind {k τ m t fault} : ts.Walk i σ k τ → low ≤ m → m < k → ts.At m t →
      fault.isBelated = true → Stuck ts deep low i σ (.parse ⟨fault, some t⟩)
  | deep : deep → Stuck ts deep low i σ .exhausted

/-- A failure behind a walk. -/
theorem Tokens.Walk.stuck {ts : Tokens} {deep : Prop} {low i j : Nat} {σ ρ : List Kind}
    {f : Failure} (h : ts.Walk i σ j ρ) : ts.Stuck deep low j ρ f → ts.Stuck deep low i σ f
  | .lexical hw he => .lexical (h.trans hw) he
  | .here hw ht hfault => .here (h.trans hw) ht hfault
  | .behind hw hlow hmk ht hfault => .behind (h.trans hw) hlow hmk ht hfault
  | .deep hdeep => .deep hdeep

end CommandShell
