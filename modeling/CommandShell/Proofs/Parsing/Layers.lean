import CommandShell.Proofs.Parsing.Depth
import CommandShell.Proofs.Parsing.Precedence
import CommandShell.Proofs.Phrases.Ranks

/-! # Layers: a chain of operators as a grammar of ten powers

The rule of a chain of operators reads all powers in one repetition, and calls itself for what binds
tighter on the right. A grammar with one rule for each power reads the same: on a layer stand
operands of the next tighter layer with operators of one power between them, and below the tightest
layer stand signs and steps before an operand (`layers`).

Both read any input alike, whether they succeed or fail (`binary_of_layers`). The chain of one power
and above is the chain of what is tighter, and then a repetition of that power alone
(`operators_split`): a right operand is read by the tighter chain in both, and where it stops, no
operator that is tighter is left. -/

namespace CommandShell

open CommandShell.Parser

namespace Grammar

/-! ### The grammar of ten powers -/

/-- An operator and its right operand. -/
def operation (operand : Parser Expr) (left : Expr) : Parser (Option Expr) := do
  let op ← advance
  let right ← operand
  return some (.binary left op right)

/-- One more operator of the power, with its right operand. -/
def layerRound (operand : Parser Expr) (power : Nat) (left : Expr) : Parser (Option Expr) := do
  let t ← current
  if t.kind.precedence? = some power then operation operand left else return none

/-- Operands with operators of one power between them. -/
def layer (operand : Parser Expr) (power : Nat) : Parser Expr := do
  let left ← operand
  chain (layerRound operand power) left

/-- The layers of the tightest powers, from ten down, over the operands with signs. -/
def layers (signed : Parser Expr) : Nat → Parser Expr
  | 0 => signed
  | count + 1 => layer (layers signed count) (10 - count)

end Grammar

namespace Parser

variable {α β : Type} {ts : Tokens} {i : Nat}

/-! ### Parsers at one place -/

theorem bind_congr_left {p q : Parser α} (h : p ts i = q ts i) (f : α → Parser β) :
    (p >>= f) ts i = (q >>= f) ts i := by
  cases hq : (q ts i).outcome with
  | error e => rw [bind_of_error (h ▸ hq), bind_of_error hq, h]
  | ok a => rw [bind_of_ok (h ▸ hq), bind_of_ok hq, h]

/-- What goes on behind a parser matters only where the parser stops. -/
theorem bind_congr_right {p : Parser α} {f g : α → Parser β}
    (h : ∀ {a j ds}, Runs p ts i a j ds → f a ts j = g a ts j) :
    (p >>= f) ts i = (p >>= g) ts i := by
  cases hp : (p ts i).outcome with
  | error e => rw [bind_of_error hp, bind_of_error hp]
  | ok a => rw [bind_of_ok hp, bind_of_ok hp, h (runs_iff.mpr ⟨hp, rfl, rfl⟩)]

/-- Looking at the token at the place twice is looking at it once. -/
theorem current_twice (f : Token → Parser α) :
    (do let _ ← current; current >>= f : Parser α) ts i = (current >>= f) ts i := by
  cases hget : ts.get i with
  | error e =>
    have hcurrent := congrArg Parsed.outcome (current_of_fault hget)
    rw [bind_of_error hcurrent, bind_of_error hcurrent]
  | ok t =>
    have hcurrent := current_of_at hget
    have hok := congrArg Parsed.outcome hcurrent
    rw [bind_of_ok hok, hcurrent]
    simp only
    rw [bind_of_ok hok, hcurrent, List.nil_append, List.nil_append, ← Nat.max_assoc, Nat.max_self]

/-- A token that is known is known to what goes on with it. -/
theorem bindCurrent_of_at {t : Token} (ht : ts.At i t) (f : Token → Parser α) :
    (current >>= f) ts i = (do let _ ← current; f t : Parser α) ts i :=
  bind_congr_right fun hrun => by rw [(runs_current.mp hrun).1.unique ht]

/-! ### Looking at the token where a parser stops -/

/-- Where the parser succeeds, it has looked at the token at which it stops. -/
def Looks (p : Parser α) (ts : Tokens) : Prop :=
  ∀ i a, (p ts i).outcome = .ok a →
    (∃ t, ts.At (p ts i).next t) ∧ (p ts i).next < (p ts i).reach

theorem Looks.behind {f : α → Parser β} (hf : ∀ a, Looks (f a) ts) (p : Parser α) :
    Looks (p >>= f) ts := by
  intro i b hb
  cases hp : (p ts i).outcome with
  | error e =>
    rw [bind_of_error hp] at hb
    cases hb
  | ok a =>
    rw [bind_of_ok hp] at hb ⊢
    obtain ⟨hat, hlt⟩ := hf a _ b hb
    exact ⟨hat, Nat.lt_of_lt_of_le hlt (Nat.le_max_right _ _)⟩

/-- What stays where it is looks at nothing new. -/
theorem Looks.stay {p : Parser α} {f : α → Parser β} (hp : Looks p ts)
    (hf : ∀ a j, (f a ts j).next = j) : Looks (p >>= f) ts := by
  intro i b hb
  cases ha : (p ts i).outcome with
  | error e =>
    rw [bind_of_error ha] at hb
    cases hb
  | ok a =>
    rw [bind_of_ok ha, hf]
    obtain ⟨hat, hlt⟩ := hp i a ha
    exact ⟨hat, Nat.lt_of_lt_of_le hlt (Nat.le_max_left _ _)⟩

/-- Looking once more at the token where it stops adds nothing. -/
theorem Looks.bind_current {p : Parser α} (hp : Looks p ts) (i : Nat) :
    (do let a ← p; let _ ← current; return a : Parser α) ts i = p ts i := by
  cases ha : (p ts i).outcome with
  | error e => rw [bind_of_error ha, ← ha]
  | ok a =>
    obtain ⟨⟨t, ht⟩, hlt⟩ := hp i a ha
    have hcurrent := current_of_at ht
    rw [bind_of_ok ha, bind_of_ok (congrArg Parsed.outcome hcurrent), hcurrent]
    show (⟨.ok a, (p ts i).next, (p ts i).found ++ ([] ++ []),
      max (p ts i).reach (max ((p ts i).next + 1) 0)⟩ : Parsed α) = p ts i
    rw [← ha, List.append_nil, List.append_nil, Nat.max_eq_left (by omega)]

theorem Looks.map {p : Parser α} (hp : Looks p ts) (f : α → β) : Looks (f <$> p) ts :=
  hp.stay fun _ _ => rfl

/-- A token that is not of the kind is left, but it has been looked at. -/
theorem looks_bindSees {k : Kind} {p : Parser α} {a : α} (hp : Looks p ts) :
    Looks (do if ← sees k then p else return a) ts := by
  intro i b hb
  cases hget : ts.get i with
  | error e =>
    have hcurrent := congrArg Parsed.outcome (current_of_fault hget)
    unfold sees at hb
    rw [bind_bind, bind_of_error hcurrent] at hb
    cases hb
  | ok t =>
    have hcurrent := current_of_at hget
    have hok := congrArg Parsed.outcome hcurrent
    unfold sees at hb ⊢
    rw [bind_bind, bind_of_ok hok, hcurrent, pure_bind] at hb ⊢
    simp only at hb ⊢
    split_ifs at hb ⊢ with hk
    · obtain ⟨hat, hlt⟩ := hp i b hb
      exact ⟨hat, Nat.lt_of_lt_of_le hlt (Nat.le_max_right _ _)⟩
    · exact ⟨⟨t, hget⟩, Nat.lt_of_lt_of_le (Nat.lt_succ_self i) (Nat.le_max_left _ _)⟩

/-! ### Repetitions -/

/-- How a repetition goes on behind a round. -/
def goOn (again : α → Parser α) (a : α) : Option α → Parser α
  | none => return a
  | some b => again b

/-- Rounds that do the same at each place make the same repetition. -/
theorem chain_congr {grow? grow?' : α → Parser (Option α)}
    (h : ∀ a j, grow? a ts j = grow?' a ts j) (a : α) (i : Nat) :
    chain grow? a ts i = chain grow?' a ts i := by
  have hupTo : ∀ (rounds : Nat) (a : α) (i : Nat),
      chainUpTo grow? rounds a ts i = chainUpTo grow?' rounds a ts i := by
    intro rounds
    induction rounds with
    | zero => exact fun _ _ => rfl
    | succ rounds ih =>
      intro a i
      refine (bind_congr_left (h a i) _).trans (bind_congr_right fun {b? j ds} _ => ?_)
      cases b? with
      | none => rfl
      | some b => exact ih b j
  exact hupTo _ a i

section
variable {deep : Prop} {grow? : α → Parser (Option α)} (hlexed : ts.Lexed)
  (hwalks : ∀ a {j}, Walks deep 0 (grow? a) ts j [] [] (fun b? k => b?.isSome → j < k))
include hlexed hwalks

theorem advances_of_walks {a b : α} {k : Nat} {ds : List Diagnostic}
    (hrun : Runs (grow? a) ts i (some b) k ds) : i < k ∧ k ≤ ts.items.size := by
  obtain ⟨hok, rfl, -⟩ := runs_iff.mp hrun
  obtain ⟨hwalked, hlt⟩ := (hwalks a).ok hok
  exact ⟨hlt rfl, hwalked.walk.le_size hlexed (hlt rfl)⟩

/-- How many rounds are left does not matter if they are more than the tokens that are left. -/
theorem chainUpTo_congr : ∀ {rounds rounds' i : Nat} (a : α), ts.items.size - i < rounds →
    ts.items.size - i < rounds' →
      chainUpTo grow? rounds a ts i = chainUpTo grow? rounds' a ts i
  | 0, _, _, _, h, _ => absurd h (Nat.not_lt_zero _)
  | _ + 1, 0, _, _, _, h => absurd h (Nat.not_lt_zero _)
  | rounds + 1, rounds' + 1, i, a, h, h' => by
    refine bind_congr_right fun {b? k ds} hrun => ?_
    cases b? with
    | none => rfl
    | some b =>
      obtain ⟨hlt, hsize⟩ := advances_of_walks hlexed hwalks hrun
      exact chainUpTo_congr b (by omega) (by omega)

/-- A repetition is a round, and the repetition again if there was one. -/
theorem chain_eq (a : α) (i : Nat) :
    chain grow? a ts i = (grow? a >>= goOn (chain grow?) a) ts i := by
  refine bind_congr_right fun {b? k ds} hrun => ?_
  cases b? with
  | none => rfl
  | some b =>
    obtain ⟨hlt, hsize⟩ := advances_of_walks hlexed hwalks hrun
    exact chainUpTo_congr hlexed hwalks b (by omega) (by omega)

end

end Parser

namespace Grammar

/-! ### Rounds of operators -/

section
variable {call : Call} {operand : Parser Expr} {ts : Tokens} {i power : Nat} {left : Expr}

/-- At a token that is no operator of the power the chain stops. -/
theorem binaryRound_of_loose (h : ∀ t, ts.At i t → ∀ p ∈ t.kind.precedence?, p < power) :
    binaryRound call power left ts i =
      (do let _ ← current; return none : Parser (Option Expr)) ts i := by
  refine bind_congr_right fun {t j ds} hrun => ?_
  obtain ⟨ht, rfl, -⟩ := runs_current.mp hrun
  cases hp : t.kind.precedence? with
  | none => rfl
  | some p => exact congrArg (fun q : Parser (Option Expr) => q ts j) (if_pos (h t ht p hp))

theorem binaryRound_of_tight {t : Token} {p : Nat} (ht : ts.At i t)
    (hp : t.kind.precedence? = some p) (hle : power ≤ p) : binaryRound call power left ts i =
      (do
        let _ ← current
        operation (call (.binary (p + 1))) left : Parser (Option Expr)) ts i := by
  refine (bindCurrent_of_at ht _).trans (bind_congr_right fun _ => ?_)
  rw [hp]
  exact congrArg (fun q : Parser (Option Expr) => q ts _) (if_neg (Nat.not_lt.mpr hle))

theorem layerRound_of_ne (h : ∀ t, ts.At i t → t.kind.precedence? ≠ some power) :
    layerRound operand power left ts i =
      (do let _ ← current; return none : Parser (Option Expr)) ts i := by
  refine bind_congr_right fun {t j ds} hrun => ?_
  obtain ⟨ht, rfl, -⟩ := runs_current.mp hrun
  rw [if_neg (h t ht)]

theorem layerRound_of_eq {t : Token} (ht : ts.At i t) (hp : t.kind.precedence? = some power) :
    layerRound operand power left ts i =
      (do let _ ← current; operation operand left : Parser (Option Expr)) ts i := by
  refine (bindCurrent_of_at ht _).trans (bind_congr_right fun _ => ?_)
  rw [if_pos hp]

theorem walks_layerRound {deep : Prop} {low : Nat} {σ : List Kind}
    (hoperand : ∀ {i}, low ≤ i → Walks deep low operand ts i σ σ (fun _ j => i < j))
    (hlow : low ≤ i) : Walks deep low (layerRound operand power left) ts i σ σ
      (fun e? j => e?.isSome → i < j) := by
  refine walks_bindCurrent fun t ht => .ite (fun hp => ?_) fun _ => walks_pure nofun
  refine walks_bindAdvance ht (turn_of_precedence hp σ) ?_
  exact (hoperand (by omega)).bind fun right j hij => walks_pure fun _ => by omega

theorem layerRound_congr {operand operand' : Parser Expr}
    (h : ∀ j, operand ts j = operand' ts j) (power : Nat) (left : Expr) (i : Nat) :
    layerRound operand power left ts i = layerRound operand' power left ts i := by
  refine bind_congr_right fun {t j ds} _ => ?_
  split_ifs
  · exact bind_congr_right fun _ => bind_congr_left (h _) _
  · rfl

/-- Layers over operands that read the same read the same. -/
theorem layer_congr {operand operand' : Parser Expr} (h : ∀ j, operand ts j = operand' ts j)
    {power : Nat} (i : Nat) : layer operand power ts i = layer operand' power ts i :=
  (bind_congr_left (h i) _).trans (bind_congr_right fun _ =>
    chain_congr (layerRound_congr h power) _ _)

theorem layers_congr {signed signed' : Parser Expr} (h : ∀ j, signed ts j = signed' ts j) :
    ∀ count i, layers signed count ts i = layers signed' count ts i
  | 0 => h
  | count + 1 => layer_congr (layers_congr h count)

end

/-! ### The token behind an operand with signs -/

/-- Where signs and steps before an operand, and `**`, are read, the token behind was looked at. -/
theorem looks_parse (ts : Tokens) : ∀ levels : Nat,
    Looks (parse levels .unary) ts ∧ Looks (parse levels .power) ts
  | 0 => ⟨nofun, nofun⟩
  | levels + 1 => by
    obtain ⟨hunary, hpower⟩ := looks_parse ts levels
    have hsign : Looks (do
        let op ← advance
        let operand ← parse levels .unary
        return Expr.unary op operand) ts := .behind (fun _ => hunary.map _) _
    have hstep : ∀ step, Looks (stepBefore (fun rule => parse levels rule) step) ts := by
      refine fun step => .behind (fun _ => hunary.stay fun operand j => ?_) _
      unfold checkTarget
      split_ifs <;> rfl
    refine ⟨.behind (fun t => ?_) current, .behind (fun base => ?_) _⟩
    · split
      · exact hsign
      · exact hsign
      · exact hsign
      · exact hstep .up
      · exact hstep .down
      · exact hpower
    · exact looks_bindSees (.behind (fun _ => hunary.map _) _)

/-! ### One chain and two repetitions -/

/-- The operators of at least the power behind an operand. -/
def operators (levels power : Nat) : Expr → Parser Expr :=
  chain (binaryRound (fun rule => parse levels rule) power)

/-- The operators of one power behind an operand. -/
def operatorsOf (levels power : Nat) : Expr → Parser Expr :=
  chain (layerRound (parse levels (.binary (power + 1))) power)

section
variable {ts : Tokens} {levels : Nat}

/-- Where a chain of operators stops, no operator of its power stands. -/
theorem stops_of_parse {power i j : Nat} {e : Expr} {ds : List Diagnostic}
    (hrun : Runs (parse levels (.binary power)) ts i e j ds) :
    ∀ t, ts.At j t → ∀ p ∈ t.kind.precedence?, p < power := by
  have hfits : (Rule.binary power).Fits ts i := trivial
  exact (ordered_of_runs hfits hrun).stops

variable (hlexed : ts.Lexed)
include hlexed

theorem operators_eq (power : Nat) (left : Expr) (i : Nat) : operators levels power left ts i =
    (binaryRound (fun rule => parse levels rule) power left >>=
      goOn (operators levels power) left) ts i :=
  chain_eq hlexed (fun left {_} =>
    walks_binaryRound (walks_parse hlexed levels) (Nat.zero_le _) power left) left i

theorem operatorsOf_eq (power : Nat) (left : Expr) (i : Nat) : operatorsOf levels power left ts i =
    (layerRound (parse levels (.binary (power + 1))) power left >>=
      goOn (operatorsOf levels power) left) ts i := by
  have hready : ∀ i, (Rule.binary (power + 1)).Ready ts i := fun _ => trivial
  exact chain_eq hlexed (fun left {_} => walks_layerRound (fun {i} hlow =>
    walks_parse hlexed levels (.binary (power + 1)) [] (hready i) hlow) (Nat.zero_le _)) left i

/-- Where nothing binds as tightly as the power, a chain ends. -/
theorem operators_of_loose {power i : Nat} {left : Expr}
    (h : ∀ t, ts.At i t → ∀ p ∈ t.kind.precedence?, p < power) :
    operators levels power left ts i = (do let _ ← current; return left : Parser Expr) ts i := by
  rw [operators_eq hlexed, bind_congr_left (binaryRound_of_loose h), bind_bind]
  rfl

theorem operatorsOf_of_ne {power i : Nat} {left : Expr}
    (h : ∀ t, ts.At i t → t.kind.precedence? ≠ some power) :
    operatorsOf levels power left ts i = (do let _ ← current; return left : Parser Expr) ts i := by
  rw [operatorsOf_eq hlexed, bind_congr_left (layerRound_of_ne h), bind_bind]
  rfl

/-- Where nothing is tighter than the power, the tighter chain leaves all to the power itself. -/
theorem operatorsOf_of_loose {power i : Nat} {left : Expr}
    (h : ∀ t, ts.At i t → ∀ p ∈ t.kind.precedence?, p < power + 1) :
    (operators levels (power + 1) left >>= operatorsOf levels power) ts i =
      operatorsOf levels power left ts i := by
  have hround : ∀ j, operatorsOf levels power left ts j = (current >>= fun t =>
      (if t.kind.precedence? = some power then
        operation (parse levels (.binary (power + 1))) left else return none) >>=
      goOn (operatorsOf levels power) left) ts j := by
    intro j
    rw [operatorsOf_eq hlexed, layerRound, bind_bind]
  rw [bind_congr_left (operators_of_loose hlexed h), bind_bind]
  calc (do let _ ← current; operatorsOf levels power left : Parser Expr) ts i
    _ = _ := bind_congr_right fun {_ j _} _ => hround j
    _ = _ := current_twice _
    _ = _ := (hround i).symm

/-- What an operator makes of its left operand. -/
theorem runs_operation {power i j : Nat} {t : Token} {left : Expr} {e? : Option Expr}
    {ds : List Diagnostic} (ht : ts.At i t) (hk : t.kind ≠ .eof)
    (hrun : Runs (do let _ ← current; operation (parse levels (.binary power)) left) ts i e? j ds) :
    i < j ∧ j ≤ ts.items.size ∧ ∃ right,
      Runs (parse levels (.binary power)) ts (i + 1) right j ds ∧
        e? = some (.binary left t right) := by
  obtain ⟨-, -, hoperation⟩ := runs_bindCurrent.mp hrun
  obtain ⟨right, hright, rfl⟩ := runs_bindPure.mp ((runs_bindAdvance ht hk).mp hoperation)
  obtain ⟨hok, rfl, -⟩ := runs_iff.mp hright
  have hready : (Rule.binary power).Ready ts (i + 1) := trivial
  obtain ⟨hwalked, hlt⟩ := (walks_parse hlexed levels _ [] hready (Nat.zero_le _)).ok hok
  exact ⟨Nat.lt_of_succ_lt hlt, hwalked.walk.le_size hlexed hlt, right, hright, rfl⟩

/-- **A chain of operators is the chain of those that are tighter, and a repetition of those of its
own power.** -/
theorem operators_split (power : Nat) (left : Expr) (i : Nat) : operators levels power left ts i =
    (operators levels (power + 1) left >>= operatorsOf levels power) ts i := by
  by_cases hloose : ∀ t, ts.At i t → ∀ p ∈ t.kind.precedence?, p < power
  · rw [operators_of_loose hlexed hloose, operatorsOf_of_loose hlexed, operatorsOf_of_ne hlexed]
    · intro t ht hp
      exact absurd (hloose t ht power hp) (Nat.lt_irrefl power)
    · intro t ht p hp
      exact Nat.lt_succ_of_lt (hloose t ht p hp)
  · obtain ⟨t, ht, p, hp, hle⟩ : ∃ t, ts.At i t ∧ ∃ p, t.kind.precedence? = some p ∧ power ≤ p := by
      simpa using hloose
    have hk := kind_ne_eof_of_precedence hp
    rw [operators_eq hlexed, bind_congr_left (binaryRound_of_tight ht hp hle)]
    rcases Nat.eq_or_lt_of_le hle with rfl | hlt
    · -- The operator is of the power itself: the tighter chain ends before it.
      rw [operatorsOf_of_loose hlexed, operatorsOf_eq hlexed,
        bind_congr_left (layerRound_of_eq ht hp)]
      · refine bind_congr_right fun hrun => ?_
        obtain ⟨hij, hj, right, hright, rfl⟩ := runs_operation hlexed ht hk hrun
        exact (operators_split power _ _).trans
          (operatorsOf_of_loose hlexed (stops_of_parse hright))
      · intro u hu q hq
        cases ht.unique hu
        cases hp.symm.trans hq
        exact Nat.lt_succ_self power
    · -- The operator is tighter, and is taken by the tighter chain.
      have htight : operators levels (power + 1) left ts i = _ :=
        operators_eq hlexed (power + 1) left i
      rw [bind_congr_left (binaryRound_of_tight ht hp hlt)] at htight
      refine Eq.trans ?_ ((bind_congr_left htight _).trans (congrFun₂ (bind_bind ..) ts i)).symm
      refine bind_congr_right fun hrun => ?_
      obtain ⟨hij, hj, right, -, rfl⟩ := runs_operation hlexed ht hk hrun
      exact operators_split power _ _
termination_by ts.items.size - i

end

/-! ### Without a limit on the nesting -/

section
variable {ts : Tokens} {levels : Nat} (hlexed : ts.Lexed)
  (henough : 14 * (ts.items.size + 1) ≤ levels)
include hlexed henough

/-- With enough levels for the tokens no reading is stopped by the nesting. -/
theorem not_deep_parse {α : Type} (rule : Rule α) (i : Nat) {f : Failure}
    (h : (parse levels rule ts i).outcome = .error f) : ¬ f.IsDeep := by
  have hrank := rule.rank_bounds
  exact (shallow_parse hlexed levels rule (by omega)).at.not_deep h

/-- More levels than enough for the tokens change nothing. -/
theorem parse_of_le {levels' : Nat} (hle : levels ≤ levels') {α : Type} (rule : Rule α) (i : Nat) :
    parse levels rule ts i = parse levels' rule ts i := by
  rcases parse_under hle rule ts i with heq | ⟨hfail, -⟩
  · exact heq
  · exact absurd trivial (not_deep_parse hlexed henough rule i hfail)

/-- A chain of operators begins with an operand, and calls itself for right operands. -/
theorem parse_binary (power i : Nat) : parse levels (.binary power) ts i =
    (parse levels .unary >>= operators levels power) ts i :=
  parse_of_le hlexed henough (Nat.le_succ levels) _ i

/-- Above the tightest power nothing is left to a chain but its operand. -/
theorem parse_tightest (i : Nat) :
    parse levels (.binary 11) ts i = parse levels .unary ts i := by
  rw [parse_binary hlexed henough]
  refine (bind_congr_right fun {left j ds} _ => operators_of_loose hlexed fun t _ p hp => ?_).trans
    ((looks_parse ts levels).1.bind_current i)
  exact Nat.lt_succ_of_le (precedence_bounds hp).2

/-- A chain is a layer over the chain of the next tighter power. -/
theorem parse_layer (power i : Nat) : parse levels (.binary power) ts i =
    layer (parse levels (.binary (power + 1))) power ts i := by
  calc parse levels (.binary power) ts i
    _ = (parse levels .unary >>= operators levels power) ts i := parse_binary hlexed henough _ _
    _ = (parse levels .unary >>= fun left =>
          operators levels (power + 1) left >>= operatorsOf levels power) ts i :=
        bind_congr_right fun _ => operators_split hlexed _ _ _
    _ = ((parse levels .unary >>= operators levels (power + 1)) >>=
          operatorsOf levels power) ts i := (congrFun₂ (bind_bind ..) ts i).symm
    _ = (parse levels (.binary (power + 1)) >>= operatorsOf levels power) ts i :=
        bind_congr_left (parse_binary hlexed henough _ _).symm _

/-- A chain is the layer of its power. -/
theorem parse_layers : ∀ (count i : Nat), count ≤ 10 →
    parse levels (.binary (11 - count)) ts i = layers (parse levels .unary) count ts i
  | 0, i, _ => parse_tightest hlexed henough i
  | count + 1, i, hcount => by
    rw [show 11 - (count + 1) = 10 - count by omega, parse_layer hlexed henough,
      show 10 - count + 1 = 11 - count by omega]
    exact layer_congr (fun j => parse_layers count j (by omega)) i

end

/-- **A chain of operators reads like a grammar of ten powers.** With enough levels for the tokens,
which no nesting uses up, both make the same of any place: the same expression and end, or the same
failure, with the same reports. -/
theorem binary_of_layers {ts : Tokens} (hlexed : ts.Lexed) {levels levels' : Nat}
    (henough : 14 * (ts.items.size + 1) ≤ levels) (henough' : 14 * (ts.items.size + 1) ≤ levels')
    {power : Nat} (hpower : 1 ≤ power) (htop : power ≤ 11) (i : Nat) :
    parse levels (.binary power) ts i = layers (parse levels' .unary) (11 - power) ts i ∧
      ∀ f, (parse levels (.binary power) ts i).outcome = .error f → ¬ f.IsDeep := by
  refine ⟨?_, fun f => not_deep_parse hlexed henough _ i⟩
  obtain ⟨count, hcount, rfl⟩ : ∃ count ≤ 10, power = 11 - count := ⟨11 - power, by omega, by omega⟩
  rw [parse_layers hlexed henough count i hcount, show 11 - (11 - count) = count by omega]
  refine layers_congr (fun j => ?_) count i
  rcases Nat.le_total levels levels' with hle | hle
  · exact parse_of_le hlexed henough hle _ j
  · exact (parse_of_le hlexed henough' hle _ j).symm

/-- A difference, a product in it, and a comparison that the layers of sums leave. -/
theorem binary_of_layers_difference :
    let ts := (Stream.ofText "a - b * c < d").tokens
    parse 112 (.binary 9) ts 0 = layers (parse 126 .unary) 2 ts 0 ∧
      Runs (layers (parse 126 .unary) 2) ts 0 (.binary (.atom ⟨.ident, "a", 1, 1⟩)
        ⟨.minus, "-", 1, 3⟩ (.binary (.atom ⟨.ident, "b", 1, 5⟩) ⟨.star, "*", 1, 7⟩
          (.atom ⟨.ident, "c", 1, 9⟩))) 5 [] := by
  have hlexed := Tokens.lexed_ofChars "a - b * c < d".toList
  obtain ⟨hlayers, -⟩ :=
    @binary_of_layers _ hlexed 112 126 (by decide) (by decide) 9 (by decide) (by decide) 0
  exact ⟨hlayers, _, rfl⟩

end Grammar

end CommandShell
