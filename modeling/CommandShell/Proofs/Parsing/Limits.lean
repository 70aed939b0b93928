import CommandShell.Grammar.Basic
import CommandShell.Proofs.Parsing.Runs

/-! # Limits: what more levels change

A reading that does not stop because no level is left is the same with more levels; one that does
has reported a part of what it reports with more (`parse_under`, `enter_of_le`).

A parser is under another if this holds of the two. Every way to build a parser keeps the relation,
and so does every rule, if the rules that it calls are under those that the other calls. -/

namespace CommandShell

open CommandShell.Parser CommandShell.Grammar

/-- The outcomes are the same, or the first stops early because no level is left. -/
def Parsed.Under {α : Type} (r s : Parsed α) : Prop :=
  r = s ∨ r.outcome = .error .exhausted ∧ r.found <+: s.found

namespace Parser

variable {α β : Type}

/-- At each place the outcomes are the same, or the first stops early because no level is left. -/
def Under (p q : Parser α) : Prop := ∀ ts i, (p ts i).Under (q ts i)

theorem Under.refl (p : Parser α) : Under p p := fun _ _ => Or.inl rfl

theorem under_tooDeep (p : Parser α) : Under tooDeep p :=
  fun _ _ => Or.inr ⟨rfl, List.nil_prefix⟩

section
variable {p : Parser α} {f : α → Parser β} {ts : Tokens} {i : Nat}

theorem bind_of_error {e : Failure} (h : (p ts i).outcome = .error e) :
    (p >>= f) ts i = ⟨.error e, (p ts i).next, (p ts i).found, (p ts i).reach⟩ := by
  show Parser.bind p f ts i = _
  simp only [Parser.bind, h]

theorem bind_of_ok {a : α} (h : (p ts i).outcome = .ok a) :
    (p >>= f) ts i = ⟨(f a ts (p ts i).next).outcome, (f a ts (p ts i).next).next,
      (p ts i).found ++ (f a ts (p ts i).next).found,
      max (p ts i).reach (f a ts (p ts i).next).reach⟩ := by
  show Parser.bind p f ts i = _
  simp only [Parser.bind, h]

theorem prefix_found_bind : (p ts i).found <+: ((p >>= f) ts i).found := by
  cases h : (p ts i).outcome with
  | error e => exact ⟨[], by rw [bind_of_error h, List.append_nil]⟩
  | ok a => exact ⟨_, (congrArg Parsed.found (bind_of_ok h)).symm⟩

end

theorem Under.bind {p q : Parser α} {f g : α → Parser β} (hp : Under p q)
    (hf : ∀ a, Under (f a) (g a)) : Under (p >>= f) (q >>= g) := by
  intro ts i
  rcases hp ts i with heq | ⟨hfail, hfound⟩
  · cases h : (q ts i).outcome with
    | error e => rw [bind_of_error h, bind_of_error (heq ▸ h), heq]; exact Or.inl rfl
    | ok a =>
      rw [bind_of_ok h, bind_of_ok (heq ▸ h), heq]
      rcases hf a ts (q ts i).next with heq | ⟨hfail, hfound⟩
      · rw [heq]; exact Or.inl rfl
      · exact Or.inr ⟨hfail, (List.prefix_append_right_inj _).mpr hfound⟩
  · rw [bind_of_error hfail]
    exact Or.inr ⟨rfl, hfound.trans prefix_found_bind⟩

theorem Under.map {p q : Parser α} {f : α → β} (hp : Under p q) : Under (f <$> p) (f <$> q) :=
  hp.bind fun _ => .refl _

theorem Under.ite {c : Prop} [Decidable c] {p q p' q' : Parser α} (hp : Under p p')
    (hq : Under q q') : Under (if c then p else q) (if c then p' else q') := by
  split
  · exact hp
  · exact hq

theorem Under.collect {p q : Parser (Option α)} (hp : Under p q) :
    Under (collect p) (collect q) := by
  have hrounds : ∀ rounds, Under (collectUpTo p rounds) (collectUpTo q rounds) := by
    intro rounds
    induction rounds with
    | zero => exact .refl _
    | succ rounds ih =>
      refine hp.bind fun a? => ?_
      cases a? with
      | none => exact .refl _
      | some a => exact ih.bind fun _ => .refl _
  exact fun ts => hrounds (ts.items.size + 1) ts

theorem Under.chain {p q : α → Parser (Option α)} (hp : ∀ a, Under (p a) (q a)) (a : α) :
    Under (chain p a) (chain q a) := by
  have hrounds : ∀ rounds a, Under (chainUpTo p rounds a) (chainUpTo q rounds a) := by
    intro rounds
    induction rounds with
    | zero => exact fun _ => .refl _
    | succ rounds ih =>
      intro a
      refine (hp a).bind fun b? => ?_
      cases b? with
      | none => exact .refl _
      | some b => exact ih b
  exact fun ts => hrounds (ts.items.size + 1) a ts

theorem Under.more {p q : Parser α} (hp : Under p q) : Under (more p) (more q) :=
  Under.collect ((Under.refl _).bind fun _ => .ite hp.map (.refl _))

theorem Under.separated {p q : Parser α} (hp : Under p q) : Under (separated p) (separated q) :=
  hp.bind fun _ => hp.more.bind fun _ => .refl _

end Parser

namespace Grammar

/-! ### Rules -/

section
variable {call call' : Call} (h : ∀ {α : Type} (rule : Rule α), Under (call rule) (call' rule))
include h

theorem ternary_under : Under (ternary call) (ternary call') :=
  (h .nullish).bind fun _ => (Under.refl _).bind fun _ => .ite
    ((h .expr).bind fun _ => (Under.refl _).bind fun _ => (h .ternary).bind fun _ => .refl _)
    (.refl _)

theorem nullish_under : Under (nullish call) (nullish call') :=
  (h (.binary 1)).bind fun _ => (Under.refl _).bind fun _ => .ite
    ((Under.refl _).bind fun _ => (h .nullish).bind fun _ => .refl _) (.refl _)

theorem binary_under (power : Nat) : Under (binary call power) (binary call' power) := by
  refine (h .unary).bind fun left => Under.chain (fun left => ?_) left
  refine (Under.refl current).bind fun t => ?_
  split
  · exact .refl _
  · exact .ite (.refl _) ((Under.refl _).bind fun _ => (h (.binary _)).bind fun _ => .refl _)

theorem unary_under : Under (unary call) (unary call') := by
  refine (Under.refl current).bind fun t => ?_
  have hstep : ∀ step, Under (stepBefore call step) (stepBefore call' step) := fun _ =>
    (Under.refl _).bind fun _ => (h .unary).bind fun _ => .refl _
  split
  · exact (Under.refl _).bind fun _ => (h .unary).bind fun _ => .refl _
  · exact (Under.refl _).bind fun _ => (h .unary).bind fun _ => .refl _
  · exact (Under.refl _).bind fun _ => (h .unary).bind fun _ => .refl _
  · exact hstep .up
  · exact hstep .down
  · exact h .power

theorem power_under : Under (power call) (power call') :=
  (h .access).bind fun _ => (Under.refl _).bind fun _ => .ite
    ((Under.refl _).bind fun _ => (h .unary).bind fun _ => .refl _) (.refl _)

theorem accessRound_under (target : Expr) :
    Under (accessRound call target) (accessRound call' target) := by
  have hcall : ∀ safe, Under (callAfter call safe target) (callAfter call' safe target) := fun _ =>
    (Under.refl _).bind fun _ => (h (.args .rparen)).bind fun _ => .refl _
  have hindex : ∀ safe, Under (indexAfter call safe target) (indexAfter call' safe target) := by
    intro safe
    refine (Under.refl _).bind fun _ => (Under.refl current).bind fun t => ?_
    exact .ite (.refl _) ((h (.args .rsquare)).bind fun _ => .refl _)
  refine (Under.refl current).bind fun t => ?_
  split
  · exact .refl _
  · exact .refl _
  · exact hcall false
  · exact hcall true
  · exact hindex false
  · exact hindex true
  · exact .refl _
  · exact .refl _
  · exact .refl _

theorem access_under : Under (access call) (access call') :=
  (h .primary).bind fun target => Under.chain (accessRound_under h) target

theorem args_under (closer : Kind) : Under (args call closer) (args call' closer) :=
  (Under.refl _).bind fun _ => .ite
    ((Under.refl _).bind fun _ => (Under.refl _).bind fun _ => .refl _)
    ((h .expr).separated.bind fun _ => (Under.refl _).bind fun _ => .refl _)

theorem primary_under : Under (primary call) (primary call') := by
  refine (Under.refl current).bind fun t => ?_
  split
  all_goals try exact .refl _
  · exact (Under.refl _).bind fun _ => (h .expr).bind fun _ => .refl _
  · exact (Under.refl _).bind fun _ => (h (.args .rsquare)).map
  · exact h .construction
  · exact (Under.refl _).bind fun _ => (h .params).bind fun _ => (h .block).bind fun _ => .refl _

theorem construction_under : Under (construction call) (construction call') := by
  refine (Under.refl _).bind fun keyword => (Under.refl current).bind fun t => ?_
  -- Where nothing is forwarded, and behind the failure where something is, the rest is the same.
  refine Under.ite ((Under.refl _).bind fun _ => ?_) ?_
  all_goals exact (Under.refl _).bind fun _ => (Under.refl _).bind fun _ =>
    (Under.refl _).bind fun _ => (h (.args .rparen)).bind fun _ => .refl _

theorem block_under : Under (block call) (block call') := by
  have hround : Under (blockRound call) (blockRound call') :=
    (Under.refl _).bind fun _ => .ite (.refl _) (h .stmt).map
  exact (Under.refl _).bind fun _ => hround.collect.bind fun _ => .refl _

theorem stmt_under : Under (stmt call) (stmt call') := by
  refine (Under.refl opening).bind fun opens => ?_
  cases opens with
  | expression => exact h .expression
  | statement =>
    refine (Under.refl current).bind fun t => ?_
    dsimp only
    split
    · exact (h .block).map
    · exact .refl _
    · exact h .declaration
    · exact h .declaration
    · exact h .function
    · exact h .choice
    · exact h .whileLoop
    · exact h .doLoop
    · exact h .forLoop
    · exact h .jump
    · exact h .jump
    · exact h .exit
    · exact h .exit
    · exact h .attempt
    · exact h .labeled
    · exact h .forward
    · exact .refl _

theorem body_under (owner : Kind) : Under (body call owner) (body call' owner) :=
  (h .stmt).bind fun _ => .refl _

theorem declaration_under : Under (declaration call) (declaration call') :=
  (Under.refl _).bind fun keyword => (h (.declarator keyword)).separated.bind fun _ => .refl _

theorem declarator_under (keyword : Token) :
    Under (declarator call keyword) (declarator call' keyword) :=
  (Under.refl _).bind fun _ => (Under.refl _).bind fun _ => .ite
    ((h .expr).bind fun _ => .refl _) (.refl _)

theorem function_under : Under (function call) (function call') :=
  (Under.refl _).bind fun _ => (Under.refl _).bind fun _ => (h .params).bind fun _ =>
    (h .block).bind fun _ => .refl _

theorem choice_under : Under (choice call) (choice call') :=
  (Under.refl _).bind fun _ => (h .expr).bind fun _ => (h (.body .ifKw)).bind fun _ =>
    (Under.refl _).bind fun _ => .ite ((h (.body .elseKw)).bind fun _ => .refl _) (.refl _)

theorem whileLoop_under : Under (whileLoop call) (whileLoop call') :=
  (Under.refl _).bind fun _ => (h .expr).bind fun _ => (h (.body .whileKw)).bind fun _ => .refl _

theorem doLoop_under : Under (doLoop call) (doLoop call') :=
  (Under.refl _).bind fun _ => (h .stmt).bind fun _ => (Under.refl _).bind fun _ =>
    (h .expr).bind fun _ => .refl _

theorem forLoop_under : Under (forLoop call) (forLoop call') :=
  (Under.refl _).bind fun _ => (Under.refl _).bind fun _ => (Under.refl _).bind fun _ =>
    (h .expr).bind fun _ => (h (.body .forKw)).bind fun _ => .refl _

theorem exit_under : Under (exit call) (exit call') :=
  (Under.refl _).bind fun _ => (Under.refl _).bind fun _ => .ite (.refl _)
    ((h .expr).bind fun _ => .refl _)

theorem attempt_under : Under (attempt call) (attempt call') := by
  have hround : Under (rescueRound call) (rescueRound call') :=
    (Under.refl _).bind fun _ => .ite
      ((Under.refl _).bind fun _ => (h .block).bind fun _ => .refl _) (.refl _)
  have hlast : Under (always call) (always call') :=
    (Under.refl _).bind fun _ => .ite ((h .block).bind fun _ => .refl _) (.refl _)
  exact (Under.refl _).bind fun _ => (h .block).bind fun _ => hround.collect.bind fun _ =>
    hlast.bind fun _ => .refl _

theorem labeled_under : Under (labeled call) (labeled call') :=
  (Under.refl _).bind fun _ => (Under.refl _).bind fun _ => (h .stmt).bind fun _ => .refl _

theorem forward_under : Under (forward call) (forward call') :=
  (Under.refl _).bind fun _ => (Under.refl _).bind fun _ => (Under.refl _).bind fun _ =>
    (h (.args .rparen)).bind fun _ => .refl _

theorem expression_under : Under (expression call) (expression call') := by
  refine (h .expr).bind fun e => (Under.refl _).bind fun _ => .ite ?_ ?_
  · exact (Under.refl _).bind fun _ => (h .expr).bind fun _ => .refl _
  · refine (Under.refl current).bind fun t => .ite ?_ (.refl _)
    exact (Under.refl _).bind fun _ => (Under.refl _).bind fun _ => (h .expr).bind fun _ => .refl _

/-- **A rule is under itself with more for the rules that it calls.** -/
theorem produce_under {α : Type} (rule : Rule α) :
    Under (produce call rule) (produce call' rule) := by
  cases rule with
  | expr => exact h .ternary
  | ternary => exact ternary_under h
  | nullish => exact nullish_under h
  | binary power => exact binary_under h power
  | unary => exact unary_under h
  | power => exact power_under h
  | access => exact access_under h
  | primary => exact primary_under h
  | construction => exact construction_under h
  | args closer => exact args_under h closer
  | params => exact .refl _
  | stmt => exact stmt_under h
  | block => exact block_under h
  | body owner => exact body_under h owner
  | declaration => exact declaration_under h
  | declarator keyword => exact declarator_under h keyword
  | function => exact function_under h
  | choice => exact choice_under h
  | whileLoop => exact whileLoop_under h
  | doLoop => exact doLoop_under h
  | forLoop => exact forLoop_under h
  | jump => exact .refl _
  | exit => exact exit_under h
  | attempt => exact attempt_under h
  | labeled => exact labeled_under h
  | forward => exact forward_under h
  | expression => exact expression_under h

end

/-! ### Levels -/

/-- **A rule with some levels left is under itself with more.** -/
theorem parse_under : ∀ {levels levels' : Nat}, levels ≤ levels' → ∀ {α : Type} (rule : Rule α),
    Under (parse levels rule) (parse levels' rule)
  | 0, _, _, _, _ => under_tooDeep _
  | _ + 1, _ + 1, hle, _, rule =>
    produce_under (fun rule => parse_under (Nat.le_of_succ_le_succ hle) rule) rule

section
variable {levels : Nat} {α : Type} {rule : Rule α} {ts : Tokens} {i : Nat} {t : Token}

/-- What becomes of a rule that is entered at a token. -/
theorem enter_eq (ht : (current ts i).outcome = .ok t) :
    enter levels rule ts i = match (parse levels rule ts i).outcome with
      | .ok a => ⟨.ok a, (parse levels rule ts i).next, (parse levels rule ts i).found,
        max (current ts i).reach (parse levels rule ts i).reach⟩
      | .error f => ⟨.error (placeFailure t f), i, (parse levels rule ts i).found,
        max (current ts i).reach (parse levels rule ts i).reach⟩ := by
  have hnext : (current ts i).next = i := rfl
  refine (bind_of_ok ht).trans ?_
  rw [hnext]
  rcases parse levels rule ts i with ⟨_ | a, next, found, reach⟩ <;> rfl

theorem found_enter (ht : (current ts i).outcome = .ok t) :
    (enter levels rule ts i).found = (parse levels rule ts i).found := by
  rw [enter_eq ht]
  cases (parse levels rule ts i).outcome <;> rfl

end

/-- **More levels change nothing but a failure because of the nesting**, which stands at the token
where the reading began; what was reported before it is reported with more levels too. -/
theorem enter_of_le {levels levels' : Nat} (hle : levels ≤ levels') {α : Type} (rule : Rule α)
    (ts : Tokens) (i : Nat) : enter levels rule ts i = enter levels' rule ts i ∨
      (∃ t, ts.At i t ∧
        (enter levels rule ts i).outcome = .error (.parse ⟨.nestedTooDeeply, some t⟩)) ∧
      (enter levels rule ts i).found <+: (enter levels' rule ts i).found := by
  cases hcurrent : (current ts i).outcome with
  | error f => exact Or.inl ((bind_of_error hcurrent).trans (bind_of_error hcurrent).symm)
  | ok t =>
    have ht : ts.At i t := (runs_current.mp (runs_iff.mpr ⟨hcurrent, rfl, rfl⟩)).1
    rcases parse_under hle rule ts i with heq | ⟨hfail, hfound⟩
    · left
      rw [enter_eq hcurrent, enter_eq hcurrent, heq]
    · right
      rw [found_enter hcurrent, found_enter hcurrent, enter_eq hcurrent, hfail]
      exact ⟨⟨t, ht, rfl⟩, hfound⟩

end Grammar

end CommandShell
