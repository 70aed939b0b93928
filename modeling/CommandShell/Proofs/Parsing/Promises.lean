import CommandShell.Proofs.Parsing.Prolonging

/-! # Promises: parsers that are completed where they stop too early

How the steps, the tests and the repetitions of parsers go on when more tokens follow. Before the
end a token decides; at the end it is the end token, which is of no kind that is tested for, and a
completion goes on in the branch that its first token leads to. -/

namespace CommandShell

open CommandShell.Parser

namespace Parser

variable {α β : Type} {ts : Tokens} (hts : ts.Lexed) {i : Nat} {T S : Kind → Prop}
include hts

/-! ### Single tokens -/

section
variable {f g : Token → Parser α} {t : Token}

omit hts in
theorem gets_current {us : Tokens} (ht : us.At i t) : Gets current us i t i :=
  ⟨[], runs_current.mpr ⟨ht, rfl, rfl⟩⟩

omit hts in
theorem gets_advance {us : Tokens} (ht : us.At i t) (hk : t.kind ≠ .eof) :
    Gets advance us i t (i + 1) :=
  ⟨[], (runs_advanceAt ht hk).mpr ⟨rfl, rfl, rfl⟩⟩

/-- Looking at the token at a place. -/
theorem viable_bindCurrent (hi : i < ts.items.size)
    (hf : ∀ t, ts.At i t → t.kind ≠ .eof → Viable S (f t) (g t) ts i) :
    Viable S (current >>= f) (current >>= g) ts i := by
  obtain ⟨t, ht, hk⟩ := hts.exists_at hi
  exact .after hts (Nat.le_refl i) (fun hus => gets_current (hus.at_of_lt hi ht)) (hf t ht hk)

/-- Taking the token at a place. -/
theorem viable_bindAdvance (hi : i < ts.items.size) (ht : ts.At i t)
    (hf : Viable S (f t) (g t) ts (i + 1)) :
    Viable S (advance >>= f) (advance >>= g) ts i := by
  obtain ⟨u, hu, hk⟩ := hts.exists_at hi
  cases ht.unique hu
  exact .after hts (Nat.le_succ i) (fun hus => gets_advance (hus.at_of_lt hi ht) hk) hf

theorem viable_bindMapAdvance {γ : Type} {c : Token → γ} {f g : γ → Parser α}
    (hi : i < ts.items.size) (ht : ts.At i t) (hf : Viable S (f (c t)) (g (c t)) ts (i + 1)) :
    Viable S (c <$> advance >>= f) (c <$> advance >>= g) ts i := by
  have hmap : ∀ f : γ → Parser α, (c <$> advance >>= f) = advance >>= fun t => f (c t) := by
    intro f
    refine (bind_bind advance _ f).trans ?_
    exact congrArg (advance >>= ·) (funext fun t => pure_bind (c t) f)
  rw [hmap, hmap]
  exact viable_bindAdvance hts hi ht hf

omit hts in
theorem outcome_bindCurrent (ht : ts.At i t) :
    ((current >>= f) ts i).outcome = (f t ts i).outcome := by
  have hcurrent := current_of_at ht
  rw [bind_of_ok (congrArg Parsed.outcome hcurrent), hcurrent]

omit hts in
/-- A failure at a token is about that token. -/
theorem outcome_failHere (fault : ParseFault) (ht : ts.At i t) :
    ∃ fault', ((failHere fault : Parser α) ts i).outcome = .error (.parse ⟨fault', some t⟩) := by
  unfold failHere faultHere
  rw [bind_bind, outcome_bindCurrent ht, pure_bind]
  split
  · exact ⟨.unexpectedEnd, rfl⟩
  · exact ⟨fault, rfl⟩

omit hts in
theorem viable_failHere {fault : ParseFault} {q : Parser α} (ht : ts.At i t) (hk : t.kind ≠ .eof) :
    Viable S (failHere fault) q ts i := by
  obtain ⟨fault', hfault⟩ := outcome_failHere fault ht
  exact viable_of_error hfault hk

end

/-! ### Tests -/

section
variable {c : Token → Prop} [DecidablePred c] {x x' : Token → Parser α} {y y' : Parser α}

/-- The token at a place decides how to go on. -/
theorem viable_test (hi : i < ts.items.size)
    (hx : ∀ t, ts.At i t → c t → Viable S (x t) (x' t) ts i) (hy : Viable S y y' ts i) :
    Viable S (current >>= fun t => if c t then x t else y)
      (current >>= fun t => if c t then x' t else y') ts i := by
  refine viable_bindCurrent hts hi fun t ht _ => ?_
  by_cases hc : c t
  · rw [if_pos hc, if_pos hc]
    exact hx t ht hc
  · rw [if_neg hc, if_neg hc]
    exact hy

omit hts in
theorem gets_test_right {us : Tokens} {a : α} {j : Nat} {t : Token} (ht : us.At i t) (hc : ¬ c t)
    (h : Gets y us i a j) : Gets (current >>= fun t => if c t then x t else y) us i a j := by
  refine (gets_current ht).bind ?_
  rwa [if_neg hc]

omit hts in
theorem completable_test (hc : ∀ t, T t.kind → ¬ c t) (hy : Completable T S y ts) :
    Completable T S (current >>= fun t => if c t then x t else y) ts := by
  obtain ⟨more, a, hproper, hleads, hgets⟩ := hy
  refine ⟨more, a, hproper, hleads, fun hus hshows => ?_⟩
  obtain ⟨t, ht, hk⟩ := hshows.head hleads
  exact gets_test_right ht (hc t hk) (hgets hus hshows)

/-- **A test that neither the end nor a completion meets.** What the test is met by is read on the
spot; all else goes on as without it. -/
theorem passes_test (hx : ∀ {i t}, i < ts.items.size → ts.At i t → c t → Viable S (x t) (x' t) ts i)
    (heof : ∀ t, t.kind = .eof → ¬ c t) (hc : ∀ t, T t.kind → ¬ c t) (hy : Passes T S y y' ts) :
    Passes T S (current >>= fun t => if c t then x t else y)
      (current >>= fun t => if c t then x' t else y') ts where
  viable hi := viable_test hts hi (fun t ht hmeets => hx hi ht hmeets) (hy.viable hi)
  ends a ha := by
    cases hget : ts.get ts.items.size with
    | error e =>
      rw [bind_of_error (congrArg Parsed.outcome (current_of_fault hget))] at ha
      cases ha
    | ok t =>
      have heq := bind_of_ok (f := fun t => if c t then x t else y)
        (congrArg Parsed.outcome (current_of_at hget))
      rw [current_of_at hget, if_neg (heof t (hts.kind_at_end hget))] at heq
      rw [heq] at ha ⊢
      obtain ⟨hnext, hST, hgets⟩ := hy.ends a ha
      refine ⟨hnext, hST, fun hus hshows => ?_⟩
      obtain ⟨u, hu, hk⟩ := hshows
      exact gets_test_right hu (hc u (hST _ hk)) (hgets hus ⟨u, hu, hk⟩)

theorem promises_test
    (hx : ∀ {i t}, i < ts.items.size → ts.At i t → c t → Viable S (x t) (x' t) ts i)
    (heof : ∀ t, t.kind = .eof → ¬ c t) (hc : ∀ t, T t.kind → ¬ c t) (hy : Promises T S y y' ts) :
    Promises T S (current >>= fun t => if c t then x t else y)
      (current >>= fun t => if c t then x' t else y') ts :=
  ⟨passes_test hts hx heof hc hy.toPasses, completable_test hc hy.completable⟩

end

/-- A guard that neither the end nor a completion fails at. -/
theorem promises_guard {c : Token → Prop} [DecidablePred c] {fault : Token → ParseFault}
    {blamed : Token → Token} {e e' : Token → β → Parser α} {y y' : Parser α}
    (hblamed : ∀ t, c t → (blamed t).kind ≠ .eof) (heof : ∀ t, t.kind = .eof → ¬ c t)
    (hc : ∀ t, T t.kind → ¬ c t) (hy : Promises T S y y' ts) :
    Promises T S (current >>= fun t => if c t then failAt (fault t) (blamed t) >>= e t else y)
      (current >>= fun t => if c t then failAt (fault t) (blamed t) >>= e' t else y') ts := by
  refine promises_test hts (fun {_ t} _ _ hmeets => ?_) heof hc hy
  have hfailure : ¬ Failure.AtEnd (.parse ⟨fault t, some (blamed t)⟩) := hblamed t hmeets
  exact viable_bindFail hfailure

section
variable {k : Kind} {x x' y y' : Parser α}

omit hts in
theorem sees_eq (k : Kind) : (do if ← sees k then x else y) =
    current >>= fun t => if t.kind = k then x else y := by
  unfold sees
  rw [bind_bind]
  congr 1
  funext t
  rw [pure_bind]
  by_cases hk : t.kind = k <;> simp [hk]

omit hts in
theorem seesAny_eq (ks : List Kind) : (do if ← seesAny ks then x else y) =
    current >>= fun t => if t.kind ∈ ks then x else y := by
  unfold seesAny
  rw [bind_bind]
  congr 1
  funext t
  rw [pure_bind]
  by_cases hk : t.kind ∈ ks <;> simp [hk]

omit hts in
theorem accept_eq (k : Kind) : (do if ← accept k then x else y) =
    current >>= fun t => if t.kind = k then advance >>= fun _ => x else y := by
  unfold accept
  rw [sees_eq, bind_bind]
  congr 1
  funext t
  by_cases hk : t.kind = k
  · rw [if_pos hk, if_pos hk, bind_bind]
    rfl
  · rw [if_neg hk, if_neg hk, pure_bind]
    rfl

theorem promises_sees (hx : ∀ {i t}, i < ts.items.size → ts.At i t → t.kind = k →
      Viable S x x' ts i) (hk : k ≠ .eof) (hT : ¬ T k) (hy : Promises T S y y' ts) :
    Promises T S (do if ← sees k then x else y) (do if ← sees k then x' else y') ts := by
  rw [sees_eq, sees_eq]
  refine promises_test hts hx (fun t ht heq => hk (heq ▸ ht)) (fun t ht heq => hT (heq ▸ ht)) hy

theorem passes_accept (hx : Promises Kind.Any S x x' ts) (hk : k ≠ .eof) (hT : ¬ T k)
    (hy : Passes T S y y' ts) :
    Passes T S (do if ← accept k then x else y) (do if ← accept k then x' else y') ts := by
  rw [accept_eq, accept_eq]
  refine passes_test hts (fun hi ht _ => ?_) (fun t ht heq => hk (heq ▸ ht))
    (fun t ht heq => hT (heq ▸ ht)) hy
  exact viable_bindAdvance hts hi ht (hx.at hi)

/-- A completion goes on without the token. -/
theorem promises_accept (hx : Promises Kind.Any S x x' ts) (hk : k ≠ .eof) (hT : ¬ T k)
    (hy : Promises T S y y' ts) :
    Promises T S (do if ← accept k then x else y) (do if ← accept k then x' else y') ts := by
  refine ⟨passes_accept hts hx hk hT hy.toPasses, ?_⟩
  rw [accept_eq]
  exact completable_test (fun t ht heq => hT (heq ▸ ht)) hy.completable

/-- A completion begins with the token. -/
theorem promises_acceptThat {T' : Kind → Prop} (hx : Promises Kind.Any S x x' ts) (hk : k ≠ .eof)
    (hT : T k) (hT' : ¬ T' k) (hle : ∀ k, T' k → T k) (hy : Passes T' S y y' ts) :
    Promises T S (do if ← accept k then x else y) (do if ← accept k then x' else y') ts := by
  refine ⟨(passes_accept hts hx hk hT' hy).mono hle fun _ hk => hk, ?_⟩
  obtain ⟨more, a, hproper, -, hgets⟩ := hx.completable
  refine ⟨.made k :: more, a, ?_, hT, fun {us i} hus hshows => ?_⟩
  · exact List.forall_mem_cons.mpr ⟨Token.proper_made hk, hproper⟩
  · obtain ⟨ht, hshows⟩ := hshows
    have hrest := hgets hus hshows
    rw [accept_eq, List.length_cons, Nat.add_comm more.length 1, ← Nat.add_assoc]
    refine (gets_current ht).bind ?_
    rw [if_pos (show (Token.made k).kind = k from rfl)]
    exact (gets_advance ht hk).bind hrest

end

/-! ### Tokens that are taken -/

/-- The parser takes a token of the kind, and fails at any other. -/
structure Demands (k : Kind) (p : Parser Token) : Prop where
  runs {ts : Tokens} {i j : Nat} {t : Token} {ds : List Diagnostic} :
    Runs p ts i t j ds ↔ ts.At i t ∧ t.kind = k ∧ j = i + 1 ∧ ds = []
  error {ts : Tokens} {i : Nat} {t : Token} : ts.At i t → t.kind ≠ k →
    ∃ fault, (p ts i).outcome = .error (.parse ⟨fault, some t⟩)

omit hts in
theorem demands_expectAs {k : Kind} {w : Wanted} (hk : k ≠ .eof) : Demands k (expectAs k w) where
  runs := runs_expectAs hk
  error {ts i t} ht hne := by
    unfold expectAs expectOr
    rw [sees_eq, outcome_bindCurrent ht, if_neg hne]
    exact outcome_failHere _ ht

omit hts in
theorem demands_semicolon : Demands .semicolon expectSemicolon where
  runs := runs_expectSemicolon
  error {ts i t} ht hne := by
    unfold expectSemicolon
    rw [outcome_bindCurrent ht, if_neg hne]
    exact ⟨.missingTerminator, rfl⟩

section
variable {k : Kind} {p : Parser Token} {f g : Token → Parser α}

/-- Before the end the token is taken, or the failure is not about the end. -/
theorem viable_bindDemandAt (hp : Demands k p) (hi : i < ts.items.size)
    (hf : ∀ t, ts.At i t → t.kind = k → Viable S (f t) (g t) ts (i + 1)) :
    Viable S (p >>= f) (p >>= g) ts i := by
  obtain ⟨t, ht, hne⟩ := hts.exists_at hi
  by_cases hk : t.kind = k
  · refine .after hts (Nat.le_succ i) (fun hus => ⟨[], hp.runs.mpr ?_⟩) (hf t ht hk)
    exact ⟨hus.at_of_lt hi ht, hk, rfl, rfl⟩
  · obtain ⟨fault, herror⟩ := hp.error ht hk
    exact viable_of_error (congrArg Parsed.outcome (bind_of_error herror)) hne

/-- **A token that is asked for.** A completion begins with it. -/
theorem promises_bindDemand (hp : Demands k p) (hk : k ≠ .eof) (hT : T k)
    (hf : ∀ t, t.kind = k → Promises Kind.Any S (f t) (g t) ts) :
    Promises T S (p >>= f) (p >>= g) ts where
  viable hi := viable_bindDemandAt hts hp hi fun t _ ht => (hf t ht).at hi
  ends a ha := by
    cases htake : (p ts ts.items.size).outcome with
    | error e =>
      rw [bind_of_error htake] at ha
      cases ha
    | ok t =>
      obtain ⟨ht, hkind, -⟩ := hp.runs.mp (runs_iff.mpr ⟨htake, rfl, rfl⟩)
      exact absurd (hkind.symm.trans (hts.kind_at_end ht)) hk
  completable := by
    obtain ⟨more, a, hproper, -, hgets⟩ := (hf (.made k) rfl).completable
    refine ⟨.made k :: more, a, ?_, hT, fun hus hshows => ?_⟩
    · exact List.forall_mem_cons.mpr ⟨Token.proper_made hk, hproper⟩
    · obtain ⟨ht, hshows⟩ := hshows
      have htake : Gets p _ _ (Token.made k) _ := ⟨[], hp.runs.mpr ⟨ht, rfl, rfl, rfl⟩⟩
      rw [List.length_cons, Nat.add_comm more.length 1, ← Nat.add_assoc]
      exact htake.bind (hgets hus hshows)

theorem promises_demand (hp : Demands k p) (hk : k ≠ .eof) (hT : T k) :
    Promises T Kind.Any p p ts := by
  have htake : Promises T Kind.Any (p >>= pure) (p >>= pure) ts :=
    promises_bindDemand hts hp hk hT fun _ _ => promises_done
  rwa [bind_pure] at htake

/-- It may be asked for at the end, too. -/
theorem viable_bindDemand (hp : Demands k p) (hk : k ≠ .eof) (hi : i ≤ ts.items.size)
    (hf : ∀ t, t.kind = k → Promises Kind.Any S (f t) (g t) ts) :
    Viable S (p >>= f) (p >>= g) ts i := by
  have htake : Promises Kind.Any S (p >>= f) (p >>= g) ts :=
    promises_bindDemand hts hp hk trivial hf
  exact htake.at hi

theorem promises_bindExpectAs {w : Wanted} (hk : k ≠ .eof) (hT : T k)
    (hf : ∀ t, t.kind = k → Promises Kind.Any S (f t) (g t) ts) :
    Promises T S (expectAs k w >>= f) (expectAs k w >>= g) ts :=
  promises_bindDemand hts (demands_expectAs hk) hk hT hf

theorem viable_bindExpectAs {w : Wanted} (hk : k ≠ .eof) (hi : i ≤ ts.items.size)
    (hf : ∀ t, t.kind = k → Promises Kind.Any S (f t) (g t) ts) :
    Viable S (expectAs k w >>= f) (expectAs k w >>= g) ts i :=
  viable_bindDemand hts (demands_expectAs hk) hk hi hf

/-- The bracket that ends a phrase. -/
theorem promises_closed {a : α} (hk : k ≠ .eof) (hT : T k) : Promises T S
    (do let _ ← expectCloser k; return a) (do let _ ← expectCloser k; return a) ts :=
  promises_bindExpectAs hts hk hT fun _ _ => promises_pure fun _ _ => trivial

/-- The semicolon that ends a phrase. -/
theorem promises_terminated {a : α} (hT : T .semicolon) : Promises T S
    (do let _ ← expectSemicolon; return a) (do let _ ← expectSemicolon; return a) ts :=
  promises_bindDemand hts demands_semicolon (by decide) hT fun _ _ =>
    promises_pure fun _ _ => trivial

end

/-! ### Repetitions

The last round of a repetition reads nothing at the end, and nothing before a token that may stand
behind it. -/

/-- Before a token of a kind in `S` the round reads nothing. -/
def Rests (S : Kind → Prop) (round : Parser (Option α)) : Prop :=
  ∀ {us : Tokens} {i : Nat} {t : Token}, us.At i t → S t.kind → Gets round us i none i

section
variable {deep : Prop} {low : Nat}

/-- At the end a round reads nothing. -/
theorem ends_round {round : Parser (Option α)} {r? : Option α}
    (h : Walks deep low round ts ts.items.size [] [] (fun r? j => r?.isSome → ts.items.size < j))
    (hr : (round ts ts.items.size).outcome = .ok r?) :
    r? = none ∧ (round ts ts.items.size).next = ts.items.size := by
  obtain ⟨hwalked, hsome⟩ := h.ok hr
  have hstays : (round ts ts.items.size).next = ts.items.size := by
    rcases Nat.eq_or_lt_of_le hwalked.walk.le with heq | hlt
    · exact heq.symm
    · exact absurd (hwalked.walk.le_size hts hlt) (Nat.not_le.mpr hlt)
  refine ⟨?_, hstays⟩
  cases r? with
  | none => rfl
  | some r => exact absurd (hsome rfl) (by omega)

section
variable {grow grow' : α → Parser (Option α)}
  (hwalks : ∀ a {i}, Walks deep 0 (grow a) ts i [] [] (fun b? j => b?.isSome → i < j))
  (hviable : ∀ a {i}, i < ts.items.size → Viable S (grow a) (grow' a) ts i)
  (hrests : ∀ a, Rests S (grow' a))

include hrests in
theorem gets_chainFrom {us : Tokens} {k : Nat} (a : α) (hus : us.Prolongs ts)
    (hk : k ≤ ts.items.size) (hshows : us.Shows S i []) : Gets (chainFrom grow' k a) us i a i := by
  obtain ⟨t, ht, hS⟩ := hshows
  refine .congr (chainFrom_eq a (Nat.le_trans hk (hus.size_le hts))) ?_
  exact (hrests a ht hS).bind gets_pure

include hwalks hrests in
theorem ends_chainFrom {k : Nat} (hk : k ≤ ts.items.size) (a : α) :
    Ends S S (chainFrom grow k a) (chainFrom grow' k a) ts := by
  intro b hb
  have heq : chainFrom grow k a ts ts.items.size = _ := chainFrom_eq a hk
  cases hround : (grow a ts ts.items.size).outcome with
  | error e =>
    rw [heq, bind_of_error hround] at hb
    cases hb
  | ok b? =>
    obtain ⟨rfl, hnext⟩ := ends_round hts (hwalks a) hround
    rw [heq, bind_of_ok hround, hnext] at hb ⊢
    cases hb
    exact ⟨rfl, fun _ hS => hS, fun hus hshows => gets_chainFrom hts hrests a hus hk hshows⟩

include hrests in
theorem completable_chainFrom {k : Nat} (hk : k ≤ ts.items.size) (a : α) :
    Completable S S (chainFrom grow' k a) ts :=
  ⟨[], a, nofun, fun _ hS => hS, fun hus hshows => gets_chainFrom hts hrests a hus hk hshows⟩

include hwalks hviable hrests in
theorem viable_chainFrom {i k : Nat} (hi : i < ts.items.size) (hk : k ≤ i) (a : α) :
    Viable S (chainFrom grow k a) (chainFrom grow' k a) ts i := by
  refine .congr (chainFrom_eq a (by omega))
    (fun hus => chainFrom_eq a (Nat.le_trans (by omega) (hus.size_le hts))) ?_
  refine (hviable a hi).bind (fun b? hb hlt => ?_) (fun b? => ?_) fun b? => ?_
  · cases b? with
    | none => exact promises_done.viable hlt
    | some b =>
      have hmoves := ((hwalks a).ok hb).2 rfl
      exact viable_chainFrom hlt (by omega) b
  · cases b? with
    | none => exact promises_done.ends
    | some b => exact ends_chainFrom hts hwalks hrests (by omega) b
  · cases b? with
    | none => exact promises_done.completable
    | some b => exact completable_chainFrom hts hrests (by omega) b
termination_by ts.items.size - i

include hwalks hviable hrests in
/-- **A chain.** Its rounds are viable, and rest before what may stand behind it. -/
theorem promises_chain (a : α) : Promises S S (chain grow a) (chain grow' a) ts where
  viable hi := viable_chainFrom hts hwalks hviable hrests hi (Nat.zero_le _) a
  ends := ends_chainFrom hts hwalks hrests (Nat.zero_le _) a
  completable := completable_chainFrom hts hrests (Nat.zero_le _) a

end

section
variable {item? item?' : Parser (Option α)}
  (hwalks : ∀ {i}, Walks deep 0 item? ts i [] [] (fun a? j => a?.isSome → i < j))
  (hviable : ∀ {i}, i < ts.items.size → Viable S item? item?' ts i)
  (hrests : Rests S item?')

include hrests in
theorem gets_collectFrom {us : Tokens} {k : Nat} (hus : us.Prolongs ts) (hk : k ≤ ts.items.size)
    (hshows : us.Shows S i []) : Gets (collectFrom item?' k) us i [] i := by
  obtain ⟨t, ht, hS⟩ := hshows
  refine .congr (collectFrom_eq (Nat.le_trans hk (hus.size_le hts))) ?_
  exact (hrests ht hS).bind gets_pure

include hwalks hrests in
theorem ends_collectFrom {k : Nat} (hk : k ≤ ts.items.size) :
    Ends S S (collectFrom item? k) (collectFrom item?' k) ts := by
  intro as has
  have heq : collectFrom item? k ts ts.items.size = _ := collectFrom_eq hk
  cases hround : (item? ts ts.items.size).outcome with
  | error e =>
    rw [heq, bind_of_error hround] at has
    cases has
  | ok a? =>
    obtain ⟨rfl, hnext⟩ := ends_round hts hwalks hround
    rw [heq, bind_of_ok hround, hnext] at has ⊢
    cases has
    exact ⟨rfl, fun _ hS => hS, fun hus hshows => gets_collectFrom hts hrests hus hk hshows⟩

include hrests in
theorem completable_collectFrom {k : Nat} (hk : k ≤ ts.items.size) :
    Completable S S (collectFrom item?' k) ts :=
  ⟨[], [], nofun, fun _ hS => hS, fun hus hshows => gets_collectFrom hts hrests hus hk hshows⟩

include hwalks hviable hrests in
theorem viable_collectFrom {i k : Nat} (hi : i < ts.items.size) (hk : k ≤ i) :
    Viable S (collectFrom item? k) (collectFrom item?' k) ts i := by
  refine .congr (collectFrom_eq (by omega))
    (fun hus => collectFrom_eq (Nat.le_trans (by omega) (hus.size_le hts))) ?_
  refine (hviable hi).bind (fun a? ha hlt => ?_) (fun a? => ?_) fun a? => ?_
  · cases a? with
    | none => exact promises_done.viable hlt
    | some a =>
      have hmoves := (hwalks.ok ha).2 rfl
      exact (viable_collectFrom hlt (by omega)).map
  · cases a? with
    | none => exact promises_done.ends
    | some a =>
      exact (ends_collectFrom hts hwalks hrests (by omega)).bind fun _ => promises_done.ends
  · cases a? with
    | none => exact promises_done.completable
    | some a =>
      exact (completable_collectFrom hts hrests (by omega)).bind fun _ =>
        promises_done.completable
termination_by ts.items.size - i

include hwalks hviable hrests in
/-- **A list.** Its rounds are viable, and rest before what may stand behind it. -/
theorem promises_collect : Promises S S (collect item?) (collect item?') ts where
  viable hi := viable_collectFrom hts hwalks hviable hrests hi (Nat.zero_le _)
  ends := ends_collectFrom hts hwalks hrests (Nat.zero_le _)
  completable := completable_collectFrom hts hrests (Nat.zero_le _)

end

section
variable {item item' : Parser α}
  (hwalks : ∀ {i}, Walks deep 0 item ts i [] [] (fun _ j => i < j)) (hcomma : ¬ S .comma)
include hwalks hcomma

/-- More items behind commas. -/
theorem promises_more (hitem : Promises Kind.Any S item item' ts) :
    Promises S S (more item) (more item') ts := by
  have hround : Passes S S (do if ← accept .comma then some <$> item else return none)
      (do if ← accept .comma then some <$> item' else return none) ts :=
    passes_accept hts hitem.map (by decide) hcomma promises_done.toPasses
  have hmoves : ∀ {i}, Walks deep 0 (do if ← accept .comma then some <$> item else return none)
      ts i [] [] (fun a? j => a?.isSome → i < j) := by
    intro i
    refine walks_bindAccept (k := .comma) rfl (fun _ _ _ => ?_) fun _ _ _ => walks_pure nofun
    exact hwalks.map fun _ _ hlt _ => by omega
  refine promises_collect hts hmoves (fun hi => hround.viable hi) fun ht hS => ?_
  rw [accept_eq]
  exact gets_test_right ht (fun heq => hcomma (heq ▸ hS)) gets_pure

/-- Items with commas between them. -/
theorem promises_separated (hitem : Promises T S item item' ts) :
    Promises T S (separated item) (separated item') ts :=
  hitem.bind fun _ => (promises_more hts hwalks hcomma (hitem.mono (fun _ _ => trivial)
    fun _ hS => hS)).map

end

end

end Parser

end CommandShell
