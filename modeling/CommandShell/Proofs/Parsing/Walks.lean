import CommandShell.Grammar.Check
import CommandShell.Grammar.Opening
import CommandShell.Proofs.Parsing.Walking

/-! # Walks: what a parser does at a place

`Walks` says what a parser does at a place with a stack of awaited closers:

* if it succeeds, it has walked to where it stops, has looked at no token behind that, and would do
  the same on all tokens that agree up to there;
* if it fails, it is stuck behind a walk;
* in either case it has reported nothing fatal.

Every way to build a parser keeps this. What is found out on the way (where a parser stops, and
which token it has seen) is handed on by a condition on its result. -/

namespace CommandShell

open CommandShell.Parser

namespace Parser

variable {α β γ : Type}

/-- The outcome `r` of a parser at the place `i` with the awaited closers `σ` is a success: the
parser has walked to where `τ` are awaited, has looked at nothing behind the place where it stops,
and would do the same on all tokens that agree up to there. -/
structure Walked (p : Parser α) (ts : Tokens) (i : Nat) (σ τ : List Kind) (r : Parsed α) :
    Prop where
  walk : ts.Walk i σ r.next τ
  reach_le : r.reach ≤ r.next + 1
  same {us : Tokens} : us.Lexed → us.AgreesTo ts r.next → p us i = r

/-- What a parser does at the place `i` with the awaited closers `σ`. If it succeeds, the condition
holds of its result and the place where it stops. -/
structure Walks (deep : Prop) (low : Nat) (p : Parser α) (ts : Tokens) (i : Nat) (σ τ : List Kind)
    (post : α → Nat → Prop) : Prop where
  ok {a : α} : (p ts i).outcome = .ok a → Walked p ts i σ τ (p ts i) ∧ post a (p ts i).next
  stuck {f : Failure} : (p ts i).outcome = .error f → ts.Stuck deep low i σ f
  found {d : Diagnostic} : d ∈ (p ts i).found → d.severity ≠ .fatal

section
variable {deep : Prop} {ts : Tokens} {low i : Nat} {σ τ : List Kind} {p : Parser α}
  {post : α → Nat → Prop} {r : Parsed α}

theorem walks_of_ok {a : α} (h : p ts i = r) (ha : r.outcome = .ok a)
    (hwalked : Walked p ts i σ τ r) (hpost : post a r.next)
    (hfound : ∀ d ∈ r.found, d.severity ≠ .fatal) : Walks deep low p ts i σ τ post := by
  subst h
  refine ⟨fun hb => ⟨hwalked, ?_⟩, fun he => ?_, fun hd => hfound _ hd⟩
  · rw [ha] at hb
    cases hb
    exact hpost
  · rw [ha] at he
    cases he

theorem walks_of_error {f : Failure} (h : p ts i = r) (hf : r.outcome = .error f)
    (hstuck : ts.Stuck deep low i σ f) (hfound : ∀ d ∈ r.found, d.severity ≠ .fatal) :
    Walks deep low p ts i σ τ post := by
  subst h
  refine ⟨fun ha => ?_, fun he => ?_, fun hd => hfound _ hd⟩
  · rw [hf] at ha
    cases ha
  · rw [hf] at he
    cases he
    exact hstuck

end

/-! ### One parser after the other -/

theorem bind_bind (p : Parser α) (f : α → Parser β) (g : β → Parser γ) :
    (p >>= f) >>= g = p >>= fun a => f a >>= g := by
  funext ts i
  cases hp : (p ts i).outcome with
  | error e =>
    have hfirst := bind_of_error (f := f) hp
    rw [bind_of_error (congrArg Parsed.outcome hfirst), hfirst, bind_of_error hp]
  | ok a =>
    cases hf : (f a ts (p ts i).next).outcome with
    | error e =>
      rw [bind_of_error (by rw [bind_of_ok hp]; exact hf), bind_of_ok hp, bind_of_ok hp,
        bind_of_error hf, hf]
    | ok b =>
      rw [bind_of_ok (by rw [bind_of_ok hp]; exact hf), bind_of_ok hp, bind_of_ok hp,
        bind_of_ok hf, List.append_assoc, Nat.max_assoc]

theorem pure_bind (a : α) (f : α → Parser β) : pure a >>= f = f a := by
  funext ts i
  have hpure : (pure a : Parser α) ts i = ⟨.ok a, i, [], 0⟩ := rfl
  rw [bind_of_ok (congrArg Parsed.outcome hpure), hpure]
  simp

theorem bind_pure (p : Parser α) : p >>= pure = p := by
  funext ts i
  cases hp : (p ts i).outcome with
  | error e => rw [bind_of_error hp, ← hp]
  | ok a =>
    have hpure : (pure a : Parser α) ts (p ts i).next = ⟨.ok a, (p ts i).next, [], 0⟩ := rfl
    rw [bind_of_ok hp, hpure, ← hp]
    simp

section
variable {deep : Prop} {ts : Tokens} {low i j : Nat} {σ ρ τ : List Kind} {p : Parser α}
  {post : α → Nat → Prop} {post' : β → Nat → Prop}

theorem Walks.imp {post' : α → Nat → Prop} (h : Walks deep low p ts i σ τ post)
    (himp : ∀ a j, post a j → post' a j) : Walks deep low p ts i σ τ post' where
  ok ha := ⟨(h.ok ha).1, himp _ _ (h.ok ha).2⟩
  stuck := h.stuck
  found := h.found

/-- Where a parser stops, it has walked to. -/
theorem Walks.with_walk (h : Walks deep low p ts i σ τ post) :
    Walks deep low p ts i σ τ (fun a j => post a j ∧ ts.Walk i σ j τ) where
  ok ha := ⟨(h.ok ha).1, (h.ok ha).2, (h.ok ha).1.walk⟩
  stuck := h.stuck
  found := h.found

/-- What holds of all that a parser reads holds where it succeeds. -/
theorem Walks.with_runs {Q : α → Prop} (h : Walks deep low p ts i σ τ post)
    (hruns : ∀ {a k ds}, Runs p ts i a k ds → Q a) :
    Walks deep low p ts i σ τ (fun a j => post a j ∧ Q a) where
  ok ha := ⟨(h.ok ha).1, (h.ok ha).2, hruns (runs_iff.mpr ⟨ha, rfl, rfl⟩)⟩
  stuck := h.stuck
  found := h.found

theorem Walks.bind {f : α → Parser β} (hp : Walks deep low p ts i σ ρ post)
    (hf : ∀ a j, post a j → Walks deep low (f a) ts j ρ τ post') :
    Walks deep low (p >>= f) ts i σ τ post' := by
  cases h : (p ts i).outcome with
  | error e => exact walks_of_error (bind_of_error h) rfl (hp.stuck h) fun _ hd => hp.found hd
  | ok a =>
    obtain ⟨hwalked, hpost⟩ := hp.ok h
    have hrest := hf a _ hpost
    have hfound : ∀ d ∈ (p ts i).found ++ (f a ts (p ts i).next).found, d.severity ≠ .fatal :=
      fun d hd => (List.mem_append.mp hd).elim hp.found hrest.found
    cases hs : (f a ts (p ts i).next).outcome with
    | error e =>
      exact walks_of_error (bind_of_ok h) hs (hwalked.walk.stuck (hrest.stuck hs)) hfound
    | ok b =>
      obtain ⟨hwalked', hpost'⟩ := hrest.ok hs
      refine walks_of_ok (bind_of_ok h) hs ⟨?_, ?_, fun {us} hlexed hagrees => ?_⟩ hpost' hfound
      · exact hwalked.walk.trans hwalked'.walk
      · have hle := hwalked'.walk.le
        have hreach := hwalked.reach_le
        have hreach' := hwalked'.reach_le
        show max _ _ ≤ (f a ts (p ts i).next).next + 1
        omega
      · have hsame := hwalked.same hlexed (hagrees.mono hwalked'.walk.le)
        rw [bind_of_ok (hsame ▸ h), hsame, hwalked'.same hlexed hagrees]

theorem walks_pure {a : α} (h : post a i) : Walks deep low (pure a) ts i σ σ post :=
  walks_of_ok rfl rfl ⟨.refl, Nat.zero_le _, fun _ _ => rfl⟩ h nofun

theorem Walks.map {f : α → β} (h : Walks deep low p ts i σ τ post)
    (himp : ∀ a j, post a j → post' (f a) j) : Walks deep low (f <$> p) ts i σ τ post' :=
  h.bind fun a j ha => walks_pure (himp a j ha)

theorem Walks.ite {c : Prop} [Decidable c] {q : Parser α} (hp : c → Walks deep low p ts i σ τ post)
    (hq : ¬ c → Walks deep low q ts i σ τ post) :
    Walks deep low (if c then p else q) ts i σ τ post := by
  split
  · next hc => exact hp hc
  · next hc => exact hq hc

theorem walks_fail {f : Failure} (h : ts.Stuck deep low i σ f) :
    Walks deep low (fail f : Parser α) ts i σ τ post := walks_of_error rfl rfl h nofun

/-- A failure is not gone on from. -/
theorem walks_bindFail {f : Failure} {g : α → Parser β} (h : ts.Stuck deep low i σ f) :
    Walks deep low (fail f >>= g) ts i σ τ post' := walks_of_error (bind_of_error rfl) rfl h nofun

/-- A failure about a token that has been taken. -/
theorem stuck_behind {t : Token} {fault : ParseFault} (ht : ts.At i t) (hlow : low ≤ i)
    (hij : i < j) (hfault : fault.isBelated = true) :
    ts.Stuck deep low j σ (.parse ⟨fault, some t⟩) := .behind .refl hlow hij ht hfault

theorem walks_report {d : Diagnostic} (h : d.severity ≠ .fatal) :
    Walks deep low (report d) ts i σ σ (fun _ j => j = i) :=
  walks_of_ok rfl rfl ⟨.refl, Nat.zero_le _, fun _ _ => rfl⟩ rfl
    fun _ hd => List.mem_singleton.mp hd ▸ h

/-! ### Single tokens -/

theorem current_of_at {t : Token} (ht : ts.At i t) : current ts i = ⟨.ok t, i, [], i + 1⟩ := by
  unfold current peek
  rw [Nat.add_zero, show ts.get i = .ok t from ht]
  rfl

theorem current_of_fault {e : LexError} (he : ts.get i = .error e) :
    current ts i = ⟨.error (.lex e), i, [], i + 1⟩ := by
  unfold current peek
  rw [Nat.add_zero, he]
  rfl

theorem walks_current : Walks deep low current ts i σ σ (fun t j => ts.At i t ∧ j = i) := by
  cases hget : ts.get i with
  | error e => exact walks_of_error (current_of_fault hget) rfl (.lexical .refl hget) nofun
  | ok t =>
    refine walks_of_ok (current_of_at hget) rfl ⟨.refl, Nat.le_refl _, fun _ hagrees => ?_⟩
      ⟨hget, rfl⟩ nofun
    exact current_of_at ((hagrees i (Nat.le_refl i)).trans hget)

/-- Looking at the token at the place, and going on with it. -/
theorem walks_bindCurrent {f : Token → Parser α}
    (hf : ∀ t, ts.At i t → Walks deep low (f t) ts i σ τ post) :
    Walks deep low (current >>= f) ts i σ τ post := by
  refine walks_current.bind fun t j ht => ?_
  obtain ⟨ht, rfl⟩ := ht
  exact hf t ht

theorem advance_of_at {t : Token} (ht : ts.At i t) (hk : t.kind ≠ .eof) :
    advance ts i = ⟨.ok t, i + 1, [], i + 1⟩ := by
  have heof : ¬ t.isEof = true := by simpa [Token.isEof] using hk
  have hcurrent := current_of_at ht
  unfold advance
  rw [bind_of_ok (congrArg Parsed.outcome hcurrent), hcurrent, if_neg heof]
  rfl

/-- Taking a token that is known. -/
theorem walks_advance {t : Token} (ht : ts.At i t) (hturn : t.kind.turn σ = some τ)
    {post : Token → Nat → Prop} (hpost : post t (i + 1)) :
    Walks deep low advance ts i σ τ post := by
  have hne := Kind.ne_eof_of_turn hturn
  refine walks_of_ok (advance_of_at ht hne) rfl ⟨.single ht hturn, Nat.le_succ _, ?_⟩ hpost nofun
  intro us _ hagrees
  exact advance_of_at ((hagrees i (Nat.le_succ i)).trans ht) hne

/-- Taking a token that is known, and going on with it. -/
theorem walks_bindAdvance {f : Token → Parser α} {t : Token} (ht : ts.At i t)
    (hturn : t.kind.turn σ = some ρ) (hf : Walks deep low (f t) ts (i + 1) ρ τ post) :
    Walks deep low (advance >>= f) ts i σ τ post := by
  have hadvance : Walks deep low advance ts i σ ρ (fun u j => u = t ∧ j = i + 1) :=
    walks_advance ht hturn ⟨rfl, rfl⟩
  refine hadvance.bind fun u j hu => ?_
  obtain ⟨rfl, rfl⟩ := hu
  exact hf

/-- Whether the token at the place is of a kind decides how to go on. -/
theorem walks_bindSees {k : Kind} {q : Parser α}
    (hp : ∀ t, ts.At i t → t.kind = k → Walks deep low p ts i σ τ post)
    (hq : ∀ t, ts.At i t → t.kind ≠ k → Walks deep low q ts i σ τ post) :
    Walks deep low (do if ← sees k then p else q) ts i σ τ post := by
  unfold sees
  rw [bind_bind]
  refine walks_bindCurrent fun t ht => ?_
  rw [pure_bind]
  exact .ite (fun hk => hp t ht (beq_iff_eq.mp hk)) fun hk => hq t ht (by simpa using hk)

/-- So does whether it is of one of some kinds. -/
theorem walks_bindSeesAny {ks : List Kind} {q : Parser α}
    (hp : ∀ t, ts.At i t → t.kind ∈ ks → Walks deep low p ts i σ τ post)
    (hq : ∀ t, ts.At i t → t.kind ∉ ks → Walks deep low q ts i σ τ post) :
    Walks deep low (do if ← seesAny ks then p else q) ts i σ τ post := by
  unfold seesAny
  rw [bind_bind]
  refine walks_bindCurrent fun t ht => ?_
  rw [pure_bind]
  exact .ite (fun hk => hp t ht (by simpa using hk)) fun hk => hq t ht (by simpa using hk)

/-- A token of a kind is taken, or left where it is. -/
theorem walks_bindAccept {k : Kind} {q : Parser α} (hturn : k.turn σ = some ρ)
    (hp : ∀ t, ts.At i t → t.kind = k → Walks deep low p ts (i + 1) ρ τ post)
    (hq : ∀ t, ts.At i t → t.kind ≠ k → Walks deep low q ts i σ τ post) :
    Walks deep low (do if ← accept k then p else q) ts i σ τ post := by
  unfold accept
  rw [bind_bind]
  unfold sees
  rw [bind_bind]
  refine walks_bindCurrent fun t ht => ?_
  rw [pure_bind]
  by_cases hk : t.kind = k
  · rw [if_pos (beq_iff_eq.mpr hk), bind_bind]
    refine walks_bindAdvance ht (hk ▸ hturn) ?_
    rw [pure_bind]
    exact hp t ht hk
  · rw [if_neg (by simpa using hk), pure_bind]
    exact hq t ht hk

/-- Taking a token that is known and making something of it, and going on with that. -/
theorem walks_bindMapAdvance {γ : Type} {g : Token → γ} {f : γ → Parser α} {t : Token}
    (ht : ts.At i t) (hturn : t.kind.turn σ = some ρ)
    (hf : Walks deep low (f (g t)) ts (i + 1) ρ τ post) :
    Walks deep low (g <$> advance >>= f) ts i σ τ post := by
  have hadvance : Walks deep low advance ts i σ ρ (fun u j => u = t ∧ j = i + 1) :=
    walks_advance ht hturn ⟨rfl, rfl⟩
  refine (hadvance.map fun u j hu => ?_ : Walks deep low (g <$> advance) ts i σ ρ
    (fun c j => c = g t ∧ j = i + 1)).bind fun c j hc => ?_
  · exact ⟨congrArg g hu.1, hu.2⟩
  · obtain ⟨rfl, rfl⟩ := hc
    exact hf

/-! ### Failures at a token -/

theorem walks_failHere {fault : ParseFault} (hfault : ∀ k, k ≠ .eof → fault.Arises k) :
    Walks deep low (failHere fault : Parser α) ts i σ τ post := by
  unfold failHere faultHere
  rw [bind_bind]
  refine walks_bindCurrent fun t ht => ?_
  split
  · next heof =>
    rw [pure_bind]
    exact walks_fail (.here .refl ht (beq_iff_eq.mp heof))
  · next heof =>
    rw [pure_bind]
    exact walks_fail (.here .refl ht (hfault _ fun h => heof (beq_iff_eq.mpr h)))

/-- A token of a kind is taken, or the thing is wanted. -/
theorem walks_expectAs {k : Kind} {w : Wanted} {post : Token → Nat → Prop}
    (hturn : k.turn σ = some τ) (hpost : ∀ t, ts.At i t → t.kind = k → post t (i + 1)) :
    Walks deep low (expectAs k w) ts i σ τ post := by
  refine walks_bindSees (fun t ht hk => ?_) fun t _ _ => walks_failHere fun _ hk => hk
  exact walks_advance ht (hk ▸ hturn) (hpost t ht hk)

theorem walks_bindExpectAs {k : Kind} {w : Wanted} {f : Token → Parser α}
    (hturn : k.turn σ = some ρ)
    (hf : ∀ t, ts.At i t → t.kind = k → Walks deep low (f t) ts (i + 1) ρ τ post) :
    Walks deep low (expectAs k w >>= f) ts i σ τ post := by
  have hexpect : Walks deep low (expectAs k w) ts i σ ρ
      (fun t j => ts.At i t ∧ t.kind = k ∧ j = i + 1) :=
    walks_expectAs hturn fun _ ht hk => ⟨ht, hk, rfl⟩
  refine hexpect.bind fun t j ht => ?_
  obtain ⟨ht, hk, rfl⟩ := ht
  exact hf t ht hk

/-- The semicolon that ends a statement is taken. -/
theorem walks_bindSemicolon {f : Token → Parser α}
    (hf : ∀ t, Walks deep low (f t) ts (i + 1) σ τ post) :
    Walks deep low (expectSemicolon >>= f) ts i σ τ post := by
  have hsemicolon : Walks deep low expectSemicolon ts i σ σ (fun _ j => j = i + 1) := by
    refine walks_bindCurrent fun t ht => .ite (fun hk => ?_) fun hk => ?_
    · exact walks_advance ht (by rw [hk]; rfl) rfl
    · exact walks_fail (.here .refl ht hk)
  refine hsemicolon.bind fun t j hj => ?_
  subst hj
  exact hf t

/-- The token before the place is looked at behind a walk only. -/
theorem walks_previous {t : Token} (ht : ts.At i t) :
    Walks deep low previous ts (i + 1) σ σ (fun _ j => j = i + 1) := by
  have hprevious : ∀ {us : Tokens}, us.At i t →
      previous us (i + 1) = ⟨.ok (some t), i + 1, [], i + 1⟩ := by
    intro us hu
    show (⟨((us.get i).mapError .lex).map some, i + 1, [], i + 1⟩ : Parsed (Option Token)) = _
    rw [show us.get i = .ok t from hu]
    rfl
  refine walks_of_ok (hprevious ht) rfl ⟨.refl, Nat.le_succ _, fun _ hagrees => ?_⟩ rfl nofun
  exact hprevious ((hagrees i (Nat.le_succ i)).trans ht)

/-! ### Checks -/

theorem severity_at? (code : Code) (message : String) (token : Option Token)
    (severity : Severity) : (Diagnostic.at? code message token severity).severity = severity := by
  cases token <;> rfl

theorem walks_checkTarget {e : Expr} :
    Walks deep low (checkTarget e) ts i σ σ (fun _ j => j = i) := by
  refine .ite (fun _ => walks_pure rfl) fun _ => walks_report ?_
  unfold Diagnostic.badTarget
  rw [severity_at?]
  decide

theorem walks_checkEffect {e : Expr} :
    Walks deep low (checkEffect e) ts i σ σ (fun _ j => j = i) := by
  refine .ite (fun _ => walks_pure rfl) fun _ => walks_report ?_
  unfold Diagnostic.noEffect
  rw [severity_at?]
  decide

theorem walks_warnIfEmpty {owner : Kind} {s : Stmt} :
    Walks deep low (warnIfEmpty owner s) ts i σ σ (fun _ j => j = i) := by
  unfold warnIfEmpty
  split
  · refine walks_report ?_
    unfold Diagnostic.emptyBody
    rw [severity_at?]
    decide
  · exact walks_pure rfl

/-- A check stays where it is, so that one goes on from there. -/
theorem walks_bindCheck {q : Parser Unit} (hq : Walks deep low q ts i σ σ (fun _ j => j = i))
    (hp : Walks deep low p ts i σ τ post) : Walks deep low (do q; p) ts i σ τ post :=
  hq.bind fun _ _ hj => hj ▸ hp

/-! ### Openings -/

/-- Looking at the token behind the one at the place, if whatever is read then takes that one. -/
theorem walks_bindPeek {f : Token → Parser α} {t : Token} (ht : ts.At i t)
    (hturn : t.kind.turn σ = some ρ) (hpost : ∀ a j, post a j → i < j)
    (hf : ∀ u, ts.At (i + 1) u → Walks deep low (f u) ts i σ τ post) :
    Walks deep low (peek 1 >>= f) ts i σ τ post := by
  have hpeek : ∀ us : Tokens, peek 1 us i = ⟨(us.get (i + 1)).mapError .lex, i, [], i + 2⟩ :=
    fun _ => rfl
  cases hget : ts.get (i + 1) with
  | error e =>
    have hfault := hpeek ts
    rw [hget] at hfault
    have heq := bind_of_error (f := f) (congrArg Parsed.outcome hfault)
    rw [hfault] at heq
    exact walks_of_error heq rfl (.lexical (.single ht hturn) hget) nofun
  | ok u =>
    have hnext := hpeek ts
    rw [hget] at hnext
    have heq := bind_of_ok (f := f) (congrArg Parsed.outcome hnext)
    rw [hnext] at heq
    have hrest := hf u hget
    cases hs : (f u ts i).outcome with
    | error e => exact walks_of_error heq hs (hrest.stuck hs) fun _ hd => hrest.found hd
    | ok a =>
      obtain ⟨hwalked, ha⟩ := hrest.ok hs
      have hlt := hpost a _ ha
      refine walks_of_ok heq hs ⟨hwalked.walk, ?_, fun {us} hlexed hagrees => ?_⟩ ha
        fun _ hd => hrest.found hd
      · have hreach := hwalked.reach_le
        show max (i + 2) (f u ts i).reach ≤ (f u ts i).next + 1
        omega
      · have hsame : peek 1 us i = ⟨.ok u, i, [], i + 2⟩ := by
          rw [hpeek us, hagrees (i + 1) hlt, hget]
          rfl
        rw [bind_of_ok (congrArg Parsed.outcome hsame), hsame, hwalked.same hlexed hagrees]

/-- One or two tokens decide how what follows is to be read, so that whatever is read then must take
a token. -/
theorem walks_bindOpening {f : Opening → Parser α} (hpost : ∀ a j, post a j → i < j)
    (hstatement : ∀ t, ts.At i t → t.kind.beginsStatement = true ∨ t.kind = .ident ∨
        t.kind = .newKw ∧ (∃ u, ts.At (i + 1) u ∧ u.kind.isReceiver = true) →
      Walks deep low (f .statement) ts i σ τ post)
    (hexpression : Walks deep low (f .expression) ts i σ τ post) :
    Walks deep low (opening >>= f) ts i σ τ post := by
  unfold opening
  rw [bind_bind]
  refine walks_bindCurrent fun t ht => ?_
  split
  · next hbegins =>
    rw [pure_bind]
    exact hstatement t ht (Or.inl hbegins)
  · split
    · next hk =>
      rw [bind_bind]
      refine walks_bindPeek ht (σ := σ) (ρ := σ) (by rw [hk]; rfl) hpost fun u hu => ?_
      rw [pure_bind]
      split
      · exact hstatement t ht (Or.inr (Or.inl hk))
      · exact hexpression
    · split
      · next hk =>
        rw [bind_bind]
        refine walks_bindPeek ht (σ := σ) (ρ := σ) (by rw [hk]; rfl) hpost fun u hu => ?_
        rw [pure_bind]
        split
        · next hreceiver => exact hstatement t ht (Or.inr (Or.inr ⟨hk, u, hu, hreceiver⟩))
        · exact hexpression
      · rw [pure_bind]
        exact hexpression

/-! ### Repetitions

The count of a repetition is given by the tokens. Each round but the last takes one of them, so that
the count lasts, on these tokens and on all that agree with them. -/

theorem Walks.congr {q : Parser α} (hlexed : ts.Lexed) (h : Walks deep low q ts i σ τ post)
    (heq : ∀ {us : Tokens}, us.Lexed → us.AgreesTo ts i → p us i = q us i) :
    Walks deep low p ts i σ τ post := by
  have hts : p ts i = q ts i := heq hlexed fun _ _ => rfl
  refine ⟨fun ha => ?_, fun hf => h.stuck (hts ▸ hf), fun hd => h.found (hts ▸ hd)⟩
  obtain ⟨hwalked, hpost⟩ := h.ok (hts ▸ ha)
  rw [hts]
  refine ⟨⟨hwalked.walk, hwalked.reach_le, fun hus hagrees => ?_⟩, hpost⟩
  rw [heq hus (hagrees.mono hwalked.walk.le), hwalked.same hus hagrees]

/-- The rounds of a repetition behind the first `k` of them. -/
def chainFrom (grow? : α → Parser (Option α)) (k : Nat) (a : α) : Parser α := fun ts =>
  chainUpTo grow? (ts.items.size + 1 - k) a ts

/-- The rounds of a repetition behind the first `k` of them. -/
def collectFrom (item? : Parser (Option α)) (k : Nat) : Parser (List α) := fun ts =>
  collectUpTo item? (ts.items.size + 1 - k) ts

theorem bind_congr_at {us : Tokens} {f g : α → Parser β} (h : ∀ a j, f a us j = g a us j) :
    (p >>= f) us i = (p >>= g) us i := by
  cases hp : (p us i).outcome with
  | error e => rw [bind_of_error hp, bind_of_error hp]
  | ok a => rw [bind_of_ok hp, bind_of_ok hp, h]

theorem chainFrom_eq {grow? : α → Parser (Option α)} {us : Tokens} {k : Nat} (a : α)
    (hk : k ≤ us.items.size) : chainFrom grow? k a us i =
      (do match ← grow? a with
          | none => return a
          | some b => chainFrom grow? (k + 1) b : Parser α) us i := by
  have hcount : us.items.size + 1 - k = us.items.size + 1 - (k + 1) + 1 := by omega
  rw [chainFrom, hcount]
  exact bind_congr_at fun b? _ => by cases b? <;> rfl

theorem collectFrom_eq {item? : Parser (Option α)} {us : Tokens} {k : Nat}
    (hk : k ≤ us.items.size) : collectFrom item? k us i =
      (do match ← item? with
          | none => return []
          | some a =>
            let rest ← collectFrom item? (k + 1)
            return a :: rest : Parser (List α)) us i := by
  have hcount : us.items.size + 1 - k = us.items.size + 1 - (k + 1) + 1 := by omega
  rw [collectFrom, hcount]
  exact bind_congr_at fun a? _ => by cases a? <;> rfl

section
variable (hlexed : ts.Lexed)
include hlexed

theorem walks_chainFrom {grow? : α → Parser (Option α)}
    (hround : ∀ a {i}, low ≤ i → Walks deep low (grow? a) ts i σ σ (fun b? j => b?.isSome → i < j))
    (a : α) {i k : Nat} (hlow : low ≤ i) (hpassed : ts.Passed k i) :
    Walks deep low (chainFrom grow? k a) ts i σ σ (fun _ j => i ≤ j) := by
  refine Walks.congr hlexed ((hround a hlow).with_walk.bind fun b? j hj => ?_)
    fun hus hagrees => chainFrom_eq a (hpassed.le_size hus hagrees.below)
  obtain ⟨hsome, hwalk⟩ := hj
  cases b? with
  | none => exact walks_pure hwalk.le
  | some b =>
    have hij := hsome rfl
    have hsize := hwalk.le_size hlexed hij
    have hrest := walks_chainFrom hround b (by omega) (hpassed.succ hwalk hij)
    exact hrest.imp fun _ _ hjk => Nat.le_trans hwalk.le hjk
termination_by ts.items.size - i

theorem walks_chain {grow? : α → Parser (Option α)}
    (hround : ∀ a {i}, low ≤ i → Walks deep low (grow? a) ts i σ σ (fun b? j => b?.isSome → i < j))
    (hlow : low ≤ i) (a : α) : Walks deep low (chain grow? a) ts i σ σ (fun _ j => i ≤ j) :=
  walks_chainFrom hlexed hround a hlow .zero

theorem walks_collectFrom {item? : Parser (Option α)}
    (hround : ∀ {i}, low ≤ i → Walks deep low item? ts i σ σ (fun a? j => a?.isSome → i < j))
    {i k : Nat} (hlow : low ≤ i) (hpassed : ts.Passed k i) :
    Walks deep low (collectFrom item? k) ts i σ σ (fun _ j => i ≤ j) := by
  refine Walks.congr hlexed ((hround hlow).with_walk.bind fun a? j hj => ?_)
    fun hus hagrees => collectFrom_eq (hpassed.le_size hus hagrees.below)
  obtain ⟨hsome, hwalk⟩ := hj
  cases a? with
  | none => exact walks_pure hwalk.le
  | some a =>
    have hij := hsome rfl
    have hsize := hwalk.le_size hlexed hij
    have hrest := walks_collectFrom hround (by omega) (hpassed.succ hwalk hij)
    exact hrest.bind fun _ _ hjk => walks_pure (Nat.le_trans hwalk.le hjk)
termination_by ts.items.size - i

theorem walks_collect {item? : Parser (Option α)}
    (hround : ∀ {i}, low ≤ i → Walks deep low item? ts i σ σ (fun a? j => a?.isSome → i < j))
    (hlow : low ≤ i) : Walks deep low (collect item?) ts i σ σ (fun _ j => i ≤ j) :=
  walks_collectFrom hlexed hround hlow .zero

omit hlexed in
/-- One more item behind a comma. -/
theorem walks_moreRound {item : Parser α}
    (hitem : Walks deep low item ts (i + 1) σ σ (fun _ j => i + 1 < j)) :
    Walks deep low (do if ← accept .comma then some <$> item else return none) ts i σ σ
      (fun a? j => a?.isSome → i < j) := by
  refine walks_bindAccept (k := .comma) rfl (fun _ _ _ => ?_) fun _ _ _ => walks_pure nofun
  exact hitem.map fun _ _ hlt _ => by omega

section
variable {item : Parser α}
  (hitem : ∀ {i}, low ≤ i → Walks deep low item ts i σ σ (fun _ j => i < j))
include hitem

/-- More items behind commas. -/
theorem walks_more (hlow : low ≤ i) :
    Walks deep low (more item) ts i σ σ (fun _ j => i ≤ j) := by
  exact walks_collect hlexed (fun hlow => walks_moreRound (hitem (by omega))) hlow

/-- Items with commas between them. -/
theorem walks_separated (hlow : low ≤ i) :
    Walks deep low (separated item) ts i σ σ (fun _ j => i < j) := by
  refine (hitem hlow).bind fun _ j hij => ?_
  refine (walks_more hlexed hitem (by omega)).bind fun _ k hjk => walks_pure ?_
  exact Nat.lt_of_lt_of_le hij hjk

end

end

end

end Parser

end CommandShell
