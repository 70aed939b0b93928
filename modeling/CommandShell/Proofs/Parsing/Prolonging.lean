import CommandShell.Proofs.Parsing.Walks

/-! # Prolonging: what a parser does when more tokens follow

A parser that fails at the end of its input has read the beginning of something: there are tokens
that complete it. What was decided before must not change when they follow, though the end of the
input was looked at. `Viable` says this of a parser at a place among the tokens:

* if it succeeds, it does the same on all tokens that begin with these; where it stops at the end,
  the token that follows must be of a kind that may stand there;
* if it fails at the end, there are tokens with which it succeeds.

What follows may need more levels than are left. So there are two parsers, `p` with the levels at
hand and `q` with some to spare. `Promises` is `Viable` at all places, and what is needed of a
parser that goes on after another: how it begins at the end of the tokens, and how it is completed
there. Every way to build a parser keeps this. -/

namespace CommandShell

open CommandShell.Parser

/-- Is the failure a parse error about the end of the input? -/
def Failure.AtEnd : Failure → Prop
  | .parse ⟨_, some t⟩ => t.kind = .eof
  | _ => False

/-- Any kind. -/
def Kind.Any (_ : Kind) : Prop := True

/-- A token of the kind that is made up. -/
def Token.made (k : Kind) : Token := ⟨k, if k.spelling = "" then "x" else k.spelling, 1, 1⟩

theorem Token.proper_made {k : Kind} (hk : k ≠ .eof) : (Token.made k).Proper where
  kind_ne_eof := hk
  lexeme_eq hspelling := if_neg hspelling
  line_pos := Int.le_refl 1

namespace Tokens

/-! ### More tokens -/

/-- The tokens with more of them before the end. -/
def followedBy (ts : Tokens) (more : List Token) : Tokens := ⟨ts.items ++ more.toArray, ts.ending⟩

/-- The tokens `us` begin with the tokens `ts`. -/
structure Prolongs (us ts : Tokens) : Prop where
  lexed : us.Lexed
  same {k : Nat} : k < ts.items.size → us.get k = ts.get k

/-- At `i` stand the tokens, and behind them one of a kind in `S`. -/
def Shows (us : Tokens) (S : Kind → Prop) : Nat → List Token → Prop
  | i, [] => ∃ t, us.At i t ∧ S t.kind
  | i, t :: more => us.At i t ∧ us.Shows S (i + 1) more

/-- If one of a kind in `S` stands behind the tokens, the first of them all is of a kind in `T`. -/
def Leads (T S : Kind → Prop) : List Token → Prop
  | [] => ∀ k, S k → T k
  | t :: _ => T t.kind

variable {us ts : Tokens} {T S S₁ : Kind → Prop} {i k : Nat} {more rest : List Token}

theorem Shows.head (hleads : Leads T S more) (h : us.Shows S i more) :
    ∃ t, us.At i t ∧ T t.kind := by
  cases more with
  | nil =>
    obtain ⟨t, ht, hk⟩ := h
    exact ⟨t, ht, hleads _ hk⟩
  | cons t more => exact ⟨t, h.1, hleads⟩

theorem Shows.right (h : us.Shows S i (more ++ rest)) : us.Shows S (i + more.length) rest := by
  induction more generalizing i with
  | nil => exact h
  | cons t more ih =>
    have hrest := ih h.2
    rwa [Nat.add_right_comm, Nat.add_assoc] at hrest

theorem Shows.left (hleads : Leads S₁ S rest) (h : us.Shows S i (more ++ rest)) :
    us.Shows S₁ i more := by
  induction more generalizing i with
  | nil => exact Shows.head hleads h
  | cons t more ih => exact ⟨h.1, ih h.2⟩

theorem Shows.mono (hS : ∀ k, S k → S₁ k) (h : us.Shows S i more) : us.Shows S₁ i more := by
  induction more generalizing i with
  | nil =>
    obtain ⟨t, ht, hk⟩ := h
    exact ⟨t, ht, hS _ hk⟩
  | cons t more ih => exact ⟨h.1, ih h.2⟩

theorem Leads.append (h : Leads T S₁ more) (hrest : Leads S₁ S rest) :
    Leads T S (more ++ rest) := by
  cases more with
  | cons t more => exact h
  | nil =>
    cases rest with
    | nil => exact fun k hk => h k (hrest k hk)
    | cons t rest => exact h t.kind hrest

theorem Leads.mono {T' S' : Kind → Prop} (hT : ∀ k, T k → T' k) (hS : ∀ k, S' k → S k)
    (h : Leads T S more) : Leads T' S' more := by
  cases more with
  | nil => exact fun k hk => hT k (h k (hS k hk))
  | cons t more => exact hT _ h

theorem Lexed.prolongs (hts : ts.Lexed) : ts.Prolongs ts := ⟨hts, fun _ => rfl⟩

theorem Prolongs.at_of_lt {t : Token} (h : us.Prolongs ts) (hk : k < ts.items.size)
    (ht : ts.At k t) : us.At k t := (h.same hk).trans ht

/-- There is a token before the end, and it is not the end token. -/
theorem Lexed.exists_at (hts : ts.Lexed) (hi : i < ts.items.size) :
    ∃ t, ts.At i t ∧ t.kind ≠ .eof := by
  have hmem : ts.items[i] ∈ ts.items.toList := by simp
  exact ⟨ts.items[i], (at_of_lt hi).mpr rfl, (hts.proper _ hmem).kind_ne_eof⟩

/-- At the end there is nothing but the end token. -/
theorem Lexed.kind_at_end (hts : ts.Lexed) {t : Token} (ht : ts.At ts.items.size t) :
    t.kind = .eof := by
  by_contra hk
  exact Nat.lt_irrefl _ (hts.lt_size ht hk)

theorem Prolongs.size_le (hts : ts.Lexed) (h : us.Prolongs ts) :
    ts.items.size ≤ us.items.size := by
  by_contra hlt
  have hlast : ts.items.size - 1 < ts.items.size := by omega
  obtain ⟨t, ht, hk⟩ := hts.exists_at hlast
  have hsize := h.lexed.lt_size (h.at_of_lt hlast ht) hk
  omega

theorem toList_followedBy (ts : Tokens) (more : List Token) :
    (ts.followedBy more).items.toList = ts.items.toList ++ more := by
  simp [followedBy]

theorem size_followedBy (ts : Tokens) (more : List Token) :
    (ts.followedBy more).items.size = ts.items.size + more.length := by
  simp [followedBy]

theorem lexed_followedBy (hts : ts.Lexed) (hmore : ∀ t ∈ more, t.Proper) :
    (ts.followedBy more).Lexed where
  proper t ht := by
    rw [toList_followedBy] at ht
    rcases List.mem_append.mp ht with ht | ht
    · exact hts.proper t ht
    · exact hmore t ht
  ending_eof := hts.ending_eof

theorem prolongs_followedBy (hts : ts.Lexed) (hmore : ∀ t ∈ more, t.Proper) :
    (ts.followedBy more).Prolongs ts where
  lexed := lexed_followedBy hts hmore
  same {k} hk := by
    have hlt : k < (ts.followedBy more).items.size := by
      rw [size_followedBy]
      omega
    rw [get, get, dif_pos hlt, dif_pos hk]
    exact congrArg _ (Array.getElem_append_left hk)

/-- What is inserted stands behind the tokens, and before their end. -/
theorem shows_followedBy {last : Token} (hlast : ts.ending = .ok last) (hk : S last.kind)
    (more : List Token) : (ts.followedBy more).Shows S ts.items.size more := by
  suffices h : ∀ rest done : List Token, done ++ rest = more →
      (ts.followedBy more).Shows S (ts.items.size + done.length) rest from h more [] rfl
  intro rest
  induction rest with
  | nil =>
    rintro done rfl
    refine ⟨last, ?_, hk⟩
    rw [At, get, dif_neg, followedBy, hlast]
    rw [size_followedBy, List.append_nil]
    omega
  | cons t rest ih =>
    rintro done rfl
    refine ⟨?_, ?_⟩
    · have hlt : ts.items.size + done.length < (ts.followedBy (done ++ t :: rest)).items.size := by
        rw [size_followedBy, List.length_append, List.length_cons]
        omega
      rw [at_of_lt hlt]
      simp [followedBy]
    · have hrest := ih (done ++ [t]) (by simp)
      rwa [List.length_append, List.length_singleton, ← Nat.add_assoc] at hrest

end Tokens

namespace Parser

variable {α β : Type}

/-! ### The judgements -/

/-- The parser reads `a` from `i` up to `j`, whatever it reports. -/
def Gets (p : Parser α) (ts : Tokens) (i : Nat) (a : α) (j : Nat) : Prop := ∃ ds, Runs p ts i a j ds

/-- Wherever the tokens stand with one of a kind in `S` behind them, the parser reads `a` from
them; they lead with a kind in `T`. -/
structure Completes (T S : Kind → Prop) (q : Parser α) (ts : Tokens) (more : List Token) (a : α) :
    Prop where
  proper : ∀ t ∈ more, t.Proper
  leads : Tokens.Leads T S more
  gets {us : Tokens} {i : Nat} : us.Prolongs ts → us.Shows S i more →
    Gets q us i a (i + more.length)

/-- There are tokens from which the parser reads something. -/
def Completable (T S : Kind → Prop) (q : Parser α) (ts : Tokens) : Prop :=
  ∃ more a, Completes T S q ts more a

/-- What a parser does at the place `i` when tokens follow the given ones. Behind those that are
read stands one of a kind in `S`. -/
structure Viable (S : Kind → Prop) (p q : Parser α) (ts : Tokens) (i : Nat) : Prop where
  ok {a : α} : (p ts i).outcome = .ok a → i ≤ (p ts i).next ∧ (p ts i).next ≤ ts.items.size ∧
    ∀ {us : Tokens}, us.Prolongs ts → ((p ts i).next = ts.items.size →
      us.Shows S ts.items.size []) → Gets q us i a (p ts i).next
  stuck {f : Failure} : (p ts i).outcome = .error f → f.AtEnd → ∃ more a,
    (∀ t ∈ more, t.Proper) ∧ ∀ {us : Tokens}, us.Prolongs ts → us.Shows S ts.items.size more →
      Gets q us i a (ts.items.size + more.length)

/-- If the parser succeeds at the end, it takes nothing, there or before a token of a kind in `S`,
which is one in `T`. -/
def Ends (T S : Kind → Prop) (p q : Parser α) (ts : Tokens) : Prop :=
  ∀ a, (p ts ts.items.size).outcome = .ok a → (p ts ts.items.size).next = ts.items.size ∧
    (∀ k, S k → T k) ∧ ∀ {us : Tokens}, us.Prolongs ts → us.Shows S ts.items.size [] →
      Gets q us ts.items.size a ts.items.size

/-- What a parser does at all places up to the end. It may stand behind one that leaves a token of a
kind in `T`. -/
structure Passes (T S : Kind → Prop) (p q : Parser α) (ts : Tokens) : Prop where
  viable {i : Nat} : i < ts.items.size → Viable S p q ts i
  ends : Ends T S p q ts

/-- A parser that passes, and can be completed where there is nothing for it. -/
structure Promises (T S : Kind → Prop) (p q : Parser α) (ts : Tokens) : Prop
    extends Passes T S p q ts where
  completable : Completable T S q ts

section
variable {p q : Parser α} {f g : α → Parser β} {ts us : Tokens} {i j k : Nat} {a : α} {b : β}
  {T S S₁ T' S' : Kind → Prop}

theorem Gets.bind (h : Gets p us i a j) (hf : Gets (f a) us j b k) : Gets (p >>= f) us i b k := by
  obtain ⟨ds, hp⟩ := h
  obtain ⟨ds', hf⟩ := hf
  exact ⟨ds ++ ds', runs_bind.mpr ⟨a, j, ds, ds', hp, hf, rfl⟩⟩

theorem gets_pure : Gets (pure a) us i a i := ⟨[], runs_pure.mpr ⟨rfl, rfl, rfl⟩⟩

theorem Gets.congr (heq : p us i = q us i) (h : Gets q us i a j) : Gets p us i a j := by
  obtain ⟨ds, reach, hq⟩ := h
  exact ⟨ds, reach, heq.trans hq⟩

theorem Gets.outcome (h : Gets p us i a j) : (p us i).outcome = .ok a ∧ (p us i).next = j := by
  obtain ⟨ds, hp⟩ := h
  exact ⟨(runs_iff.mp hp).1, (runs_iff.mp hp).2.1⟩

/-! ### Weaker statements -/

theorem Viable.mono (hS : ∀ k, S' k → S k) (h : Viable S p q ts i) : Viable S' p q ts i where
  ok ha := by
    obtain ⟨hle, hsize, hgets⟩ := h.ok ha
    exact ⟨hle, hsize, fun hus hshows => hgets hus fun hend => (hshows hend).mono hS⟩
  stuck hf hend := by
    obtain ⟨more, a, hproper, hgets⟩ := h.stuck hf hend
    exact ⟨more, a, hproper, fun hus hshows => hgets hus (hshows.mono hS)⟩

theorem Completable.mono (hT : ∀ k, T k → T' k) (hS : ∀ k, S' k → S k)
    (h : Completable T S q ts) : Completable T' S' q ts := by
  obtain ⟨more, a, hproper, hleads, hgets⟩ := h
  exact ⟨more, a, hproper, hleads.mono hT hS, fun hus hshows => hgets hus (hshows.mono hS)⟩

theorem Passes.mono (hT : ∀ k, T k → T' k) (hS : ∀ k, S' k → S k) (h : Passes T S p q ts) :
    Passes T' S' p q ts where
  viable hi := (h.viable hi).mono hS
  ends a ha := by
    obtain ⟨hnext, hST, hgets⟩ := h.ends a ha
    exact ⟨hnext, fun k hk => hT k (hST k (hS k hk)), fun hus hshows => hgets hus (hshows.mono hS)⟩

theorem Promises.mono (hT : ∀ k, T k → T' k) (hS : ∀ k, S' k → S k) (h : Promises T S p q ts) :
    Promises T' S' p q ts :=
  ⟨h.toPasses.mono hT hS, h.completable.mono hT hS⟩

/-- What promises behind tokens of some kinds can be completed where any token was asked for. -/
theorem Promises.anywhere (T : Kind → Prop) (h : Promises T S p q ts) :
    Promises Kind.Any S p q ts := h.mono (fun _ _ => trivial) fun _ hk => hk

theorem Viable.congr {p' q' : Parser α} (hp : p ts i = p' ts i)
    (hq : ∀ {us : Tokens}, us.Prolongs ts → q us i = q' us i) (h : Viable S p' q' ts i) :
    Viable S p q ts i where
  ok ha := by
    rw [hp] at ha ⊢
    obtain ⟨hle, hsize, hgets⟩ := h.ok ha
    exact ⟨hle, hsize, fun hus hshows => (hgets hus hshows).congr (hq hus)⟩
  stuck hf hend := by
    rw [hp] at hf
    obtain ⟨more, a, hproper, hgets⟩ := h.stuck hf hend
    exact ⟨more, a, hproper, fun hus hshows => (hgets hus hshows).congr (hq hus)⟩

/-- A parser that promises is viable at the end too. -/
theorem Promises.at (h : Promises T S p q ts) (hi : i ≤ ts.items.size) : Viable S p q ts i := by
  rcases Nat.lt_or_eq_of_le hi with hlt | rfl
  · exact h.viable hlt
  · refine ⟨fun ha => ?_, fun _ _ => ?_⟩
    · obtain ⟨hnext, -, hgets⟩ := h.ends _ ha
      rw [hnext]
      exact ⟨Nat.le_refl _, Nat.le_refl _, fun hus hshows => hgets hus (hshows rfl)⟩
    · obtain ⟨more, a, hproper, -, hgets⟩ := h.completable
      exact ⟨more, a, hproper, fun hus hshows => hgets hus hshows⟩

/-! ### One parser after the other -/

/-- A parser that fails elsewhere than at the end. -/
theorem viable_of_error {e : Failure} (h : (p ts i).outcome = .error e) (he : ¬ e.AtEnd) :
    Viable S p q ts i where
  ok ha := by rw [h] at ha; cases ha
  stuck hf hend := by rw [h] at hf; cases hf; exact absurd hend he

theorem viable_bindFail {e : Failure} (he : ¬ e.AtEnd) {q : Parser β} :
    Viable S (fail e >>= f) q ts i :=
  viable_of_error (congrArg Parsed.outcome (bind_of_error rfl)) he

/-- Going on from a place that is reached whatever follows. -/
theorem Viable.bind_of_ok (h : (p ts i).outcome = .ok a) (hle : i ≤ (p ts i).next)
    (hgets : ∀ {us : Tokens}, us.Prolongs ts → Gets q us i a (p ts i).next)
    (hrest : Viable S (f a) (g a) ts (p ts i).next) : Viable S (p >>= f) (q >>= g) ts i := by
  have heq := Parser.bind_of_ok (f := f) h
  refine ⟨fun {b} hb => ?_, fun {e} he hend => ?_⟩
  · rw [heq] at hb ⊢
    obtain ⟨hnext, hsize, hrest⟩ := hrest.ok hb
    exact ⟨Nat.le_trans hle hnext, hsize,
      fun hus hshows => (hgets hus).bind (hrest hus hshows)⟩
  · rw [heq] at he
    obtain ⟨more, b, hproper, hrest⟩ := hrest.stuck he hend
    exact ⟨more, b, hproper, fun hus hshows => (hgets hus).bind (hrest hus hshows)⟩

/-- Going on after a step that is the same whatever follows. -/
theorem Viable.after (hts : ts.Lexed) (hle : i ≤ j)
    (hstep : ∀ {us : Tokens}, us.Prolongs ts → Gets p us i a j)
    (hrest : Viable S (f a) (g a) ts j) : Viable S (p >>= f) (p >>= g) ts i := by
  obtain ⟨hok, hnext⟩ := (hstep hts.prolongs).outcome
  subst hnext
  exact .bind_of_ok hok hle hstep hrest

theorem Viable.bind (hp : Viable S₁ p q ts i)
    (hf : ∀ a, (p ts i).outcome = .ok a → (p ts i).next < ts.items.size →
      Viable S (f a) (g a) ts (p ts i).next)
    (hends : ∀ a, Ends S₁ S (f a) (g a) ts) (hcompletable : ∀ a, Completable S₁ S (g a) ts) :
    Viable S (p >>= f) (q >>= g) ts i := by
  cases houtcome : (p ts i).outcome with
  | error e =>
    have heq := bind_of_error (f := f) houtcome
    refine ⟨fun hb => ?_, fun he hend => ?_⟩
    · rw [heq] at hb
      cases hb
    · rw [heq] at he
      cases he
      obtain ⟨more, a, hproper, hgets⟩ := hp.stuck houtcome hend
      obtain ⟨more', b, hcompletes⟩ := hcompletable a
      refine ⟨more ++ more', b, ?_, fun hus hshows => ?_⟩
      · exact List.forall_mem_append.mpr ⟨hproper, hcompletes.proper⟩
      · rw [List.length_append, ← Nat.add_assoc]
        exact (hgets hus (hshows.left hcompletes.leads)).bind (hcompletes.gets hus hshows.right)
  | ok a =>
    obtain ⟨hle, hsize, hgets⟩ := hp.ok houtcome
    rcases Nat.lt_or_eq_of_le hsize with hlt | heq
    · exact .bind_of_ok houtcome hle (fun hus => hgets hus fun h => absurd h (Nat.ne_of_lt hlt))
        (hf a houtcome hlt)
    · -- The first stops at the end, so that the second begins there.
      have hbind := Parser.bind_of_ok (f := f) houtcome
      rw [heq] at hbind hle hgets
      refine ⟨fun hb => ?_, fun _ _ => ?_⟩
      · rw [hbind] at hb ⊢
        obtain ⟨hnext, hS, hrest⟩ := hends a _ hb
        rw [hnext]
        refine ⟨hle, Nat.le_refl _, fun hus hshows => ?_⟩
        exact (hgets hus fun _ => (hshows rfl).mono hS).bind (hrest hus (hshows rfl))
      · obtain ⟨more, b, hcompletes⟩ := hcompletable a
        refine ⟨more, b, hcompletes.proper, fun hus hshows => ?_⟩
        exact (hgets hus fun _ => hshows.head hcompletes.leads).bind (hcompletes.gets hus hshows)

theorem Viable.andThen (hp : Viable S₁ p q ts i) (hf : ∀ a, Promises S₁ S (f a) (g a) ts) :
    Viable S (p >>= f) (q >>= g) ts i :=
  hp.bind (fun a _ hlt => (hf a).viable hlt) (fun a => (hf a).ends) fun a => (hf a).completable

theorem Ends.bind (hp : Ends T S₁ p q ts) (hf : ∀ a, Ends S₁ S (f a) (g a) ts) :
    Ends T S (p >>= f) (q >>= g) ts := by
  intro b hb
  cases houtcome : (p ts ts.items.size).outcome with
  | error e =>
    rw [bind_of_error houtcome] at hb
    cases hb
  | ok a =>
    obtain ⟨hnext, hT, hgets⟩ := hp a houtcome
    have heq := Parser.bind_of_ok (f := f) houtcome
    rw [hnext] at heq
    rw [heq] at hb ⊢
    obtain ⟨hnext, hS, hrest⟩ := hf a b hb
    refine ⟨hnext, fun k hk => hT k (hS k hk), fun hus hshows => ?_⟩
    exact (hgets hus (hshows.mono hS)).bind (hrest hus hshows)

theorem Completable.bind (hp : Completable T S₁ q ts) (hf : ∀ a, Completable S₁ S (g a) ts) :
    Completable T S (q >>= g) ts := by
  obtain ⟨more, a, hproper, hleads, hgets⟩ := hp
  obtain ⟨more', b, hcompletes⟩ := hf a
  refine ⟨more ++ more', b, ?_, hleads.append hcompletes.leads, fun hus hshows => ?_⟩
  · exact List.forall_mem_append.mpr ⟨hproper, hcompletes.proper⟩
  · rw [List.length_append, ← Nat.add_assoc]
    exact (hgets hus (hshows.left hcompletes.leads)).bind (hcompletes.gets hus hshows.right)

theorem Promises.bind (hp : Promises T S₁ p q ts) (hf : ∀ a, Promises S₁ S (f a) (g a) ts) :
    Promises T S (p >>= f) (q >>= g) ts where
  viable hi := (hp.viable hi).andThen hf
  ends := hp.ends.bind fun a => (hf a).ends
  completable := hp.completable.bind fun a => (hf a).completable

theorem promises_pure (hS : ∀ k, S k → T k) : Promises T S (pure a) (pure a) ts where
  viable hi := by
    refine ⟨fun {b} hb => ?_, fun he => by cases he⟩
    cases hb
    exact ⟨Nat.le_refl _, Nat.le_of_lt hi, fun _ _ => gets_pure⟩
  ends b hb := by
    cases hb
    exact ⟨rfl, hS, fun _ _ => gets_pure⟩
  completable := ⟨[], a, nofun, hS, fun _ _ => gets_pure⟩

/-- A parser that has done its work leaves what stands behind it. -/
theorem promises_done : Promises S S (pure a) (pure a) ts := promises_pure fun _ hk => hk

theorem Promises.map {h : α → β} (hp : Promises T S p q ts) :
    Promises T S (h <$> p) (h <$> q) ts := hp.bind fun _ => promises_done

theorem Viable.map {h : α → β} (hp : Viable S p q ts i) : Viable S (h <$> p) (h <$> q) ts i :=
  hp.andThen fun _ => promises_done

/-- A check does nothing but report, so that one goes on from where it is. -/
theorem Promises.check {c : Parser Unit} (hc : ∀ us i, Gets c us i () i)
    (h : Promises T S p q ts) : Promises T S (do c; p) (do c; q) ts := by
  have hcheck : Promises T T c c ts := by
    refine ⟨⟨fun {i} hi => ⟨fun _ => ?_, fun he => ?_⟩, fun _ _ => ?_⟩, [], (), nofun,
      fun _ hk => hk, fun _ _ => hc _ _⟩
    · rw [(hc ts i).outcome.2]
      exact ⟨Nat.le_refl i, Nat.le_of_lt hi, fun _ _ => hc _ i⟩
    · rw [(hc ts i).outcome.1] at he
      cases he
    · exact ⟨(hc ts _).outcome.2, fun _ hk => hk, fun _ _ => hc _ _⟩
  exact hcheck.bind fun _ => h

end

end Parser

end CommandShell
