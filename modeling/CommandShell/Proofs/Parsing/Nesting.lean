import CommandShell.Brackets
import CommandShell.Proofs.Parsing.Yield

/-! # Nesting: every rule closes the brackets that it opens

What the bracket count says of some tokens does not change if the tokens that a rule reads are left
out (`Tokens.Nested`): the rule has closed every bracket that it opened, and no other. As for the
yield, this holds of every production if it holds of the rules that it calls. The arguments of a
call are read without their opening bracket, so that a closing bracket is left after them. -/

namespace CommandShell

/-- Does a token of the kind leave the open brackets as they are? -/
def Kind.isPlain (k : Kind) : Bool := k.closer? == none && !k.isCloser && k != .eof

theorem Kind.isCloser_of_closer? {k closer : Kind} (h : k.closer? = some closer) :
    closer.isCloser = true := by
  unfold closer? at h
  split at h <;> cases h <;> rfl

namespace Brackets

theorem scan_plain {t : Token} (ht : t.kind.isPlain = true) (b : Brackets) (rest : List Token) :
    b.scan (t :: rest) = b.scan rest := by
  simp only [Kind.isPlain, Bool.and_eq_true, beq_iff_eq, Bool.not_eq_true'] at ht
  rw [scan, ht.1.1]
  simp [ht.1.2]

theorem scan_opener {t : Token} {closer : Kind} (ht : t.kind.closer? = some closer) (b : Brackets)
    (rest : List Token) : b.scan (t :: rest) = scan ⟨closer :: b.awaited⟩ rest := by
  rw [scan, ht]

theorem scan_closer {t : Token} (ht : t.kind.isCloser = true) (outer : List Kind)
    (rest : List Token) : scan ⟨t.kind :: outer⟩ (t :: rest) = scan ⟨outer⟩ rest := by
  have hopens : t.kind.closer? = none := by
    revert ht; cases t.kind <;> decide
  rw [scan, hopens]
  simp [ht]

/-- The end token is neither an opening nor a closing bracket. -/
theorem scan_eof {t : Token} (ht : t.kind = .eof) (b : Brackets) : b.scan [t] = b.scan [] := by
  simp [scan, ht, Kind.closer?, Kind.isCloser]

end Brackets

namespace Tokens

/-- Between the two indices the brackets are closed that are opened, and no others. -/
def Nested (ts : Tokens) (i j : Nat) : Prop := ∃ window,
  ts.items.toList.drop i = window ++ ts.items.toList.drop j ∧
    ∀ (b : Brackets) rest, b.scan (window ++ rest) = b.scan rest

variable {ts : Tokens} {i j k : Nat}

theorem Nested.refl : ts.Nested i i := ⟨[], rfl, fun _ _ => rfl⟩

theorem Nested.trans (h : ts.Nested i j) (h' : ts.Nested j k) : ts.Nested i k := by
  obtain ⟨w, hw, hscan⟩ := h
  obtain ⟨v, hv, hscan'⟩ := h'
  refine ⟨w ++ v, by rw [hw, hv, List.append_assoc], fun b rest => ?_⟩
  rw [List.append_assoc, hscan, hscan']

theorem Lexed.drop_eq (h : ts.Lexed) {t : Token} (ht : ts.At i t) (hk : t.kind ≠ .eof) :
    ts.items.toList.drop i = t :: ts.items.toList.drop (i + 1) := by
  obtain ⟨hlt, hget⟩ := List.getElem?_eq_some_iff.mp (h.getElem? ht hk)
  rw [List.drop_eq_getElem_cons hlt, hget]

/-- A plain token before what is nested. -/
theorem Lexed.nested_at (h : ts.Lexed) {t : Token} (ht : ts.At i t) (hk : t.kind.isPlain = true)
    (hrest : ts.Nested (i + 1) j) : ts.Nested i j := by
  have hne : t.kind ≠ .eof := fun heof => by rw [heof] at hk; cases hk
  refine Nested.trans ⟨[t], h.drop_eq ht hne, fun b rest => ?_⟩ hrest
  exact Brackets.scan_plain hk b rest

theorem Lexed.nested_has (h : ts.Lexed) {kind : Kind} (hkind : kind.isPlain = true)
    (ht : ts.Has i kind) (hrest : ts.Nested (i + 1) j) : ts.Nested i j := by
  obtain ⟨t, ht, rfl⟩ := ht
  exact h.nested_at ht hkind hrest

theorem Lexed.nested_last (h : ts.Lexed) {kind : Kind} (hkind : kind.isPlain = true)
    (ht : ts.Has i kind) : ts.Nested i (i + 1) := h.nested_has hkind ht .refl

/-- What is nested between a bracket and its closer. -/
theorem Lexed.nested_brackets (h : ts.Lexed) {opener closer : Kind}
    (hopener : opener.closer? = some closer) (ho : ts.Has i opener) (hin : ts.Nested (i + 1) j)
    (hc : ts.Has j closer) : ts.Nested i (j + 1) := by
  obtain ⟨t, ht, rfl⟩ := ho
  obtain ⟨u, hu, rfl⟩ := hc
  obtain ⟨w, hw, hscan⟩ := hin
  have hopens : t.kind ≠ .eof := fun heof => by rw [heof] at hopener; cases hopener
  have hcloses : u.kind.isCloser = true := Kind.isCloser_of_closer? hopener
  have hne : u.kind ≠ .eof := fun heof => by rw [heof] at hcloses; cases hcloses
  refine ⟨t :: (w ++ [u]), ?_, fun b rest => ?_⟩
  · rw [h.drop_eq ht hopens, hw, h.drop_eq hu hne]; simp
  · rw [List.cons_append, Brackets.scan_opener hopener, List.append_assoc, hscan]
    exact Brackets.scan_closer hcloses b.awaited rest

/-- What stands up to a closer that is taken along. -/
def ClosedBy (ts : Tokens) (closer : Kind) (i j : Nat) : Prop :=
  ∃ k, ts.Nested i k ∧ ts.Has k closer ∧ j = k + 1

theorem Lexed.nested_closedBy (h : ts.Lexed) {opener closer : Kind}
    (hopener : opener.closer? = some closer) (ho : ts.Has i opener) :
    ts.ClosedBy closer (i + 1) j → ts.Nested i j := by
  rintro ⟨k, hin, hc, rfl⟩
  exact h.nested_brackets hopener ho hin hc

end Tokens

/-! ### The kinds that rules take -/

theorem isPlain_of_precedence {k : Kind} {p : Nat} (h : k.precedence? = some p) :
    k.isPlain = true := by
  unfold Kind.precedence? at h
  split at h <;> first | rfl | cases h

theorem isPlain_of_compound {k : Kind} (h : k.compoundOp?.isSome = true) : k.isPlain = true := by
  revert h; cases k <;> decide

theorem isPlain_of_rule {k : Kind} {rule : Rule Stmt} (h : Grammar.statementRule? k = some rule) :
    k.isPlain = true := by
  unfold Grammar.statementRule? at h
  split at h <;> first | rfl | cases h

namespace Grammar

open CommandShell.Parser

variable {ts : Tokens} (h : ts.Lexed)
include h

/-! ### Lists -/

section
variable {α : Type} {item : Shape α} (hitem : ∀ i a j ds, item i a j ds → ts.Nested i j)
include hitem

theorem nested_more {i : Nat} {as : List α} {j : Nat} {ds : List Diagnostic}
    (has : Collected (MoreRound ts item) i as j ds) : ts.Nested i j := by
  induction has with
  | stop hround => cases hround; exact .refl
  | more hround _ ih =>
    cases hround with
    | more hcomma ha => exact h.nested_has rfl hcomma ((hitem _ _ _ _ ha).trans ih)

theorem nested_separated {i : Nat} {as : List α} {j : Nat} {ds : List Diagnostic} :
    Separated ts item i as j ds → ts.Nested i j
  | .mk ha has _ => (hitem _ _ _ _ ha).trans (nested_more h hitem has)

end

theorem nested_name {i : Nat} {t : Token} {j : Nat} {ds : List Diagnostic} :
    NameRun ts i t j ds → ts.Nested i j := by
  rintro ⟨ht, hk, rfl, -⟩
  exact h.nested_last rfl ⟨t, ht, hk⟩

theorem nested_params {i : Nat} {names : List Token} {j : Nat} {ds : List Diagnostic} :
    ParamsRun ts i names j ds → ts.Nested i j
  | .none hopen hclose => h.nested_brackets rfl hopen .refl hclose
  | .some hopen _ hnames hclose =>
    h.nested_brackets rfl hopen (nested_separated h (fun _ _ _ _ => nested_name h) hnames) hclose

theorem nested_path {i : Nat} {tail : List Token} {j : Nat} {ds : List Diagnostic}
    (htail : Collected (PathRound ts) i tail j ds) : ts.Nested i j := by
  induction htail with
  | stop hround => cases hround; exact .refl
  | more hround _ ih =>
    cases hround with
    | more hdot ht hk => exact h.nested_has rfl hdot (h.nested_has rfl ⟨_, ht, hk⟩ ih)

/-! ### Productions -/

/-- All that is known: whatever is read is nested, arguments up to their closer. -/
abbrev nested (ts : Tokens) : Calls :=
  .bySort (fun _ i _ j _ => ts.Nested i j) (fun closer i _ j _ => ts.ClosedBy closer i j)
    (fun _ i _ j _ => ts.Nested i j) (fun i _ j _ => ts.Nested i j) (fun _ i _ j _ => ts.Nested i j)
    (ParamsRun ts)

theorem nested_args {closer : Kind} {i : Nat} {es : List Expr} {j : Nat} {ds : List Diagnostic} :
    ArgsRun (nested ts) ts closer i es j ds → ts.ClosedBy closer i j
  -- The opener belongs to the caller, so that alone the arguments are not balanced.
  | .none hclose => ⟨i, .refl, hclose, rfl⟩
  | .some _ hes hclose => ⟨_, nested_separated h (fun _ _ _ _ he => he) hes, hclose, rfl⟩

theorem nested_binaryChain {power n i : Nat} {left e : Expr} {j : Nat} {ds : List Diagnostic}
    (hchain : Chained (BinaryRound (nested ts) ts power) n left i e j ds) : ts.Nested i j := by
  induction hchain with
  | stop hround => cases hround; exact .refl
  | more hround _ ih =>
    cases hround with
    | more ht hp _ hright =>
      exact (h.nested_at ht (isPlain_of_precedence hp) hright).trans ih

theorem nested_accessChain {n i : Nat} {target e : Expr} {j : Nat} {ds : List Diagnostic}
    (hchain : Chained (AccessRound (nested ts) ts) n target i e j ds) : ts.Nested i j := by
  induction hchain with
  | stop hround => cases hround; exact .refl
  | more hround _ ih =>
    refine Tokens.Nested.trans ?_ ih
    cases hround with
    | member safe hdot ht hk =>
      exact h.nested_has (by cases safe <;> rfl) hdot (h.nested_last rfl ⟨_, ht, hk⟩)
    | call safe hopen hargs => exact h.nested_closedBy (by cases safe <;> rfl) hopen hargs
    | index safe hopen _ hargs => exact h.nested_closedBy (by cases safe <;> rfl) hopen hargs
    | post step hstep => exact h.nested_last (by cases step <;> rfl) hstep

theorem nested_expr {rule : Rule Expr} {i : Nat} {e : Expr} {j : Nat} {ds : List Diagnostic}
    (hrun : ExprRun (nested ts) ts rule i e j ds) : ts.Nested i j := by
  cases hrun with
  | expr he => exact he
  | ternaryPlain he => exact he
  | ternary hc hq hy hcolon hn =>
    have hno := h.nested_has rfl hcolon hn
    exact Tokens.Nested.trans hc (h.nested_has rfl hq (Tokens.Nested.trans hy hno))
  | nullishPlain he => exact he
  | nullish hl hop hk hr => exact Tokens.Nested.trans hl (h.nested_has rfl ⟨_, hop, hk⟩ hr)
  | binary he _ hchain => exact Tokens.Nested.trans he (nested_binaryChain h hchain)
  | sign hop hk he =>
    have hall : ∀ k ∈ signs, k.isPlain = true := by decide
    exact h.nested_at hop (hall _ hk) he
  | pre step hstep he => exact h.nested_has (by cases step <;> rfl) hstep he
  | unaryPlain _ _ he => exact he
  | powerPlain he => exact he
  | power hb hop hk he => exact Tokens.Nested.trans hb (h.nested_has rfl ⟨_, hop, hk⟩ he)
  | access he _ hchain => exact Tokens.Nested.trans he (nested_accessChain h hchain)
  | atom ht hk =>
    have hall : ∀ k ∈ atoms, k.isPlain = true := by decide
    exact h.nested_at ht (hall _ hk) .refl
  | group hopen he hclose => exact h.nested_brackets rfl hopen he hclose
  | array hopen hes => exact h.nested_closedBy rfl hopen hes
  | new _ he => exact he
  | lambda hfn hnames hbody => exact h.nested_has rfl hfn ((nested_params h hnames).trans hbody)
  | construction hnew hhead hk htail _ hopen hargs =>
    have hargs := h.nested_closedBy rfl hopen hargs
    have hpath := h.nested_has rfl ⟨_, hhead, hk⟩ ((nested_path h htail).trans hargs)
    exact h.nested_has rfl hnew hpath

theorem nested_declarator {keyword : Token} {i : Nat} {d : Declarator} {j : Nat}
    {ds : List Diagnostic} : DeclaratorRun (nested ts) ts keyword i d j ds → ts.Nested i j
  | .plain ht hk _ _ => h.nested_last rfl ⟨_, ht, hk⟩
  | .valued ht hk hassign he => h.nested_has rfl ⟨_, ht, hk⟩ (h.nested_has rfl hassign he)

omit h in
theorem nested_stmts {i : Nat} {body : List Stmt} {j : Nat} {ds : List Diagnostic}
    (hbody : Collected (BlockRound (nested ts) ts) i body j ds) : ts.Nested i j := by
  induction hbody with
  | stop hround => cases hround; exact .refl
  | more hround _ ih =>
    cases hround with
    | more _ _ hs => exact Tokens.Nested.trans hs ih

theorem nested_block {i : Nat} {body : List Stmt} {j : Nat} {ds : List Diagnostic} :
    BlockRun (nested ts) ts i body j ds → ts.Nested i j
  | .mk hopen hbody _ hclose => h.nested_brackets rfl hopen (nested_stmts hbody) hclose

theorem nested_rescueHead {i j : Nat} {type name : Option Token} :
    RescueHead ts i type name j → ts.Nested i j
  | .type hopen ht hk hclose => h.nested_brackets rfl hopen (h.nested_last rfl ⟨_, ht, hk⟩) hclose
  | .typeAndName hopen ht hk hn hk' hclose => by
    have hnames := h.nested_has rfl ⟨_, ht, hk⟩ (h.nested_last rfl ⟨_, hn, hk'⟩)
    exact h.nested_brackets rfl hopen hnames hclose
  | .name hn hk => h.nested_last rfl ⟨_, hn, hk⟩
  | .bare _ _ => .refl

theorem nested_rescues {i : Nat} {rescues : List Handler} {j : Nat} {ds : List Diagnostic}
    (hrescues : Collected (RescueRound (nested ts) ts) i rescues j ds) : ts.Nested i j := by
  induction hrescues with
  | stop hround => cases hround; exact .refl
  | more hround _ ih =>
    cases hround with
    | more hcatch hhead hbody =>
      have hrescue := (nested_rescueHead h hhead).trans hbody
      exact (h.nested_has rfl hcatch hrescue).trans ih

theorem nested_always {i : Nat} {last : List Handler} {j : Nat} {ds : List Diagnostic} :
    AlwaysRun (nested ts) ts i last j ds → ts.Nested i j
  | .none _ => .refl
  | .some hfinally hbody => h.nested_has rfl hfinally hbody

theorem nested_stmt {rule : Rule Stmt} {i : Nat} {s : Stmt} {j : Nat} {ds : List Diagnostic}
    (hrun : StmtRun (nested ts) ts rule i s j ds) : ts.Nested i j := by
  cases hrun with
  | expressionLike _ hs => exact hs
  | block _ hbody => exact hbody
  | empty ht hk => exact h.nested_last rfl ⟨_, ht, hk⟩
  | keyword _ hrule hs => exact stmt_of_rule (S := fun _ i _ j _ => ts.Nested i j) hrule hs
  | label _ _ hs => exact hs
  | forwarding _ _ _ hs => exact hs
  | body hs => exact hs
  | declaration ht hrule hds hsemicolon =>
    have hds := nested_separated h (fun _ _ _ _ hd => hd) hds
    exact h.nested_at ht (isPlain_of_rule hrule) (hds.trans (h.nested_last rfl hsemicolon))
  | function hfn hname hk hnames hbody =>
    have hrest := (nested_params h hnames).trans hbody
    exact h.nested_has rfl hfn (h.nested_has rfl ⟨_, hname, hk⟩ hrest)
  | ifThen hif hc hs _ => exact h.nested_has rfl hif (Tokens.Nested.trans hc hs)
  | ifElse hif hc hs helse ho =>
    have hrest := Tokens.Nested.trans hs (h.nested_has rfl helse ho)
    exact h.nested_has rfl hif (Tokens.Nested.trans hc hrest)
  | whileLoop hwhile hc hs => exact h.nested_has rfl hwhile (Tokens.Nested.trans hc hs)
  | doLoop hdo hs hwhile hc hsemicolon =>
    have hend := Tokens.Nested.trans hc (h.nested_last rfl hsemicolon)
    exact h.nested_has rfl hdo (Tokens.Nested.trans hs (h.nested_has rfl hwhile hend))
  | forLoop hfor hname hk hin he hs =>
    have hrest := h.nested_has rfl hin (Tokens.Nested.trans he hs)
    exact h.nested_has rfl hfor (h.nested_has rfl ⟨_, hname, hk⟩ hrest)
  | jump way hway hsemicolon =>
    exact h.nested_has (by cases way <;> rfl) hway (h.nested_last rfl hsemicolon)
  | jumpTo way hway hlabel hk hsemicolon =>
    have hrest := h.nested_has rfl ⟨_, hlabel, hk⟩ (h.nested_last rfl hsemicolon)
    exact h.nested_has (by cases way <;> rfl) hway hrest
  | exit way hway hsemicolon =>
    exact h.nested_has (by cases way <;> rfl) hway (h.nested_last rfl hsemicolon)
  | exitWith way hway _ he hsemicolon =>
    have hrest := Tokens.Nested.trans he (h.nested_last rfl hsemicolon)
    exact h.nested_has (by cases way <;> rfl) hway hrest
  | attempt htry hbody hrescues _ hlast _ =>
    have hhandlers := (nested_rescues h hrescues).trans (nested_always h hlast)
    exact h.nested_has rfl htry (Tokens.Nested.trans hbody hhandlers)
  | labeled hlabel hk hcolon hs =>
    exact h.nested_has rfl ⟨_, hlabel, hk⟩ (h.nested_has rfl hcolon hs)
  | forward hnew ht hk hopen hargs hsemicolon =>
    have hplain : ∀ {k : Kind}, k.isReceiver = true → k.isPlain = true := by
      intro k; cases k <;> decide
    have hrest := (h.nested_closedBy rfl hopen hargs).trans (h.nested_last rfl hsemicolon)
    exact h.nested_has rfl hnew (h.nested_at ht (hplain hk) hrest)
  | assign ht hassign hv hsemicolon =>
    have hend := Tokens.Nested.trans hv (h.nested_last rfl hsemicolon)
    exact Tokens.Nested.trans ht (h.nested_has rfl hassign hend)
  | compound ht hop hk hv hsemicolon =>
    have hend := Tokens.Nested.trans hv (h.nested_last rfl hsemicolon)
    exact Tokens.Nested.trans ht (h.nested_at hop (isPlain_of_compound hk) hend)
  | expression he hsemicolon => exact Tokens.Nested.trans he (h.nested_last rfl hsemicolon)

theorem nested_closed : Closed ts (fun _ i _ j _ => ts.Nested i j)
    (fun closer i _ j _ => ts.ClosedBy closer i j) (fun _ i _ j _ => ts.Nested i j)
    (fun i _ j _ => ts.Nested i j) (fun _ i _ j _ => ts.Nested i j) where
  expr := nested_expr h
  args := nested_args h
  stmt := nested_stmt h
  block := nested_block h
  declarator := nested_declarator h

variable {levels i j : Nat} {ds : List Diagnostic}

/-- **An expression closes the brackets that it opens.** -/
theorem nested_expr_of_runs {e : Expr} (hrun : Runs (parse levels .expr) ts i e j ds) :
    ts.Nested i j := (nested_closed h).parse levels (show Rule.expr.Fits ts i from trivial) hrun

/-- **A statement closes the brackets that it opens.** -/
theorem nested_stmt_of_runs {s : Stmt} (hrun : Runs (parse levels .stmt) ts i s j ds) :
    ts.Nested i j := (nested_closed h).parse levels (show Rule.stmt.Fits ts i from trivial) hrun

end Grammar

end CommandShell
