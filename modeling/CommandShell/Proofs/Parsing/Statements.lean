import CommandShell.Proofs.Parsing.Expressions

/-! # Statements: the rules of statements run as their productions

As for expressions. The rules of a declaration, a jump, an exit and a forwarded construction take
their first tokens unseen, so that their runs are those of the productions only where the statement
rule calls them. -/

namespace CommandShell.Grammar

open CommandShell.Parser

variable {ts : Tokens} {i j : Nat} {ds : List Diagnostic} {s : Stmt} {call : Call}

theorem kind_ne_eof_of_rule {k : Kind} {rule : Rule Stmt} (h : statementRule? k = some rule) :
    k ≠ .eof := by
  rintro rfl; cases h

/-! ### Blocks -/

theorem runs_blockRound : Runs (blockRound call) ts = BlockRound (runsOf call ts) ts := by
  funext i s? j ds
  refine propext ?_
  dsimp only [blockRound]
  simp only [↓runs_bindSeesAny, runs_map, runs_pure]
  constructor
  · rintro ⟨t, ht, ⟨hk, rfl, rfl, rfl⟩ | ⟨hk, s, hs, rfl⟩⟩
    · exact .stop ht hk
    · exact .more ht hk hs
  · rintro (⟨ht, hk⟩ | ⟨ht, hk, hs⟩)
    · exact ⟨_, ht, Or.inl ⟨hk, rfl, rfl, rfl⟩⟩
    · exact ⟨_, ht, Or.inr ⟨hk, _, hs, rfl⟩⟩

theorem runs_block {body : List Stmt} :
    Runs (block call) ts i body j ds ↔ BlockRun (runsOf call ts) ts i body j ds := by
  rw [block, runs_bindExpect (by decide), runs_closed (by decide)]
  simp only [runs_collect, runs_blockRound]
  constructor
  · rintro ⟨hopen, _, k, ⟨hbody, hlen⟩, hclose, rfl, rfl⟩
    exact .mk hopen hbody hlen hclose
  · rintro ⟨hopen, hbody, hlen, hclose⟩
    exact ⟨hopen, _, _, ⟨hbody, hlen⟩, hclose, rfl, rfl⟩

@[simp] theorem runs_warnIfEmpty {owner : Kind} {u : Unit} :
    Runs (warnIfEmpty owner s) ts i u j ds ↔ j = i ∧ ds = emptyReports owner s := by
  cases s <;> simp [warnIfEmpty, emptyReports]

theorem runs_body {owner : Kind} :
    Runs (body call owner) ts i s j ds ↔ StmtRun (runsOf call ts) ts (.body owner) i s j ds := by
  simp only [body, runs_bind, ↓runs_bindReports runs_warnIfEmpty, runs_pure]
  constructor
  · rintro ⟨s', k, ds₁, _, hs, ⟨_, ⟨rfl, rfl, rfl⟩, rfl⟩, rfl⟩
    rw [List.append_nil]
    exact .body hs
  · intro h
    cases h with
    | body hs => exact ⟨_, _, _, _, hs, ⟨[], ⟨rfl, rfl, rfl⟩, rfl⟩, by rw [List.append_nil]⟩

/-! ### Declarations and functions -/

theorem runs_declarator {keyword : Token} {d : Declarator} :
    Runs (declarator call keyword) ts i d j ds ↔
      DeclaratorRun (runsOf call ts) ts keyword i d j ds := by
  dsimp only [declarator]
  simp (disch := decide) only [↓runs_bindExpectAs, ↓runs_bindAccept, ↓runs_guard, ↓runs_bindPure,
    runs_pure]
  constructor
  · rintro ⟨name, hname, hk, ⟨hassign, value, hvalue, rfl⟩ | ⟨hlacks, hvar, rfl, rfl, rfl⟩⟩
    · exact .valued hname hk hassign hvalue
    · exact .plain hname hk hlacks hvar
  · rintro (⟨hname, hk, hlacks, hvar⟩ | ⟨hname, hk, hassign, hvalue⟩)
    · exact ⟨_, hname, hk, Or.inr ⟨hlacks, hvar, rfl, rfl, rfl⟩⟩
    · exact ⟨_, hname, hk, Or.inl ⟨hassign, _, hvalue, rfl⟩⟩

theorem runs_declaration {t : Token} (ht : ts.At i t)
    (hrule : statementRule? t.kind = some .declaration) :
    Runs (declaration call) ts i s j ds ↔ StmtRun (runsOf call ts) ts .declaration i s j ds := by
  rw [declaration, runs_bindAdvance ht (kind_ne_eof_of_rule hrule), runs_terminated]
  simp only [runs_separated]
  constructor
  · rintro ⟨declarators, k, hds, hsemicolon, rfl, rfl⟩
    exact .declaration ht hrule hds hsemicolon
  · intro h
    cases h with
    | declaration ht' _ hds hsemicolon =>
      cases ht.unique ht'
      exact ⟨_, _, hds, hsemicolon, rfl, rfl⟩

theorem runs_function :
    Runs (function call) ts i s j ds ↔ StmtRun (runsOf call ts) ts .function i s j ds := by
  rw [function, runs_bindExpect (by decide)]
  simp (disch := decide) only [↓runs_bindExpectAs, ↓runs_bindPure, runs_bind]
  constructor
  · rintro ⟨hfn, name, hname, hk, names, k, ds₁, ds₂, hnames, ⟨body, hbody, rfl⟩, rfl⟩
    exact .function hfn hname hk hnames hbody
  · intro h
    cases h with
    | function hfn hname hk hnames hbody =>
      exact ⟨hfn, _, hname, hk, _, _, _, _, hnames, ⟨_, hbody, rfl⟩, rfl⟩

/-! ### Choices and loops -/

theorem runs_choice :
    Runs (choice call) ts i s j ds ↔ StmtRun (runsOf call ts) ts .choice i s j ds := by
  rw [choice, runs_bindExpect (by decide)]
  simp (disch := decide) only [↓runs_bindAccept, ↓runs_bindPure, runs_bind, runs_pure]
  constructor
  · rintro ⟨hif, c, k, ds₁, _, hc, ⟨body, l, ds₂, _, hbody, ⟨helse, other, hother, rfl⟩ |
      ⟨hlacks, rfl, rfl, rfl⟩, rfl⟩, rfl⟩
    · exact .ifElse hif hc hbody helse hother
    · rw [List.append_nil]; exact .ifThen hif hc hbody hlacks
  · intro h
    cases h with
    | @ifThen _ _ _ _ _ _ ds₂ hif hc hbody hlacks =>
      exact ⟨hif, _, _, _, _, hc, ⟨_, _, ds₂, [], hbody, Or.inr ⟨hlacks, rfl, rfl, rfl⟩,
        (List.append_nil ds₂).symm⟩, rfl⟩
    | ifElse hif hc hbody helse hother =>
      exact ⟨hif, _, _, _, _, hc, ⟨_, _, _, _, hbody, Or.inl ⟨helse, _, hother, rfl⟩, rfl⟩, rfl⟩

theorem runs_whileLoop :
    Runs (whileLoop call) ts i s j ds ↔ StmtRun (runsOf call ts) ts .whileLoop i s j ds := by
  rw [whileLoop, runs_bindExpect (by decide)]
  simp only [↓runs_bindPure, runs_bind]
  constructor
  · rintro ⟨hwhile, c, k, ds₁, ds₂, hc, ⟨body, hbody, rfl⟩, rfl⟩
    exact .whileLoop hwhile hc hbody
  · intro h
    cases h with
    | whileLoop hwhile hc hbody => exact ⟨hwhile, _, _, _, _, hc, ⟨_, hbody, rfl⟩, rfl⟩

theorem runs_doLoop :
    Runs (doLoop call) ts i s j ds ↔ StmtRun (runsOf call ts) ts .doLoop i s j ds := by
  rw [doLoop, runs_bindExpect (by decide)]
  simp (disch := decide) only [↓runs_bindToken, ↓runs_terminated, runs_bind]
  constructor
  · rintro ⟨hdo, body, k, ds₁, ds₂, hbody, ⟨hwhile, c, l, hc, hsemicolon, rfl, rfl⟩, rfl⟩
    exact .doLoop hdo hbody hwhile hc hsemicolon
  · intro h
    cases h with
    | doLoop hdo hbody hwhile hc hsemicolon =>
      exact ⟨hdo, _, _, _, _, hbody, ⟨hwhile, _, _, hc, hsemicolon, rfl, rfl⟩, rfl⟩

theorem runs_forLoop :
    Runs (forLoop call) ts i s j ds ↔ StmtRun (runsOf call ts) ts .forLoop i s j ds := by
  rw [forLoop, runs_bindExpect (by decide)]
  simp (disch := decide) only [↓runs_bindExpectAs, ↓runs_bindPure, runs_bind]
  constructor
  · rintro ⟨hfor, name, hname, hk, t, ht, hin, items, k, ds₁, ds₂, hitems, ⟨body, hbody, rfl⟩, rfl⟩
    exact .forLoop hfor hname hk ⟨t, ht, hin⟩ hitems hbody
  · intro h
    cases h with
    | forLoop hfor hname hk hin hitems hbody =>
      obtain ⟨t, ht, hin⟩ := hin
      exact ⟨hfor, _, hname, hk, t, ht, hin, _, _, _, _, hitems, ⟨_, hbody, rfl⟩, rfl⟩

/-! ### Jumps and exits -/

theorem jumpWay_kind (way : Jump) : jumpWay way.kind = way := by cases way <;> rfl

theorem exitWay_kind (way : Exit) : exitWay way.kind = way := by cases way <;> rfl

/-- The keyword of a jump tells where it goes. -/
theorem jump_of_rule {k : Kind} (h : statementRule? k = some .jump) :
    ∃ way : Jump, k = way.kind := by
  unfold statementRule? at h
  split at h <;> cases h
  · exact ⟨.toEnd, rfl⟩
  · exact ⟨.toNext, rfl⟩

/-- The keyword of an exit tells how it leaves. -/
theorem exit_of_rule {k : Kind} (h : statementRule? k = some .exit) :
    ∃ way : Exit, k = way.kind := by
  unfold statementRule? at h
  split at h <;> cases h
  · exact ⟨.returning, rfl⟩
  · exact ⟨.throwing, rfl⟩

theorem runs_jump {t : Token} (ht : ts.At i t) (hrule : statementRule? t.kind = some .jump) :
    Runs jump ts i s j ds ↔ StmtRun (runsOf call ts) ts .jump i s j ds := by
  obtain ⟨way, hway⟩ := jump_of_rule hrule
  dsimp only [jump]
  simp (disch := decide) only [runs_bindAdvance ht (kind_ne_eof_of_rule hrule), hway, jumpWay_kind,
    ↓runs_bindSees, ↓runs_terminated]
  constructor
  · rintro (⟨⟨label, hlabel, hident⟩, _, k, h, hsemicolon, rfl, rfl⟩ |
      ⟨-, _, k, h, hsemicolon, rfl, rfl⟩)
    · obtain ⟨rfl, rfl, rfl⟩ := (runs_mapAdvance hlabel (by simp [hident])).mp h
      exact .jumpTo way ⟨t, ht, hway⟩ hlabel hident hsemicolon
    · obtain ⟨rfl, rfl, rfl⟩ := runs_pure.mp h
      exact .jump way ⟨t, ht, hway⟩ hsemicolon
  · intro h
    have hsame : ∀ {way' : Jump}, ts.Has i way'.kind → way' = way := by
      rintro way' ⟨u, hu, hk⟩
      rw [← jumpWay_kind way', ← hk, ← ht.unique hu, hway, jumpWay_kind]
    cases h with
    | jump way' hhas hsemicolon =>
      cases hsame hhas
      have hlacks : ts.Lacks (i + 1) .ident := hsemicolon.lacks (by decide)
      exact Or.inr ⟨hlacks, _, _, runs_pure.mpr ⟨rfl, rfl, rfl⟩, hsemicolon, rfl, rfl⟩
    | @jumpTo _ label way' hhas hlabel hident hsemicolon =>
      cases hsame hhas
      have h := (runs_mapAdvance (f := some) hlabel (by simp [hident])).mpr ⟨rfl, rfl, rfl⟩
      exact Or.inl ⟨⟨label, hlabel, hident⟩, _, _, h, hsemicolon, rfl, rfl⟩

theorem runs_exit {t : Token} (ht : ts.At i t) (hrule : statementRule? t.kind = some .exit) :
    Runs (exit call) ts i s j ds ↔ StmtRun (runsOf call ts) ts .exit i s j ds := by
  obtain ⟨way, hway⟩ := exit_of_rule hrule
  dsimp only [exit]
  simp only [runs_bindAdvance ht (kind_ne_eof_of_rule hrule), hway, exitWay_kind, ↓runs_bindSees,
    ↓runs_bindSemicolon, ↓runs_terminated, runs_pure]
  constructor
  · rintro (⟨-, hsemicolon, rfl, rfl, rfl⟩ | ⟨hlacks, value, k, hvalue, hsemicolon, rfl, rfl⟩)
    · exact .exit way ⟨t, ht, hway⟩ hsemicolon
    · exact .exitWith way ⟨t, ht, hway⟩ hlacks hvalue hsemicolon
  · intro h
    have hsame : ∀ {way' : Exit}, ts.Has i way'.kind → way' = way := by
      rintro way' ⟨u, hu, hk⟩
      rw [← exitWay_kind way', ← hk, ← ht.unique hu, hway, exitWay_kind]
    cases h with
    | exit way' hhas hsemicolon =>
      cases hsame hhas
      exact Or.inl ⟨hsemicolon, hsemicolon, rfl, rfl, rfl⟩
    | exitWith way' hhas hlacks hvalue hsemicolon =>
      cases hsame hhas
      exact Or.inr ⟨hlacks, _, _, hvalue, hsemicolon, rfl, rfl⟩

/-! ### Attempts -/

theorem runs_rescueHead {type name : Option Token} :
    Runs rescueHead ts i (type, name) j ds ↔ RescueHead ts i type name j ∧ ds = [] := by
  dsimp only [rescueHead]
  simp (disch := decide) only [↓runs_bindAccept, ↓runs_bindExpectAs, ↓runs_bindSees,
    ↓has_bindAdvance, ↓runs_closed, runs_pure]
  constructor
  · rintro (⟨hopen, t, ht, hident, ⟨⟨n, hn, hident'⟩, _, k, h, hclose, hpair, rfl⟩ |
      ⟨-, _, k, ⟨rfl, rfl, rfl⟩, hclose, hpair, rfl⟩⟩ |
      ⟨⟨t, ht, hopen⟩, ⟨n, hn, hident, hpair, rfl, rfl⟩ | ⟨⟨u, hu, hident⟩, hpair, rfl, rfl⟩⟩) <;>
      cases hpair
    · obtain ⟨rfl, rfl, rfl⟩ := (runs_mapAdvance hn (by simp [hident'])).mp h
      exact ⟨.typeAndName hopen ht hident hn hident' hclose, rfl⟩
    · exact ⟨.type hopen ht hident hclose, rfl⟩
    · exact ⟨.name hn hident, rfl⟩
    · cases ht.unique hu
      exact ⟨.bare ht (by simp [hopen, hident]), rfl⟩
  · rintro ⟨⟨hopen, ht, hident, hclose⟩ | ⟨hopen, ht, hident, hn, hident', hclose⟩ |
      ⟨hn, hident⟩ | ⟨ht, hk⟩, rfl⟩
    · exact Or.inl ⟨hopen, _, ht, hident, Or.inr ⟨hclose.lacks (by decide), _, _, ⟨rfl, rfl, rfl⟩,
        hclose, rfl, rfl⟩⟩
    · have h := (runs_mapAdvance (f := some) hn (by simp [hident'])).mpr ⟨rfl, rfl, rfl⟩
      exact Or.inl ⟨hopen, _, ht, hident, Or.inl ⟨⟨_, hn, hident'⟩, _, _, h, hclose, rfl, rfl⟩⟩
    · exact Or.inr ⟨⟨_, hn, by simp [hident]⟩, Or.inl ⟨_, hn, hident, rfl, rfl, rfl⟩⟩
    · simp only [List.mem_cons, List.not_mem_nil, or_false, not_or] at hk
      exact Or.inr ⟨⟨_, ht, hk.1⟩, Or.inr ⟨⟨_, ht, hk.2⟩, rfl, rfl, rfl⟩⟩

theorem runs_rescueRound : Runs (rescueRound call) ts = RescueRound (runsOf call ts) ts := by
  funext i h? j ds
  refine propext ?_
  rw [rescueRound, runs_bindAccept (by decide)]
  simp only [↓runs_bindPure, runs_bind, runs_pure]
  constructor
  · rintro (⟨hcatch, ⟨type, name⟩, k, ds₁, ds₂, hhead, ⟨body, hbody, rfl⟩, rfl⟩ |
      ⟨hlacks, rfl, rfl, rfl⟩)
    · obtain ⟨htaken, rfl⟩ := runs_rescueHead.mp hhead
      exact .more hcatch htaken hbody
    · exact .stop hlacks
  · rintro (hlacks | ⟨hcatch, htaken, hbody⟩)
    · exact Or.inr ⟨hlacks, rfl, rfl, rfl⟩
    · have hhead := runs_rescueHead.mpr ⟨htaken, rfl⟩
      exact Or.inl ⟨hcatch, _, _, [], _, hhead, ⟨_, hbody, rfl⟩, rfl⟩

theorem runs_always {last : List Handler} :
    Runs (always call) ts i last j ds ↔ AlwaysRun (runsOf call ts) ts i last j ds := by
  rw [always, runs_bindAccept (by decide), runs_bindPure, runs_pure]
  constructor
  · rintro (⟨hfinally, body, hbody, rfl⟩ | ⟨hlacks, rfl, rfl, rfl⟩)
    · exact .some hfinally hbody
    · exact .none hlacks
  · rintro (hlacks | ⟨hfinally, hbody⟩)
    · exact Or.inr ⟨hlacks, rfl, rfl, rfl⟩
    · exact Or.inl ⟨hfinally, _, hbody, rfl⟩

theorem runs_attempt :
    Runs (attempt call) ts i s j ds ↔ StmtRun (runsOf call ts) ts .attempt i s j ds := by
  dsimp only [attempt, expect]
  simp (disch := decide) only [↓runs_bindExpectAs, ↓runs_guard, runs_bind, runs_collect,
    runs_rescueRound, runs_always, runs_pure]
  constructor
  · rintro ⟨t, ht, hk, body, k, ds₁, _, hbody, ⟨rescues, l, ds₂, _, ⟨hrescues, hlen⟩,
      ⟨last, _, ds₃, _, hlast, ⟨hne, rfl, rfl, rfl⟩, rfl⟩, rfl⟩, rfl⟩
    rw [List.append_nil]
    exact .attempt ⟨t, ht, hk⟩ hbody hrescues hlen hlast (by simpa using hne)
  · intro h
    cases h with
    | @attempt _ _ _ _ _ _ _ last _ ds₃ htry hbody hrescues hlen hlast hne =>
      obtain ⟨t, ht, hk⟩ := htry
      exact ⟨t, ht, hk, _, _, _, _, hbody, ⟨_, _, _, _, ⟨hrescues, hlen⟩,
        ⟨last, _, ds₃, [], hlast, ⟨by simpa using hne, rfl, rfl, rfl⟩,
          (List.append_nil ds₃).symm⟩, rfl⟩, rfl⟩

/-! ### Statements that begin with two tokens -/

theorem runs_labeled :
    Runs (labeled call) ts i s j ds ↔ StmtRun (runsOf call ts) ts .labeled i s j ds := by
  dsimp only [labeled, expect]
  simp (disch := decide) only [↓runs_bindExpectAs, ↓runs_bindPure]
  constructor
  · rintro ⟨label, hlabel, hk, colon, hcolon, hk', body, hbody, rfl⟩
    exact .labeled hlabel hk ⟨colon, hcolon, hk'⟩ hbody
  · intro h
    cases h with
    | labeled hlabel hk hcolon hbody =>
      obtain ⟨colon, hcolon, hk'⟩ := hcolon
      exact ⟨_, hlabel, hk, colon, hcolon, hk', _, hbody, rfl⟩

theorem runs_forward {receiver : Token} (hreceiver : ts.At (i + 1) receiver)
    (hk : receiver.kind.isReceiver = true) :
    Runs (forward call) ts i s j ds ↔ StmtRun (runsOf call ts) ts .forward i s j ds := by
  have hne : receiver.kind ≠ .eof := fun h => by rw [h] at hk; cases hk
  rw [forward, runs_bindExpect (by decide), runs_bindAdvance hreceiver hne,
    runs_bindToken (by decide), runs_terminated]
  constructor
  · rintro ⟨hnew, hopen, args, k, hargs, hsemicolon, rfl, rfl⟩
    exact .forward hnew hreceiver hk hopen hargs hsemicolon
  · intro h
    cases h with
    | forward hnew hr _ hopen hargs hsemicolon =>
      cases hreceiver.unique hr
      exact ⟨hnew, hopen, _, _, hargs, hsemicolon, rfl, rfl⟩

/-! ### Expressions and assignments -/

theorem kind_ne_eof_of_compound {k : Kind} (h : k.compoundOp?.isSome = true) : k ≠ .eof := by
  rintro rfl; cases h

theorem runs_expression :
    Runs (expression call) ts i s j ds ↔ StmtRun (runsOf call ts) ts .expression i s j ds := by
  dsimp only [expression]
  simp (disch := decide) only [↓runs_bindAccept, ↓runs_bindCheckTarget, ↓runs_terminated,
    ↓runs_bindCurrent, ↓runs_bindSemicolon, ↓runs_bindCheckEffect, runs_bind, runs_ite, runs_pure]
  constructor
  · rintro ⟨e, k, ds₁, _, he, ⟨hassign, ds₂, ⟨value, l, hvalue, hsemicolon, rfl, rfl⟩, rfl⟩ |
      ⟨-, op, hop, ⟨hcompound, _, _, _, _, hadvance, ⟨ds₂, ⟨value, l, hvalue, hsemicolon, rfl, rfl⟩,
        rfl⟩, rfl⟩ | ⟨-, hsemicolon, _, ⟨rfl, rfl, rfl⟩, rfl⟩⟩, rfl⟩
    · exact .assign he hassign hvalue hsemicolon
    · obtain ⟨rfl, rfl, rfl⟩ := (runs_advanceAt hop (kind_ne_eof_of_compound hcompound)).mp hadvance
      exact .compound he hop hcompound hvalue hsemicolon
    · rw [List.append_nil]
      exact .expression he hsemicolon
  · intro h
    cases h with
    | assign he hassign hvalue hsemicolon =>
      exact ⟨_, _, _, _, he, Or.inl ⟨hassign, _, ⟨_, _, hvalue, hsemicolon, rfl, rfl⟩, rfl⟩, rfl⟩
    | @compound _ _ _ _ op _ _ _ he hop hcompound hvalue hsemicolon =>
      have hne : op.kind ≠ .assign := fun h => by rw [h] at hcompound; cases hcompound
      have hadvance := (runs_advanceAt hop (kind_ne_eof_of_compound hcompound)).mpr ⟨rfl, rfl, rfl⟩
      exact ⟨_, _, _, _, he, Or.inr ⟨⟨op, hop, hne⟩, op, hop, Or.inl ⟨hcompound, _, _, _, _,
        hadvance, ⟨_, ⟨_, _, hvalue, hsemicolon, rfl, rfl⟩, rfl⟩, rfl⟩⟩, rfl⟩
    | @expression _ e _ _ he hsemicolon =>
      obtain ⟨t, ht, hk⟩ := hsemicolon
      exact ⟨_, _, _, _, he, Or.inr ⟨⟨t, ht, by simp [hk]⟩, t, ht, Or.inr ⟨by rw [hk]; decide,
        ⟨t, ht, hk⟩, [], ⟨rfl, rfl, rfl⟩, (List.append_nil (effectReports e)).symm⟩⟩, rfl⟩

/-! ### The statement rule -/

section
variable {c : Prop} [Decidable c]

theorem statement_eq_ite : (Opening.statement = if c then .statement else .expression) ↔ c := by
  split_ifs with h <;> simp [h]

theorem expression_eq_ite : (Opening.expression = if c then .statement else .expression) ↔ ¬ c := by
  split_ifs with h <;> simp [h]

end

/-- Where a statement opens: at a word or sign that only begins statements, at a label, or at a
forwarded construction. -/
theorem runs_opening_statement : Runs opening ts i .statement j ds ↔ j = i ∧ ds = [] ∧
    ∃ t, ts.At i t ∧ (t.kind.beginsStatement = true ∨ t.kind = .ident ∧ ts.Has (i + 1) .colon ∨
      t.kind = .newKw ∧ ∃ u, ts.At (i + 1) u ∧ u.kind.isReceiver = true) := by
  dsimp only [opening]
  simp only [↓runs_bindCurrent, ↓runs_bindPeek, runs_ite, runs_pure, statement_eq_ite, reduceCtorEq,
    true_and, false_and, and_false, or_false]
  constructor
  · rintro ⟨t, ht, ⟨hb, rfl, rfl⟩ | ⟨-, ⟨hk, u, hu, hcolon, rfl, rfl⟩ |
      ⟨-, hk, u, hu, hreceiver, rfl, rfl⟩⟩⟩
    · exact ⟨rfl, rfl, t, ht, Or.inl hb⟩
    · exact ⟨rfl, rfl, t, ht, Or.inr (Or.inl ⟨hk, u, hu, hcolon⟩)⟩
    · exact ⟨rfl, rfl, t, ht, Or.inr (Or.inr ⟨hk, u, hu, hreceiver⟩)⟩
  · rintro ⟨rfl, rfl, t, ht, hb | ⟨hk, u, hu, hcolon⟩ | ⟨hk, u, hu, hreceiver⟩⟩
    · exact ⟨t, ht, Or.inl ⟨hb, rfl, rfl⟩⟩
    · exact ⟨t, ht, Or.inr ⟨by rw [hk]; decide, Or.inl ⟨hk, u, hu, hcolon, rfl, rfl⟩⟩⟩
    · exact ⟨t, ht, Or.inr ⟨by rw [hk]; decide,
        Or.inr ⟨by rw [hk]; decide, hk, u, hu, hreceiver, rfl, rfl⟩⟩⟩

theorem runs_opening_expression : Runs opening ts i .expression j ds ↔ j = i ∧ ds = [] ∧
    ∃ t, ts.At i t ∧ t.kind.beginsStatement = false ∧ (t.kind = .ident → ts.Lacks (i + 1) .colon) ∧
      (t.kind = .newKw → ∃ u, ts.At (i + 1) u ∧ u.kind.isReceiver = false) := by
  dsimp only [opening]
  simp only [↓runs_bindCurrent, ↓runs_bindPeek, runs_ite, runs_pure, expression_eq_ite,
    reduceCtorEq, Bool.not_eq_true, true_and, false_and, and_false, false_or]
  constructor
  · rintro ⟨t, ht, hb, ⟨hk, u, hu, hcolon, rfl, rfl⟩ |
      ⟨hk, ⟨hnew, u, hu, hreceiver, rfl, rfl⟩ | ⟨hnew, rfl, rfl⟩⟩⟩
    · exact ⟨rfl, rfl, t, ht, hb, fun _ => ⟨u, hu, hcolon⟩, fun hn => by simp [hk] at hn⟩
    · exact ⟨rfl, rfl, t, ht, hb, fun hi => absurd hi hk, fun _ => ⟨u, hu, hreceiver⟩⟩
    · exact ⟨rfl, rfl, t, ht, hb, fun hi => absurd hi hk, fun hn => absurd hn hnew⟩
  · rintro ⟨rfl, rfl, t, ht, hb, hident, hnew⟩
    refine ⟨t, ht, hb, ?_⟩
    by_cases hk : t.kind = .ident
    · obtain ⟨u, hu, hcolon⟩ := hident hk
      exact Or.inl ⟨hk, u, hu, hcolon, rfl, rfl⟩
    · by_cases hn : t.kind = .newKw
      · obtain ⟨u, hu, hreceiver⟩ := hnew hn
        exact Or.inr ⟨hk, Or.inl ⟨hn, u, hu, hreceiver, rfl, rfl⟩⟩
      · exact Or.inr ⟨hk, Or.inr ⟨hn, rfl, rfl⟩⟩

/-- What begins a keyword's statement can only begin a statement. -/
theorem beginsStatement_of_rule {k : Kind} {rule : Rule Stmt} (h : statementRule? k = some rule) :
    k.beginsStatement = true := by
  unfold statementRule? at h
  split at h
  all_goals first | rfl | cases h

theorem runs_stmt :
    Runs (stmt call) ts i s j ds ↔ StmtRun (runsOf call ts) ts .stmt i s j ds := by
  simp only [stmt, runs_bind]
  constructor
  · rintro ⟨opens, k, ds₁, ds₂, hopening, hrest, rfl⟩
    cases opens with
    | expression =>
      obtain ⟨rfl, rfl, -⟩ := runs_opening_expression.mp hopening
      exact .expressionLike hopening hrest
    | statement =>
      obtain ⟨rfl, rfl, t, ht, hopens⟩ := runs_opening_statement.mp hopening
      obtain ⟨u, hu, h⟩ := runs_bindCurrent.mp hrest
      cases ht.unique hu
      split at h
      · next hk =>
        obtain ⟨body, hbody, rfl⟩ := runs_map.mp h
        exact .block ⟨t, ht, hk⟩ hbody
      · next hk =>
        obtain ⟨rfl, rfl, rfl⟩ := (runs_mapAdvance ht (by simp [hk])).mp h
        exact .empty ht hk
      iterate 12 next hk => exact .keyword ht (by rw [hk]; rfl) h
      · next hk =>
        rcases hopens with hb | ⟨-, hcolon⟩ | ⟨hnew, -⟩
        · rw [hk] at hb; cases hb
        · exact .label ⟨t, ht, hk⟩ hcolon h
        · rw [hk] at hnew; cases hnew
      · next hk =>
        rcases hopens with hb | ⟨hident, -⟩ | ⟨-, u, hu, hreceiver⟩
        · rw [hk] at hb; cases hb
        · rw [hk] at hident; cases hident
        · exact .forwarding ⟨t, ht, hk⟩ hu hreceiver h
      · exact absurd h not_runs_failHere
  · intro h
    have hopens : ∀ {t}, ts.At i t → (t.kind.beginsStatement = true ∨ t.kind = .ident ∧
        ts.Has (i + 1) .colon ∨ t.kind = .newKw ∧ ∃ u, ts.At (i + 1) u ∧ u.kind.isReceiver = true) →
        Runs opening ts i .statement i [] :=
      fun ht h => runs_opening_statement.mpr ⟨rfl, rfl, _, ht, h⟩
    cases h with
    | expressionLike hopening h => exact ⟨_, _, _, _, hopening, h, rfl⟩
    | block hbrace hbody =>
      obtain ⟨t, ht, hk⟩ := hbrace
      refine ⟨_, _, _, ds, hopens ht (Or.inl (by rw [hk]; rfl)), runs_bindCurrent.mpr ⟨t, ht, ?_⟩,
        rfl⟩
      rw [hk]
      exact runs_map.mpr ⟨_, hbody, rfl⟩
    | @empty _ t ht hk =>
      refine ⟨_, _, _, [], hopens ht (Or.inl (by rw [hk]; rfl)), runs_bindCurrent.mpr ⟨t, ht, ?_⟩,
        rfl⟩
      rw [hk]
      exact (runs_mapAdvance ht (by simp [hk])).mpr ⟨rfl, rfl, rfl⟩
    | @keyword _ t rule _ _ _ ht hrule h =>
      refine ⟨_, _, _, ds, hopens ht (Or.inl (beginsStatement_of_rule hrule)),
        runs_bindCurrent.mpr ⟨t, ht, ?_⟩, rfl⟩
      unfold statementRule? at hrule
      split at hrule <;> cases hrule <;> next hk => (rw [hk]; exact h)
    | label hident hcolon h =>
      obtain ⟨t, ht, hk⟩ := hident
      refine ⟨_, _, _, ds, hopens ht (Or.inr (Or.inl ⟨hk, hcolon⟩)),
        runs_bindCurrent.mpr ⟨t, ht, ?_⟩, rfl⟩
      rw [hk]
      exact h
    | forwarding hnew hu hreceiver h =>
      obtain ⟨t, ht, hk⟩ := hnew
      refine ⟨_, _, _, ds, hopens ht (Or.inr (Or.inr ⟨hk, _, hu, hreceiver⟩)),
        runs_bindCurrent.mpr ⟨t, ht, ?_⟩, rfl⟩
      rw [hk]
      exact h

end CommandShell.Grammar
