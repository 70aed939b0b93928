import CommandShell.Proofs.Commands.Misplaced
import CommandShell.Proofs.Commands.Searching
import CommandShell.Proofs.Parsing.Shortest

/-! # Unfinished buffers: errors at the end of the input

A buffer that fails at the end of the input is the beginning of one that does not fail: there are
tokens which complete it (`completed_of_end_failure`). The command at which it fails is completed as
its rules are, with checks that find what they report; those before it stop before the end, and are
read as they were. -/

namespace CommandShell

open CommandShell.Parser CommandShell.Grammar

/-! ### Entering rules -/

section
variable {α : Type} {ts : Tokens} {S : Kind → Prop} {rule : Rule α} {levels levels' i : Nat}

theorem gets_enter {us : Tokens} {t : Token} {a : α} {j : Nat} (ht : us.At i t)
    (h : Gets (parse levels rule) us i a j) : Gets (enter levels rule) us i a j := by
  obtain ⟨ds, h⟩ := h
  exact ⟨ds, runs_enter.mpr ⟨⟨t, ht⟩, h⟩⟩

/-- The place that a failure gets is not the end, if the reading began before it. -/
theorem atEnd_of_placed {t : Token} {f : Failure} (hk : t.kind ≠ .eof)
    (h : (placeFailure t f).AtEnd) : f.AtEnd := by
  unfold placeFailure at h
  split at h
  · exact absurd h hk
  · exact h

/-- A rule that is entered fails at the end only if the rule does. -/
theorem viable_enter (hts : ts.Lexed) (hi : i < ts.items.size)
    (h : Viable S (parse levels rule) (parse levels' rule) ts i) :
    Viable S (enter levels rule) (enter levels' rule) ts i := by
  obtain ⟨t, ht, hk⟩ := hts.exists_at hi
  have hcurrent := current_of_at ht
  have heq : enter levels rule ts i = _ := enter_eq (congrArg Parsed.outcome hcurrent)
  cases hparse : (parse levels rule ts i).outcome with
  | ok a =>
    rw [hparse] at heq
    obtain ⟨hle, hsize, hgets⟩ := h.ok hparse
    refine ⟨fun hb => ?_, fun he => ?_⟩
    · rw [heq] at hb ⊢
      cases hb
      exact ⟨hle, hsize, fun hus hshows => gets_enter (hus.at_of_lt hi ht) (hgets hus hshows)⟩
    · rw [heq] at he
      cases he
  | error f =>
    rw [hparse] at heq
    refine ⟨fun hb => ?_, fun he hend => ?_⟩
    · rw [heq] at hb
      cases hb
    · rw [heq] at he
      cases he
      obtain ⟨more, a, hproper, hgets⟩ := h.stuck hparse (atEnd_of_placed hk hend)
      refine ⟨more, a, hproper, fun hus hshows => ?_⟩
      exact gets_enter (hus.at_of_lt hi ht) (hgets hus hshows)

end

namespace Command

variable {ts : Tokens} (hts : ts.Lexed) {levels i : Nat} {T S : Kind → Prop}
include hts

/-! ### Requests -/

theorem promises_operand (hT : T .ident) :
    Promises T Kind.EndsExpr (operand levels) (operand (levels + 12)) ts where
  viable hi := viable_enter hts hi ((completing_parse hts levels).viable .expr trivial hi)
  ends a ha := by
    have hwalks : Walks True 0 (operand levels) ts ts.items.size [] [] _ :=
      walks_operand hts (Nat.zero_le _)
    obtain ⟨hwalked, hlt⟩ := hwalks.ok ha
    exact absurd (hwalked.walk.le_size hts hlt) (Nat.not_le.mpr hlt)
  completable := by
    have hfresh : Completable (· = .ident) Kind.EndsExpr (parse (levels + 12) .expr) ts :=
      completable_parse levels (show Rule.expr.Ready ts 0 from trivial) rfl
    obtain ⟨more, e, hproper, hleads, hgets⟩ := hfresh
    refine ⟨more, e, hproper, hleads.mono (fun k (hk : k = .ident) => hk ▸ hT) fun _ hk => hk,
      fun hus hshows => ?_⟩
    obtain ⟨t, ht, -⟩ := hshows.head hleads
    exact gets_enter ht (hgets hus hshows)

theorem promises_assignment (target : Expr) : Promises Kind.Any Kind.Any
    (idealAssignment levels target) (idealAssignment (levels + 12) target) ts :=
  Promises.check (gets_checkTarget target) <|
    (promises_operand hts trivial).bind fun _ => promises_terminated hts rfl

omit hts in
theorem gets_checkTargets (us : Tokens) (i : Nat) (targets : List Expr) :
    Gets (targets.forM checkTarget) us i () i := by
  induction targets with
  | nil => exact gets_pure
  | cons t targets ih => exact (gets_checkTarget t us i).bind ih

omit hts in
theorem gets_report (d : Diagnostic) (us : Tokens) (i : Nat) : Gets (report d) us i () i :=
  ⟨[d], runs_report.mpr ⟨rfl, rfl⟩⟩

theorem promises_operands : Promises Kind.Any (fun k => k.EndsExpr ∧ k ≠ .comma)
    (separated (operand levels)) (separated (operand (levels + 12))) ts := by
  have hmoves : ∀ {i}, Walks True 0 (operand levels) ts i [] [] (fun _ j => i < j) := fun {_} =>
    walks_operand hts (Nat.zero_le _)
  have hitem : Promises Kind.Any Kind.EndsExpr (operand levels) (operand (levels + 12)) ts :=
    promises_operand hts trivial
  exact promises_separated hts hmoves (fun hk => hk.2 rfl)
    (hitem.mono (fun _ hk => hk) fun _ hk => hk.1)

theorem promises_parallel (first : Expr) :
    Promises (fun k => k.EndsExpr ∧ k ≠ .comma) Kind.Any (idealParallel levels first)
      (idealParallel (levels + 12) first) ts := by
  have hmoves : ∀ {i}, Walks True 0 (operand levels) ts i [] [] (fun _ j => i < j) := fun {_} =>
    walks_operand hts (Nat.zero_le _)
  have hitem : Promises Kind.Any Kind.EndsExpr (operand levels) (operand (levels + 12)) ts :=
    promises_operand hts trivial
  have hothers : Promises (fun k => k.EndsExpr ∧ k ≠ .comma) (fun k => k.EndsExpr ∧ k ≠ .comma)
      (more (operand levels)) (more (operand (levels + 12))) ts :=
    promises_more hts hmoves (fun hk => hk.2 rfl) (hitem.mono (fun _ hk => hk) fun _ hk => hk.1)
  refine hothers.bind fun others => ?_
  refine promises_bindExpectAs hts (by decide) (by decide) fun sign _ => ?_
  refine Promises.check (fun us i => gets_checkTargets us i _)
    ((promises_operands hts).bind fun values => ?_)
  have hend : Promises (fun k => k.EndsExpr ∧ k ≠ .comma) Kind.Any
      (do let _ ← expectSemicolon; return Request.parallel (first :: others) sign values)
      (do let _ ← expectSemicolon; return Request.parallel (first :: others) sign values) ts :=
    promises_terminated hts (by decide)
  dsimp only
  split
  · exact Promises.check (gets_report _) hend
  · exact hend

/-- What follows the first expression of a request. At the end of the input nothing need follow. -/
theorem viable_tail (e : Expr) (hi : i < ts.items.size) :
    Viable (· = .eof) (idealTail levels e) (idealTail (levels + 12) e) ts i := by
  have hassign : ∀ {t : Token} {make : Expr → Request}, ts.At i t → Viable (· = .eof)
      (do let _ ← advance; let value ← idealAssignment levels e; return make value)
      (do let _ ← advance; let value ← idealAssignment (levels + 12) e; return make value) ts i := by
    intro t make ht
    have hrest : Promises Kind.Any Kind.Any
        (do let value ← idealAssignment levels e; return make value)
        (do let value ← idealAssignment (levels + 12) e; return make value) ts :=
      (promises_assignment hts e).bind fun _ => promises_done
    exact (viable_bindAdvance hts hi ht (hrest.at hi)).mono fun _ _ => trivial
  refine viable_bindCurrent hts hi fun t ht hne => ?_
  split
  · refine .after hts (Nat.le_refl i) (fun {us} _ => gets_checkEffect e us i) ?_
    exact viable_bindAdvance hts hi ht (promises_done.at hi)
  · exact hassign ht
  · exact ((promises_parallel hts e).viable hi).mono fun _ _ => trivial
  · next heof => exact absurd heof hne
  · split
    · exact hassign ht
    · exact viable_failHere ht hne

omit hts in
theorem gets_value {us : Tokens} {t : Token} (hus : us.Lexed) (e : Expr) (ht : us.At i t)
    (hk : t.kind = .eof) : Gets (idealTail levels e) us i (.expression e false) i :=
  ⟨[], (afterExpression_under e).runs ((runs_afterExpression hus).mpr (.value ⟨t, ht, hk⟩))⟩

theorem promises_tail (e : Expr) : Promises Kind.EndsExpr (· = .eof)
    (idealTail levels e) (idealTail (levels + 12) e) ts where
  viable hi := viable_tail hts e hi
  ends r hr := by
    have hlacks : ∀ k, k ≠ .eof → ¬ ts.Has ts.items.size k := by
      rintro _ hk ⟨t, ht, rfl⟩
      exact hk (hts.kind_at_end ht)
    obtain ⟨least, htail⟩ := settles_tail e _ _ _ _ _ (runs_iff.mpr ⟨hr, rfl, rfl⟩)
    have htail := (runs_afterExpression hts).mp (htail least (Nat.le_refl least))
    generalize (idealTail levels e ts ts.items.size).next = j,
      (idealTail levels e ts ts.items.size).found = ds at htail ⊢
    cases htail with
    | value =>
      refine ⟨rfl, fun k hk => ?_, fun hus hshows => ?_⟩
      · rw [hk]
        decide
      · obtain ⟨t, ht, hk⟩ := hshows
        exact gets_value hus.lexed e ht hk
    | terminated _ hsemicolon => exact absurd hsemicolon (hlacks _ (by decide))
    | assignment _ hassign => exact absurd hassign (hlacks _ (by decide))
    | compound _ hsign hop =>
      rw [hts.kind_at_end hsign] at hop
      cases hop
    | parallel hcomma => exact absurd hcomma (hlacks _ (by decide))
  completable := by
    refine ⟨[], .expression e false, nofun, fun k hk => ?_, fun hus hshows => ?_⟩
    · rw [hk]
      decide
    · obtain ⟨t, ht, hk⟩ := hshows
      exact gets_value hus.lexed e ht hk

omit hts

theorem read_eq : read levels = (do
    let start ← current
    let r ← readRequest levels
    let span ← spanSince start
    return ⟨r, span⟩) := by
  unfold read readRequest
  congr 1
  funext start
  rw [bind_bind]
  congr 1
  funext o
  cases o
  · rfl
  · rw [bind_bind]

/-- A request whose first part is an expression moves on. -/
theorem lt_of_tail (hts : ts.Lexed) {r : Request}
    (hr : ((operand levels >>= idealTail levels) ts i).outcome = .ok r) :
    i < ((operand levels >>= idealTail levels) ts i).next := by
  obtain ⟨e, k, ds₁, ds₂, he, htail, -⟩ := runs_bind.mp (runs_iff.mpr ⟨hr, rfl, rfl⟩)
  obtain ⟨least, htail⟩ := settles_tail e _ _ _ _ _ htail
  rw [runs_operand hts] at he
  have hreads := reads_tail hts (reads_expr_of_runs hts he)
    ((runs_afterExpression hts).mp (htail least (Nat.le_refl least)))
  exact (hreads.lt (pieces_ne_nil r)).1

/-- The span of a command is not the same when more tokens follow, so that completions are looked
for without it. -/
theorem viable_request (hts : ts.Lexed) (hi : i < ts.items.size) :
    Viable (· = .eof) (idealRequest levels) (idealRequest (levels + 12)) ts i := by
  have heof : Kind.EndsExpr .eof ∧ Kind.EndsOpening .eof ∧ Kind.EndsStmt .eof := by decide
  have hexpr := viable_enter hts hi ((completing_parse hts levels).viable .expr trivial hi)
  refine viable_bindOpening hts hi (fun k hk => hk ▸ heof.2.1) ?_ (fun r hr => ?_)
    (fun _ _ _ => ?_) fun t hnext ht hk => ?_
  · exact hexpr.andThen fun e => promises_tail hts e
  · exact lt_of_tail hts hr
  · refine (viable_enter hts hi ?_).map
    exact ((completing_parse hts levels).viable .stmt trivial hi).mono fun k hk => hk ▸ heof.2.2
  · obtain ⟨more, e, hproper, hleads, hruns⟩ := expr_of_last (levels + 1) hnext ht hk
    refine ⟨more, .expression e false, hproper, hleads.mono (fun _ hk => hk) ?_,
      fun {us} hus hshows => ?_⟩
    · exact fun k hk => hk ▸ heof.2.1
    · have hbehind : Tokens.Leads Kind.EndsExpr (· = .eof) [] := fun k hk => hk ▸ heof.1
      rw [← List.append_nil more] at hshows
      obtain ⟨u, hu, hend⟩ := hshows.right
      have hoperand : Gets (operand (levels + 12)) us i e (ts.items.size + more.length) :=
        gets_enter (hus.at_of_lt hi ht) ⟨[], hruns hus (hshows.left hbehind)⟩
      exact hoperand.bind (gets_value hus.lexed e hu hend)

/-! ### Commands -/

/-- A span can be given wherever something has been read. -/
theorem gets_spanSince (hts : ts.Lexed) (start : Token) {j : Nat} (hj : j ≤ ts.items.size) :
    ∃ span, Gets (spanSince start) ts j span j := by
  cases j with
  | zero => exact ⟨_, [], 0, rfl⟩
  | succ j =>
    obtain ⟨last, hlast, -⟩ := hts.exists_at hj
    have hprevious : Gets previous ts (j + 1) (some last) (j + 1) :=
      ⟨[], runs_previous_succ.mpr ⟨last, hlast, rfl, rfl, rfl⟩⟩
    exact ⟨_, hprevious.bind gets_pure⟩

/-- A command is read where its request is. -/
theorem gets_read (hts : ts.Lexed) {start : Token} {r : Request} {j : Nat} (hstart : ts.At i start)
    (hj : j ≤ ts.items.size) (hr : Gets (readRequest levels) ts i r j) :
    ∃ c, Gets (read levels) ts i c j := by
  obtain ⟨span, hspan⟩ := gets_spanSince hts start hj
  rw [read_eq]
  exact ⟨⟨r, span⟩, (gets_current hstart).bind (hr.bind (hspan.bind gets_pure))⟩

/-- A command fails only where its request does. -/
theorem readRequest_of_error (hts : ts.Lexed) (hi : i < ts.items.size) {f : Failure}
    (hf : (read levels ts i).outcome = .error f) :
    (readRequest levels ts i).outcome = .error f := by
  obtain ⟨start, hstart, -⟩ := hts.exists_at hi
  cases hr : (readRequest levels ts i).outcome with
  | error f' =>
    rw [read_eq, outcome_bindCurrent hstart, bind_of_error hr] at hf
    cases hf
    rfl
  | ok r =>
    have hrun := runs_iff.mpr ⟨hr, rfl, rfl⟩
    obtain ⟨hideal, hnext, -⟩ := runs_iff.mp (request_under.runs hrun)
    obtain ⟨-, hsize, -⟩ := (viable_request hts hi).ok hideal
    obtain ⟨c, hc⟩ := gets_read hts hstart (hnext ▸ hsize) ⟨_, hrun⟩
    rw [hc.outcome.1] at hf
    cases hf

/-- Where a request fails at the end, the ideal one does. -/
theorem idealRequest_of_error {f : Failure} (hf : (readRequest levels ts i).outcome = .error f)
    (hend : f.AtEnd) : (idealRequest levels ts i).outcome = .error f := by
  rcases request_under ts i with heq | ⟨hfail, -⟩
  · rw [← heq, hf]
  · cases hf.symm.trans hfail
    exact absurd hend id

/-- **A command that fails at the end can be completed**: with some tokens it is all there is. -/
theorem completed_of_stuck (hts : ts.Lexed) (hi : i < ts.items.size) {f : Failure}
    (hf : (read levels ts i).outcome = .error f) (hend : f.AtEnd) :
    ∃ more : List Token, (∀ t ∈ more, t.Proper) ∧
      ∀ {last : Token}, ts.ending = .ok last → last.kind = .eof → ∃ levels' ≥ levels, ∃ c,
        Gets (read levels') (ts.followedBy more) i c (ts.items.size + more.length) := by
  have hideal := idealRequest_of_error (readRequest_of_error hts hi hf) hend
  obtain ⟨more, r, hproper, hgets⟩ := (viable_request hts hi).stuck hideal hend
  obtain ⟨start, hstart, -⟩ := hts.exists_at hi
  have hus := Tokens.prolongs_followedBy hts hproper
  refine ⟨more, hproper, fun {last} hlast hk => ?_⟩
  have hsize := (Tokens.size_followedBy ts more).symm
  obtain ⟨ds, hread⟩ := hgets hus (Tokens.shows_followedBy hlast hk more)
  obtain ⟨least, hread⟩ := settles_request _ _ _ _ _ hread
  have hread := hread (max levels least) (Nat.le_max_right _ _)
  exact ⟨_, Nat.le_max_left levels least,
    gets_read hus.lexed (hus.at_of_lt hi hstart) (Nat.le_of_eq hsize) ⟨ds, hread⟩⟩

/-! ### Buffers -/

section
variable {us : Tokens} {c : Command} {j : Nat} {ds : List Diagnostic}

/-- A command that stops before the end is read as it was, whatever follows. -/
theorem CommandRun.prolonged (hts : ts.Lexed) (hus : us.Prolongs ts) (hj : j < ts.items.size)
    (h : CommandRun levels ts i c j ds) : CommandRun levels us i c j ds := by
  have hrun := runs_iff.mp ((runs_read hts).mpr h)
  obtain ⟨hwalked, -⟩ := (walks_read hts (σ := []) (Nat.zero_le i)).ok hrun.1
  have hagrees : us.AgreesTo ts (read levels ts i).next := fun k hk => hus.same (by omega)
  have hsame := hwalked.same hus.lexed hagrees
  refine (runs_read hus.lexed).mp (runs_iff.mpr ?_)
  rwa [hsame]

end

theorem readRound_eq : readRound levels =
    current >>= fun t => if t.kind = .eof then pure none else some <$> read levels := sees_eq .eof

/-- Where a round fails at the end, it has begun before it, with a command. -/
theorem read_of_round (hts : ts.Lexed) {f : Failure}
    (hf : (readRound levels ts i).outcome = .error f) (hend : f.AtEnd) :
    i < ts.items.size ∧ (read levels ts i).outcome = .error f := by
  rw [readRound_eq] at hf
  cases hget : ts.get i with
  | error e =>
    rw [bind_of_error (congrArg Parsed.outcome (current_of_fault hget))] at hf
    cases hf
    exact absurd hend id
  | ok t =>
    rw [outcome_bindCurrent hget] at hf
    split at hf
    · cases hf
    · next hk =>
      refine ⟨hts.lt_size hget hk, ?_⟩
      have hmap : some <$> read levels = read levels >>= fun c => pure (some c) := rfl
      rw [hmap] at hf
      cases hread : (read levels ts i).outcome with
      | ok c =>
        rw [bind_of_ok hread] at hf
        cases hf
      | error f' =>
        rw [bind_of_error hread] at hf
        cases hf
        rfl

/-- **What is left of a buffer that fails at the end can be completed.** -/
theorem completed_of_failure (hts : ts.Lexed) {last : Token} (hlast : ts.ending = .ok last)
    (hk : last.kind = .eof) {f : Failure} (hend : f.AtEnd) : ∀ {rounds i : Nat},
      (Buffer.readFrom levels ts rounds i).failure = some f → i < ts.items.size ∧
        ∃ more : List Token, (∀ t ∈ more, t.Proper) ∧
          ∃ levels' ≥ levels, ∃ items, BufferRun levels' (ts.followedBy more) i items
  | 0, _, hf => by cases hf
  | rounds + 1, i, hf => by
    have hround := round_readFrom hts levels rounds i
    generalize Buffer.readFrom levels ts (rounds + 1) i = b at hround hf
    cases hround with
    | failed hround =>
      -- The command that fails is completed, and then it is the last.
      cases hf
      obtain ⟨hlt, hread⟩ := read_of_round hts hround hend
      obtain ⟨more, hproper, hgets⟩ := completed_of_stuck hts hlt hread hend
      obtain ⟨levels', hle, c, ds, hc⟩ := hgets hlast hk
      obtain ⟨t, ht, hne⟩ := hts.exists_at hlt
      have hus := Tokens.prolongs_followedBy hts hproper
      have hstop : (ts.followedBy more).Has (ts.items.size + more.length) .eof := by
        refine ⟨last, ?_, hk⟩
        rw [← Tokens.size_followedBy, Tokens.At, Tokens.get, dif_neg (Nat.lt_irrefl _)]
        exact hlast
      have hcommand := (runs_read hus.lexed).mp hc
      exact ⟨hlt, more, hproper, levels', hle, _,
        .more ⟨t, hus.at_of_lt hlt ht, hne⟩ hcommand (.stop hstop)⟩
    | ended => cases hf
    | read hlacks hc hrest =>
      -- The failure is behind this command, which stops before the end therefore.
      obtain ⟨hlt, more, hproper, levels', hle, items, hitems⟩ :=
        completed_of_failure hts hlast hk hend ((congrArg Buffer.failure hrest).trans hf)
      obtain ⟨t, ht, hne⟩ := hlacks
      have hus := Tokens.prolongs_followedBy hts hproper
      have hi := Nat.lt_trans (hc.lt hts).1 hlt
      have hcommand := (hc.prolonged hts hus hlt).of_le hle
      exact ⟨hi, more, hproper, levels', hle, _,
        .more ⟨t, hus.at_of_lt hi ht, hne⟩ hcommand hitems⟩

end Command

/-- A failure at the end is about the end token of the input. -/
theorem Tokens.Stuck.ending {ts : Tokens} (hts : ts.Lexed) {deep : Prop} {low i : Nat}
    {σ : List Kind} {f : Failure} (h : ts.Stuck deep low i σ f) (hend : f.AtEnd) :
    ∃ last, ts.ending = .ok last ∧ last.kind = .eof := by
  have hlast : ∀ {k : Nat} {t : Token}, ts.At k t → t.kind = .eof →
      ∃ last, ts.ending = .ok last ∧ last.kind = .eof := by
    intro k t ht hk
    have hbehind : ¬ k < ts.items.size := fun hlt => by
      obtain ⟨u, hu, hne⟩ := hts.exists_at hlt
      exact hne (ht.unique hu ▸ hk)
    rw [Tokens.At, Tokens.get, dif_neg hbehind] at ht
    exact ⟨t, ht, hk⟩
  cases h with
  | lexical => exact absurd hend id
  | here _ ht => exact hlast ht hend
  | behind _ _ _ ht => exact hlast ht hend
  | deep => exact absurd hend id

/-- **An error at the end of the input means that the input is incomplete.** If a buffer fails with
a parse error about the end token, there are tokens which, put in before the end, make it a buffer
that is read to the end without a failure, with as many levels as it may need. -/
theorem completed_of_end_failure {ts : Tokens} (hts : ts.Lexed) {levels : Nat} {f : Failure}
    (hf : (Buffer.ofTokens levels ts).failure = some f) (hend : f.AtEnd) :
    ∃ more : List Token, (∀ t ∈ more, t.Proper) ∧ ∃ least, ∀ levels' ≥ least,
      (Buffer.ofTokens levels' (ts.followedBy more)).failure = none := by
  have hstuck := (Buffer.conduct_readFrom hts levels _ (Nat.zero_le 0)).2 f hf
  obtain ⟨last, hlast, hk⟩ := hstuck.ending hts hend
  obtain ⟨-, more, hproper, least, -, items, hread⟩ :=
    Command.completed_of_failure hts hlast hk hend hf
  refine ⟨more, hproper, least, fun levels' hle => ?_⟩
  have hus := Tokens.lexed_followedBy hts hproper
  rw [(Command.ofTokens_iff hus).mpr (hread.of_le hle)]

/-- A call whose arguments have been begun. -/
theorem completed_of_end_failure_call :
    let ts := (Stream.ofText "f(1,").tokens
    (Buffer.ofTokens 30 ts).failure = some (.parse ⟨.unexpectedEnd, some ⟨.eof, "", 1, 5⟩⟩) ∧
      ∃ more : List Token, (∀ t ∈ more, t.Proper) ∧ ∃ least, ∀ levels ≥ least,
        (Buffer.ofTokens levels (ts.followedBy more)).failure = none := by
  intro ts
  have hf : (Buffer.ofTokens 30 ts).failure =
      some (.parse ⟨.unexpectedEnd, some ⟨.eof, "", 1, 5⟩⟩) := by decide
  exact ⟨hf, completed_of_end_failure (Tokens.lexed_ofChars _) hf rfl⟩

end CommandShell
