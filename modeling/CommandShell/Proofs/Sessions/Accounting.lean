import CommandShell.Program.Batch
import CommandShell.Proofs.Commands.Misplaced
import CommandShell.Proofs.Sessions.Steps

/-! # Accounting: diagnostics shown, recorded and counted

A step of a session reads one buffer, refuses one line, or only tells something
(`Session.Deals`). The first two record anew what they show, the third leaves the log alone. So the
counts of the log are those of all that was ever shown, and what is recorded is what the last
buffer or refused line has shown (`Session.Accounted`). A fatal diagnostic ends a buffer: nothing
of the buffer is shown behind it. -/

namespace CommandShell

/-! ### Counts -/

namespace Log

/-- From `before` to `after` the diagnostics were counted. -/
structure Counted (before : Log) (ds : List Diagnostic) (after : Log) : Prop where
  errors : after.errorCount = before.errorCount + ds.countP fun d => !d.isWarning
  warnings : after.warningCount = before.warningCount + ds.countP fun d => d.isWarning

variable {log log' log'' : Log} {ds ds' : List Diagnostic}

theorem Counted.refl (log : Log) : log.Counted [] log := ⟨rfl, rfl⟩

theorem Counted.trans (h : log.Counted ds log') (h' : log'.Counted ds' log'') :
    log.Counted (ds ++ ds') log'' where
  errors := by rw [List.countP_append, h'.errors, h.errors, Nat.add_assoc]
  warnings := by rw [List.countP_append, h'.warnings, h.warnings, Nat.add_assoc]

theorem counted_add (log : Log) (d : Diagnostic) : log.Counted [d] (log.add d) := by
  unfold add
  split_ifs with hd <;> constructor <;> simp [hd]

theorem counted_addAll : ∀ (ds : List Diagnostic) (log : Log), log.Counted ds (log.addAll ds)
  | [], log => .refl log
  | d :: ds, log => (log.counted_add d).trans (counted_addAll ds (log.add d))

theorem addAll_append (log : Log) (ds ds' : List Diagnostic) :
    log.addAll (ds ++ ds') = (log.addAll ds).addAll ds' := List.foldl_append

theorem recorded_add (log : Log) (d : Diagnostic) : (log.add d).recorded = log.recorded ++ [d] := by
  unfold add
  split <;> rfl

theorem recorded_addAll : ∀ (ds : List Diagnostic) (log : Log),
    (log.addAll ds).recorded = log.recorded ++ ds
  | [], log => (List.append_nil log.recorded).symm
  | d :: ds, log => by
    show ((log.add d).addAll ds).recorded = _
    rw [recorded_addAll, recorded_add, List.append_assoc, List.singleton_append]

/-- Something else than a warning was counted. -/
theorem Counted.hasErrors_iff (h : empty.Counted ds log) :
    log.hasErrors = true ↔ ∃ d ∈ ds, d.severity ≠ .warning := by
  have herrors := h.errors
  rw [show empty.errorCount = 0 from rfl, Nat.zero_add] at herrors
  simp [hasErrors, herrors, Diagnostic.isWarning, List.countP_pos_iff]

end Log

/-- The reader reports nothing fatal before the failure of a buffer. -/
def Reader.Recovers (reader : Reader) : Prop :=
  ∀ source d, .diagnostic d ∈ (reader source).items → d.severity ≠ .fatal

/-! ### Events -/

/-- Does the event belong to a buffer that is read or to a line that is refused? -/
def Event.settles : Event → Bool
  | .buffer _ | .diagnostic _ => true
  | _ => false

/-- Is the event a diagnostic that ends a buffer? -/
def Event.isFatal : Event → Bool
  | .diagnostic d => d.severity == .fatal
  | _ => false

/-- Is the event a diagnostic or a command? -/
def Event.isItem : Event → Bool
  | .diagnostic _ | .command _ => true
  | _ => false

namespace Session

/-- No item stands behind a fatal diagnostic. -/
def FatalLast (events : List Event) : Prop :=
  events.Pairwise fun e e' => e.isFatal = true → e'.isItem = false

/-- Is it a buffer that the step has read, or a line that it has refused? -/
def settles (events : List Event) : Bool := events.any (·.settles)

/-- What a step does: it reads a buffer, refuses a line that cannot be split into tokens, or tells
something. -/
inductive Deals (reader : Reader) (s : Session) : Step → Prop
  | read (source : String) : Deals reader s (s.submit reader source)
  | refused {line : String} {e : LexError} : tokenize line = .error e → Deals reader s (s.refuse e)
  | told {r : Step} : r.1.log = s.log → (∀ e ∈ r.2, e = .clear ∨ ∃ text, e = .message text) →
      Deals reader s r

variable {reader : Reader} {s : Session} {r : Step}

theorem Deals.of_silent {s' : Session} (h : s'.log = s.log) : Deals reader s (s', []) :=
  .told h fun _ he => nomatch he

theorem deals_obey (reader : Reader) (s : Session) (c : Control) : Deals reader s (s.obey c) := by
  cases c with
  | multiline | clear | status => exact .told rfl (by simp [obey])
  | traceback => exact .told (by simp [obey]) (by simp [obey])
  | help =>
    refine .told rfl fun e he => Or.inr ?_
    obtain ⟨c, -, rfl⟩ := List.mem_map.mp he
    exact ⟨_, rfl⟩
  | quit => exact .of_silent rfl

theorem deals_finish (reader : Reader) (s : Session) : Deals reader s (s.finish reader) := by
  unfold finish
  split_ifs
  · exact .of_silent rfl
  · exact .read _

theorem deals_gatherSingle (reader : Reader) (s : Session) (line : String) :
    Deals reader s (s.gatherSingle reader line) := by
  unfold gatherSingle
  split_ifs
  · exact .of_silent rfl
  · split
    · next e he => exact .refused he
    · split
      · exact .read line
      · exact .of_silent rfl
      · exact .read _

theorem deals_gatherMulti (reader : Reader) (s : Session) (line : String) :
    Deals reader s (s.gatherMulti reader line) := by
  unfold gatherMulti
  split_ifs
  · exact deals_finish reader s
  · exact .of_silent rfl

theorem deals_command {line : String} (hr : s.command? line = some r) : Deals reader s r := by
  obtain ⟨c, -, rfl⟩ := Option.map_eq_some_iff.mp hr
  exact deals_obey reader s c

theorem deals_feed (reader : Reader) (s : Session) (line : String) :
    Deals reader s (s.feed reader line) := by
  unfold feed
  simp only
  split
  · next r hr =>
    split_ifs at hr
    exact deals_command hr
  · unfold gather
    split
    · exact deals_gatherSingle reader s _
    · exact deals_gatherMulti reader s _

/-- **Every call reads a buffer, refuses a line or only tells something.** -/
theorem deals_perform (reader : Reader) (s : Session) (call : Call) :
    Deals reader s (s.perform reader call) := by
  cases call with
  | feed line => exact deals_feed reader s line
  | finish => exact deals_finish reader s
  | reset => exact .of_silent rfl
  | submit source => exact .read source
  | command line =>
    show Deals reader s ((s.command? line).getD (s, []))
    cases hr : s.command? line with
    | none => exact .of_silent rfl
    | some r => exact deals_command hr

/-! ### The account of a step -/

/-- What a step does to the log is told by its events. -/
structure Accounts (s : Session) (r : Step) : Prop where
  counted : s.log.Counted (reports r.2) r.1.log
  recorded : r.1.log.recorded = if settles r.2 then reports r.2 else s.log.recorded
  silent : settles r.2 = false → reports r.2 = []
  fatalLast : FatalLast r.2

theorem fatalLast_failure (s : Session) (f : Failure) : FatalLast (s.showFailure f).2 := by
  unfold showFailure
  cases f.diagnostic? with
  | none => exact List.pairwise_singleton _ _
  | some d =>
    cases s.settings.tracing with
    | true => exact List.pairwise_pair.mpr fun _ => rfl
    | false => exact List.pairwise_singleton _ _

/-- Items that are not fatal may stand before anything. -/
theorem fatalLast_items {items : List Item} {rest : List Event}
    (hcalm : ∀ d, .diagnostic d ∈ items → d.severity ≠ .fatal) (hrest : FatalLast rest) :
    FatalLast (items.map .ofItem ++ rest) := by
  have hitems : ∀ e ∈ items.map Event.ofItem, e.isFatal ≠ true := by
    intro e he
    obtain ⟨item, hitem, rfl⟩ := List.mem_map.mp he
    cases item with
    | diagnostic d => simpa [Event.ofItem, Event.isFatal] using hcalm d hitem
    | command c => exact Bool.false_ne_true
  refine List.pairwise_append.mpr ⟨?_, hrest, fun e he _ _ hfatal => absurd hfatal (hitems e he)⟩
  exact List.pairwise_of_forall_mem_list fun e he _ _ hfatal => absurd hfatal (hitems e he)

theorem fatalLast_submit (hreader : reader.Recovers) (s : Session) (source : String) :
    FatalLast (s.submit reader source).2 := by
  have hfirst : ∀ {events}, FatalLast events → FatalLast (.buffer source :: events) :=
    fun h => List.pairwise_cons.mpr ⟨fun _ _ hfatal => absurd hfatal Bool.false_ne_true, h⟩
  unfold submit
  simp only
  split
  · rw [← List.append_nil (List.map _ _)]
    exact hfirst (fatalLast_items (hreader source) .nil)
  · exact hfirst (fatalLast_items (hreader source) (fatalLast_failure _ _))

theorem log_showFailure (s : Session) (f : Failure) :
    (s.showFailure f).1.log = s.log.addAll f.diagnostic?.toList := by
  unfold showFailure
  cases f.diagnostic? <;> rfl

theorem log_submit (reader : Reader) (s : Session) (source : String) :
    (s.submit reader source).1.log = s.log.flush.addAll (reader source).reports := by
  have hitems := (shown_items (reader source).items).2
  unfold submit Buffer.reports
  simp only
  split
  · next hnone =>
    rw [hnone, ← hitems, Option.bind_none, Option.toList_none, List.append_nil]
    rfl
  · next f hf =>
    rw [log_showFailure, hf, ← hitems, Log.addAll_append]
    rfl

theorem settles_of_diagnostic {events : List Event} {d : Diagnostic} (h : d ∈ reports events) :
    settles events = true := by
  obtain ⟨e, he, hd⟩ := List.mem_filterMap.mp h
  refine List.any_eq_true.mpr ⟨e, he, ?_⟩
  cases e with
  | diagnostic => rfl
  | _ => cases hd

/-- A step that settles flushes the log before it records. -/
theorem Accounts.of_settled {ds : List Diagnostic} (hsettles : settles r.2 = true)
    (hreports : reports r.2 = ds) (hlog : r.1.log = s.log.flush.addAll ds)
    (hfatal : FatalLast r.2) : Accounts s r where
  counted := by
    rw [hlog, hreports]
    -- Flushing forgets what was recorded, but not the counts.
    have hcounted := Log.counted_addAll ds s.log.flush
    exact ⟨hcounted.errors, hcounted.warnings⟩
  recorded := by
    rw [if_pos hsettles, hlog, hreports, Log.recorded_addAll]
    rfl
  silent hnot := absurd hsettles (by rw [hnot]; decide)
  fatalLast := hfatal

theorem settles_told {events : List Event}
    (htold : ∀ e ∈ events, e = .clear ∨ ∃ text, e = .message text) : settles events = false := by
  refine List.any_eq_false.mpr fun e he => ?_
  rcases htold e he with rfl | ⟨_, rfl⟩ <;> exact Bool.false_ne_true

theorem Deals.accounts (hreader : reader.Recovers) (h : Deals reader s r) : Accounts s r := by
  cases h with
  | read source =>
    obtain ⟨-, hreports⟩ := shown_submit reader s source
    refine .of_settled ?_ hreports (log_submit reader s source) (fatalLast_submit hreader s source)
    unfold submit
    simp only
    split <;> rfl
  | @refused line e _ =>
    exact .of_settled rfl (shown_failure _ _).2 rfl (fatalLast_failure _ _)
  | told hlog htold =>
    have hsilent := settles_told htold
    have hnone : reports r.2 = [] := List.eq_nil_iff_forall_not_mem.mpr fun d hd =>
      absurd (settles_of_diagnostic hd) (by rw [hsilent]; decide)
    refine ⟨by rw [hlog, hnone]; exact .refl _, by rw [hsilent, hlog]; rfl, fun _ => hnone, ?_⟩
    refine List.pairwise_of_forall_mem_list fun e he _ _ hfatal => ?_
    rcases htold e he with rfl | ⟨_, rfl⟩ <;> cases hfatal

/-- What a step shows that reads a buffer or refuses a line. -/
theorem Deals.shown (h : Deals reader s r) (hsettles : settles r.2 = true) :
    (∃ source, sources r.2 = [source] ∧ reports r.2 = (reader source).reports) ∨
      ∃ line e, tokenize line = .error e ∧ sources r.2 = [] ∧
        reports r.2 = [e.diagnostic] := by
  cases h with
  | read source => exact Or.inl ⟨source, shown_submit reader s source⟩
  | @refused line e he => exact Or.inr ⟨line, e, he, shown_failure _ _⟩
  | told _ htold =>
    rw [settles_told htold] at hsettles
    cases hsettles

theorem accounts_perform (hreader : reader.Recovers) (s : Session) (call : Call) :
    Accounts s (s.perform reader call) := (deals_perform reader s call).accounts hreader

/-! ### Runs -/

/-- The events of some calls, call by call. -/
def transcript (reader : Reader) (s : Session) : List Call → List (List Event)
  | [] => []
  | call :: calls =>
    (s.perform reader call).2 :: transcript reader (s.perform reader call).1 calls

/-- The events of the last call that read a buffer or refused a line. -/
def latest (shown : List (List Event)) : List Event := ((shown.filter settles).getLast?).getD []

theorem performAll_concat (reader : Reader) (s : Session) (calls : List Call) (call : Call) :
    s.performAll reader (calls ++ [call]) =
      ((s.performAll reader calls).perform reader call).1 := List.foldl_append

theorem transcript_concat (reader : Reader) : ∀ (calls : List Call) (s : Session) (call : Call),
    s.transcript reader (calls ++ [call]) =
      s.transcript reader calls ++ [((s.performAll reader calls).perform reader call).2]
  | [], _, _ => rfl
  | first :: calls, s, call =>
    congrArg (_ :: ·) (transcript_concat reader calls (s.perform reader first).1 call)

theorem latest_concat (shown : List (List Event)) (events : List Event) :
    latest (shown ++ [events]) = if settles events then events else latest shown := by
  unfold latest
  rw [List.filter_append]
  split_ifs with h
  · rw [List.filter_cons_of_pos h, List.filter_nil, List.getLast?_concat, Option.getD_some]
  · rw [List.filter_cons_of_neg h, List.filter_nil, List.append_nil]

/-- The log is told by all that was shown: it has counted every diagnostic, and has recorded what
the last buffer or refused line has shown. -/
structure Accounted (log : Log) (shown : List (List Event)) : Prop where
  counted : Log.empty.Counted (reports shown.flatten) log
  recorded : log.recorded = reports (latest shown)
  suffix : log.recorded <:+ reports shown.flatten
  fatalLast : FatalLast (latest shown)

theorem Accounted.concat {shown : List (List Event)} (h : Accounted s.log shown)
    (hr : Accounts s r) : Accounted r.1.log (shown ++ [r.2]) where
  counted := by
    rw [List.flatten_concat, reports_append]
    exact h.counted.trans hr.counted
  recorded := by
    rw [hr.recorded, latest_concat, h.recorded]
    split <;> rfl
  suffix := by
    rw [List.flatten_concat, reports_append, hr.recorded]
    split_ifs with hsettles
    · exact List.suffix_append _ _
    · rw [hr.silent (Bool.not_eq_true _ ▸ hsettles), List.append_nil]
      exact h.suffix
  fatalLast := by
    rw [latest_concat]
    split_ifs
    · exact hr.fatalLast
    · exact h.fatalLast

theorem accounted_start (settings : Settings) (mode : Option Mode) :
    Accounted (start settings mode).log [] :=
  ⟨.refl _, rfl, List.suffix_refl [], .nil⟩

theorem deals_of_mem {events : List Event} : ∀ {calls : List Call} {s : Session},
    events ∈ s.transcript reader calls → ∃ s' r, Deals reader s' r ∧ events = r.2
  | [], _, h => nomatch h
  | call :: _, s, h => by
    rcases List.mem_cons.mp h with rfl | h
    · exact ⟨s, _, deals_perform reader s call, rfl⟩
    · exact deals_of_mem h

/-- **Whatever is called, the log is told by what was shown.** -/
theorem accounted_performAll (hreader : reader.Recovers) (settings : Settings) (mode : Option Mode)
    (calls : List Call) : Accounted ((start settings mode).performAll reader calls).log
      ((start settings mode).transcript reader calls) := by
  induction calls using List.reverseRecOn with
  | nil => exact accounted_start settings mode
  | append_singleton calls call ih =>
    rw [performAll_concat, transcript_concat]
    exact ih.concat (accounts_perform hreader _ call)

/-! ### What is recorded last -/

theorem FatalLast.of_fatal {events front back : List Event} {d : Diagnostic}
    (h : FatalLast events) (hevents : events = front ++ .diagnostic d :: back)
    (hd : d.severity = .fatal) : ∀ e ∈ back, e.isItem = false := by
  subst hevents
  have hcons := (List.pairwise_append.mp h).2.1
  exact fun e he => (List.pairwise_cons.mp hcons).1 e he (by simp [Event.isFatal, hd])

/-- Only the last diagnostic may be fatal. -/
theorem FatalLast.dropLast_reports {events : List Event} (h : FatalLast events) :
    ∀ d ∈ (reports events).dropLast, d.severity ≠ .fatal := by
  induction events with
  | nil => exact fun _ hd => nomatch hd
  | cons e events ih =>
    obtain ⟨hfirst, hrest⟩ := List.pairwise_cons.mp h
    have hrest := ih hrest
    cases e with
    | diagnostic d =>
      show ∀ d' ∈ (d :: reports events).dropLast, _
      cases hreports : reports events with
      | nil => exact fun _ hd => nomatch hd
      | cons d' ds =>
        rw [hreports] at hrest
        refine List.forall_mem_cons.mpr ⟨fun hfatal => ?_, hrest⟩
        -- Something is reported behind, so that the first diagnostic cannot be fatal.
        have hmem : d' ∈ reports events := hreports ▸ List.mem_cons_self
        obtain ⟨e', he', hd'⟩ := List.mem_filterMap.mp hmem
        have hitem := hfirst e' he' (by simp [Event.isFatal, hfatal])
        cases e' with
        | diagnostic => cases hitem
        | _ => cases hd'
    | _ => exact hrest

end Session

/-! ### Batch runs -/

theorem Reader.recovers_within (levels : Nat) : (Reader.within levels).Recovers := by
  intro source d hd
  have hlexed : (Stream.ofText source).tokens.Lexed := Tokens.lexed_ofChars source.toList
  have hread := Buffer.mem_of_shownWithin hd
  exact (Buffer.conduct_readFrom hlexed levels _ (Nat.zero_le 0)).1 d hread

/-- The log of a batch run has counted what the run has shown. -/
theorem Session.counted_feedAll {reader : Reader} (hreader : reader.Recovers) :
    ∀ (lines : List String) (s : Session),
      s.log.Counted (reports (s.feedAll reader lines).2) (s.feedAll reader lines).1.log
  | [], s => ((deals_finish reader s).accounts hreader).counted
  | line :: rest, s => by
    have hline := ((deals_feed reader s line).accounts hreader).counted
    unfold feedAll
    simp only
    split_ifs
    · rw [reports_append]
      exact hline.trans (counted_feedAll hreader rest _)
    · exact hline

theorem Batch.counted_run (settings : Settings) (mode : Option Mode) (source : String) :
    Log.empty.Counted (Session.reports (run settings mode source).2)
      (run settings mode source).1.log :=
  Session.counted_feedAll (Reader.recovers_within Grammar.nestingLimit) (Text.lines source)
    (.start settings mode)

/-- A text that cannot be found or decoded gives no status. -/
theorem Batch.Invocation.ne_status {i : Invocation} {input : String}
    {find? : String → Option (List UInt8)} {exit : Exit} (h : i.source input find? = .error exit)
    (code : Nat) : exit ≠ .status code := by
  rintro rfl
  unfold source at h
  split_ifs at h
  · cases h
  · simp only at h
    split at h
    · cases h
    · split at h <;> cases h

/-- **A batch run ends with status one if something else than a warning was shown.** -/
theorem Batch.status_iff {settings : Settings} {args : List String} {input : String}
    {find? : String → Option (List UInt8)} {events : List Event} {code : Nat}
    (h : execute settings args input find? = (events, .status code)) :
    code = 1 ↔ ∃ d ∈ Session.reports events, d.severity ≠ .warning := by
  unfold execute at h
  split at h
  · cases h
  · split at h
    · next hexit =>
      cases h
      exact absurd rfl (Invocation.ne_status hexit code)
    · next i _ _ source hsource =>
      have hcounted := counted_run settings i.mode source
      rcases hrun : run settings i.mode source with ⟨s, shown⟩
      rw [hrun] at h hcounted
      obtain ⟨rfl, hexit⟩ := Prod.mk.inj h
      rw [← hcounted.hasErrors_iff]
      split_ifs at hexit with _ herrors
      · cases hexit
        exact iff_of_true rfl herrors
      · cases hexit
        exact iff_of_false Nat.zero_ne_one herrors

namespace Session

/-- **Whatever is done with a session, its log is told by what it has shown.** The counts are those
of all diagnostics that were ever shown, so that a batch run ends with status one if and only if it
has shown something else than warnings. What is recorded is what the last buffer that was read, or
the last line that was refused, has shown. Only its last diagnostic may be fatal, and no command is
shown behind that. -/
theorem accounted_of_calls (levels : Nat) (settings : Settings) (mode : Option Mode)
    (calls : List Call) :
    let s := (start settings mode).performAll (Reader.within levels) calls
    let shown := (start settings mode).transcript (Reader.within levels) calls
    (s.log.errorCount = (reports shown.flatten).countP (fun d => !d.isWarning) ∧
      s.log.warningCount = (reports shown.flatten).countP (fun d => d.isWarning) ∧
      (s.log.hasErrors = true ↔ ∃ d ∈ reports shown.flatten, d.severity ≠ .warning)) ∧
    (s.log.recorded = reports (latest shown) ∧ s.log.recorded <:+ reports shown.flatten) ∧
    ((∀ d ∈ s.log.recorded.dropLast, d.severity ≠ .fatal) ∧
      ∀ front d back, latest shown = front ++ .diagnostic d :: back → d.severity = .fatal →
        ∀ c, .command c ∉ back) ∧
    (∀ events ∈ shown, settles events = true →
      (∃ source, sources events = [source] ∧
        reports events = (Reader.within levels source).reports) ∨
      ∃ line e, tokenize line = .error e ∧ sources events = [] ∧
        reports events = [e.diagnostic]) ∧
    ∀ args input find? events code,
      Batch.execute settings args input find? = (events, .status code) →
        (code = 1 ↔ ∃ d ∈ reports events, d.severity ≠ .warning) := by
  intro s shown
  have h : Accounted s.log shown :=
    accounted_performAll (Reader.recovers_within levels) settings mode calls
  refine ⟨⟨?_, ?_, h.counted.hasErrors_iff⟩, ⟨h.recorded, h.suffix⟩, ⟨?_, ?_⟩, ?_, ?_⟩
  · rw [h.counted.errors]
    exact Nat.zero_add _
  · rw [h.counted.warnings]
    exact Nat.zero_add _
  · rw [h.recorded]
    exact h.fatalLast.dropLast_reports
  · intro front d back hlatest hd c hc
    cases h.fatalLast.of_fatal hlatest hd _ hc
  · intro events hevents hsettles
    obtain ⟨s', r, hdeals, rfl⟩ := deals_of_mem hevents
    exact hdeals.shown hsettles
  · intro args input find? events code hexecute
    exact Batch.status_iff hexecute

/-- A warning, an error and a fatal diagnostic come of the first buffer, and a line is refused
after it: all four are counted, and only the last is recorded. -/
theorem accounted_of_calls_refused :
    let calls : List Call := [.feed "if (a) ; 1; b c", .feed "#", .command "/status"]
    let s := (start .unset (some .single)).performAll (Reader.within 30) calls
    (s.log.errorCount, s.log.warningCount, s.log.recorded.map (·.text)) =
        (3, 1, ["fatal KS0001 (1:1): Unexpected character '#'"]) ∧
      s.log.recorded <:+ reports
        ((start .unset (some .single)).transcript (Reader.within 30) calls).flatten ∧
      ∃ events, Batch.execute .unset [] "1;" (fun _ => none) = (events, .status 1) ∧
        ∃ d ∈ reports events, d.severity ≠ .warning := by
  have h := accounted_of_calls 30 .unset (some .single)
    [.feed "if (a) ; 1; b c", .feed "#", .command "/status"]
  refine ⟨by decide, h.2.1.2, _, rfl, ?_⟩
  exact (h.2.2.2.2 [] "1;" (fun _ => none) _ 1 rfl).mp rfl

end Session

end CommandShell
