import CommandShell.Proofs.Commands.Balance
import CommandShell.Proofs.Sessions.Coupling

/-! # Steps: what a line does to a session

A line is a control, is blank, is refused, becomes pending or hands over a buffer. Each case has an
equation, and of each step it is told which buffers it hands over and which diagnostics it shows. A
line with a closer that fits no bracket cannot be read, whatever was open above it. -/

namespace CommandShell

/-- The buffer that an event hands over, if it is one. -/
def Event.source? : Event → Option String
  | .buffer source => some source
  | _ => none

/-- The diagnostic that an item is, if it is one. -/
def Item.diagnostic? : Item → Option Diagnostic
  | .diagnostic d => some d
  | .command _ => none

/-- All that is reported of a buffer, its failure last if it is one of the input. -/
def Buffer.reports (b : Buffer) : List Diagnostic :=
  b.items.filterMap Item.diagnostic? ++ (b.failure.bind Failure.diagnostic?).toList

/-- The diagnostic of a failure is fatal. -/
theorem Failure.severity_diagnostic {f : Failure} {d : Diagnostic} (h : f.diagnostic? = some d) :
    d.severity = .fatal := by
  cases f with
  | lex e => cases h; rfl
  | parse e =>
    cases h
    cases ht : e.token <;> simp [ParseError.diagnostic, Diagnostic.at?, ht]
  | exhausted => cases h

/-- A buffer that does not fail is shown as it was read. -/
theorem Buffer.eq_of_shownWithin {levels : Nat} {b : Buffer}
    (h : (b.shownWithin levels).failure = none) : b.shownWithin levels = b := by
  unfold shownWithin at h ⊢
  split_ifs at h ⊢
  rfl

/-- Nothing is shown that was not read. -/
theorem Buffer.mem_of_shownWithin {levels : Nat} {b : Buffer} {item : Item}
    (h : item ∈ (b.shownWithin levels).items) : item ∈ b.items := by
  unfold shownWithin at h
  split_ifs at h
  · exact h
  · exact (List.takeWhile_prefix _).subset h

/-- A buffer fails as it was read, unless no level is left to show it. -/
theorem Buffer.failure_shownWithin (levels : Nat) (b : Buffer) :
    (b.shownWithin levels).failure = b.failure ∨
      (b.shownWithin levels).failure = some .exhausted := by
  unfold shownWithin
  split_ifs
  · exact Or.inl rfl
  · exact Or.inr rfl

/-- A text that is read and shown to its end closes all its brackets. -/
theorem Reader.balanced_of_none {levels : Nat} {text : String} {toks : List Token}
    (hnone : (within levels text).failure = none) (htoks : tokenize text = .ok toks) :
    Brackets.empty.scan toks = (.balanced, .empty) := by
  have hread := hnone
  rw [within, Buffer.eq_of_shownWithin hnone] at hread
  obtain ⟨toks', htoks', hbalanced⟩ := Command.scan_of_read hread
  cases htoks.symm.trans htoks'
  exact hbalanced

/-- It closes its own brackets only, so that none of its closers fits no bracket. -/
theorem Reader.failure_of_malformed (levels : Nat) {text : String} {toks : List Token}
    (htoks : tokenize text = .ok toks) {b b' : Brackets} {u : Token}
    (hscan : b.scan toks = (.malformed u, b')) : (within levels text).failure ≠ none := by
  intro hnone
  have hbalanced := balanced_of_none hnone htoks
  obtain ⟨v, hv, hfit⟩ := Brackets.scan_outer b.awaited hbalanced fun t ht => nomatch ht
  cases hscan.symm.trans hv
  exact hfit u rfl

namespace Session

/-- The buffers that are handed over. -/
def sources (events : List Event) : List String := events.filterMap Event.source?

/-- The diagnostics that are shown. -/
def reports (events : List Event) : List Diagnostic := events.filterMap Event.diagnostic?

variable {s : Session} {reader : Reader} {line : String} {toks : List Token}

@[simp] theorem sources_append (events events' : List Event) :
    sources (events ++ events') = sources events ++ sources events' := List.filterMap_append

@[simp] theorem reports_append (events events' : List Event) :
    reports (events ++ events') = reports events ++ reports events' := List.filterMap_append

/-! ### Steps that show something -/

/-- A line that cannot be split into tokens is refused: what is pending is dropped with it. -/
def refuse (s : Session) (e : LexError) : Step :=
  { s.reset with log := s.log.flush }.showFailure (.lex e)

theorem shown_failure (s : Session) (f : Failure) :
    sources (s.showFailure f).2 = [] ∧ reports (s.showFailure f).2 = f.diagnostic?.toList := by
  unfold showFailure
  cases f.diagnostic? with
  | none => exact ⟨rfl, rfl⟩
  | some d => cases s.settings.tracing <;> exact ⟨rfl, rfl⟩

theorem shown_items (items : List Item) : sources (items.map .ofItem) = [] ∧
    reports (items.map .ofItem) = items.filterMap Item.diagnostic? := by
  unfold sources reports
  rw [List.filterMap_map, List.filterMap_map]
  refine ⟨List.filterMap_eq_nil_iff.mpr fun item _ => ?_, congrArg (items.filterMap ·) (funext ?_)⟩
  · cases item <;> rfl
  · rintro (d | c) <;> rfl

/-- **A buffer that is handed over** shows what the reader reports of it. -/
theorem shown_submit (reader : Reader) (s : Session) (source : String) :
    sources (s.submit reader source).2 = [source] ∧
      reports (s.submit reader source).2 = (reader source).reports := by
  obtain ⟨hsources, hreports⟩ := shown_items (reader source).items
  have hcons : ∀ events, sources (.buffer source :: events) = source :: sources events ∧
      reports (.buffer source :: events) = reports events := fun _ => ⟨rfl, rfl⟩
  unfold submit Buffer.reports
  simp only
  split
  · next hnone =>
    rw [(hcons _).1, (hcons _).2, hsources, hreports, hnone]
    exact ⟨rfl, (List.append_nil _).symm⟩
  · next f hf =>
    have hlast := fun s : Session => shown_failure s f
    rw [List.cons_append, (hcons _).1, (hcons _).2, sources_append, reports_append, hsources,
      hreports, (hlast _).1, (hlast _).2, hf]
    exact ⟨rfl, rfl⟩

/-- A buffer ends all that runs just if no level is left for it. -/
theorem exhausts_submit (reader : Reader) (s : Session) (source : String) :
    exhausts (s.submit reader source).2 = true ↔ (reader source).failure = some .exhausted := by
  have hitems : ∀ items : List Item, (items.map Event.ofItem).any (·.isExhausted) = false := by
    intro items
    rw [List.any_map, List.any_eq_false]
    rintro (d | c) - <;> exact Bool.false_ne_true
  unfold submit exhausts
  simp only
  split
  · next hnone =>
    rw [hnone, List.any_cons, hitems]
    exact iff_of_false Bool.false_ne_true nofun
  · next f hf =>
    rw [hf, List.any_append, List.any_cons, hitems]
    unfold showFailure
    cases f with
    | lex e | parse e =>
      refine iff_of_false ?_ nofun
      simp only [Failure.diagnostic?]
      split <;> exact Bool.false_ne_true
    | exhausted => exact iff_of_true rfl rfl

/-- A control hands over nothing and reports nothing. -/
theorem shown_obey (s : Session) (c : Control) :
    sources (s.obey c).2 = [] ∧ reports (s.obey c).2 = [] := by
  cases c <;> exact ⟨rfl, rfl⟩

theorem Idle.obey (h : s.Idle) (c : Control) : (s.obey c).1.Idle := by
  cases c with
  | multiline => exact ⟨rfl, rfl⟩
  | traceback =>
    simp only [Session.obey]
    exact ⟨h.pending, h.brackets⟩
  | quit => exact ⟨h.pending, h.brackets⟩
  | clear | status | help => exact h

theorem mode_obey (s : Session) (c : Control) :
    (s.obey c).1.mode = if c = .multiline then s.mode.toggled else s.mode := by
  cases c with
  | traceback => simp [obey]
  | _ => rfl

theorem mode_showFailure (s : Session) (f : Failure) : (s.showFailure f).1.mode = s.mode := by
  unfold showFailure
  split <;> rfl

theorem running_showFailure (s : Session) (f : Failure) :
    (s.showFailure f).1.running = s.running := by
  unfold showFailure
  split <;> rfl

theorem mode_submit (reader : Reader) (s : Session) (source : String) :
    (s.submit reader source).1.mode = s.mode := by
  unfold submit
  simp only
  split
  · rfl
  · exact mode_showFailure _ _

theorem running_submit (reader : Reader) (s : Session) (source : String) :
    (s.submit reader source).1.running = s.running := by
  unfold submit
  simp only
  split
  · rfl
  · exact running_showFailure _ _

/-! ### The cases of a line -/

theorem feed_of_control {c : Control} (hp : s.pending = [])
    (hc : Control.ofLine? (dropInvisible line) = some c) : s.feed reader line = s.obey c := by
  unfold feed command?
  simp [hp, hc]

theorem feed_of_plain (h : s.pending = [] → Control.ofLine? (dropInvisible line) = none) :
    s.feed reader line = s.gather reader (dropInvisible line) := by
  have hnone : (if s.pending.isEmpty then s.command? (dropInvisible line) else none) = none := by
    split_ifs with hp
    · rw [command?, h (List.isEmpty_iff.mp hp)]
      rfl
    · rfl
  unfold feed
  simp only [hnone]

/-- In single-line mode a line that is not skipped is judged by its tokens. -/
theorem gather_of_single (hm : s.mode = .single)
    (hblank : s.pending = [] → Text.isBlankLine line = false) :
    s.gather reader line =
      match tokenize line with
      | .error e => s.refuse e
      | .ok ts =>
        match s.brackets.scan ts with
        | (.malformed _, _) => s.submit reader line
        | (.needsMore, brackets) => ({ s with pending := s.pending ++ [line], brackets }, [])
        | (.balanced, _) => s.submit reader (Text.unlines (s.pending ++ [line])) := by
  have hkept : ¬ (s.pending.isEmpty && Text.isBlankLine line) = true := by
    rw [Bool.and_eq_true, List.isEmpty_iff]
    rintro ⟨hp, hb⟩
    rw [hblank hp] at hb
    cases hb
  have hsingle : s.gather reader line = s.gatherSingle reader line := by simp only [gather, hm]
  rw [hsingle, gatherSingle, if_neg hkept]
  rfl

end Session

end CommandShell
