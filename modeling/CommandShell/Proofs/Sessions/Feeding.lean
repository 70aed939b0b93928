import CommandShell.Program.Batch
import CommandShell.Proofs.Commands.Appending
import CommandShell.Proofs.Sessions.Steps

/-! # Feeding: what lines fed one by one do

A line fed to a session in single-line mode without a fatal report is skipped, becomes pending or
completes a buffer that is read to its end (`Coupled.fed`): a line that cannot be split into tokens,
a closer that fits no open bracket and an input that ends inside brackets are all fatal. The events
of a run are `located` by the text above the buffer that they come from. -/

namespace CommandShell

open CommandShell.Command

/-- The item that an event shows. -/
def Event.item? : Event → Option Item
  | .diagnostic d => some (.diagnostic d)
  | .command c => some (.command c)
  | _ => none

/-- The command that an event shows. -/
def Event.command? : Event → Option Command
  | .command c => some c
  | _ => none

namespace Session

/-- No line is a control where it could be one, and what is skipped as a blank line holds only
characters that stand between tokens. -/
def Undisturbed (reader : Reader) (s : Session) : List String → Prop
  | [] => True
  | line :: rest =>
    (s.pending = [] → Control.ofLine? (dropInvisible line) = none ∧
      (Text.isBlankLine (dropInvisible line) = true →
        ∀ c ∈ (dropInvisible line).toList, Lexer.isSpace c = true)) ∧
      (s.feed reader line).1.Undisturbed reader rest

/-- The events of lines fed to a session up to the end of the input, each with the text above the
buffer that it comes from; `above` is the text above the pending lines. -/
def located (reader : Reader) (s : Session) (above : String) : List String → List (String × Event)
  | [] => (s.finish reader).2.map (above, ·)
  | line :: rest =>
    let next := (s.feed reader line).1
    let read := Text.unlines (s.pending ++ [dropInvisible line])
    let below := if next.pending.isEmpty then above ++ read ++ "\n" else above
    (s.feed reader line).2.map (above, ·) ++ next.located reader below rest

/-- The items that events show, each where it stands in the text. -/
def placed (events : List (String × Event)) : List Item :=
  events.filterMap fun e => e.2.item?.map (.down (Text.lineFeeds e.1))

/-- No event shows a fatal diagnostic, and none ends all that runs. -/
structure Calm (events : List Event) : Prop where
  mild : ∀ d, .diagnostic d ∈ events → d.severity ≠ .fatal
  lasting : exhausts events = false

/-- What is above a buffer is above it in the text. -/
def Prefixed (shown : List (String × Event)) (text : String) : Prop :=
  ∀ above source, (above, .buffer source) ∈ shown → (above ++ source).toList <+: text.toList

instance (events : List Event) : Decidable (Calm events) :=
  decidable_of_iff
    ((∀ e ∈ events, ∀ d ∈ e.diagnostic?, d.severity ≠ .fatal) ∧ exhausts events = false)
    ⟨fun h => ⟨fun d hd => h.1 _ hd d rfl, h.2⟩,
      fun h => ⟨fun e he d hd => by cases e <;> cases hd; exact h.mild d he, h.lasting⟩⟩

/-- Whether lines leave the session undisturbed is found by feeding them. -/
def decideUndisturbed (reader : Reader) : ∀ (lines : List String) (s : Session),
    Decidable (s.Undisturbed reader lines)
  | [], _ => .isTrue trivial
  | line :: rest, s =>
    have := List.decidableBAll (Lexer.isSpace · = true) (dropInvisible line).toList
    have := decideUndisturbed reader rest (s.feed reader line).1
    inferInstanceAs (Decidable (_ ∧ _))

instance (reader : Reader) (s : Session) (lines : List String) :
    Decidable (s.Undisturbed reader lines) := decideUndisturbed reader lines s

/-! ### What is shown of a buffer -/

variable {s : Session} {reader : Reader} {levels : Nat}

/-- What is calm is calm in both parts. -/
theorem Calm.of_append {events events' : List Event} (h : Calm (events ++ events')) :
    Calm events ∧ Calm events' := by
  have hlasting := h.lasting
  rw [exhausts, List.any_append, Bool.or_eq_false_iff] at hlasting
  exact ⟨⟨fun d hd => h.mild d (List.mem_append_left _ hd), hlasting.1⟩,
    ⟨fun d hd => h.mild d (List.mem_append_right _ hd), hlasting.2⟩⟩

/-- A failure shows. -/
theorem not_calm_showFailure (s : Session) (f : Failure) : ¬ Calm (s.showFailure f).2 := by
  unfold showFailure
  cases hd : f.diagnostic? with
  | none => exact fun h => Bool.noConfusion h.lasting
  | some d => exact fun h => h.mild d List.mem_cons_self (Failure.severity_diagnostic hd)

/-- What is shown calmly did not fail. -/
theorem failure_of_calm {source : String} (h : Calm (s.submit reader source).2) :
    (reader source).failure = none := by
  unfold submit at h
  simp only at h
  split at h
  · assumption
  · next f hf => exact absurd h.of_append.2 (not_calm_showFailure _ f)

theorem submit_of_none {source : String} (h : (reader source).failure = none) :
    (s.submit reader source).2 = .buffer source :: (reader source).items.map .ofItem ∧
      (s.submit reader source).1.mode = s.mode ∧
        (s.submit reader source).1.running = s.running := by
  simp [submit, reset, h]

theorem placed_append (events events' : List (String × Event)) :
    placed (events ++ events') = placed events ++ placed events' := List.filterMap_append

theorem placed_buffer (above source : String) (items : List Item) :
    placed ((Event.buffer source :: items.map .ofItem).map (above, ·)) =
      items.map (.down (Text.lineFeeds above)) := by
  unfold placed
  rw [List.map_cons, List.filterMap_cons_none rfl, List.map_map, List.filterMap_map]
  induction items with
  | nil => rfl
  | cons item items ih => cases item <;> simp [Event.ofItem, Event.item?] at ih ⊢ <;> exact ih

/-- Where the bracket count of a text is not balanced, reading the text fails. -/
theorem failure_of_scan {text : String} {toks : List Token} (htoks : tokenize text = .ok toks)
    (hscan : (Brackets.empty.scan toks).1 ≠ .balanced) :
    (Reader.within levels text).failure ≠ none := fun hnone =>
  hscan (congrArg Prod.fst (Reader.balanced_of_none hnone htoks))

/-! ### What a line does in single-line mode -/

/-- **A line fed without a fatal report** is skipped, becomes pending, or completes a buffer that is
read to its end. -/
inductive Fed (levels : Nat) (s : Session) (line : String) : Step → Prop
  | skipped : s.pending = [] → (∀ c ∈ line.toList, Lexer.isSpace c = true) →
      Fed levels s line (s, [])
  | waiting (brackets : Brackets) :
      Fed levels s line ({ s with pending := s.pending ++ [line], brackets }, [])
  | completed {toks : List Token} :
      tokenize (Text.unlines (s.pending ++ [line])) = .ok toks →
      (Reader.within levels (Text.unlines (s.pending ++ [line]))).failure = none →
      Fed levels s line (s.submit (.within levels) (Text.unlines (s.pending ++ [line])))

theorem Coupled.fed (h : s.Coupled) (hm : s.mode = .single) {line : String}
    (hplain : s.pending = [] → Control.ofLine? (dropInvisible line) = none ∧
      (Text.isBlankLine (dropInvisible line) = true →
        ∀ c ∈ (dropInvisible line).toList, Lexer.isSpace c = true))
    (hcalm : Calm (s.feed (.within levels) line).2) :
    Fed levels s (dropInvisible line) (s.feed (.within levels) line) := by
  have hfeed : s.feed (.within levels) line =
      s.gatherSingle (.within levels) (dropInvisible line) := by
    rw [feed_of_plain fun hp => (hplain hp).1, gather, hm]
  rw [hfeed] at hcalm ⊢
  unfold gatherSingle at hcalm ⊢
  split_ifs at hcalm ⊢ with hblank
  · simp only [Bool.and_eq_true, List.isEmpty_iff] at hblank
    exact .skipped hblank.1 ((hplain hblank.1).2 hblank.2)
  · split at hcalm
    · exact absurd hcalm (not_calm_showFailure _ _)
    · next toks htoks =>
      split at hcalm
      · next t b hscan =>
        -- A closer that fits no bracket hands over its line alone, which then fails to be read.
        exact absurd (failure_of_calm hcalm) (Reader.failure_of_malformed _ htoks hscan)
      · next b hscan => exact .waiting b
      · next b hscan =>
        obtain ⟨ws, hws, -⟩ := h.scan_snoc hm htoks hscan fun t ht => by cases ht
        exact .completed hws (failure_of_calm hcalm)

/-- At the end of the input nothing may be pending. -/
theorem Coupled.pending_of_calm (h : s.Coupled) (hm : s.mode = .single)
    (hcalm : Calm (s.finish (.within levels)).2) : s.pending = [] := by
  by_contra hp
  rw [finish, if_neg (by rwa [List.isEmpty_iff])] at hcalm
  obtain ⟨toks, v, htoks, hscan, hfit⟩ := h.single hm
  refine failure_of_scan htoks ?_ (failure_of_calm hcalm)
  rw [hscan]
  rintro rfl
  -- Pending lines that are read have no bracket open, but only open brackets keep lines pending.
  rcases Brackets.verdict_scan toks hscan with ⟨t, ht⟩ | hv
  · cases ht
  · refine (h.waiting hm).mp hp ?_
    split_ifs at hv with hempty
    exact congrArg Brackets.mk (List.isEmpty_iff.mp hempty)

/-! ### All lines -/

/-- Lines can be fed to the session up to the end of the input without a fatal report. -/
structure Feeds (levels : Nat) (s : Session) (lines : List String) : Prop where
  coupled : s.Coupled
  single : s.mode = .single
  running : s.running = true
  undisturbed : s.Undisturbed (.within levels) lines
  calm : Calm (s.feedAll (.within levels) lines).2

theorem Fed.mode {line : String} {r : Step} (h : Fed levels s line r) :
    r.1.mode = s.mode ∧ r.1.running = s.running := by
  cases h with
  | skipped | waiting => exact ⟨rfl, rfl⟩
  | completed _ hnone => exact (submit_of_none hnone).2

/-- The first of the lines is fed, and then the others. -/
theorem Feeds.cons {line : String} {rest : List String} (h : Feeds levels s (line :: rest)) :
    Fed levels s (dropInvisible line) (s.feed (.within levels) line) ∧
      Feeds levels (s.feed (.within levels) line).1 rest ∧
      (s.feedAll (.within levels) (line :: rest)).2 = (s.feed (.within levels) line).2 ++
        ((s.feed (.within levels) line).1.feedAll (.within levels) rest).2 := by
  obtain ⟨hplain, hrest⟩ := h.undisturbed
  have hcalm := h.calm
  rw [feedAll] at hcalm ⊢
  simp only at hcalm ⊢
  have hfirst : Calm (s.feed (.within levels) line).2 := by
    split_ifs at hcalm
    · exact hcalm.of_append.1
    · exact hcalm
  have hfed := h.coupled.fed h.single hplain hfirst
  have hrunning := hfed.mode.2.trans h.running
  have hgoes : ((s.feed (.within levels) line).1.running &&
      !exhausts (s.feed (.within levels) line).2) = true := by
    rw [hrunning, hfirst.lasting]
    rfl
  rw [if_pos hgoes] at hcalm ⊢
  exact ⟨hfed, ⟨(h.coupled.keeps_feed line).coupled, hfed.mode.1.trans h.single, hrunning, hrest,
    hcalm.of_append.2⟩, rfl⟩

theorem Feeds.finish (h : Feeds levels s []) :
    s.pending = [] ∧ (s.finish (.within levels)).2 = [] := by
  have hp := h.coupled.pending_of_calm h.single h.calm
  rw [Session.finish, if_pos (List.isEmpty_iff.mpr hp)]
  exact ⟨hp, rfl⟩

/-- The located events are the events. -/
theorem Feeds.map_located : ∀ {lines : List String} {s : Session} (above : String),
    Feeds levels s lines →
      (s.located (.within levels) above lines).map Prod.snd = (s.feedAll (.within levels) lines).2
  | [], s, above, _ => by
    rw [located, List.map_map]
    exact List.map_id _
  | line :: rest, s, above, h => by
    obtain ⟨-, hrest, hevents⟩ := h.cons
    rw [hevents, located, List.map_append, List.map_map, Feeds.map_located _ hrest]
    exact congrArg (· ++ _) (List.map_id _)

end Session

end CommandShell
