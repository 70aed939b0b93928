import Mathlib.Algebra.Ring.Parity
import CommandShell.Proofs.Sessions.Steps

/-! # Steering: what ends a session and what changes its mode

Only a control steers a session, and only a line that is fed while nothing is pending can be a
control. So the mode and the end of a session are functions of the words that were typed while
nothing was pending (`Session.typed`): it has ended once one of them was a word to quit, and it has
changed its mode as often as one of them was a word for that. One call steers the session by the
words that it types (`Session.Steered`); the words of a run are those of its calls in a row. -/

namespace CommandShell

/-- The words that end a session. -/
def quitWords : List String := ["/quit", "/q", "/exit"]

/-- The words that change the mode of a session. -/
def modeWords : List String := ["/multiline", "/ml"]

/-- A line is the control that has it among its names, whatever blanks are around it. -/
theorem Control.ofLine?_eq_some {line : String} {c : Control} :
    ofLine? line = some c ↔ Text.trim line ∈ c.names := by
  -- No name belongs to two controls, so that each name leads to its own.
  have hnames : ∀ word ∈ c.names, all.find? (fun c => c.names.contains word) = some c := by
    cases c <;> decide
  refine ⟨fun h => ?_, hnames (Text.trim line)⟩
  have hfind : all.find? (fun c => c.names.contains (Text.trim line)) = some c := h
  have hword := List.find?_some hfind
  exact List.contains_iff_mem.mp hword

/-- A session has two modes, so that two changes cancel out. -/
theorem Mode.involutive_toggled : Function.Involutive Mode.toggled
  | .single => rfl
  | .multi => rfl

theorem Mode.toggled_iterate_ne {n : ℕ} (m : Mode) : toggled^[n] m ≠ m ↔ Odd n := by
  rcases n.even_or_odd with h | h
  · rw [involutive_toggled.iterate_even h]
    exact ⟨fun hne => absurd rfl hne, fun hodd => absurd h (Nat.not_even_iff_odd.mpr hodd)⟩
  · rw [involutive_toggled.iterate_odd h]
    exact ⟨fun _ => h, fun _ => by cases m <;> decide⟩

namespace Session

/-- The words that a call types: a line that is fed while nothing is pending, without invisible
characters and without the blanks around it. -/
def typedBy (s : Session) : Call → List String
  | .feed line => if s.pending.isEmpty then [Text.trim (dropInvisible line)] else []
  | _ => []

/-- The words that are typed in the course of some calls. -/
def typed (reader : Reader) (s : Session) : List Call → List String
  | [] => []
  | call :: calls => s.typedBy call ++ typed reader (s.perform reader call).1 calls

/-- From `s` to `s'` the session was steered by `words`. -/
structure Steered (s : Session) (words : List String) (s' : Session) : Prop where
  running : s'.running = (s.running && words.all (· ∉ quitWords))
  mode : s'.mode = Mode.toggled^[words.countP (· ∈ modeWords)] s.mode

variable {s s' s'' : Session} {words words' : List String} {reader : Reader}

theorem Steered.refl (s : Session) : s.Steered [] s := ⟨(Bool.and_true _).symm, rfl⟩

theorem Steered.trans (h : s.Steered words s') (h' : s'.Steered words' s'') :
    s.Steered (words ++ words') s'' where
  running := by rw [h'.running, h.running, List.all_append, Bool.and_assoc]
  mode := by
    rw [h'.mode, h.mode, ← Function.iterate_add_apply, List.countP_append, Nat.add_comm]

theorem Steered.running_eq (h : s.Steered words s') (hwords : ∀ w ∈ words, w ∉ quitWords) :
    s'.running = s.running := by
  have hall : words.all (· ∉ quitWords) = true :=
    List.all_eq_true.mpr fun w hw => decide_eq_true (hwords w hw)
  rw [h.running, hall, Bool.and_true]

theorem Steered.mode_eq (h : s.Steered words s') (hwords : ∀ w ∈ words, w ∉ modeWords) :
    s'.mode = s.mode := by
  have hcount : words.countP (· ∈ modeWords) = 0 :=
    List.countP_eq_zero.mpr fun w hw => by simpa using hwords w hw
  rw [h.mode, hcount]
  rfl

/-- A word that is no control may be added to what a session is steered by. -/
theorem Steered.of_other {word : String} (h : s.Steered [] s') (hquit : word ∉ quitWords)
    (hmode : word ∉ modeWords) : s.Steered [word] s' where
  running := by simpa [hquit] using h.running
  mode := by simpa [hmode] using h.mode

theorem Steered.of_unsteered (hrunning : s'.running = s.running) (hmode : s'.mode = s.mode) :
    s.Steered [] s' := ⟨hrunning.trans (Bool.and_true _).symm, hmode⟩

/-! ### Steps that do not steer -/

theorem Steered.submit (reader : Reader) (s : Session) (source : String) :
    s.Steered [] (s.submit reader source).1 :=
  .of_unsteered (running_submit reader s source) (mode_submit reader s source)

theorem Steered.finish (reader : Reader) (s : Session) : s.Steered [] (s.finish reader).1 := by
  unfold Session.finish
  split_ifs
  · exact .refl s
  · exact .submit reader s _

/-- A line that is gathered steers nothing, whatever its text. -/
theorem Steered.gather (reader : Reader) (s : Session) (line : String) :
    s.Steered [] (s.gather reader line).1 := by
  unfold Session.gather
  split
  · unfold gatherSingle
    split_ifs
    · exact .refl s
    · split
      · exact .of_unsteered rfl rfl
      · split
        · exact .submit reader s _
        · exact .of_unsteered rfl rfl
        · exact .submit reader s _
  · unfold gatherMulti
    split_ifs
    · exact .finish reader s
    · exact .of_unsteered rfl rfl

/-! ### Steps that steer -/

theorem running_obey (s : Session) (c : Control) :
    (s.obey c).1.running = (s.running && decide (c ≠ .quit)) := by
  cases c with
  | traceback => simp [obey]
  | quit => exact (Bool.and_false _).symm
  | _ => exact (Bool.and_true _).symm

/-- A control steers a session under each of its names in the same way. -/
theorem Steered.obey {c : Control} {word : String} (hword : word ∈ c.names) (s : Session) :
    s.Steered [word] (s.obey c).1 := by
  have hquit : word ∈ quitWords ↔ c = .quit := by
    revert word; cases c <;> decide
  have hmulti : word ∈ modeWords ↔ c = .multiline := by
    revert word; cases c <;> decide
  constructor
  · rw [running_obey, List.all_cons, List.all_nil, Bool.and_true]
    simp only [hquit, ne_eq]
  · rw [mode_obey, List.countP_singleton]
    simp only [hmulti, decide_eq_true_eq]
    split_ifs <;> rfl

theorem Steered.feed (reader : Reader) (s : Session) (line : String) :
    s.Steered (s.typedBy (.feed line)) (s.feed reader line).1 := by
  by_cases hp : s.pending = []
  · have htyped : s.typedBy (.feed line) = [Text.trim (dropInvisible line)] := by
      simp [typedBy, hp]
    rw [htyped]
    cases hc : Control.ofLine? (dropInvisible line) with
    | some c =>
      rw [feed_of_control hp hc]
      exact .obey (Control.ofLine?_eq_some.mp hc) s
    | none =>
      have hother : ∀ c : Control, Text.trim (dropInvisible line) ∉ c.names := fun c h =>
        Option.some_ne_none c ((Control.ofLine?_eq_some.mpr h).symm.trans hc)
      rw [feed_of_plain fun _ => hc]
      exact (Steered.gather reader s _).of_other (hother .quit) (hother .multiline)
  · have htyped : s.typedBy (.feed line) = [] := by simp [typedBy, hp]
    rw [htyped, feed_of_plain fun h => absurd h hp]
    exact .gather reader s _

/-- **A call steers the session by the words it types**, and by nothing else. -/
theorem Steered.perform (reader : Reader) (s : Session) {call : Call}
    (hcall : ∀ line, call ≠ .command line) :
    s.Steered (s.typedBy call) (s.perform reader call).1 := by
  cases call with
  | feed line => exact .feed reader s line
  | finish => exact .finish reader s
  | reset => exact .of_unsteered rfl rfl
  | submit source => exact .submit reader s source
  | command line => exact absurd rfl (hcall line)

/-! ### Runs -/

theorem Steered.performAll (reader : Reader) : ∀ (calls : List Call) (s : Session),
    (∀ line, .command line ∉ calls) →
    s.Steered (s.typed reader calls) (s.performAll reader calls)
  | [], s, _ => .refl s
  | call :: calls, s, hcalls =>
    have hcall : ∀ line, call ≠ .command line := fun line h => hcalls line (h ▸ .head calls)
    (Steered.perform reader s hcall).trans
      (Steered.performAll reader calls _ fun line h => hcalls line (.tail call h))

theorem Steered.ended_iff (h : s.Steered words s') (hs : s.running = true) :
    s'.running = false ↔ ∃ w ∈ words, w ∈ quitWords := by
  rw [h.running, hs, Bool.true_and, List.all_eq_false]
  simp only [decide_eq_true_eq, not_not]

theorem Steered.mode_ne_iff (h : s.Steered words s') :
    s'.mode ≠ s.mode ↔ Odd (words.countP (· ∈ modeWords)) := by
  rw [h.mode, Mode.toggled_iterate_ne]

/-- **Only words typed while nothing is pending steer a session.** Let a new session be fed, ended,
reset and handed buffers in any order. It has ended just when one of the words typed was a word to
quit, a further line included when it answers; it is not in its first mode just when an odd number
of them were words for the mode. A further call that types no such word changes neither. -/
theorem steered_of_calls (reader : Reader) (settings : Settings) (mode : Option Mode)
    (calls : List Call) (hcalls : ∀ line, .command line ∉ calls) :
    let first := start settings mode
    let s := first.performAll reader calls
    let words := first.typed reader calls
    (s.running = false ↔ ∃ w ∈ words, w ∈ quitWords) ∧
      (s.mode ≠ first.mode ↔ Odd (words.countP (· ∈ modeWords))) ∧
      (∀ line, (s.feed reader line).1.running = false ↔
        ∃ w ∈ words ++ s.typedBy (.feed line), w ∈ quitWords) ∧
      ∀ call, (∀ line, call ≠ .command line) →
        ((∀ w ∈ s.typedBy call, w ∉ quitWords) →
          (s.perform reader call).1.running = s.running) ∧
        ((∀ w ∈ s.typedBy call, w ∉ modeWords) → (s.perform reader call).1.mode = s.mode) := by
  intro first s words
  have hrun : first.Steered words s := .performAll reader calls first hcalls
  refine ⟨hrun.ended_iff rfl, hrun.mode_ne_iff, fun line => ?_, fun call hcall => ?_⟩
  · exact (hrun.trans (.feed reader s line)).ended_iff rfl
  · have hstep := Steered.perform reader s hcall
    exact ⟨hstep.running_eq, hstep.mode_eq⟩

/-- Behind `f(` a line is source, and so it is behind a pending line in multi-line mode: of three
words to quit only the last one ends the session, which has then changed its mode once. -/
theorem steered_of_calls_exit :
    let calls := [.feed "f(", .feed "/quit", .reset, .feed " /ml", .feed "x", .feed "/q", .finish,
      .feed "/exit"]
    let s := (start .unset none).performAll .ofText calls
    (start .unset none).typed .ofText calls = ["f(", "/ml", "x", "/exit"] ∧
      s.running = false ∧ s.mode ≠ .single := by
  intro calls s
  have hcalls : ∀ line, .command line ∉ calls := by simp [calls]
  have hwords : (start .unset none).typed .ofText calls = ["f(", "/ml", "x", "/exit"] := rfl
  obtain ⟨hended, hmode, -⟩ := steered_of_calls .ofText .unset none calls hcalls
  rw [hwords] at hended hmode
  exact ⟨hwords, hended.mpr ⟨"/exit", by decide, by decide⟩, hmode.mpr (by decide)⟩

end Session

end CommandShell
