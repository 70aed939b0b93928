import CommandShell.Proofs.Commands.Heedful
import CommandShell.Proofs.Commands.Misplaced
import CommandShell.Proofs.Commands.Partition
import CommandShell.Proofs.Lexing.Places

/-! # Places of reports

What is recorded while a buffer is read, the failure that ends it included, is recorded while one
of its commands is read, and that command begins where the one before it stopped. A report of this
command stands at a token from there on, and so does its failure, or at the lexeme that cannot be
read (`Command.Records.place`). The only reports without a place are those about a target or a
statement that shows no token, such as an empty array (`record_of_text`). -/

namespace CommandShell

open CommandShell.Parser

/-- What is recorded while a buffer is read, in order, with the commands between. The failure that
ends it is recorded last, if it is one of the input. -/
def Buffer.record (b : Buffer) : List Item :=
  b.items ++ (b.failure.bind Failure.diagnostic?).toList.map .diagnostic

namespace Command

variable {levels : Nat} {ts : Tokens} {low i : Nat} {σ : List Kind} {d : Diagnostic}

/-- The diagnostic is recorded while the command at the place `i` is read: it is reported, or is
that of the failure. -/
def Records (levels : Nat) (ts : Tokens) (i : Nat) (d : Diagnostic) : Prop :=
  d ∈ (readRound levels ts i).found ∨
    ∃ f, (readRound levels ts i).outcome = .error f ∧ f.diagnostic? = some d

/-! ### One command -/

/-- The diagnostic stands where a token begins, or the lexeme of a fault, from the place `low` on.
-/
def Placed (ts : Tokens) (low : Nat) (d : Diagnostic) : Prop :=
  ∃ k, low ≤ k ∧ (d.line, d.column) = Lexer.start (ts.get k)

/-- The diagnostic is about an expression from the place `low` on that shows no token, and has no
place. -/
def Unplaced (ts : Tokens) (low : Nat) (d : Diagnostic) : Prop :=
  ∃ i e j, low ≤ i ∧ ts.Reads i e.pieces j ∧ e.firstToken? = none ∧
    (d = .badTarget e ∨ d = .noEffect e) ∧ d.line = 0 ∧ d.column = 0

theorem placed_of_at {k : Nat} {t : Token} (hlow : low ≤ k) (ht : ts.At k t)
    (hline : d.line = t.line) (hcolumn : d.column = t.column) : Placed ts low d := by
  refine ⟨k, hlow, ?_⟩
  rw [show ts.get k = .ok t from ht, hline, hcolumn]
  rfl

/-- A failure stands where the reading is stuck, or at a token before that. -/
theorem placed_of_stuck {deep : Prop} {f : Failure} (hlow : low ≤ i)
    (h : ts.Stuck deep low i σ f) (hd : f.diagnostic? = some d) : Placed ts low d := by
  cases h with
  | @lexical k τ e hwalk he =>
    cases hd
    refine ⟨k, Nat.le_trans hlow hwalk.le, ?_⟩
    rw [he]
    rfl
  | here hwalk ht _ =>
    cases hd
    exact placed_of_at (Nat.le_trans hlow hwalk.le) ht rfl rfl
  | behind _ hm _ ht _ =>
    cases hd
    exact placed_of_at hm ht rfl rfl
  | deep => cases hd

theorem place_of_reported (h : ts.Reported low d) : Placed ts low d ∨ Unplaced ts low d := by
  cases h with
  | placed hlow ht hline hcolumn => exact Or.inl (placed_of_at hlow ht hline hcolumn)
  | @unplaced i e j hlow hreads hfirst hd =>
    refine Or.inr ⟨i, e, j, hlow, hreads, hfirst, hd, ?_⟩
    rcases hd with rfl | rfl <;>
      simp only [Diagnostic.badTarget, Diagnostic.noEffect, hfirst, Diagnostic.at?, and_self]

/-- **What a command records has its place from the command on**, unless it is about an expression
that shows no token. -/
theorem Records.place (hlexed : ts.Lexed) (h : Records levels ts i d) :
    Placed ts i d ∨ Unplaced ts i d := by
  rcases h with hfound | ⟨f, hf, hd⟩
  · exact place_of_reported ((heedful_readRound hlexed i (Nat.le_refl i)).found hfound)
  · have hround : Walks (levels < ts.items.size) i (readRound levels) ts i [] [] _ :=
      walks_readRound hlexed (Nat.le_refl i)
    exact Or.inl (placed_of_stuck (Nat.le_refl i) (hround.stuck hf) hd)

/-! ### Buffers -/

/-- Among reports and before the next command only reports are recorded. -/
theorem commands_before_report {ds : List Diagnostic} {before after : List Item}
    (h : ds.map Item.diagnostic = before ++ .diagnostic d :: after) :
    d ∈ ds ∧ before.filterMap Item.command? = [] := by
  obtain ⟨ds₁, ds₂, rfl, rfl, hd⟩ := List.map_eq_append_iff.mp h
  obtain ⟨d', ds₃, rfl, heq, -⟩ := List.map_eq_cons_iff.mp hd
  cases heq
  exact ⟨by simp, commands_diagnostics ds₁⟩

/-- What is recorded with a command is reported before it, or recorded behind it. -/
theorem before_or_behind_command {ds : List Diagnostic} {c : Command}
    {rest before after : List Item}
    (h : ds.map Item.diagnostic ++ .command c :: rest = before ++ .diagnostic d :: after) :
    d ∈ ds ∧ before.filterMap Item.command? = [] ∨
      ∃ later, before.filterMap Item.command? = c :: later.filterMap Item.command? ∧
        rest = later ++ .diagnostic d :: after := by
  obtain ⟨mid, rfl, hmid⟩ | ⟨mid, hds, hmid⟩ := List.append_eq_append_iff.mp h
  · cases mid with
    | nil => cases hmid
    | cons item later =>
      obtain ⟨rfl, hrest⟩ := List.cons.inj hmid
      refine Or.inr ⟨later, ?_, hrest⟩
      rw [List.filterMap_append, commands_diagnostics]
      rfl
  · cases mid with
    | nil => cases hmid
    | cons item later =>
      obtain ⟨rfl, -⟩ := List.cons.inj hmid
      exact Or.inl (commands_before_report hds)

theorem read_of_readRound (hlexed : ts.Lexed) {c : Command}
    (h : (readRound levels ts i).outcome = .ok (some c)) :
    (read levels ts i).outcome = .ok c ∧
      (read levels ts i).next = (readRound levels ts i).next := by
  have hround := (runs_readRound hlexed).mp (runs_iff.mpr ⟨h, rfl, rfl⟩)
  obtain ⟨-, hnone, -⟩ | ⟨-, c', hc, heq⟩ := hround
  · cases hnone
  · cases heq
    obtain ⟨houtcome, hnext, -⟩ := runs_iff.mp ((runs_read hlexed).mpr hc)
    exact ⟨houtcome, hnext⟩

/-- **Each diagnostic is recorded while a command is read**, which begins where the commands
recorded before it stop. -/
theorem records_readFrom (hlexed : ts.Lexed) : ∀ (rounds i : Nat) {before after : List Item},
    (Buffer.readFrom levels ts rounds i).record = before ++ .diagnostic d :: after →
      ∃ stops, Stops levels ts i (before.filterMap Item.command?) stops ∧
        Records levels ts (stops.getLastD i) d
  | 0, _, before, _, h => by
    cases before <;> cases h
  | rounds + 1, i, before, after, h => by
    have hfirst : ∀ {ds : List Diagnostic}, (∀ d ∈ ds, Records levels ts i d) →
        d ∈ ds ∧ before.filterMap Item.command? = [] →
          ∃ stops, Stops levels ts i (before.filterMap Item.command?) stops ∧
            Records levels ts (stops.getLastD i) d := fun hds hd => by
      rw [hd.2]
      exact ⟨[], .nil, hds d hd.1⟩
    unfold Buffer.readFrom Buffer.record at h
    simp only at h
    split at h
    · next f hf =>
      rw [← List.map_append] at h
      refine hfirst (fun d hd => ?_) (commands_before_report h)
      refine (List.mem_append.mp hd).imp_right fun hd => ⟨f, hf, ?_⟩
      simpa using hd
    · simp only [Option.bind_none, Option.toList_none, List.map_nil, List.append_nil] at h
      exact hfirst (fun _ => Or.inl) (commands_before_report h)
    · next c hc =>
      simp only [List.append_assoc, List.cons_append] at h
      obtain hd | ⟨later, hcommands, hlater⟩ := before_or_behind_command h
      · exact hfirst (fun _ => Or.inl) hd
      · obtain ⟨hread, hnext⟩ := read_of_readRound hlexed hc
        obtain ⟨stops, hstops, hrecords⟩ := records_readFrom hlexed rounds _ hlater
        rw [← hnext] at hstops hrecords
        rw [hcommands]
        exact ⟨_, .cons hread hstops, by rwa [List.getLastD_cons]⟩

end Command

/-- The diagnostic points into a text: it stands at a token with an index from `low` on, or at the
lexeme that cannot be read there. -/
structure Diagnostic.PointsInto (d : Diagnostic) (s : String) (low : Nat) : Prop where
  line_pos : 1 ≤ d.line
  column_pos : 1 ≤ d.column
  place : ∃ k, low ≤ k ∧ (d.line, d.column) = Lexer.start ((Stream.ofText s).tokens.get k) ∧
    ∃ before ahead, s.toList = before ++ ahead ∧
      Lexer.Stands before ahead ((Stream.ofText s).tokens.get k)

theorem Command.Placed.pointsInto {s : String} {low : Nat} {d : Diagnostic}
    (h : Command.Placed (Stream.ofText s).tokens low d) : d.PointsInto s low := by
  obtain ⟨k, hlow, hplace⟩ := h
  obtain ⟨before, ahead, hsplit, hstands⟩ := Tokens.stands_ofChars s.toList k
  have hpos := hstands.pos
  rw [← tokens_ofText, ← hplace] at hpos
  exact ⟨hpos.1, hpos.2, k, hlow, hplace, before, ahead, hsplit, hstands⟩

/-- **What is recorded points into the text.** Every diagnostic recorded while a buffer is read, the
failure included, is recorded while some command is read. That command begins where the commands
recorded before stop, each of which is read from where the one before it stopped. The diagnostic
stands at the start of a token or of the lexeme that cannot be read, from the first token of its
command on. The exceptions are the reports on a target or a statement that shows no token: they have
no place. -/
theorem Buffer.record_of_text (levels : Nat) (s : String) {before after : List Item}
    {d : Diagnostic} (h : (Buffer.ofTokens levels (Stream.ofText s).tokens).record =
      before ++ .diagnostic d :: after) :
    ∃ stops, Command.Stops levels (Stream.ofText s).tokens 0
        (before.filterMap Item.command?) stops ∧
      Command.Records levels (Stream.ofText s).tokens (stops.getLastD 0) d ∧
      (d.PointsInto s (stops.getLastD 0) ∨
        Command.Unplaced (Stream.ofText s).tokens (stops.getLastD 0) d) := by
  have hlexed : (Stream.ofText s).tokens.Lexed := Tokens.lexed_ofChars s.toList
  obtain ⟨stops, hstops, hrecords⟩ := Command.records_readFrom hlexed _ 0 h
  exact ⟨stops, hstops, hrecords, (hrecords.place hlexed).imp_left Command.Placed.pointsInto⟩

/-- The number on the second line has no effect, and the report on it stands where it begins. -/
theorem record_of_two_lines :
    let d : Diagnostic := .noEffect (.atom ⟨.number, "1", 2, 1⟩)
    let c : Command :=
      ⟨.expression (.call false (.atom ⟨.ident, "f", 1, 1⟩) []) true, ⟨1, 1, 1, 5⟩⟩
    (∃ after, (Buffer.ofTokens 30 (Stream.ofText "f();\n1;").tokens).record =
      [.command c] ++ .diagnostic d :: after) ∧ (d.line, d.column) = (2, 1) ∧
    ∃ stops, Command.Stops 30 (Stream.ofText "f();\n1;").tokens 0 [c] stops ∧
      d.PointsInto "f();\n1;" (stops.getLastD 0) := by
  intro d c
  have hrecord : (Buffer.ofTokens 30 (Stream.ofText "f();\n1;").tokens).record =
      [.command c] ++ .diagnostic d ::
        [.command ⟨.expression (.atom ⟨.number, "1", 2, 1⟩) true, ⟨2, 1, 2, 3⟩⟩] := rfl
  obtain ⟨stops, hstops, -, hplace⟩ := Buffer.record_of_text 30 "f();\n1;" hrecord
  refine ⟨⟨_, hrecord⟩, rfl, stops, hstops, hplace.resolve_right ?_⟩
  rintro ⟨-, -, -, -, -, -, -, hline, -⟩
  exact absurd hline (by decide)

/-- A report on an empty array, which shows no token, has no place. -/
theorem record_of_empty_array :
    let d : Diagnostic := .badTarget (.array [])
    .diagnostic d ∈ (Buffer.ofText "[] = 1;").record ∧ ¬ (1 ≤ d.line ∧ 1 ≤ d.column) := by
  have hrecord : (Buffer.ofText "[] = 1;").record = [.diagnostic (.badTarget (.array [])),
    .command ⟨.assignment (.array []) (.atom ⟨.number, "1", 1, 6⟩), ⟨1, 1, 1, 8⟩⟩] := rfl
  refine ⟨?_, by decide⟩
  rw [hrecord]
  exact List.mem_cons_self

end CommandShell
