import CommandShell.Proofs.Commands.Lookahead
import CommandShell.Proofs.Commands.Words
import CommandShell.Proofs.Lexing.Layout

/-! # Partition: the commands of a buffer share its tokens

Every command is read from where the command before it stopped, up to the place where the next one
is read (`Command.Stops`), and its span runs from the first to the last of its tokens. As the tokens
of a text stand one behind the other, so do the spans, and every token that was taken lies within
one of them (`partition_of_text`). This holds of what is read before a failure as well. -/

namespace CommandShell

open CommandShell.Parser

/-! ### Spans -/

namespace Span

/-- The span ends behind its start. -/
def NonEmpty (s : Span) : Prop :=
  s.startLine < s.endLine ∨ s.startLine = s.endLine ∧ s.startColumn < s.endColumn

/-- The span ends where the other starts, or before. -/
def Before (s s' : Span) : Prop :=
  s.endLine < s'.startLine ∨ s.endLine = s'.startLine ∧ s.endColumn ≤ s'.startColumn

/-- The token lies within the span. -/
def Holds (s : Span) (t : Token) : Prop :=
  (s.startLine < t.line ∨ s.startLine = t.line ∧ s.startColumn ≤ t.column) ∧
    (t.line < s.endLine ∨ t.line = s.endLine ∧ t.endColumn ≤ s.endColumn)

end Span

/-- The span of the tokens from `i` up to `j`, that one excluded. -/
def Tokens.Spans (ts : Tokens) (i j : Nat) (span : Span) : Prop :=
  i < j ∧ ∃ first last, ts.items[i]? = some first ∧ ts.items[j - 1]? = some last ∧
    span = .over first last

namespace Tokens

variable {ts : Tokens} {i j k i' j' : Nat} {t u : Token} {span span' : Span}

theorem Ordered.before_of_lt (h : ts.Ordered) (ht : ts.items[i]? = some t)
    (hu : ts.items[j]? = some u) (hij : i < j) : t.Before u := by
  obtain ⟨hi, rfl⟩ := Array.getElem?_eq_some_iff.mp ht
  obtain ⟨hj, rfl⟩ := Array.getElem?_eq_some_iff.mp hu
  exact List.pairwise_iff_getElem.mp h.before i j (by simpa) (by simpa) hij

theorem Ordered.wide_of_getElem? (h : ts.Ordered) (ht : ts.items[i]? = some t) :
    t.column < t.endColumn := by
  obtain ⟨hi, rfl⟩ := Array.getElem?_eq_some_iff.mp ht
  exact h.wide _ (Array.getElem_mem_toList hi)

/-- Of two tokens the first stands before the other, unless they are the same. -/
theorem Ordered.eq_or_before (h : ts.Ordered) (ht : ts.items[i]? = some t)
    (hu : ts.items[j]? = some u) (hij : i ≤ j) : t = u ∨ t.Before u := by
  rcases Nat.eq_or_lt_of_le hij with rfl | hlt
  · exact Or.inl (Option.some.inj (ht.symm.trans hu))
  · exact Or.inr (h.before_of_lt ht hu hlt)

theorem Spans.le_size (h : ts.Spans i j span) : j ≤ ts.items.size := by
  obtain ⟨hij, -, last, -, hlast, -⟩ := h
  obtain ⟨hj, -⟩ := Array.getElem?_eq_some_iff.mp hlast
  omega

theorem Ordered.nonEmpty (h : ts.Ordered) (hspan : ts.Spans i j span) : span.NonEmpty := by
  obtain ⟨hij, first, last, hfirst, hlast, rfl⟩ := hspan
  have hwide := h.wide_of_getElem? hlast
  have horder := h.eq_or_before hfirst hlast (by omega)
  show first.line < last.line ∨ first.line = last.line ∧ first.column < last.endColumn
  rcases horder with rfl | hbefore
  · exact Or.inr ⟨rfl, hwide⟩
  · unfold Token.Before at hbefore
    omega

theorem Ordered.spans_before (h : ts.Ordered) (hspan : ts.Spans i j span)
    (hspan' : ts.Spans i' j' span') (hle : j ≤ i') : span.Before span' := by
  obtain ⟨hij, first, last, hfirst, hlast, rfl⟩ := hspan
  obtain ⟨-, first', last', hfirst', -, rfl⟩ := hspan'
  have hbefore := h.before_of_lt hlast hfirst' (by omega)
  show last.line < first'.line ∨ last.line = first'.line ∧ last.endColumn ≤ first'.column
  unfold Token.Before at hbefore
  omega

/-- **A span holds its tokens and no others.** -/
theorem Ordered.holds_iff (h : ts.Ordered) (hspan : ts.Spans i j span)
    (ht : ts.items[k]? = some t) : span.Holds t ↔ i ≤ k ∧ k < j := by
  obtain ⟨hij, first, last, hfirst, hlast, rfl⟩ := hspan
  have hwide := h.wide_of_getElem? ht
  have hholds : (Span.over first last).Holds t ↔
      (first.line < t.line ∨ first.line = t.line ∧ first.column ≤ t.column) ∧
        (t.line < last.line ∨ t.line = last.line ∧ t.endColumn ≤ last.endColumn) := Iff.rfl
  rw [hholds]
  constructor
  · rintro ⟨hstart, hend⟩
    constructor
    · by_contra hlt
      have hbefore := h.before_of_lt ht hfirst (by omega)
      unfold Token.Before at hbefore
      omega
    · by_contra hle
      have hlastWide := h.wide_of_getElem? hlast
      have hbefore := h.before_of_lt hlast ht (by omega)
      unfold Token.Before at hbefore
      omega
  · rintro ⟨hik, hkj⟩
    have hstart := h.eq_or_before hfirst ht hik
    have hend := h.eq_or_before ht hlast (by omega)
    have hlastWide := h.wide_of_getElem? hlast
    unfold Token.Before at hstart hend
    constructor
    · rcases hstart with rfl | hstart
      · exact Or.inr ⟨rfl, Int.le_refl _⟩
      · omega
    · rcases hend with rfl | hend
      · exact Or.inr ⟨rfl, Int.le_refl _⟩
      · omega

end Tokens

/-! ### Stops -/

namespace Command

/-- From the place `i` on the commands are read, each from where the one before it stopped, and
they stop at the places `stops`. -/
inductive Stops (levels : Nat) (ts : Tokens) : Nat → List Command → List Nat → Prop
  | nil {i} : Stops levels ts i [] []
  | cons {i c cs stops} : (read levels ts i).outcome = .ok c →
      Stops levels ts (read levels ts i).next cs stops →
      Stops levels ts i (c :: cs) ((read levels ts i).next :: stops)

variable {levels : Nat} {ts : Tokens} {i j k n : Nat} {c : Command} {cs : List Command}
  {stops : List Nat} {ds : List Diagnostic}

theorem Stops.length_eq (h : Stops levels ts i cs stops) : stops.length = cs.length := by
  induction h with
  | nil => rfl
  | cons _ _ ih => rw [List.length_cons, List.length_cons, ih]

theorem Stops.sorted (hts : ts.Lexed) (h : Stops levels ts i cs stops) :
    (i :: stops).Pairwise (· < ·) := by
  induction h with
  | nil => exact List.pairwise_singleton _ _
  | @cons i c cs stops hc _ ih =>
    have hlt : i < (read levels ts i).next := (walked_read hts hc).2
    have hlater := (List.pairwise_cons.mp ih).1
    refine List.pairwise_cons.mpr ⟨List.forall_mem_cons.mpr ⟨hlt, fun stop hstop => ?_⟩, ih⟩
    exact Nat.lt_trans hlt (hlater stop hstop)

/-- The command with the number `n` is read from the place `p` and stops at `q`. -/
structure PartOf (levels : Nat) (ts : Tokens) (i : Nat) (cs : List Command) (stops : List Nat)
    (n : Nat) (c : Command) (p q : Nat) : Prop where
  command : cs[n]? = some c
  start : (i :: stops)[n]? = some p
  stop : stops[n]? = some q
  read : (read levels ts p).outcome = .ok c
  next : (Command.read levels ts p).next = q

theorem PartOf.cons {n p q : Nat} {c c' : Command} (h : PartOf levels ts j cs stops n c p q) :
    PartOf levels ts i (c' :: cs) (j :: stops) (n + 1) c p q :=
  ⟨h.command, h.start, h.stop, h.read, h.next⟩

/-- Every command has a place where it is read and one where it stops. -/
theorem Stops.exists_part (h : Stops levels ts i cs stops) :
    ∀ {n : Nat} {c : Command}, cs[n]? = some c → ∃ p q, PartOf levels ts i cs stops n c p q := by
  induction h with
  | nil => intro n c hn; simp at hn
  | @cons i c cs stops hc _ ih =>
    intro n c' hn
    cases n with
    | zero => cases hn; exact ⟨i, _, rfl, rfl, rfl, hc, rfl⟩
    | succ n =>
      obtain ⟨p, q, hpart⟩ := ih hn
      exact ⟨p, q, hpart.cons⟩

/-- Every place up to the last stop belongs to a command. -/
theorem Stops.exists_of_lt (h : Stops levels ts i cs stops) : ∀ {k : Nat}, i ≤ k →
    k < stops.getLastD i → ∃ n c p q, PartOf levels ts i cs stops n c p q ∧ p ≤ k ∧ k < q := by
  induction h with
  | nil => intro k hik hk; exact absurd hk (Nat.not_lt.mpr hik)
  | @cons i c cs stops hc _ ih =>
    intro k hik hk
    by_cases hfirst : k < (read levels ts i).next
    · exact ⟨0, c, i, _, ⟨rfl, rfl, rfl, hc, rfl⟩, hik, hfirst⟩
    · obtain ⟨n, c', p, q, hpart, hpk, hkq⟩ :=
        ih (Nat.not_lt.mp hfirst) (by rwa [List.getLastD_cons] at hk)
      exact ⟨n + 1, c', p, q, hpart.cons, hpk, hkq⟩

/-- Of two commands the first stops before the other is read, or there. -/
theorem PartOf.le {n m p q p' q' : Nat} {c c' : Command}
    (hsorted : (i :: stops).Pairwise (· < ·)) (h : PartOf levels ts i cs stops n c p q)
    (h' : PartOf levels ts i cs stops m c' p' q') (hnm : n < m) : q ≤ p' := by
  have hstop : (i :: stops)[n + 1]? = some q := h.stop
  obtain ⟨hn, hq⟩ := List.getElem?_eq_some_iff.mp hstop
  obtain ⟨hm, hp⟩ := List.getElem?_eq_some_iff.mp h'.start
  rcases Nat.eq_or_lt_of_le (Nat.succ_le_of_lt hnm) with rfl | hlt
  · exact Nat.le_of_eq (hq.symm.trans hp)
  · have hpairs := List.pairwise_iff_getElem.mp hsorted (n + 1) m hn hm hlt
    omega

/-! ### What a command takes -/

theorem getElem?_of_at {t : Token} (ht : ts.At i t) (hi : i < ts.items.size) :
    ts.items[i]? = some t := Array.getElem?_eq_some_iff.mpr ⟨hi, (Tokens.at_of_lt hi).mp ht⟩

theorem spans_of_run (hts : ts.Lexed) (hc : CommandRun levels ts i c j ds) :
    ts.Spans i j c.span := by
  obtain ⟨hij, hj⟩ := hc.lt hts
  obtain ⟨j, rfl⟩ : ∃ k, j = k + 1 := ⟨j - 1, by omega⟩
  cases hc with
  | mk hstart _ hlast =>
    obtain ⟨last, hat, rfl, -⟩ := runs_previous_succ.mp hlast
    have hfirst := getElem?_of_at hstart (by omega)
    exact ⟨hij, _, last, hfirst, getElem?_of_at hat (by omega), rfl⟩

/-- A command takes its own tokens, and its span is theirs. -/
theorem PartOf.taken {n p q : Nat} (hts : ts.Lexed) (h : PartOf levels ts i cs stops n c p q) :
    ts.Spans p q c.span ∧ ts.Reads p c.request.pieces q := by
  have hrun := (runs_read hts).mp (runs_iff.mpr ⟨h.read, h.next, rfl⟩)
  exact ⟨spans_of_run hts hrun, reads_command hts hrun⟩

/-- Only the end of the input ends a value. -/
theorem eof_of_value (hc : CommandRun levels ts i c j ds) (hvalue : c.request.showsValue = true) :
    ts.Has j .eof := by
  cases hc with
  | mk _ hr _ =>
    cases hr with
    | statement => cases hvalue
    | expression _ _ htail =>
      cases htail with
      | value heof => exact heof
      | _ => cases hvalue

/-! ### Buffers -/

/-- What the commands of a buffer, read from the place `i` on, tell of their stops. -/
structure Parts (levels : Nat) (ts : Tokens) (i : Nat) (b : Buffer) (stops : List Nat) : Prop where
  read : Stops levels ts i b.commands stops
  ends : b.failure = none → stops.getLastD i = ts.items.size
  value : ∀ (n : Nat) (c : Command), b.commands[n]? = some c → c.request.showsValue = true →
    n + 1 = b.commands.length ∧ b.failure = none ∧ b.items.getLast? = some (.command c)

theorem commands_cons (ds : List Diagnostic) (c : Command) (b : Buffer) :
    Buffer.commands ⟨ds.map .diagnostic ++ .command c :: b.items, b.failure⟩ = c :: b.commands := by
  unfold Buffer.commands
  rw [List.filterMap_append, commands_diagnostics]
  rfl

theorem parts_of_none {failure : Option Failure} (ds : List Diagnostic)
    (hend : failure = none → i = ts.items.size) :
    Parts levels ts i ⟨ds.map .diagnostic, failure⟩ [] where
  read := by
    rw [Buffer.commands, commands_diagnostics]
    exact .nil
  ends := hend
  value n c hn := by
    rw [Buffer.commands, commands_diagnostics] at hn
    cases hn

theorem parts_of_command (hts : ts.Lexed) {b : Buffer} (hc : CommandRun levels ts i c j ds)
    (hrest : Parts levels ts j b stops) (hend : ts.Has j .eof → b = ⟨[], none⟩) :
    Parts levels ts i ⟨ds.map .diagnostic ++ .command c :: b.items, b.failure⟩ (j :: stops) where
  read := by
    obtain ⟨houtcome, hnext, -⟩ := runs_iff.mp ((runs_read hts).mpr hc)
    rw [commands_cons]
    cases hnext
    exact .cons houtcome hrest.read
  ends hnone := by
    rw [List.getLastD_cons]
    exact hrest.ends hnone
  value n c' hn hvalue := by
    rw [commands_cons] at hn ⊢
    cases n with
    | zero =>
      cases hn
      rw [hend (eof_of_value hc hvalue)]
      exact ⟨rfl, rfl, List.getLast?_concat⟩
    | succ n =>
      obtain ⟨hlength, hnone, hlast⟩ := hrest.value n c' hn hvalue
      refine ⟨by rw [List.length_cons, hlength], hnone, ?_⟩
      rw [List.getLast?_append, List.getLast?_cons, hlast]
      rfl

/-- **The commands of a buffer are read one after the other**, up to its end or to a failure. -/
theorem parts_readFrom (hts : ts.Lexed) : ∀ {rounds i : Nat}, ts.items.size < i + rounds →
    i ≤ ts.items.size → ∃ stops, Parts levels ts i (Buffer.readFrom levels ts rounds i) stops
  | 0, i, hlt, hle => absurd hlt (by omega)
  | rounds + 1, i, hlt, hle => by
    have hround := round_readFrom hts levels rounds i
    generalize Buffer.readFrom levels ts (rounds + 1) i = b at hround ⊢
    cases hround with
    | @failed f ds _ => exact ⟨[], parts_of_none ds nofun⟩
    | ended heof =>
      exact ⟨[], parts_of_none [] fun _ => Nat.le_antisymm hle (hts.size_le_of_eof heof)⟩
    | @read c j _ _ ds _ hc hrest =>
      obtain ⟨hij, hj⟩ := hc.lt hts
      have hrounds : ts.items.size < j + rounds := by omega
      obtain ⟨stops, hparts⟩ := parts_readFrom hts hrounds hj
      rw [hrest] at hparts
      refine ⟨j :: stops, parts_of_command hts hc hparts fun heof => ?_⟩
      rw [← hrest]
      exact (readFrom_iff hts hrounds hj).mpr (.stop heof)

/-! ### What the spans tell -/

section
variable {b : Buffer} {stops : List Nat} (hts : ts.Lexed) (hordered : ts.Ordered)
  (hparts : Parts levels ts i b stops)
include hts hordered hparts

theorem Parts.nonEmpty (hc : c ∈ b.commands) : c.span.NonEmpty := by
  obtain ⟨n, hn⟩ := List.mem_iff_getElem?.mp hc
  obtain ⟨i, j, hpart⟩ := hparts.read.exists_part hn
  exact hordered.nonEmpty (hpart.taken hts).1

theorem Parts.spans_before : (b.commands.map (·.span)).Pairwise Span.Before := by
  refine List.pairwise_map.mpr (List.pairwise_iff_getElem.mpr fun n m hn hm hnm => ?_)
  obtain ⟨i, j, hpart⟩ := hparts.read.exists_part (List.getElem?_eq_getElem hn)
  obtain ⟨i', j', hpart'⟩ := hparts.read.exists_part (List.getElem?_eq_getElem hm)
  have hle := hpart.le (hparts.read.sorted hts) hpart' hnm
  exact hordered.spans_before (hpart.taken hts).1 (hpart'.taken hts).1 hle

/-- A token that was taken lies within one span, and in no other. -/
theorem Parts.exists_unique {k : Nat} (hi : i ≤ k) (hk : k < stops.getLastD i) :
    ∃ t, ts.items[k]? = some t ∧ ∃! n : Nat, ∃ c, b.commands[n]? = some c ∧ c.span.Holds t := by
  have hsorted := hparts.read.sorted hts
  obtain ⟨n, c, p, q, hpart, hpk, hkq⟩ := hparts.read.exists_of_lt hi hk
  have hspan := (hpart.taken hts).1
  have hsize := hspan.le_size
  have ht : ts.items[k]? = some ts.items[k] := Array.getElem?_eq_getElem (by omega)
  refine ⟨ts.items[k], ht, n, ⟨c, hpart.command, ?_⟩, ?_⟩
  · exact (hordered.holds_iff hspan ht).mpr ⟨hpk, hkq⟩
  · rintro m ⟨c', hm, hholds⟩
    obtain ⟨p', q', hpart'⟩ := hparts.read.exists_part hm
    obtain ⟨hpk', hkq'⟩ := (hordered.holds_iff (hpart'.taken hts).1 ht).mp hholds
    rcases Nat.lt_trichotomy m n with hlt | heq | hlt
    · have hle := hpart'.le hsorted hpart hlt
      omega
    · exact heq
    · have hle := hpart.le hsorted hpart' hlt
      omega

end

end Command

/-- The commands of a buffer share the tokens out among them. They stop at the places `stops`. -/
structure Buffer.SharesOut (b : Buffer) (levels : Nat) (ts : Tokens) (stops : List Nat) : Prop where
  /-- Each command stops once, -/
  length_eq : stops.length = b.commands.length
  /-- behind the first token and behind the commands before it. -/
  sorted : (0 :: stops).Pairwise (· < ·)
  /-- It is read from the stop of the command before it up to its own, and nothing is left out. Its
  span runs from the start of its first token to the end of its last. -/
  taken (n : Nat) (c : Command) : b.commands[n]? = some c →
    ∃ i j, (0 :: stops)[n]? = some i ∧ stops[n]? = some j ∧
      (Command.read levels ts i).outcome = .ok c ∧ (Command.read levels ts i).next = j ∧
      ts.Reads i c.request.pieces j ∧
      ∃ first last, ts.items[i]? = some first ∧ ts.items[j - 1]? = some last ∧
        c.span = .over first last
  /-- No span is empty, -/
  nonEmpty : ∀ c ∈ b.commands, c.span.NonEmpty
  /-- and each ends before the next starts. -/
  before : (b.commands.map (·.span)).Pairwise Span.Before
  /-- Every token that was taken lies within exactly one span. -/
  held : ∀ k < stops.getLastD 0, ∃ t, ts.items[k]? = some t ∧
    ∃! n : Nat, ∃ c, b.commands[n]? = some c ∧ c.span.Holds t
  /-- A buffer without a failure ends at the end token. -/
  ends : b.failure = none → stops.getLastD 0 = ts.items.size
  /-- A command whose value is to be shown is the last thing that there is. -/
  value (n : Nat) (c : Command) : b.commands[n]? = some c → c.request.showsValue = true →
    n + 1 = b.commands.length ∧ b.failure = none ∧ b.items.getLast? = some (.command c)

/-- **Commands share the tokens, and their spans tell where they stand.** Whatever is read from a
text, there are increasing places, from the first token on, so that each command is read from one of
them up to the next. Its span runs from the start of its first token to the end of its last. So no
span is empty, each stands before the next, and every token that was taken lies within exactly one.
If the buffer does not fail, the last place is that of the end token. A command whose value is to be
shown is the last, and the buffer ends right behind it without a failure. -/
theorem partition_of_text (levels : Nat) (s : String) : ∃ stops : List Nat,
    (Buffer.ofTokens levels (Stream.ofText s).tokens).SharesOut levels (Stream.ofText s).tokens
      stops := by
  have hlexed : (Stream.ofText s).tokens.Lexed := Tokens.lexed_ofChars s.toList
  have hordered : (Stream.ofText s).tokens.Ordered := Tokens.ordered_ofChars s.toList
  obtain ⟨stops, hparts⟩ : ∃ stops, Command.Parts levels (Stream.ofText s).tokens 0
      (Buffer.ofTokens levels (Stream.ofText s).tokens) stops :=
    Command.parts_readFrom hlexed (by omega) (Nat.zero_le _)
  refine ⟨stops, hparts.read.length_eq, hparts.read.sorted hlexed, fun n c hn => ?_,
    fun c hc => hparts.nonEmpty hlexed hordered hc, hparts.spans_before hlexed hordered,
    fun k hk => hparts.exists_unique hlexed hordered (Nat.zero_le k) hk, hparts.ends, hparts.value⟩
  obtain ⟨i, j, hpart⟩ := hparts.read.exists_part hn
  obtain ⟨⟨-, hspan⟩, hreads⟩ := hpart.taken hlexed
  exact ⟨i, j, hpart.start, hpart.stop, hpart.read, hpart.next, hreads, hspan⟩

/-- Three commands on two lines, the last of which shows its value. -/
theorem partition_of_two_lines :
    let b := Buffer.ofTokens 30 (Stream.ofText "f(a);\n b = 1; c").tokens
    b.commands.map (·.span) = [⟨1, 1, 1, 6⟩, ⟨2, 2, 2, 8⟩, ⟨2, 9, 2, 10⟩] ∧
      (b.commands.map (·.span)).Pairwise Span.Before ∧ b.failure = none ∧
      ∃ stops : List Nat, stops.length = 3 ∧ stops.getLastD 0 = 10 := by
  obtain ⟨stops, h⟩ := partition_of_text 30 "f(a);\n b = 1; c"
  obtain ⟨-, hnone, -⟩ :=
    h.value 2 ⟨.expression (.atom ⟨.ident, "c", 2, 9⟩) false, ⟨2, 9, 2, 10⟩⟩ rfl rfl
  exact ⟨by decide, h.before, hnone, stops, h.length_eq, h.ends hnone⟩

end CommandShell
