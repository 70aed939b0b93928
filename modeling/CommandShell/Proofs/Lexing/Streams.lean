import CommandShell.Proofs.Lexing.Join

/-! # Streams: what was asked before does not show

The calls of a lexer one after the other make a sequence (`Lexer.call`), which ends for a reader at
the end token or at the first fault (`Lexer.EndsAt`). A stream keeps the first of these calls and a
lexer that stands behind them (`Stream.Holds`). Asking for more keeps that, as long as no fault is
met, so that a stream answers what the sequence says, whatever it was asked before
(`Stream.Holds.get_eq`, `Stream.Holds.toList_eq`). -/

namespace CommandShell

/-! ### The calls of a lexer -/

namespace Lexer

/-- The lexer after a number of calls. -/
def afterCalls (l : Lexer) : Nat → Lexer
  | 0 => l
  | k + 1 => l.next.2.afterCalls k

/-- What the call with an index gives. -/
def call (l : Lexer) (k : Nat) : Except LexError Token := (l.afterCalls k).next.1

theorem afterCalls_add (l : Lexer) (m k : Nat) :
    (l.afterCalls m).afterCalls k = l.afterCalls (m + k) := by
  induction m generalizing l with
  | zero => rw [Nat.zero_add]; rfl
  | succ m ih => rw [Nat.add_right_comm]; exact ih _

theorem call_add (l : Lexer) (m k : Nat) : (l.afterCalls m).call k = l.call (m + k) := by
  unfold call
  rw [afterCalls_add]

theorem afterCalls_succ (l : Lexer) (k : Nat) : l.afterCalls (k + 1) = (l.afterCalls k).next.2 :=
  (afterCalls_add l k 1).symm

theorem next_of_call {l : Lexer} {k : Nat} {x : Except LexError Token} (h : l.call k = x) :
    (l.afterCalls k).next = (x, l.afterCalls (k + 1)) := by
  rw [afterCalls_succ, ← h]
  rfl

section
variable {l l' : Lexer} {x : Except LexError Token} (h : l.next = (x, l'))
include h

theorem call_zero_of_next : l.call 0 = x := congrArg Prod.fst h

theorem afterCalls_of_next (k : Nat) : l.afterCalls (k + 1) = l'.afterCalls k := by
  rw [afterCalls, h]

theorem call_of_next (k : Nat) : l.call (k + 1) = l'.call k := by
  unfold call
  rw [afterCalls_of_next h]

end

theorem line_le_afterCalls (l : Lexer) (k : Nat) : l.place.line ≤ (l.afterCalls k).place.line := by
  induction k generalizing l with
  | zero => exact Int.le_refl _
  | succ k ih => exact Int.le_trans (line_le_next l) (ih _)

/-- The call with the index is the first that gives no token before the end: it gives the end token
or a fault. -/
structure EndsAt (l : Lexer) (n : Nat) : Prop where
  before : ∀ k < n, ∃ t, l.call k = .ok t ∧ t.kind ≠ .eof
  ending : ∀ t, l.call n = .ok t → t.kind = .eof

theorem EndsAt.le {l : Lexer} {m n : Nat} (h : l.EndsAt n)
    (hbefore : ∀ k < m, ∃ t, l.call k = .ok t ∧ t.kind ≠ .eof) : m ≤ n := by
  by_contra hlt
  obtain ⟨t, ht, hk⟩ := hbefore n (Nat.lt_of_not_le hlt)
  exact hk (h.ending t ht)

theorem EndsAt.unique {l : Lexer} {m n : Nat} (h : l.EndsAt m) (h' : l.EndsAt n) : m = n :=
  Nat.le_antisymm (h'.le h.before) (h.le h'.before)

/-- Tokens are what the first calls give, none of which gives the end. -/
structure Gives (l : Lexer) (ts : List Token) : Prop where
  calls : ts.map .ok = (List.range ts.length).map l.call
  kind_ne_eof : ∀ t ∈ ts, t.kind ≠ .eof

theorem Gives.nil {l : Lexer} : l.Gives [] := ⟨rfl, List.forall_mem_nil _⟩

theorem Gives.cons {l l' : Lexer} {t : Token} {ts : List Token} (h : l.next = (.ok t, l'))
    (hk : t.kind ≠ .eof) (hrest : l'.Gives ts) : l.Gives (t :: ts) where
  calls := by
    rw [List.map_cons, hrest.calls, List.length_cons, List.range_succ_eq_map, List.map_cons,
      List.map_map, call_zero_of_next h]
    exact congrArg _ (List.map_congr_left fun k _ => (call_of_next h k).symm)
  kind_ne_eof := List.forall_mem_cons.mpr ⟨hk, hrest.kind_ne_eof⟩

theorem Gives.append {l : Lexer} {ts us : List Token} (h : l.Gives ts)
    (h' : (l.afterCalls ts.length).Gives us) : l.Gives (ts ++ us) where
  calls := by
    rw [List.map_append, h.calls, h'.calls, List.length_append, List.range_add, List.map_append,
      List.map_map]
    exact congrArg _ (List.map_congr_left fun k _ => call_add l ts.length k)
  kind_ne_eof := List.forall_mem_append.mpr ⟨h.kind_ne_eof, h'.kind_ne_eof⟩

theorem Gives.call_eq {l : Lexer} {ts : List Token} (h : l.Gives ts) {k : Nat}
    (hk : k < ts.length) : l.call k = .ok ts[k] := by
  have hget := congrArg (·[k]?) h.calls
  simpa [hk] using hget.symm

theorem Gives.before {l : Lexer} {ts : List Token} (h : l.Gives ts) :
    ∀ k < ts.length, ∃ t, l.call k = .ok t ∧ t.kind ≠ .eof := fun _ hk =>
  ⟨_, h.call_eq hk, h.kind_ne_eof _ (List.getElem_mem hk)⟩

/-- Two rows of tokens that end where the calls end are the same. -/
theorem Gives.eq_of_length {l : Lexer} {ts us : List Token} (h : l.Gives ts) (h' : l.Gives us)
    (hlength : ts.length = us.length) : ts = us := by
  refine List.ext_getElem hlength fun k hk hk' => ?_
  exact Except.ok.inj ((h.call_eq hk).symm.trans (h'.call_eq hk'))

/-- What a reading with a count is in terms of the calls. -/
structure ReadsCalls (l : Lexer) (count : Nat) (r : Reading) : Prop where
  gives : l.Gives r.tokens
  counted : r.ending = none → r.tokens.length = count ∧ r.lexer = l.afterCalls count
  ended : ∀ x, r.ending = some x → r.tokens.length < count ∧ l.call r.tokens.length = x ∧
    r.lexer = l.afterCalls (r.tokens.length + 1) ∧ ∀ t, x = .ok t → t.kind = .eof

/-- **A reading makes the calls one after the other**, up to its count, to the end or to a fault. -/
theorem readsCalls_read (count : Nat) (l : Lexer) : l.ReadsCalls count (read count l) := by
  induction count generalizing l with
  | zero => exact ⟨.nil, fun _ => ⟨rfl, rfl⟩, fun _ h => by cases h⟩
  | succ count ih =>
    rcases hnext : l.next with ⟨x, l'⟩
    have hends : (∀ t, x = .ok t → t.kind = .eof) →
        l.ReadsCalls (count + 1) ⟨[], some x, l'⟩ := fun heof => by
      refine ⟨.nil, fun h => absurd h (Option.some_ne_none x), ?_⟩
      rintro _ ⟨⟩
      exact ⟨Nat.succ_pos _, call_zero_of_next hnext, (afterCalls_of_next hnext 0).symm, heof⟩
    cases x with
    | error e =>
      rw [read, hnext]
      exact hends fun _ h => by cases h
    | ok t =>
      by_cases hk : t.kind = .eof
      · rw [read, hnext]
        simp only [Token.isEof, hk, beq_self_eq_true, if_true]
        refine hends ?_
        rintro _ ⟨⟩
        exact hk
      · obtain ⟨hgives, hnone, hsome⟩ := ih l'
        rw [read_step hnext hk]
        refine ⟨hgives.cons hnext hk, fun h => ?_, fun y hy => ?_⟩
        · obtain ⟨hlength, hlexer⟩ := hnone h
          exact ⟨congrArg (· + 1) hlength, hlexer.trans (afterCalls_of_next hnext count).symm⟩
        · obtain ⟨hlt, hcall, hlexer, heof⟩ := hsome y hy
          exact ⟨Nat.succ_lt_succ hlt, (call_of_next hnext _).trans hcall,
            hlexer.trans (afterCalls_of_next hnext _).symm, heof⟩

/-- A reading behind tokens that were read before goes on with the calls. -/
theorem ReadsCalls.behind {l : Lexer} {ts : List Token} {count : Nat} {r : Reading}
    (h : l.Gives ts) (hr : (l.afterCalls ts.length).ReadsCalls count r) :
    l.ReadsCalls (ts.length + count) { r with tokens := ts ++ r.tokens } where
  gives := h.append hr.gives
  counted hnone := by
    obtain ⟨hlength, hlexer⟩ := hr.counted hnone
    rw [afterCalls_add] at hlexer
    exact ⟨by rw [List.length_append, hlength], hlexer⟩
  ended x hx := by
    obtain ⟨hlt, hcall, hlexer, heof⟩ := hr.ended x hx
    rw [call_add] at hcall
    rw [afterCalls_add, ← Nat.add_assoc] at hlexer
    rw [List.length_append]
    exact ⟨Nat.add_lt_add_left hlt _, hcall, hlexer, heof⟩

end Lexer

/-! ### The tokens that the calls give -/

/-- Tokens are those that the calls of a lexer give, with the end token or the first fault. -/
structure Tokens.Calls (ts : Tokens) (l : Lexer) : Prop where
  gives : l.Gives ts.items.toList
  ending : ts.ending = l.call ts.items.size
  eof : ∀ t, ts.ending = .ok t → t.kind = .eof

theorem Tokens.get_of_size_le {ts : Tokens} {k : Nat} (h : ts.items.size ≤ k) :
    ts.get k = ts.ending := dif_neg (Nat.not_lt.mpr h)

namespace Tokens.Calls

variable {ts us : Tokens} {l : Lexer}

theorem endsAt (h : ts.Calls l) : l.EndsAt ts.items.size where
  before k hk := h.gives.before k (by simpa using hk)
  ending t ht := h.eof t (h.ending.trans ht)

/-- An index from that of the end on stands for the end. -/
theorem get_eq (h : ts.Calls l) (k : Nat) : ts.get k = l.call (min k ts.items.size) := by
  unfold Tokens.get
  split
  · next hk =>
    rw [Nat.min_eq_left (Nat.le_of_lt hk), h.gives.call_eq (by simpa using hk)]
    simp
  · next hk => rw [Nat.min_eq_right (Nat.le_of_not_lt hk), h.ending]

theorem unique (h : ts.Calls l) (h' : us.Calls l) : ts = us := by
  have hsize := h.endsAt.unique h'.endsAt
  have hitems := h.gives.eq_of_length h'.gives (by simp [hsize])
  have hending : ts.ending = us.ending := by rw [h.ending, h'.ending, hsize]
  cases ts
  cases us
  simp only [Array.toList_inj] at hitems hending
  rw [hitems, hending]

end Tokens.Calls

/-! ### What a stream holds -/

namespace Stream

/-- The tokens that are kept, the end token included. -/
def kept (st : Stream) : List Token := st.items.toList ++ st.eof.toList

/-- What is kept are the tokens that the first calls of the lexer give. -/
structure Keeps (st : Stream) (l : Lexer) : Prop where
  gives : l.Gives st.items.toList
  eof : ∀ t, st.eof = some t → l.call st.items.size = .ok t ∧ t.kind = .eof

/-- And the stream goes on where these calls stopped. -/
structure Holds (st : Stream) (l : Lexer) : Prop extends Keeps st l where
  lexer : st.lexer = l.afterCalls st.lexed

variable {st : Stream} {l : Lexer} {n count : Nat}

/-- **What is kept is the beginning of the sequence of calls.** -/
theorem Keeps.kept_eq (h : st.Keeps l) : st.kept.map .ok = (List.range st.lexed).map l.call := by
  have hcalls := h.gives.calls
  unfold kept lexed
  cases heof : st.eof with
  | none => simpa using hcalls
  | some t =>
    have hlast := (h.eof t heof).1
    simp only [Array.length_toList] at hcalls
    simp [List.range_succ, hcalls, hlast]

/-- A stream without the end token keeps what its tokens are. -/
theorem keeps_of_gives {items : Array Token} {lexer : Lexer} (h : l.Gives items.toList) :
    Keeps ⟨items, none, lexer⟩ l := ⟨h, fun _ ht => nomatch ht⟩

theorem holds_fresh (l : Lexer) : Holds ⟨#[], none, l⟩ l := ⟨keeps_of_gives .nil, rfl⟩

section
variable {ts : Tokens} (h : st.Keeps l) (hcalls : ts.Calls l)
include h hcalls

theorem Keeps.size_le : st.items.size ≤ ts.items.size :=
  hcalls.endsAt.le fun k hk => h.gives.before k (by simpa using hk)

/-- Where the calls end, a stream keeps all tokens. -/
theorem Keeps.ending_of_call {x : Except LexError Token} (hx : l.call st.items.size = x)
    (heof : ∀ t, x = .ok t → t.kind = .eof) :
    ts.items.size = st.items.size ∧ ts.ending = x := by
  have hends : l.EndsAt st.items.size :=
    ⟨fun k hk => h.gives.before k (by simpa using hk), fun t ht => heof t (hx.symm.trans ht)⟩
  have hsame := hcalls.endsAt.unique hends
  exact ⟨hsame, by rw [hcalls.ending, hsame, hx]⟩

/-- A stream that has the end token keeps all tokens. -/
theorem Keeps.ending_of_eof {t : Token} (ht : st.eof = some t) :
    ts.items.size = st.items.size ∧ ts.ending = .ok t := by
  obtain ⟨hcall, hk⟩ := h.eof t ht
  refine h.ending_of_call hcalls hcall ?_
  rintro _ ⟨⟩
  exact hk

end

/-- What has become of a stream that was asked for more tokens, and the fault met, if any. -/
structure Grown (st : Stream) (l : Lexer) (count : Nat) (st' : Stream) (fault? : Option LexError) :
    Prop where
  keeps : st'.Keeps l
  le : st.items.size ≤ st'.items.size
  holds : fault? = none → st'.Holds l ∧ (st'.eof = none → st'.items.size = st.items.size + count)
  fault : ∀ e, fault? = some e →
    st'.items.size < st.items.size + count ∧ l.call st'.items.size = .error e

/-- **Asking for more keeps what a stream holds**, as long as no fault is met. -/
theorem Holds.grown (h : st.Holds l) {st' : Stream} {fault? : Option LexError}
    (heq : st.grow count = (st', fault?)) : st.Grown l count st' fault? := by
  obtain ⟨items, eof, lexer⟩ := st
  obtain ⟨⟨hgives, heof⟩, hlexer⟩ := h
  unfold grow at heq
  cases eof with
  | some t =>
    cases heq
    exact ⟨⟨hgives, heof⟩, Nat.le_refl _, fun _ => ⟨⟨⟨hgives, heof⟩, hlexer⟩, fun h => nomatch h⟩,
      fun _ h => nomatch h⟩
  | none =>
    have hreads : (l.afterCalls items.toList.length).ReadsCalls count (lexer.read count) := by
      rw [show lexer = l.afterCalls items.toList.length from hlexer]
      exact Lexer.readsCalls_read _ _
    have hitems : items ++ (lexer.read count).tokens.toArray =
        (items.toList ++ (lexer.read count).tokens).toArray := by simp
    have hle : items.size ≤ (items.toList ++ (lexer.read count).tokens).length := by simp
    obtain ⟨hkept, hnone, hsome⟩ := hreads.behind hgives
    simp only [hitems] at heq
    dsimp only at hkept hnone hsome
    generalize items.toList ++ (lexer.read count).tokens = ts at *
    split at heq <;> cases heq
    · next hending =>
      obtain ⟨hlength, hlast⟩ := hnone hending
      refine ⟨keeps_of_gives hkept, hle, fun _ => ⟨⟨keeps_of_gives hkept, ?_⟩, fun _ => hlength⟩,
        fun _ h => nomatch h⟩
      rw [hlast, ← hlength]
      rfl
    · next t hending =>
      obtain ⟨-, hcall, hlast, hk⟩ := hsome _ hending
      have heof : ∀ u, some t = some u → l.call ts.length = .ok u ∧ u.kind = .eof := by
        rintro _ ⟨⟩
        exact ⟨hcall, hk t rfl⟩
      exact ⟨⟨hkept, heof⟩, hle, fun _ => ⟨⟨⟨hkept, heof⟩, hlast⟩, fun h => nomatch h⟩,
        fun _ h => nomatch h⟩
    · next e hending =>
      obtain ⟨hlt, hcall, -, -⟩ := hsome _ hending
      refine ⟨keeps_of_gives hkept, hle, nofun, ?_⟩
      rintro _ ⟨⟩
      exact ⟨hlt, hcall⟩

/-- A stream that has met a fault keeps all tokens. -/
theorem Grown.ending_of_fault {st' : Stream} {e : LexError} {ts : Tokens}
    (h : st.Grown l count st' (some e)) (hcalls : ts.Calls l) :
    ts.items.size = st'.items.size ∧ ts.ending = .error e :=
  h.keeps.ending_of_call hcalls (h.fault e rfl).2 fun _ h => nomatch h

/-! ### What a stream answers -/

/-- A stream that gives a token has met no fault. -/
theorem get_grows (st : Stream) (i : Nat) : (st.get i).2 = (st.upTo (i + 1)).1 ∧
    ∀ t, (st.get i).1 = .ok t → (st.upTo (i + 1)).2 = none := by
  unfold get
  rcases st.upTo (i + 1) with ⟨st', _ | e⟩
  · exact ⟨by simp only; split <;> rfl, fun _ _ => rfl⟩
  · exact ⟨rfl, nofun⟩

theorem toList_grows (st : Stream) :
    st.toList.2 = st.full.1 ∧ ∀ ts, st.toList.1 = .ok ts → st.full.2 = none := by
  unfold toList
  rcases st.full with ⟨st', _ | e⟩
  · exact ⟨rfl, fun _ _ => rfl⟩
  · exact ⟨rfl, nofun⟩

/-- A count above the number of characters ahead is enough for the end or a fault. -/
theorem eof_of_full {st' : Stream} (hline : 1 ≤ st.lexer.place.line) (h : st.full = (st', none)) :
    ∃ t, st'.eof = some t := by
  obtain ⟨items, eof, lexer⟩ := st
  unfold full grow at h
  cases eof with
  | some t =>
    cases h
    exact ⟨t, rfl⟩
  | none =>
    obtain ⟨t, ht, -⟩ | ⟨e, he⟩ := lexer.ending_read (lexer.rest.length + 1) hline
      (Nat.lt_succ_self _)
    · simp only [ht] at h
      cases h
      exact ⟨t, rfl⟩
    · simp only [he] at h
      cases h

theorem Holds.line_pos (h : st.Holds l) (hline : 1 ≤ l.place.line) :
    1 ≤ st.lexer.place.line := by
  rw [h.lexer]
  exact Int.le_trans hline (Lexer.line_le_afterCalls _ _)

section
variable (h : st.Holds l) (hline : 1 ≤ l.place.line)
include h hline

/-- **The tokens ahead are those that the calls give**, whatever is kept of them. -/
theorem Holds.calls : st.tokens.Calls l := by
  unfold tokens
  rcases hfull : st.full with ⟨st', _ | e⟩ <;> have hgrown := h.grown hfull
  · obtain ⟨t, ht⟩ := eof_of_full (h.line_pos hline) hfull
    obtain ⟨hcall, hk⟩ := hgrown.keeps.eof t ht
    refine ⟨hgrown.keeps.gives, ?_, fun u hu => ?_⟩ <;> simp only [ht, Option.getD_some] at *
    · exact hcall.symm
    · cases hu
      exact hk
  · exact ⟨hgrown.keeps.gives, (hgrown.fault e rfl).2.symm, nofun⟩

theorem Holds.toList_eq : st.toList.1 = st.tokens.ending.map (st.tokens.items.toList ++ [·]) := by
  unfold toList tokens
  rcases hfull : st.full with ⟨st', _ | e⟩
  · obtain ⟨t, ht⟩ := eof_of_full (h.line_pos hline) hfull
    simp only [ht]
    rfl
  · rfl

/-- **A stream gives the token with an index**, or the fault before it, whatever it keeps. -/
theorem Holds.get_eq (i : Nat) : (st.get i).1 = st.tokens.get i := by
  have hcalls := h.calls hline
  unfold get upTo
  rcases hgrow : st.grow (i + 1 - st.items.size) with ⟨st', _ | e⟩ <;> have hgrown := h.grown hgrow
  · obtain ⟨-, hsize⟩ := hgrown.holds rfl
    simp only
    split
    · next hi =>
      have hle := hgrown.keeps.size_le hcalls
      rw [hcalls.get_eq, Nat.min_eq_left (by omega),
        hgrown.keeps.gives.call_eq (by simpa using hi)]
      simp
    · next hi =>
      cases heof : st'.eof with
      | none =>
        have hsize := hsize heof
        omega
      | some t =>
        obtain ⟨hsame, hending⟩ := hgrown.keeps.ending_of_eof hcalls heof
        rw [Tokens.get_of_size_le (by omega), hending]
        rfl
  · obtain ⟨hlt, -⟩ := hgrown.fault e rfl
    obtain ⟨hsame, hending⟩ := hgrown.ending_of_fault hcalls
    have hle := hgrown.le
    rw [Tokens.get_of_size_le (by omega), hending]

end

end Stream

/-- **The tokens of a text are those that the calls of a fresh lexer give.** -/
theorem Tokens.calls_ofChars (cs : List Char) : (ofChars cs).Calls (.ofChars cs) :=
  (Stream.holds_fresh _).calls (Int.le_refl 1)

end CommandShell
