import CommandShell.Proofs.Commands.Conduct
import CommandShell.Proofs.Lexing.Layout

/-! # Misplaced closers: how a buffer fails that holds one

A reader passes only closers that it awaits. So it is stuck before a closer that fits no bracket or
at it, also where the bracket count began with brackets that lines above left open: the reader sees
nothing of these lines, and awaits even less (`Walk.malformed_ahead`). The tokens being there, the
failure is a parse error, about a token that stands no later than the closer
(`Stuck.upTo_malformed`), unless no level is left before. -/

namespace CommandShell

open CommandShell.Parser

/-! ### Buffers -/

section
variable {levels : Nat} {ts : Tokens} (hlexed : ts.Lexed) {low i : Nat} {σ : List Kind}
include hlexed

theorem Command.walks_readRound (hlow : low ≤ i) :
    Walks (levels < ts.items.size) low (readRound levels) ts i σ σ
      (fun c? j => c?.isSome → i < j) := by
  refine walks_bindSees (fun _ _ _ => walks_pure nofun) fun _ _ _ => ?_
  exact (walks_read hlexed hlow).map fun _ _ hij _ => hij

/-- **A buffer reports nothing fatal**, and if it fails, it is stuck behind its commands. -/
theorem Buffer.conduct_readFrom (levels rounds : Nat) (hlow : low ≤ i) :
    (∀ d, .diagnostic d ∈ (readFrom levels ts rounds i).items → d.severity ≠ .fatal) ∧
      ∀ f, (readFrom levels ts rounds i).failure = some f →
        ts.Stuck (levels < ts.items.size) low i [] f := by
  induction rounds generalizing i with
  | zero => simp [readFrom]
  | succ rounds ih =>
    have hround : Walks (levels < ts.items.size) low (Command.readRound levels) ts i [] [] _ :=
      Command.walks_readRound hlexed hlow
    have hfound : ∀ d, Item.diagnostic d ∈
        (Command.readRound levels ts i).found.map Item.diagnostic → d.severity ≠ .fatal := by
      intro d hd
      obtain ⟨d', hd', heq⟩ := List.mem_map.mp hd
      cases heq
      exact hround.found hd'
    unfold readFrom
    simp only
    split
    · next f hf => exact ⟨hfound, fun f' hf' => Option.some.inj hf' ▸ hround.stuck hf⟩
    · exact ⟨hfound, fun _ hf => by cases hf⟩
    · next c hc =>
      obtain ⟨hwalked, hlt⟩ := hround.ok hc
      obtain ⟨hrest, hstuck⟩ := ih (Nat.le_trans hlow (hlt rfl).le)
      refine ⟨fun d hd => ?_, fun f hf => hwalked.walk.stuck (hstuck f hf)⟩
      rcases List.mem_append.mp hd with hd | hd
      · exact hfound d hd
      · refine hrest d ((List.mem_cons.mp hd).resolve_left fun h => ?_)
        cases h

end

/-! ### Closers -/

/-- The closer that fits no bracket is one of the tokens. -/
theorem Brackets.mem_of_malformed : ∀ {us : List Token} {b b' : Brackets} {u : Token},
    b.scan us = (.malformed u, b') → u ∈ us ∧ u.kind.isCloser = true
  | [], b, b', u, h => by
    unfold scan at h
    split at h <;> cases h
  | t :: us, b, b', u, h => by
    have hlater : u ∈ us ∧ u.kind.isCloser = true → u ∈ t :: us ∧ u.kind.isCloser = true :=
      And.imp_left (List.mem_cons_of_mem t)
    rw [scan] at h
    split at h
    · exact hlater (mem_of_malformed h)
    · split_ifs at h with hcloses
      · split at h
        · split_ifs at h
          · exact hlater (mem_of_malformed h)
          · cases h
            exact ⟨List.mem_cons_self, hcloses⟩
        · cases h
          exact ⟨List.mem_cons_self, hcloses⟩
      · exact hlater (mem_of_malformed h)

namespace Tokens

variable {ts : Tokens} {k : Nat} {last u : Token} {b b' : Brackets}

/-- **A closer that fits no bracket is not passed**, whichever brackets are open before. -/
theorem Walk.malformed_ahead {τ : List Kind} (hlexed : ts.Lexed) (hlast : last.kind = .eof)
    (hwalk : ts.Walk 0 [] k τ) (hscan : b.scan (ts.items.toList ++ [last]) = (.malformed u, b')) :
    ∃ m, k ≤ m ∧ ts.items.toList[m]? = some u := by
  -- The walk awaits its own closers above those that were awaited before.
  have hahead := (hwalk.append b.awaited).scan_eq hlexed [last]
  rw [List.drop_zero, List.nil_append, hscan] at hahead
  obtain ⟨hmem, hcloses⟩ := Brackets.mem_of_malformed hahead.symm
  rcases List.mem_append.mp hmem with hmem | hmem
  · obtain ⟨n, hn⟩ := List.mem_iff_getElem?.mp hmem
    rw [List.getElem?_drop] at hn
    exact ⟨k + n, Nat.le_add_right k n, hn⟩
  · rw [List.mem_singleton.mp hmem, hlast] at hcloses
    cases hcloses

theorem getElem?_of_at_of_lt {t : Token} (ht : ts.At k t) (hk : k < ts.items.size) :
    ts.items.toList[k]? = some t := by
  have hget := (at_of_lt hk).mp ht
  simp [hk, hget]

/-- **Where a closer fits no bracket, the failure is a parse error** about a token that stands no
later, unless no level is left. -/
theorem Stuck.upTo_malformed {deep : Prop} {low : Nat} {f : Failure} (hlexed : ts.Lexed)
    (hlast : ts.ending = .ok last) (h : ts.Stuck deep low 0 [] f) (hleft : f ≠ .exhausted)
    (hscan : b.scan (ts.items.toList ++ [last]) = (.malformed u, b')) :
    ∃ (fault : ParseFault) (t : Token) (n m : Nat), f = .parse ⟨fault, some t⟩ ∧ n ≤ m ∧
      ts.items.toList[n]? = some t ∧ ts.items.toList[m]? = some u := by
  have heof := hlexed.ending_eof last hlast
  have hlt : ∀ {m}, ts.items.toList[m]? = some u → m < ts.items.size := fun hm => by
    simpa using (List.getElem?_eq_some_iff.mp hm).1
  cases h with
  | @lexical k τ e hwalk he =>
    unfold get at he
    split at he
    · cases he
    · rw [hlast] at he
      cases he
  | @here k τ t fault hwalk ht hfault =>
    obtain ⟨m, hkm, hm⟩ := hwalk.malformed_ahead hlexed heof hscan
    have hsize := hlt hm
    exact ⟨fault, t, k, m, rfl, hkm, getElem?_of_at_of_lt ht (by omega), hm⟩
  | @behind k τ n t fault hwalk hlow hnk ht hfault =>
    obtain ⟨m, hkm, hm⟩ := hwalk.malformed_ahead hlexed heof hscan
    have hsize := hlt hm
    exact ⟨fault, t, n, m, rfl, by omega, getElem?_of_at_of_lt ht (by omega), hm⟩
  | deep => exact absurd rfl hleft

end Tokens

end CommandShell
