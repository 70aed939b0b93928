import CommandShell.Proofs.Commands.Words
import CommandShell.Proofs.Parsing.Extended

/-! # Appending: the commands of a buffer before those of another

Where the tokens of a buffer are followed by those of another, the commands of both are read, one
after the other (`buffer_appended`). For this no command may be a value that the end of the buffer
ends, unless no command follows; and no command begins with what a complete statement looks for
behind it (`follower_of_buffer`). -/

namespace CommandShell

open CommandShell.Parser CommandShell.Grammar

/-- The item some lines further down. -/
def Item.down (k : Int) : Item → Item
  | .diagnostic d => .diagnostic (d.down k)
  | .command c => .command (c.down k)

/-! ### Checks -/

section
variable {e : Expr} {k : Int} {levels : Nat}

theorem targetWithin_down : (e.down k).TargetWithin levels ↔ e.TargetWithin levels := by
  rw [Expr.TargetWithin, isTarget_down, e.tree_down, Tree.searchDepth_down, Expr.TargetWithin]

theorem effectWithin_down : (e.down k).EffectWithin levels ↔ e.EffectWithin levels := by
  rw [Expr.EffectWithin, hasEffect_down, e.tree_down, Tree.searchDepth_down, Expr.EffectWithin]

end

/-! ### The first token of a command -/

/-- What stands at the place can begin a command. -/
def Tokens.Begins (ts : Tokens) (i : Nat) : Prop := ∀ t, ts.At i t → t.kind ∉ Kind.followers

section
variable {ts : Tokens} {i : Nat}

theorem begins_of_at {t : Token} (ht : ts.At i t) (hk : t.kind ∉ Kind.followers) : ts.Begins i := by
  intro u hu
  cases ht.unique hu
  exact hk

end

namespace Command

variable {us ts : Tokens} {levels d i j : Nat} {k : Int} {ds : List Diagnostic}

theorem begins_of_request {r : Request} : RequestRun levels ts i r j ds → ts.Begins i
  | .statement hopens _ => by
    obtain ⟨-, -, t, ht, hk⟩ := runs_opening_statement.mp hopens
    refine begins_of_at ht fun hin => ?_
    rcases hk with hb | ⟨hk, -⟩ | ⟨hk, -⟩
    · revert hb hin; cases t.kind <;> decide
    · rw [hk] at hin; revert hin; decide
    · rw [hk] at hin; revert hin; decide
  | .expression _ he _ => by
    obtain ⟨t, ht, hk⟩ :=
      (firsts_closed ts).parse levels (show Rule.expr.Fits ts i from trivial) he
    exact begins_of_at ht fun hin => by revert hk hin; cases t.kind <;> decide

/-- **No buffer begins with what a complete statement looks for behind it.** -/
theorem follower_of_buffer {items : List Item} :
    BufferRun levels ts i items → ∃ t, ts.At i t ∧ t.kind ∉ Kind.followers
  | .stop ⟨t, ht, hk⟩ => ⟨t, ht, by rw [hk]; decide⟩
  | .more _ (.mk hstart hr _) _ => ⟨_, hstart, begins_of_request hr _ hstart⟩

/-! ### Commands within more tokens -/

section
variable (h : us.Extends ts d k)
include h

theorem operand_extended : ∀ i e j ds, OperandRun levels ts i e j ds → us.Agree ts d j →
    us.Agree ts d i ∧ OperandRun levels us (d + i) (e.down k) (d + j) (ds.map (.down k)) := by
  intro i e j ds he hj
  have hlt := (reads_expr_of_runs h.lexed he).lt e.pieces_ne_nil
  exact ⟨h.agree_of_le (Nat.le_of_lt hlt.1) hj, runs_expr_extended h he hj⟩

theorem placed_of_more {i : Nat} {es : List Expr} {j : Nat} {ds : List Diagnostic}
    (hes : Collected (MoreRound ts (OperandRun levels ts)) i es j ds) : ∀ e ∈ es, e.Placed := by
  induction hes with
  | stop => exact fun _ hin => nomatch hin
  | more hround _ ih =>
    cases hround with
    | more _ he => exact List.forall_mem_cons.mpr ⟨h.placed (reads_expr_of_runs h.lexed he), ih⟩

omit h in
theorem arityReports_down {targets values : List Expr} {sign : Token} (hsign : 1 ≤ sign.line) :
    arityReports (exprsDown k targets) (sign.down k) (exprsDown k values) =
      (arityReports targets sign values).map (.down k) := by
  unfold arityReports
  rw [exprsDown_eq, exprsDown_eq, List.length_map, List.length_map,
    Diagnostic.badArity_down hsign]
  split <;> rfl

/-- What follows the first expression of a request. A value ends where the buffer ends, so that
there the longer text must end too. -/
theorem tail_extended {e : Expr} (he : e.Placed) {r : Request}
    (hvalue : r.showsValue = true → us.Agree ts d j) : TailRun levels ts e i r j ds →
      us.Agree ts d i ∧
        TailRun levels us (e.down k) (d + i) (r.down k) (d + j) (ds.map (.down k))
  | .value ⟨t, ht, hk⟩ => by
    obtain ⟨u, hu, hkind⟩ := (hvalue rfl).exists_at ht
    exact ⟨hvalue rfl, .value ⟨u, hu, hkind.trans hk⟩⟩
  | .terminated hcheck hsemicolon => by
    rw [← effectReports_down he]
    exact ⟨h.agree_of_has hsemicolon (by decide),
      .terminated (effectWithin_down.mpr hcheck) (h.has hsemicolon (by decide))⟩
  | .assignment hcheck hassign hv hsemicolon => by
    obtain ⟨-, hv⟩ := operand_extended h _ _ _ _ hv (h.agree_of_has hsemicolon (by decide))
    rw [List.map_append, ← targetReports_down he]
    exact ⟨h.agree_of_has hassign (by decide),
      .assignment (targetWithin_down.mpr hcheck) (h.has hassign (by decide)) hv
        (h.has hsemicolon (by decide))⟩
  | .compound hcheck hsign hop hv hsemicolon => by
    have hne := kind_ne_eof_of_compound (by rw [hop]; rfl)
    obtain ⟨-, hv⟩ := operand_extended h _ _ _ _ hv (h.agree_of_has hsemicolon (by decide))
    rw [List.map_append, ← targetReports_down he]
    exact ⟨h.agree hsign hne, .compound (targetWithin_down.mpr hcheck) (h.at_down hsign hne) hop hv
      (h.has hsemicolon (by decide))⟩
  | .parallel hcomma hothers hlen hsign hassign htargets hvalues hsemicolon => by
    have hne := kind_ne_eof hassign (by decide)
    have hplaced := List.forall_mem_cons.mpr ⟨he, placed_of_more h hothers⟩
    obtain ⟨-, hothers⟩ :=
      collected_extended (moreRound_extended h (operand_extended h)) hothers (h.agree hsign hne)
    obtain ⟨-, hvalues⟩ :=
      separated_extended h (operand_extended h) hvalues (h.agree_of_has hsemicolon (by decide))
    refine ⟨h.agree_of_has hcomma (by decide), ?_⟩
    rw [List.map_append, List.map_append, List.map_append, ← targetsReports_down hplaced,
      ← arityReports_down (h.line_pos hsign hne)]
    rw [Request.down, exprsDown_eq, exprsDown_eq]
    refine .parallel (h.has hcomma (by decide)) hothers (h.length_le hlen) (h.at_down hsign hne)
      hassign ?_ hvalues (h.has hsemicolon (by decide))
    rw [← List.map_cons, List.forall_mem_map]
    exact fun t ht => targetWithin_down.mpr (htargets t ht)

theorem request_extended {r : Request} (hvalue : r.showsValue = true → us.Agree ts d j) :
    RequestRun levels ts i r j ds →
      RequestRun levels us (d + i) (r.down k) (d + j) (ds.map (.down k))
  | .statement hopens hs =>
    .statement (opening_statement_extended h hopens) (runs_stmt_extended h hs)
  | .expression hopens he htail => by
    have hreads := reads_expr_of_runs h.lexed he
    have hlt := (hreads.lt (Expr.pieces_ne_nil _)).1
    obtain ⟨hm, htail⟩ := tail_extended h (h.placed hreads) hvalue htail
    rw [List.map_append]
    exact .expression (opening_extended h (h.agree_of_le hlt hm) hopens)
      (runs_expr_extended h he hm) htail

theorem command_extended {c : Command} (hvalue : c.request.showsValue = true → us.Agree ts d j)
    (hc : CommandRun levels ts i c j ds) :
    CommandRun levels us (d + i) (c.down k) (d + j) (ds.map (.down k)) := by
  obtain ⟨hij, hj⟩ := hc.lt h.lexed
  obtain ⟨m, rfl⟩ := Nat.exists_eq_add_of_lt hij
  cases hc with
  | @mk _ start r _ _ last? hstart hr hlast =>
    obtain ⟨last, hat, rfl, -⟩ := runs_previous_succ.mp hlast
    have hstart := h.at_down hstart (h.kind_ne_eof_of_lt (by omega) hstart)
    have hlast : Runs previous us (d + (i + m) + 1) (some (last.down k)) (d + (i + m) + 1) [] :=
      runs_previous_succ.mpr ⟨_, h.at_down hat (h.kind_ne_eof_of_lt (by omega) hat), rfl, rfl, rfl⟩
    exact .mk hstart (request_extended h hvalue hr) hlast

end

/-! ### Buffers -/

/-- Only the last command may be a value. -/
def ValuesLast (cs : List Command) : Prop := ∀ c ∈ cs.dropLast, c.request.showsValue = false

instance (cs : List Command) : Decidable (ValuesLast cs) :=
  inferInstanceAs (Decidable (∀ c ∈ cs.dropLast, c.request.showsValue = false))

theorem ValuesLast.tail {c : Command} {cs : List Command} (hcs : ValuesLast (c :: cs)) :
    ValuesLast cs := by
  cases cs with
  | nil => exact fun _ hin => nomatch hin
  | cons => exact fun c' hin => hcs c' (List.mem_cons_of_mem _ hin)

theorem ValuesLast.right : ∀ {cs cs' : List Command}, ValuesLast (cs ++ cs') → ValuesLast cs'
  | [], _, hcs => hcs
  | _ :: _, _, hcs => hcs.tail.right

/-- Only which commands are values matters. -/
theorem ValuesLast.congr {cs cs' : List Command} (hcs : ValuesLast cs)
    (heq : cs'.map (·.request.showsValue) = cs.map (·.request.showsValue)) : ValuesLast cs' := by
  intro c hc
  have hmem := List.mem_map_of_mem (f := (·.request.showsValue)) hc
  rw [List.map_dropLast, heq, ← List.map_dropLast] at hmem
  obtain ⟨c', hc', heq'⟩ := List.mem_map.mp hmem
  exact heq' ▸ hcs c' hc'

theorem ValuesLast.eq_nil {c : Command} {cs : List Command} (hcs : ValuesLast (c :: cs))
    (hc : c.request.showsValue = true) : cs = [] := by
  cases cs with
  | nil => rfl
  | cons => simp [hcs c List.mem_cons_self] at hc

theorem buffer_without_commands {items : List Item} (hrun : BufferRun levels ts i items)
    (hnone : items.filterMap Item.command? = []) : items = [] ∧ ts.Has i .eof := by
  cases hrun with
  | stop heof => exact ⟨rfl, heof⟩
  | more => simp [Item.command?] at hnone

/-- **The commands of a buffer and those after it.** -/
theorem buffer_appended (h : us.Extends ts d k) {items rest : List Item}
    (hrest : BufferRun levels us (d + ts.items.size) rest)
    (hvalues : ValuesLast ((items ++ rest).filterMap Item.command?)) (hi : i ≤ ts.items.size)
    (hrun : BufferRun levels ts i items) :
    BufferRun levels us (d + i) (items.map (.down k) ++ rest) := by
  induction hrun with
  | stop heof =>
    rw [Nat.le_antisymm hi (h.lexed.size_le_of_eof heof)]
    exact hrest
  | @more i c j ds items hlacks hc hitems ih =>
    obtain ⟨hij, hj⟩ := hc.lt h.lexed
    have hcs : ValuesLast (c :: (items ++ rest).filterMap Item.command?) := by
      simpa [Item.command?, Function.comp_def] using hvalues
    have hvalue : c.request.showsValue = true → us.Agree ts d j := by
      intro hc
      -- No command follows, so that both texts end here.
      obtain ⟨hitems', hrest'⟩ := List.append_eq_nil_iff.mp
        ((List.filterMap_append ..).symm.trans (hcs.eq_nil hc))
      obtain ⟨-, t, ht, hk⟩ := buffer_without_commands hitems hitems'
      obtain ⟨-, u, hu, hk'⟩ := buffer_without_commands hrest hrest'
      have hend := Nat.le_antisymm hj (h.lexed.size_le_of_eof ⟨t, ht, hk⟩)
      exact ⟨hj, t, u, ht, hend ▸ hu, hk'.trans hk.symm⟩
    have ih := ih hcs.tail hj
    obtain ⟨t, ht, hk⟩ := hlacks
    have hlacks : us.Lacks (d + i) .eof := ⟨_, h.at_down ht hk, hk⟩
    simpa [Item.down, Function.comp_def] using
      BufferRun.more hlacks (command_extended h hvalue hc) ih

end Command

end CommandShell
