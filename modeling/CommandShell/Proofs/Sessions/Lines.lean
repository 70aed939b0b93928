import CommandShell.Proofs.Lexing.Join
import CommandShell.Proofs.Parsing.Nesting
import CommandShell.Session.Basic

/-! # Lines: the tokens and the brackets of lines put together

The bracket count of two texts with a line end between them goes on in the second text from the
brackets that the first leaves open (`scan_join`): where a line stands does not matter for its
brackets (`scan_down`), and neither do brackets that stay open below it (`scan_outer`). The tokens
of some lines are followed by those of the lines below (`EndsWith.lines`). -/

namespace CommandShell

/-! ### Lines as text -/

namespace Text

/-- How many line feeds a text holds. -/
def lineFeeds (s : String) : Nat := s.toList.count '\n'

theorem toList_unlines (ls : List String) :
    (unlines ls).toList = ['\n'].intercalate (ls.map String.toList) := String.toList_ofList

theorem unlines_singleton (l : String) : unlines [l] = l := by
  rw [← String.toList_inj, toList_unlines]
  exact List.intercalate_singleton

theorem toList_unlines_append : ∀ {ls ms : List String}, ls ≠ [] → ms ≠ [] →
    (unlines (ls ++ ms)).toList = (unlines ls).toList ++ '\n' :: (unlines ms).toList
  | [l], m :: ms, _, _ => by
    rw [unlines_singleton, toList_unlines, toList_unlines]
    simp [List.intercalate_cons_cons]
  | l :: l' :: ls, ms, _, hms => by
    have ih := toList_unlines_append (List.cons_ne_nil l' ls) hms
    have hcons : ∀ ks : List String, (unlines (l :: l' :: ks)).toList =
        l.toList ++ '\n' :: (unlines (l' :: ks)).toList := fun ks => by
      simp [toList_unlines, List.intercalate_cons_cons]
    rw [hcons, List.append_assoc, List.cons_append]
    exact (hcons (ls ++ ms)).trans (congrArg (fun cs => l.toList ++ '\n' :: cs) ih)

theorem prefix_unlines {ls : List String} (hls : ls ≠ []) (ms : List String) :
    (unlines ls).toList <+: (unlines (ls ++ ms)).toList := by
  by_cases hms : ms = []
  · simp only [hms, List.append_nil, List.prefix_rfl]
  · rw [toList_unlines_append hls hms]
    exact List.prefix_append _ _

end Text

theorem dropInvisible_dropInvisible (line : String) :
    dropInvisible (dropInvisible line) = dropInvisible line := by
  simp only [dropInvisible, String.toList_ofList, List.filter_filter, Bool.and_self]

/-! ### Brackets of more tokens -/

/-- The verdict on tokens some lines further down. -/
def Verdict.down (k : Int) : Verdict → Verdict
  | .malformed t => .malformed (t.down k)
  | v => v

namespace Brackets

variable {b : Brackets}

/-- Tokens that count alike count alike after other tokens. -/
theorem scan_append_congr {vs ws : List Token} (h : ∀ b : Brackets, b.scan vs = b.scan ws) :
    ∀ (us : List Token) (b : Brackets), b.scan (us ++ vs) = b.scan (us ++ ws)
  | [], b => h b
  | t :: us, b => by
    simp only [List.cons_append, scan, scan_append_congr h us]

/-- The end token does not count. -/
theorem scan_concat_eof {t : Token} (ht : t.kind = .eof) (us : List Token) (b : Brackets) :
    b.scan (us ++ [t]) = b.scan us := by
  rw [scan_append_congr (scan_eof ht), List.append_nil]

theorem scan_append : ∀ {us : List Token} {b b' : Brackets} {v : Verdict}, b.scan us = (v, b') →
    (∀ t, v ≠ .malformed t) → ∀ vs, b.scan (us ++ vs) = b'.scan vs
  | [], _, _, _, h, _, _ => by cases h; rfl
  | t :: us, b, b', v, h, hv, vs => by
    rw [List.cons_append, scan]
    rw [scan] at h
    split at h
    · exact scan_append h hv vs
    · split_ifs at h ⊢
      · rcases hb : b.awaited with _ | ⟨closer, outer⟩ <;> rw [hb] at h
        · cases h; exact absurd rfl (hv t)
        · simp only at h ⊢
          split_ifs at h ⊢
          · exact scan_append h hv vs
          · cases h; exact absurd rfl (hv t)
      · exact scan_append h hv vs

/-- Unless a closer fits no bracket, the text is balanced exactly if no bracket is left open. -/
theorem verdict_scan : ∀ (us : List Token) {b b' : Brackets} {v : Verdict}, b.scan us = (v, b') →
    (∃ t, v = .malformed t) ∨ v = if b'.awaited.isEmpty then .balanced else .needsMore
  | [], _, _, _, h => by cases h; exact Or.inr rfl
  | t :: us, b, b', v, h => by
    rw [scan] at h
    split at h
    · exact verdict_scan us h
    · split_ifs at h
      · rcases hb : b.awaited with _ | ⟨closer, outer⟩ <;> rw [hb] at h
        · cases h; exact Or.inl ⟨t, rfl⟩
        · simp only at h
          split_ifs at h
          · exact verdict_scan us h
          · cases h; exact Or.inl ⟨t, rfl⟩
      · exact verdict_scan us h

/-- Brackets that were open before do not matter to tokens that close none of them. -/
theorem scan_outer (outer : List Kind) : ∀ {us : List Token} {a b : Brackets} {v : Verdict},
    a.scan us = (v, b) → (∀ t, v ≠ .malformed t) →
      ∃ v', scan ⟨a.awaited ++ outer⟩ us = (v', ⟨b.awaited ++ outer⟩) ∧ ∀ t, v' ≠ .malformed t
  | [], a, b, v, h, _ => by
    cases h
    rw [scan]
    refine ⟨_, rfl, fun t => ?_⟩
    split <;> rintro ⟨⟩
  | t :: us, a, b, v, h, hv => by
    rw [scan] at h ⊢
    split at h
    · exact scan_outer outer h hv
    · split_ifs at h ⊢
      · rcases ha : a.awaited with _ | ⟨closer, rest⟩ <;> rw [ha] at h
        · cases h; exact absurd rfl (hv t)
        · simp only [List.cons_append] at h ⊢
          split_ifs at h ⊢
          · exact scan_outer outer h hv
          · cases h; exact absurd rfl (hv t)
      · exact scan_outer outer h hv

theorem scan_down (k : Int) : ∀ (us : List Token) (b : Brackets),
    b.scan (us.map (.down k)) = ((b.scan us).1.down k, (b.scan us).2)
  | [], b => by
    rw [List.map_nil, scan]
    split <;> rfl
  | t :: us, b => by
    rw [List.map_cons, scan, scan, show (t.down k).kind = t.kind from rfl]
    split
    · exact scan_down k us _
    · split_ifs
      · rcases b.awaited with _ | ⟨closer, outer⟩
        · rfl
        · simp only
          split_ifs
          · exact scan_down k us _
          · rfl
      · exact scan_down k us _

end Brackets

/-! ### The tokens of a text with one more line -/

theorem kind_eof_of_ending {cs : List Char} {t : Token} (h : (Tokens.ofChars cs).ending = .ok t) :
    t.kind = .eof := (Tokens.lexed_ofChars cs).ending_eof t h

theorem tokenize_ok_iff {s : String} {us : List Token} :
    tokenize s = .ok us ↔ ∃ last, (Tokens.ofChars s.toList).ending = .ok last ∧
      us = (Tokens.ofChars s.toList).items.toList ++ [last] := by
  rw [tokenize_eq]
  rcases (Tokens.ofChars s.toList).ending with e | t
  · exact ⟨fun h => (by cases h), fun ⟨_, h, _⟩ => (by cases h)⟩
  · refine ⟨fun h => ⟨t, rfl, ?_⟩, fun ⟨_, h, hus⟩ => ?_⟩
    · cases h; rfl
    · cases h; rw [hus]; rfl

/-- **The bracket count of two texts with a line end between them** goes on in the second text from
the brackets that the first leaves open. -/
theorem scan_join {s t st : String} {us vs : List Token}
    (hst : st.toList = s.toList ++ '\n' :: t.toList) (hu : tokenize s = .ok us)
    (hv : tokenize t = .ok vs) {b b' : Brackets} {v : Verdict} (hscan : b.scan us = (v, b'))
    (hfit : ∀ t, v ≠ .malformed t) : ∃ ws, tokenize st = .ok ws ∧
      b.scan ws = ((b'.scan vs).1.down (Text.lineFeeds s + 1), (b'.scan vs).2) := by
  obtain ⟨last, hlast, rfl⟩ := tokenize_ok_iff.mp hu
  obtain ⟨last', hlast', rfl⟩ := tokenize_ok_iff.mp hv
  have hjoin : Tokens.ofChars st.toList = _ := hst ▸ Tokens.ofChars_join s.toList t.toList
  rw [Tokens.join, hlast] at hjoin
  refine ⟨_, tokenize_ok_iff.mpr ⟨last'.down (Text.lineFeeds s + 1), ?_, rfl⟩, ?_⟩
  · rw [hjoin]; simp only [hlast']; rfl
  · rw [Brackets.scan_concat_eof (kind_eof_of_ending hlast)] at hscan
    rw [← Brackets.scan_down, hjoin, Array.toList_append, Array.toList_map, List.append_assoc,
      ← Brackets.scan_append hscan hfit, List.map_append]
    rfl

/-! ### The tokens at the end of a text -/

/-- From the place `d` on, `us` has the tokens `ts`, `k` lines further down, and no others. If the
end of `ts` is reached, that of `us` is. -/
structure Tokens.EndsWith (us ts : Tokens) (d : Nat) (k : Int) : Prop where
  size_eq : us.items.size = d + ts.items.size
  at_down {i : Nat} {t : Token} : ts.At i t → t.kind ≠ .eof → us.At (d + i) (t.down k)
  ending (last : Token) : ts.ending = .ok last → us.Has us.items.size .eof

namespace Tokens

variable {us ts : Tokens} {d i : Nat} {k m : Int}

theorem at_size {last : Token} (h : ts.ending = .ok last) : ts.At ts.items.size last := by
  rw [At, get, dif_neg (Nat.lt_irrefl _), h]

/-- A text has its own tokens. -/
theorem Lexed.endsWith_self (h : ts.Lexed) : ts.EndsWith ts 0 0 where
  size_eq := (Nat.zero_add _).symm
  at_down {i t} ht _ := by
    rw [Nat.zero_add, show t.down 0 = t by simp [Token.down]]
    exact ht
  ending last hlast := ⟨last, at_size hlast, h.ending_eof last hlast⟩

section
variable {ts₁ ts₂ : Tokens} {last : Token} (hlast : ts₁.ending = .ok last)
include hlast

theorem at_join_left (h₁ : ts₁.Lexed) {t : Token} (ht : ts₁.At i t) (hk : t.kind ≠ .eof) :
    (ts₁.join m ts₂).At i t := by
  have hi := h₁.lt_size ht hk
  rw [at_of_lt hi] at ht
  rw [join, hlast, at_of_lt (by simp only [Array.size_append]; omega)]
  simp only [Array.getElem_append_left hi]
  exact ht

theorem at_join_right (h₂ : ts₂.Lexed) {t : Token} (ht : ts₂.At i t) (hk : t.kind ≠ .eof) :
    (ts₁.join m ts₂).At (ts₁.items.size + i) (t.down m) := by
  have hi := h₂.lt_size ht hk
  rw [at_of_lt hi] at ht
  rw [join, hlast, at_of_lt (by simp only [Array.size_append, Array.size_map]; omega)]
  simp [ht]

/-- **Behind the tokens of the first of two texts are those of the second.** -/
theorem EndsWith.right (h₂ : ts₂.Lexed) (h : us.EndsWith (ts₁.join m ts₂) d k) :
    us.EndsWith ts₂ (d + ts₁.items.size) (k + m) where
  size_eq := by
    have hsize := h.size_eq
    rw [join, hlast] at hsize
    simp only [Array.size_append, Array.size_map] at hsize
    omega
  at_down {i t} ht hk := by
    have hat := h.at_down (at_join_right hlast h₂ ht hk) hk
    rw [show (t.down m).down k = t.down (k + m) by simp [Token.down]; omega] at hat
    rwa [Nat.add_assoc]
  ending last' hlast' := by
    refine h.ending (last'.down m) ?_
    rw [join, hlast]
    simp only [hlast']
    rfl

end

/-- The tokens of lines put together. -/
def ofLines (ls : List String) : Tokens := ofChars (Text.unlines ls).toList

theorem lexed_ofLines (ls : List String) : (ofLines ls).Lexed := lexed_ofChars _

variable {ls ms : List String}

theorem ofLines_append (hls : ls ≠ []) (hms : ms ≠ []) :
    ofLines (ls ++ ms) = (ofLines ls).join (Text.lineFeeds (Text.unlines ls) + 1) (ofLines ms) := by
  rw [ofLines, Text.toList_unlines_append hls hms]
  exact ofChars_join _ _

/-- **The tokens of some lines and of those below them** are tokens of what ends with both. -/
theorem EndsWith.lines (hls : ls ≠ []) {last : Token} (hlast : (ofLines ls).ending = .ok last)
    (h : us.EndsWith (ofLines (ls ++ ms)) d k) :
    (∀ i t, (ofLines ls).At i t → t.kind ≠ .eof → us.At (d + i) (t.down k)) ∧
      us.EndsWith (ofLines ms) (d + (ofLines ls).items.size)
        (k + (Text.lineFeeds (Text.unlines ls) + 1)) := by
  by_cases hms : ms = []
  · rw [hms, List.append_nil] at h
    refine ⟨fun i t => h.at_down, ?_⟩
    -- Without lines below there is no line end either, so that nothing is joined.
    have hempty : (ofLines ms).items.size = 0 := by rw [hms]; rfl
    refine ⟨by rw [hempty]; exact h.size_eq, fun ht hk => ?_, fun _ _ => h.ending last hlast⟩
    have hlt := (lexed_ofLines ms).lt_size ht hk
    omega
  · rw [ofLines_append hls hms] at h
    refine ⟨fun i t ht hk => ?_, h.right hlast (lexed_ofLines ms)⟩
    exact h.at_down (at_join_left hlast (lexed_ofLines ls) ht hk) hk

end Tokens

/-! ### Lines of spaces -/

theorem gap_spaces : ∀ {cs : List Char}, (∀ c ∈ cs, Lexer.isSpace c = true) →
    Lexer.gap false cs = (cs, [])
  | [], _ => rfl
  | c :: cs, h => by
    have ih := gap_spaces fun c hc => h c (List.mem_cons_of_mem _ hc)
    simp [Lexer.gap, h c List.mem_cons_self, ih]

/-- A text of spaces has no tokens. -/
theorem ofChars_spaces {cs : List Char} (h : ∀ c ∈ cs, Lexer.isSpace c = true) :
    (Tokens.ofChars cs).items.size = 0 ∧ ∃ last, (Tokens.ofChars cs).ending = .ok last := by
  obtain ⟨hitems, hending⟩ := Tokens.readAll_eq cs
  have hrest : (Lexer.ofChars cs).skipGap.rest = [] := congrArg Prod.snd (gap_spaces h)
  obtain ⟨t, l, hnext, ht⟩ : ∃ t l, (Lexer.ofChars cs).next = (.ok t, l) ∧ t.isEof = true :=
    ⟨_, _, Lexer.next_of_gap hrest, rfl⟩
  have hread : (Lexer.ofChars cs).readAll = ⟨[], some (.ok t), l⟩ := by
    unfold Lexer.readAll
    rw [Lexer.read, hnext]
    simp [ht]
  rw [hread] at hitems hending
  refine ⟨?_, t, (Option.some_inj.mp hending).symm⟩
  rw [← Array.length_toList, ← hitems]
  rfl

end CommandShell
