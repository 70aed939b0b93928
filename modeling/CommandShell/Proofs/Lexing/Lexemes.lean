import CommandShell.Proofs.Lexing.Reading
import Mathlib.Data.List.TakeWhile

/-! # Lexemes: the longest one is taken

A lexeme has one of four forms: a string with its quotes, a number with a fraction and an exponent
that it may have, a word, or a sign of the table. What a lexer takes where it stands is the longest
beginning of the text that has the form its first character asks for; of a string it is the
shortest, since a string ends with its first quote. A fault is found exactly where there is no such
beginning, or where a word follows a number directly (`next_longest`). -/

namespace CommandShell.Lexer

/-! ### Forms of lexemes -/

/-- Does a string begin with the character? -/
def IsQuote (c : Char) : Prop := c = '"' ∨ c = '\''

/-- What may stand between the quotes of a string: a backslash with any character behind it that is
no line end, and any character but a backslash, a line end or the quote. -/
inductive Quoted (quote : Char) : List Char → Prop
  | nil : Quoted quote []
  | plain {c cs} : c ≠ quote → c ≠ '\\' → c ≠ '\n' → Quoted quote cs → Quoted quote (c :: cs)
  | escape {c cs} : c ≠ '\n' → Quoted quote cs → Quoted quote ('\\' :: c :: cs)

/-- A string with its quotes. -/
def IsString (quote : Char) (w : List Char) : Prop :=
  ∃ body, Quoted quote body ∧ w = quote :: (body ++ [quote])

/-- One or more digits. -/
def IsDigits (w : List Char) : Prop := w ≠ [] ∧ ∀ c ∈ w, Text.isDigit c = true

/-- A point and digits, or nothing. -/
inductive IsFraction : List Char → Prop
  | none : IsFraction []
  | some {ds} : IsDigits ds → IsFraction ('.' :: ds)

/-- An `e`, a sign if there is one, and digits, or nothing. -/
inductive IsExponent : List Char → Prop
  | none : IsExponent []
  | plain {e ds} : e = 'e' ∨ e = 'E' → IsDigits ds → IsExponent (e :: ds)
  | signed {e s ds} : e = 'e' ∨ e = 'E' → s = '+' ∨ s = '-' → IsDigits ds →
      IsExponent (e :: s :: ds)

/-- Digits with a fraction and an exponent. -/
def IsNumber (w : List Char) : Prop :=
  ∃ ds f x, IsDigits ds ∧ IsFraction f ∧ IsExponent x ∧ w = ds ++ (f ++ x)

/-- One or more characters of words. -/
def IsWord (w : List Char) : Prop := w ≠ [] ∧ ∀ c ∈ w, continuesWord c = true

/-- A sign of the table. -/
def IsSign (w : List Char) : Prop := ∃ k ∈ Kind.operators, w = k.spelling.toList

/-- The longest beginning of a text that has the form. -/
structure IsLongest (form : List Char → Prop) (text w : List Char) : Prop where
  fits : form w
  begins : w <+: text
  longest : ∀ v, form v → v <+: text → v.length ≤ w.length

/-- The shortest beginning of a text that has the form. -/
structure IsShortest (form : List Char → Prop) (text w : List Char) : Prop where
  fits : form w
  begins : w <+: text
  shortest : ∀ v, form v → v <+: text → w.length ≤ v.length

/-! ### Strings -/

section
variable {quote : Char}

theorem IsQuote.ne (h : IsQuote quote) : quote ≠ '\\' ∧ quote ≠ '\n' := by
  rcases h with rfl | rfl <;> decide

theorem stringBody_of_quoted (hq : IsQuote quote) {body : List Char} (h : Quoted quote body)
    (rest : List Char) : stringBody quote (body ++ quote :: rest) = (body, quote :: rest) := by
  induction h with
  | nil => simp [stringBody, hq.ne.1]
  | plain hquote hslash hline _ ih => simp [stringBody, hquote, hslash, hline, ih]
  | escape hline _ ih => simp [stringBody, hline, ih]

theorem quoted_of_stringBody (hq : IsQuote quote) (cs : List Char) {rest : List Char}
    (h : (stringBody quote cs).2 = quote :: rest) : Quoted quote (stringBody quote cs).1 := by
  fun_induction stringBody quote cs with
  | case1 => cases h
  | case2 cs =>
    cases h
    exact absurd rfl hq.ne.2
  | case3 c cs hc r ih => exact .escape hc (ih h)
  | case4 c cs hesc hc => exact .nil
  | case5 c cs hesc hc r ih =>
    push Not at hc
    by_cases hslash : c = '\\'
    · -- A backslash here is the last character, and no quote follows it.
      subst hslash
      cases cs with
      | nil => cases h
      | cons d ds => exact absurd rfl (hesc d ds rfl)
    · exact .plain hc.1 hslash hc.2 (ih h)

/-- A string at the head of a text is what a scan takes. -/
theorem scanString_of_isString (hq : IsQuote quote) {w cs rest : List Char} (h : IsString quote w)
    (hw : w ++ rest = quote :: cs) : scanString quote cs = ⟨.ok .string, w, rest⟩ := by
  obtain ⟨body, hbody, rfl⟩ := h
  obtain rfl : body ++ quote :: rest = cs := by simpa using hw
  simp [scanString, stringBody_of_quoted hq hbody]

/-- A scan takes a string, or none is there. -/
theorem scanString_cases (hq : IsQuote quote) (cs : List Char) :
    (scanString quote cs).outcome = .ok .string ∧ IsString quote (scanString quote cs).passed ∨
      (scanString quote cs).outcome = .error .unterminatedString := by
  rcases hbody : stringBody quote cs with ⟨body, _ | ⟨c, rest⟩⟩
  · exact .inr (by simp [scanString, hbody])
  · by_cases hc : c = quote
    · subst hc
      have hquoted := quoted_of_stringBody hq cs (congrArg Prod.snd hbody)
      rw [hbody] at hquoted
      exact .inl (by simpa [scanString, hbody] using ⟨body, hquoted, by simp⟩)
    · exact .inr (by simp [scanString, hbody, hc])

end

/-! ### Beginnings of a text -/

/-- The character behind a beginning of a text is the first of what is left. -/
theorem begins_with_next {w rest text : List Char} (h : w ++ rest = text) (d : Char) :
    w ++ [d] <+: text ↔ rest.head? = some d := by
  subst h
  rw [List.prefix_append_right_inj]
  cases rest <;> simp [eq_comm]

section
variable {p : Char → Bool} {v u cs : List Char}

/-- The longest run of characters ends a shorter one only at a character that could go on. -/
theorem takeWhile_longest (hv : ∀ c ∈ v, p c = true) (h : v ++ u = cs) :
    v = cs.takeWhile p ∧ u = cs.dropWhile p ∨
      v.length < (cs.takeWhile p).length ∧ ∃ d us, u = d :: us ∧ p d = true := by
  subst h
  rw [List.takeWhile_append_of_pos hv, List.dropWhile_append_of_pos hv]
  cases u with
  | nil => simp
  | cons d us => cases hd : p d <;> simp [hd]

theorem length_le_takeWhile (hv : ∀ c ∈ v, p c = true) (h : v ++ u = cs) :
    v.length ≤ (cs.takeWhile p).length := by
  rcases takeWhile_longest hv h with ⟨heq, -⟩ | ⟨hlt, -⟩
  · exact Nat.le_of_eq (congrArg _ heq)
  · exact Nat.le_of_lt hlt

end

/-! ### Numbers -/

theorem isDigits_takeWhile {c : Char} (h : Text.isDigit c = true) (cs : List Char) :
    IsDigits ((c :: cs).takeWhile Text.isDigit) :=
  ⟨by simp [h], fun _ hd => List.mem_takeWhile_imp hd⟩

theorem fraction_of_digit {d : Char} (h : Text.isDigit d = true) (cs : List Char) :
    fraction ('.' :: d :: cs) =
      ('.' :: (d :: cs).takeWhile Text.isDigit, (d :: cs).dropWhile Text.isDigit) := by
  simp [fraction, h]

theorem isFraction_fraction (cs : List Char) : IsFraction (fraction cs).1 := by
  fun_cases fraction cs with
  | case1 d cs hd => simpa [hd] using IsFraction.some (isDigits_takeWhile hd cs)
  | case2 | case3 => exact .none

theorem isExponent_exponent (cs : List Char) : IsExponent (exponent cs).1 := by
  fun_cases exponent cs with
  | case1 e s cs he hs => simpa [hs] using IsExponent.plain he (isDigits_takeWhile hs cs)
  | case2 e s cs he hs hsign =>
    obtain ⟨hsign, hd⟩ := hsign
    cases cs with
    | nil => simp at hd
    | cons d cs => exact .signed he hsign (isDigits_takeWhile (by simpa using hd) cs)
  | case3 | case4 | case5 => exact .none

/-- What follows a shorter fraction is a point or a digit. -/
theorem fraction_longest {f u cs : List Char} (hf : IsFraction f) (h : f ++ u = cs) :
    f = (fraction cs).1 ∧ u = (fraction cs).2 ∨ f.length < (fraction cs).1.length ∧
      ∃ d us, u = d :: us ∧ (d = '.' ∨ Text.isDigit d = true) := by
  cases hf with
  | none =>
    obtain rfl : u = cs := h
    fun_cases fraction u with
    | case1 d cs hd => exact .inr ⟨by simp, '.', d :: cs, rfl, .inl rfl⟩
    | case2 | case3 => exact .inl ⟨rfl, rfl⟩
  | @some ds hds =>
    obtain ⟨hne, hdigits⟩ := hds
    obtain ⟨d, ds, rfl⟩ := List.exists_cons_of_ne_nil hne
    obtain rfl : '.' :: d :: (ds ++ u) = cs := h
    rw [fraction_of_digit (hdigits d (.head _))]
    rcases takeWhile_longest hdigits (u := u) rfl with ⟨heq, hrest⟩ | ⟨hlt, e, us, hu, he⟩
    · exact .inl ⟨congrArg _ heq, hrest⟩
    · exact .inr ⟨Nat.succ_lt_succ hlt, e, us, hu, .inr he⟩

theorem exponent_longest {x u cs : List Char} (hx : IsExponent x) (h : x ++ u = cs) :
    x.length ≤ (exponent cs).1.length := by
  cases hx with
  | none => exact Nat.zero_le _
  | @plain e ds he hds =>
    obtain ⟨hne, hdigits⟩ := hds
    obtain ⟨d, ds, rfl⟩ := List.exists_cons_of_ne_nil hne
    obtain rfl : e :: d :: (ds ++ u) = cs := h
    have hd := hdigits d (.head _)
    have hle := length_le_takeWhile (fun c hc => hdigits c (.tail _ hc)) (u := u) rfl
    simpa [exponent, he, hd] using hle
  | @signed e s ds he hs hds =>
    obtain ⟨hne, hdigits⟩ := hds
    obtain ⟨d, ds, rfl⟩ := List.exists_cons_of_ne_nil hne
    obtain rfl : e :: s :: d :: (ds ++ u) = cs := h
    have hd := hdigits d (.head _)
    have hsign : Text.isDigit s = false := by rcases hs with rfl | rfl <;> decide
    have hle := length_le_takeWhile hdigits (u := u) rfl
    simpa [exponent, he, hs, hsign, hd] using hle

theorem IsFraction.eq_nil {f u us : List Char} {d : Char} (hf : IsFraction f)
    (h : f ++ u = d :: us) (hd : Text.isDigit d = true) : f = [] := by
  cases hf with
  | none => rfl
  | some =>
    cases h
    cases hd.symm.trans (by decide : Text.isDigit '.' = false)

theorem IsExponent.eq_nil {x u us : List Char} {d : Char} (hx : IsExponent x)
    (h : x ++ u = d :: us) (hd : d = '.' ∨ Text.isDigit d = true) : x = [] := by
  have hletter : ∀ {e : Char}, e = 'e' ∨ e = 'E' → ¬ (e = '.' ∨ Text.isDigit e = true) := by
    rintro e (rfl | rfl) <;> decide
  cases hx with
  | none => rfl
  | plain he => cases h; exact absurd hd (hletter he)
  | signed he => cases h; exact absurd hd (hletter he)

theorem isNumber_scanNumber {c : Char} (hc : Text.isDigit c = true) (cs : List Char) :
    IsNumber (scanNumber (c :: cs)).passed :=
  ⟨_, _, _, isDigits_takeWhile hc cs, isFraction_fraction _, isExponent_exponent _,
    List.append_assoc _ _ _⟩

theorem scanNumber_longest {v cs : List Char} (hv : IsNumber v) (h : v <+: cs) :
    v.length ≤ (scanNumber cs).passed.length := by
  obtain ⟨ds, f, x, ⟨-, hds⟩, hf, hx, rfl⟩ := hv
  obtain ⟨u, rfl⟩ := h
  have hsplit : ds ++ (f ++ (x ++ u)) = ds ++ (f ++ x) ++ u := by simp
  rw [← hsplit]
  simp only [scanNumber, List.length_append]
  rcases takeWhile_longest hds (u := f ++ (x ++ u)) rfl with ⟨heq, hrest⟩ | ⟨hlt, d, us, hu, hd⟩
  · rw [← heq, ← hrest]
    rcases fraction_longest hf (u := x ++ u) rfl with ⟨hf', hrest⟩ | ⟨hlt, d, us, hu, hd⟩
    · have hle := exponent_longest hx (u := u) rfl
      rw [← hf', ← hrest]
      omega
    · obtain rfl : x = [] := hx.eq_nil hu hd
      simp only [List.nil_append, List.length_nil] at hlt ⊢
      omega
  · have hf' := hf.eq_nil hu hd
    rw [hf', List.nil_append] at hu
    have hx' := hx.eq_nil hu (.inr hd)
    simp only [hf', hx', List.nil_append, List.length_nil] at hlt ⊢
    omega

theorem isLongest_scanNumber {c : Char} (hc : Text.isDigit c = true) (cs : List Char) :
    IsLongest IsNumber (c :: cs) (scanNumber (c :: cs)).passed where
  fits := isNumber_scanNumber hc cs
  begins := ⟨_, scanNumber_append (c :: cs)⟩
  longest _ hv hbegins := scanNumber_longest hv hbegins

theorem scanNumber_outcome (cs : List Char) :
    (scanNumber cs).outcome = if (scanNumber cs).rest.head?.any beginsWord then
      .error .invalidNumberSuffix else .ok .number := rfl

/-! ### Words -/

theorem continuesWord_of_beginsWord {c : Char} (h : beginsWord c = true) :
    continuesWord c = true := by
  unfold beginsWord at h
  unfold continuesWord Text.isAlphanumeric
  simp only [Bool.or_eq_true] at h ⊢
  tauto

theorem isLongest_scanWord {c : Char} (hc : beginsWord c = true) (cs : List Char) :
    IsLongest IsWord (c :: cs) (scanWord (c :: cs)).passed where
  fits := ⟨by simp [scanWord, continuesWord_of_beginsWord hc],
    fun _ hd => List.mem_takeWhile_imp hd⟩
  begins := List.takeWhile_prefix _
  longest v hv hbegins := by
    obtain ⟨u, hu⟩ := hbegins
    exact length_le_takeWhile hv.2 hu

/-- A keyword is found under its spelling. -/
theorem wordKind_spelling : ∀ k ∈ Kind.keywords, wordKind k.spelling.toList = k := by decide

theorem wordKind_of_ne {w : List Char} (h : ∀ k ∈ Kind.keywords, k.spelling.toList ≠ w) :
    wordKind w = .ident := by
  have hlookup : keywordTable.lookup w = none := by
    refine List.lookup_eq_none_iff.mpr fun e he => ?_
    obtain ⟨k, hk, rfl⟩ := List.mem_map.mp he
    simpa using (h k hk).symm
  rw [wordKind, hlookup]
  rfl

/-! ### Signs -/

theorem mem_signTable {e : List Char × Kind} :
    e ∈ signTable ↔ ∃ k ∈ Kind.operators, e = (k.spelling.toList, k) := by
  simp only [signTable, List.mem_map, eq_comm]

theorem signTable_sorted : signTable.Pairwise fun a b => b.1.length ≤ a.1.length := by decide

/-- The table goes from long to short, so that the first sign at the head of a text is the
longest. -/
theorem isLongest_of_find {text : List Char} {e : List Char × Kind}
    (h : signTable.find? (fun e => e.1.isPrefixOf text) = some e) :
    ∃ k ∈ Kind.operators, e = (k.spelling.toList, k) ∧
      IsLongest IsSign text k.spelling.toList := by
  have hfound := List.find?_some h
  obtain ⟨k, hk, rfl⟩ := mem_signTable.mp (List.mem_of_find?_eq_some h)
  refine ⟨k, hk, rfl, ⟨k, hk, rfl⟩, List.isPrefixOf_iff_prefix.mp hfound, ?_⟩
  rintro v ⟨k', hk', rfl⟩ hbegins
  have hmem : (k'.spelling.toList, k') ∈ signTable := mem_signTable.mpr ⟨k', hk', rfl⟩
  obtain ⟨-, earlier, later, htable, hearlier⟩ := List.find?_eq_some_iff_append.mp h
  have hsorted := signTable_sorted
  rw [htable] at hmem hsorted
  rcases List.mem_append.mp hmem with hmem | hmem
  · have hnot := hearlier _ hmem
    rw [List.isPrefixOf_iff_prefix.mpr hbegins] at hnot
    cases hnot
  · rcases List.mem_cons.mp hmem with heq | hmem
    · exact Nat.le_of_eq (congrArg (fun e => e.1.length) heq)
    · exact (List.pairwise_cons.mp (List.pairwise_append.mp hsorted).2.1).1 _ hmem

/-- A sign of the table at the head of a text is found, or a longer one. -/
theorem exists_find_of_begins {k : Kind} (hk : k ∈ Kind.operators) {text : List Char}
    (hbegins : k.spelling.toList <+: text) :
    ∃ e, signTable.find? (fun e => e.1.isPrefixOf text) = some e := by
  refine Option.isSome_iff_exists.mp (List.find?_isSome.mpr ⟨_, mem_signTable.mpr ⟨k, hk, rfl⟩, ?_⟩)
  exact List.isPrefixOf_iff_prefix.mpr hbegins

/-- Where no safe form is at the head of a text that touches an operand, only the signs of the table
count. -/
theorem find_signs {glued : Bool} {text : List Char}
    (h : ¬ (glued = true ∧ ∃ k ∈ Kind.safeForms, k.spelling.toList <+: text)) :
    (signs glued).find? (fun e => e.1.isPrefixOf text) =
      signTable.find? fun e => e.1.isPrefixOf text := by
  cases glued with
  | false => rfl
  | true =>
    have hnone : (Kind.safeForms.map fun k => (k.spelling.toList, k)).find?
        (fun e => e.1.isPrefixOf text) = none := by
      refine List.find?_eq_none.mpr fun e he hbegins => h ⟨rfl, ?_⟩
      obtain ⟨k, hk, rfl⟩ := List.mem_map.mp he
      exact ⟨k, hk, List.isPrefixOf_iff_prefix.mp hbegins⟩
    show gluedSignTable.find? _ = _
    rw [gluedSignTable, List.map_append, List.find?_append, hnone]
    rfl

/-- A safe form at the head of a text that touches an operand is found. -/
theorem find_safeForm {k : Kind} (hk : k ∈ Kind.safeForms) {text : List Char}
    (h : k.spelling.toList <+: text) :
    (signs true).find? (fun e => e.1.isPrefixOf text) = some (k.spelling.toList, k) := by
  obtain ⟨u, rfl⟩ := h
  simp only [Kind.safeForms, List.mem_cons, List.not_mem_nil, or_false] at hk
  rcases hk with rfl | rfl | rfl <;> rfl

/-! ### What a lexer takes -/

/-- The lexer takes the characters where it stands, behind a gap, as a token of the kind, and stands
behind them. -/
def Takes (l : Lexer) (k : Kind) (w : List Char) : Prop :=
  let t : Token := ⟨k, String.ofList w, l.skipGap.place.line, l.skipGap.place.column⟩
  ∃ rest, l.skipGap.rest = w ++ rest ∧ l.next = (.ok t, ⟨rest, l.skipGap.place.after w, some t⟩)

/-- The lexer finds the fault where it stands, behind a gap. -/
def Refuses (l : Lexer) (fault : LexFault) : Prop :=
  l.next.1 = .error ⟨fault, l.skipGap.place.line, l.skipGap.place.column⟩

section
variable {l : Lexer} {c : Char} {cs : List Char} (h : l.skipGap.rest = c :: cs)
include h

theorem takes_of_scan {k : Kind} (hk : (scan l.skipGap.touchesOperand c cs).outcome = .ok k) :
    l.Takes k (scan l.skipGap.touchesOperand c cs).passed := by
  refine ⟨_, h.trans (scan_append _ c cs).symm, next_of_scan_ok h ?_⟩
  rw [← hk]

theorem refuses_iff {fault : LexFault} :
    l.Refuses fault ↔ (scan l.skipGap.touchesOperand c cs).outcome = .error fault := by
  unfold Refuses
  rcases hscan : scan l.skipGap.touchesOperand c cs with ⟨fault' | kind, passed, rest⟩
  · simp [next_of_scan_error h hscan]
  · simp [next_of_scan_ok h hscan]

theorem next_string (hq : IsQuote c) :
    (l.Refuses .unterminatedString ↔ ¬ ∃ w, IsString c w ∧ w <+: c :: cs) ∧
      (¬ l.Refuses .unterminatedString → ∃ w, IsShortest (IsString c) (c :: cs) w ∧
        l.Takes .string w) := by
  have hscan : scan l.skipGap.touchesOperand c cs = scanString c cs := if_pos hq
  have htaken : ∀ {w}, IsString c w → w <+: c :: cs → (scanString c cs).outcome = .ok .string ∧
      (scanString c cs).passed = w := by
    rintro w hw ⟨rest, hrest⟩
    rw [scanString_of_isString hq hw hrest]
    exact ⟨rfl, rfl⟩
  rw [refuses_iff h, hscan]
  rcases scanString_cases hq cs with ⟨hok, hform⟩ | herror
  · have hbegins : (scanString c cs).passed <+: c :: cs := ⟨_, scanString_append c cs⟩
    rw [hok]
    refine ⟨⟨nofun, fun hnone => absurd ⟨_, hform, hbegins⟩ hnone⟩, fun _ => ⟨_, ⟨hform, hbegins,
      fun v hv hv' => ?_⟩, hscan ▸ takes_of_scan h (hscan ▸ hok)⟩⟩
    rw [(htaken hv hv').2]
  · rw [herror]
    refine ⟨⟨fun _ => ?_, fun _ => rfl⟩, fun hnot => absurd rfl hnot⟩
    rintro ⟨w, hw, hbegins⟩
    cases herror.symm.trans (htaken hw hbegins).1

theorem next_number (hq : ¬ IsQuote c) (hd : Text.isDigit c = true) :
    ∃ w, IsLongest IsNumber (c :: cs) w ∧
      (l.Refuses .invalidNumberSuffix ↔ ∃ d, w ++ [d] <+: c :: cs ∧ beginsWord d = true) ∧
      (¬ l.Refuses .invalidNumberSuffix → l.Takes .number w) := by
  have hscan : scan l.skipGap.touchesOperand c cs = scanNumber (c :: cs) := by
    unfold scan
    rw [if_neg (show ¬ (c = '"' ∨ c = '\'') from hq), if_pos hd]
  have hsuffix := begins_with_next (scanNumber_append (c :: cs))
  refine ⟨_, isLongest_scanNumber hd cs, ?_, fun hnot => ?_⟩
  · simp only [refuses_iff h, hscan, scanNumber_outcome, hsuffix]
    cases (scanNumber (c :: cs)).rest.head? <;> simp
  · have hok : (scan l.skipGap.touchesOperand c cs).outcome = .ok .number := by
      rw [refuses_iff h, hscan, scanNumber_outcome] at hnot
      rw [hscan, scanNumber_outcome]
      split_ifs at hnot ⊢ with hword
      · exact absurd rfl hnot
      · rfl
    exact hscan ▸ takes_of_scan h hok

theorem next_word (hq : ¬ IsQuote c) (hd : Text.isDigit c = false) (hw : beginsWord c = true) :
    ∃ w, IsLongest IsWord (c :: cs) w ∧
      (∀ k ∈ Kind.keywords, k.spelling.toList = w → l.Takes k w) ∧
      ((∀ k ∈ Kind.keywords, k.spelling.toList ≠ w) → l.Takes .ident w) := by
  have hscan : scan l.skipGap.touchesOperand c cs = scanWord (c :: cs) := by
    unfold scan
    rw [if_neg (show ¬ (c = '"' ∨ c = '\'') from hq), if_neg (by simp [hd]), if_pos hw]
  have htakes : l.Takes (wordKind (scanWord (c :: cs)).passed)
      (scan l.skipGap.touchesOperand c cs).passed := takes_of_scan h (congrArg Scan.outcome hscan)
  rw [hscan] at htakes
  refine ⟨_, isLongest_scanWord hw cs, fun k hk hspelling => ?_, fun hnone => ?_⟩
  · rw [← hspelling, wordKind_spelling k hk] at htakes
    rwa [← hspelling]
  · rwa [wordKind_of_ne hnone] at htakes

section
variable (hq : ¬ IsQuote c) (hd : Text.isDigit c = false) (hw : beginsWord c = false)
include hq hd hw

omit h in
theorem scan_sign (glued : Bool) : scan glued c cs = scanSign glued c cs := by
  unfold scan
  rw [if_neg (show ¬ (c = '"' ∨ c = '\'') from hq), if_neg (by simp [hd]), if_neg (by simp [hw])]

theorem next_safeForm (hglued : l.skipGap.touchesOperand = true) {k : Kind}
    (hk : k ∈ Kind.safeForms) (hbegins : k.spelling.toList <+: c :: cs) :
    l.Takes k k.spelling.toList := by
  have hscan : scan l.skipGap.touchesOperand c cs =
      ⟨.ok k, k.spelling.toList, (c :: cs).drop k.spelling.toList.length⟩ := by
    rw [scan_sign hq hd hw, hglued, scanSign_eq, find_safeForm hk hbegins]
  have htakes := takes_of_scan h (congrArg Scan.outcome hscan)
  rwa [hscan] at htakes

theorem next_sign (hplain : ¬ (l.skipGap.touchesOperand = true ∧
      ∃ k ∈ Kind.safeForms, k.spelling.toList <+: c :: cs)) :
    (l.Refuses (.unexpectedCharacter c) ↔ ¬ ∃ w, IsSign w ∧ w <+: c :: cs) ∧
      (¬ l.Refuses (.unexpectedCharacter c) → ∃ k ∈ Kind.operators,
        IsLongest IsSign (c :: cs) k.spelling.toList ∧ l.Takes k k.spelling.toList) := by
  have hscan : scan l.skipGap.touchesOperand c cs = scanSign l.skipGap.touchesOperand c cs :=
    scan_sign hq hd hw l.skipGap.touchesOperand
  rw [scanSign_eq, find_signs hplain] at hscan
  rw [refuses_iff h, hscan]
  cases hfind : signTable.find? fun e => e.1.isPrefixOf (c :: cs) with
  | none =>
    refine ⟨⟨fun _ => ?_, fun _ => rfl⟩, fun hnot => absurd rfl hnot⟩
    rintro ⟨w, ⟨k, hk, rfl⟩, hbegins⟩
    obtain ⟨e, he⟩ := exists_find_of_begins hk hbegins
    cases hfind.symm.trans he
  | some e =>
    obtain ⟨k, hk, rfl, hlongest⟩ := isLongest_of_find hfind
    rw [hfind] at hscan
    have htakes := takes_of_scan h (congrArg Scan.outcome hscan)
    rw [hscan] at htakes
    exact ⟨⟨nofun, fun hnone => absurd ⟨_, hlongest.fits, hlongest.begins⟩ hnone⟩,
      fun _ => ⟨k, hk, hlongest, htakes⟩⟩

end

end

/-- **A lexer takes the longest lexeme, and finds a fault exactly where there is none.** Take any
lexer, with more than a gap ahead of it. From a quote on it takes the shortest string, unless there
is none. From a digit on it takes the longest number, unless a word follows that directly. From a
letter or a low line on it takes the longest word, as a keyword if it is one. Else it takes a safe
form if one is there and touches an operand, or the longest sign of the table, unless there is
none. -/
theorem next_longest (l : Lexer) {c : Char} {cs : List Char} (h : l.skipGap.rest = c :: cs) :
    (IsQuote c →
      (l.Refuses .unterminatedString ↔ ¬ ∃ w, IsString c w ∧ w <+: c :: cs) ∧
      (¬ l.Refuses .unterminatedString → ∃ w, IsShortest (IsString c) (c :: cs) w ∧
        l.Takes .string w)) ∧
    (¬ IsQuote c → Text.isDigit c = true → ∃ w, IsLongest IsNumber (c :: cs) w ∧
      (l.Refuses .invalidNumberSuffix ↔ ∃ d, w ++ [d] <+: c :: cs ∧ beginsWord d = true) ∧
      (¬ l.Refuses .invalidNumberSuffix → l.Takes .number w)) ∧
    (¬ IsQuote c → Text.isDigit c = false → beginsWord c = true →
      ∃ w, IsLongest IsWord (c :: cs) w ∧
        (∀ k ∈ Kind.keywords, k.spelling.toList = w → l.Takes k w) ∧
        ((∀ k ∈ Kind.keywords, k.spelling.toList ≠ w) → l.Takes .ident w)) ∧
    (¬ IsQuote c → Text.isDigit c = false → beginsWord c = false →
      (l.skipGap.touchesOperand = true → ∀ k ∈ Kind.safeForms, k.spelling.toList <+: c :: cs →
        l.Takes k k.spelling.toList) ∧
      (¬ (l.skipGap.touchesOperand = true ∧
          ∃ k ∈ Kind.safeForms, k.spelling.toList <+: c :: cs) →
        (l.Refuses (.unexpectedCharacter c) ↔ ¬ ∃ w, IsSign w ∧ w <+: c :: cs) ∧
        (¬ l.Refuses (.unexpectedCharacter c) → ∃ k ∈ Kind.operators,
          IsLongest IsSign (c :: cs) k.spelling.toList ∧ l.Takes k k.spelling.toList))) :=
  ⟨next_string h, next_number h, next_word h, fun hq hd hw =>
    ⟨fun hglued _ hk => next_safeForm h hq hd hw hglued hk, next_sign h hq hd hw⟩⟩

/-- The exponent of a number needs a digit; without one a word follows the number. -/
theorem next_longest_exponent :
    (∃ w, IsLongest IsNumber "2.5e+".toList w ∧
      ((ofText "2.5e+").Refuses .invalidNumberSuffix ↔
        ∃ d, w ++ [d] <+: "2.5e+".toList ∧ beginsWord d = true)) ∧
    (ofText "2.5e+").Refuses .invalidNumberSuffix := by
  obtain ⟨w, hw, hrefuses, -⟩ := (next_longest (ofText "2.5e+") (c := '2') rfl).2.1
    (by unfold IsQuote; decide) (by decide)
  exact ⟨⟨w, hw, hrefuses⟩, rfl⟩

end CommandShell.Lexer
