import Nordstjernen.Html.JsonDocument

open Nordstjernen.Glib Nordstjernen.Lib Nordstjernen.Lib.JsonText

namespace Nordstjernen.Html

section Lexemes

variable {s t r : CString} {c : Char}

theorem stringRest_append (h : LooseBody s) (r : CString) : stringRest false (s ++ r) = some (s, r) := by
  induction h
  case close => rfl
  case char c t hq hb _ _ hi =>
    rw [List.cons_append, stringRest, if_neg hq, beq_false_of_ne hb, hi]
    rfl
  case escape he _ hi =>
    obtain ⟨d, rfl⟩ := List.length_eq_one_iff.mp he
    rw [List.cons_append, stringRest, if_neg (by decide), beq_self_eq_true, List.append_assoc,
      List.singleton_append, stringRest, hi]
    rfl

theorem stringRest_sound {escaped : Bool} (h : stringRest escaped t = some (s, r)) :
    t = s ++ r ∧ if escaped then ∃ d s', s = d :: s' ∧ LooseBody s' else LooseBody s := by
  induction t generalizing escaped s
  case nil => cases h
  case cons c cs hi =>
    cases escaped
    case true =>
      obtain ⟨⟨s', r'⟩, hs, he⟩ := Option.map_eq_some_iff.mp h
      cases he
      obtain ⟨hcs, hbody⟩ := hi hs
      exact ⟨congrArg (c :: ·) hcs, c, s', rfl, hbody⟩
    case false =>
      rw [stringRest] at h
      split_ifs at h with hq
      · cases h
        rw [hq]
        exact ⟨rfl, .close⟩
      · obtain ⟨⟨s', r'⟩, hs, he⟩ := Option.map_eq_some_iff.mp h
        cases he
        obtain ⟨hcs, hbody⟩ := hi hs
        refine ⟨congrArg (c :: ·) hcs, ?_⟩
        by_cases hb : c = '\\'
        case pos =>
          rw [hb, beq_self_eq_true] at hbody
          obtain ⟨d, s'', rfl, hbody⟩ := hbody
          rw [hb]
          exact .escape (e := [d]) rfl hbody
        case neg =>
          rw [beq_false_of_ne hb] at hbody
          exact .char hq hb trivial hbody

theorem isNumberChar_plain (h : isNumberChar c) : c ≠ '"' ∧ c ≠ '[' ∧ c ≠ '{' ∧ c ≠ ']' ∧ c ≠ '}' := by
  refine ⟨?_, ?_, ?_, ?_, ?_⟩ <;> (rintro rfl; exact absurd h (by decide))

theorem isNumberChar_not_blank (h : isNumberChar c) : ¬isBlank c := by
  intro hb
  simp only [isBlank, Bool.or_eq_true, beq_iff_eq] at hb
  rcases hb with ((rfl | rfl) | rfl) | rfl <;> exact absurd h (by decide)

theorem isNumberChar_first (h : c = '-' ∨ c.isDigit) : isNumberChar c := by
  rcases h with rfl | h
  · decide
  · simp [isNumberChar, h]

theorem isNumberChar_of_isNumber (h : loose.isNumber s) : ∀ c ∈ s, isNumberChar c := by
  obtain ⟨d, t, rfl, hd, ht⟩ := h
  intro c hc
  rcases List.mem_cons.mp hc with rfl | hc
  · exact isNumberChar_first hd
  · exact ht c hc

theorem loose_atom (h : loose.isString s ∨ loose.isNumber s) : Atom s := by
  rcases h with ⟨t, rfl, ht⟩ | h
  · exact ht.atom
  · exact Plain.atom fun c hc => isNumberChar_plain (isNumberChar_of_isNumber h c hc)

theorem loose_of_isString (h : strict.isString s) : loose.isString s := by
  obtain ⟨t, rfl, ht⟩ := h
  exact ⟨t, rfl, ht.loose⟩

theorem isNumberChar_of_digits (h : Digits s) : ∀ c ∈ s, isNumberChar c := by
  intro c hc
  simp [isNumberChar, h.right c hc]

theorem loose_of_isNumber (h : strict.isNumber s) : loose.isNumber s := by
  obtain ⟨sign, int, frac, exp, rfl, hsign, hint, hfrac, hexp⟩ := h
  have hint' : Digits int := by
    rcases hint with rfl | h
    · exact ⟨List.cons_ne_nil _ _, fun c hc => by rw [List.mem_singleton.mp hc]; rfl⟩
    · exact h.left
  have hfrac' : ∀ c ∈ frac, isNumberChar c := by
    rcases hfrac with rfl | ⟨ds, rfl, hd⟩
    · exact fun c hc => absurd hc List.not_mem_nil
    · intro c hc
      rcases List.mem_cons.mp hc with rfl | hc
      · decide
      · exact isNumberChar_of_digits hd c hc
  have hexp' : ∀ c ∈ exp, isNumberChar c := by
    rcases hexp with rfl | ⟨e, esign, ds, rfl, he, hes, hd⟩
    · exact fun c hc => absurd hc List.not_mem_nil
    · intro c hc
      rcases List.mem_cons.mp hc with rfl | hc
      · rcases he with rfl | rfl <;> decide
      · rcases List.mem_append.mp hc with hc | hc
        · have hall : ∀ es ∈ [[], ['+'], ['-']], ∀ c ∈ es, isNumberChar c := by decide
          exact hall esign hes c hc
        · exact isNumberChar_of_digits hd c hc
  have hrest : ∀ c ∈ int ++ (frac ++ exp), isNumberChar c := by
    intro c hc
    rcases List.mem_append.mp hc with hc | hc
    · exact isNumberChar_of_digits hint' c hc
    · exact (List.mem_append.mp hc).elim (hfrac' c) (hexp' c)
  rcases List.mem_cons.mp hsign with rfl | hsign
  · obtain ⟨d, ds, rfl⟩ := List.exists_cons_of_ne_nil hint'.left
    exact ⟨d, ds ++ (frac ++ exp), rfl, .inr (hint'.right d List.mem_cons_self),
      fun c hc => hrest c (List.mem_cons_of_mem _ hc)⟩
  · obtain rfl := List.mem_singleton.mp hsign
    exact ⟨'-', _, rfl, .inl rfl, hrest⟩

theorem derives_loose {p : Part} {n : Nat} (h : Derives strict p n t) : Derives loose p n t :=
  h.mono loose_of_isString loose_of_isNumber

end Lexemes

section Printing

variable {out out' s t v w x : CString} {c : Char}

-- What is escaped is written with characters that are not NULs.
theorem nul_mem_of_mem_docEscaped (h : '\x00' ∈ docEscaped s) : '\x00' ∈ s := by
  obtain ⟨d, hd, hm⟩ := List.mem_flatMap.mp h
  rw [docEscapeChar] at hm
  split_ifs at hm
  · exact absurd hm (by decide)
  · exact absurd hm (by decide)
  · exact absurd hm (by decide)
  · rwa [List.mem_singleton.mp hm]

theorem docEscapeChar_ne (h : c ∈ docEscaped s) : c ≠ '<' := by
  obtain ⟨d, -, hd⟩ := List.mem_flatMap.mp h
  rw [docEscapeChar] at hd
  rintro rfl
  split_ifs at hd with h₁ h₂ h₃
  · exact absurd hd (by decide)
  · exact absurd hd (by decide)
  · exact absurd hd (by decide)
  · exact h₁ (List.mem_singleton.mp hd).symm

theorem stripTags_append (h : ∀ c ∈ s, c ≠ '<') : stripTags false (s ++ x) = s ++ stripTags false x := by
  induction s
  case nil => rfl
  case cons c s hi =>
    rw [List.cons_append, stripTags, if_neg (h c List.mem_cons_self)]
    exact congrArg (c :: ·) (hi fun c hc => h c (List.mem_cons_of_mem _ hc))

theorem stripTags_tag (h : ∀ c ∈ s, c ≠ '>') : stripTags true (s ++ '>' :: x) = stripTags false x := by
  induction s
  case nil => rfl
  case cons c s hi =>
    have hc : (c != '>') = true := bne_iff_ne.mpr (h c List.mem_cons_self)
    rw [List.cons_append, stripTags, hc]
    exact hi fun c hc => h c (List.mem_cons_of_mem _ hc)

theorem stripTags_span (hc : c ≠ '>') :
    stripTags false (span c (docEscaped s) ++ x) = docEscaped s ++ stripTags false x := by
  have hopen : ∀ d ∈ "span class=".toList ++ [c], d ≠ '>' := by
    intro d hd
    rcases List.mem_append.mp hd with hd | hd
    · have hall : ∀ d ∈ "span class=".toList, d ≠ '>' := by decide
      exact hall d hd
    · rwa [List.mem_singleton.mp hd]
  have hclose : ∀ d ∈ "/span".toList, d ≠ '>' := by decide
  have hspan : span c (docEscaped s) ++ x =
      '<' :: ("span class=".toList ++ [c] ++ '>' :: (docEscaped s ++ '<' :: ("/span".toList ++ '>' :: x))) := by
    delta span
    repeat rw [String.toList_ofList]
    simp only [List.cons_append, List.nil_append, List.append_assoc]
  rw [hspan, stripTags, if_pos rfl, stripTags_tag hopen, stripTags_append fun d hd => docEscapeChar_ne hd,
    stripTags, if_pos rfl, stripTags_tag hclose]

theorem decodeFrom_docEscaped : decodeFrom 0 (docEscaped s) = s := by
  induction s
  case nil => rfl
  case cons c s hi =>
    rw [docEscaped, List.flatMap_cons, docEscapeChar]
    change decodeFrom 0 (_ ++ docEscaped s) = _
    split_ifs with h₁ h₂ h₃
    · rw [String.toList_ofList, h₁]
      exact congrArg ('<' :: ·) hi
    · rw [String.toList_ofList, h₂]
      exact congrArg ('>' :: ·) hi
    · rw [String.toList_ofList, h₃]
      exact congrArg ('&' :: ·) hi
    · have hno {e : CString} : gStrHasPrefix ([c] ++ docEscaped s) ('&' :: e) = false := by
        have hne : ¬ '&' = c := fun h => h₃ h.symm
        simp [gStrHasPrefix, List.isPrefixOf, hne]
      rw [List.singleton_append] at hno ⊢
      rw [decodeFrom]
      repeat rw [String.toList_ofList]
      rw [hno, hno, hno]
      exact congrArg (c :: ·) hi

-- What is written for a text, which is what one sees of it up to blanks.
structure Prints (out v : CString) : Prop where
  shown : ∃ s, (∀ x, stripTags false (out ++ x) = docEscaped s ++ stripTags false x) ∧
    Lex.outside.after s = .outside ∧ compact .outside s = compact .outside v
  lexed : Lex.outside.after v = .outside
  noNul : '\x00' ∉ v → '\x00' ∉ out

theorem Prints.append (h : Prints out s) (h' : Prints out' t) : Prints (out ++ out') (s ++ t) where
  shown := by
    obtain ⟨s₁, hx₁, hl₁, hc₁⟩ := h.shown
    obtain ⟨s₂, hx₂, hl₂, hc₂⟩ := h'.shown
    refine ⟨s₁ ++ s₂, fun x => ?_, ?_, ?_⟩
    · rw [List.append_assoc, hx₁, hx₂, docEscaped, docEscaped, docEscaped, List.flatMap_append, List.append_assoc]
    · rw [Lex.after_append, hl₁, hl₂]
    · rw [compact_append, compact_append, hl₁, h.lexed, hc₁, hc₂]
  lexed := by rw [Lex.after_append, h.lexed, h'.lexed]
  noNul := by
    intro hn
    rw [List.mem_append, not_or] at hn ⊢
    exact ⟨h.noNul hn.left, h'.noNul hn.right⟩

-- Blanks may be left out, and they may be written.
theorem Prints.of_blank (hw : Blank w) (hs : Blank s) : Prints s w where
  shown := by
    have hplain : ∀ c ∈ s, c ≠ '<' ∧ docEscapeChar c = [c] := by
      intro c hc
      have hne (d : Char) (hd : ¬isBlank d) : c ≠ d := fun h => hd (h ▸ hs c hc)
      rw [docEscapeChar, if_neg (hne '<' (by decide)), if_neg (hne '>' (by decide)), if_neg (hne '&' (by decide))]
      exact ⟨hne '<' (by decide), rfl⟩
    have hself : docEscaped s = s := by
      rw [docEscaped, List.flatMap_congr fun c hc => (hplain c hc).right, List.flatMap_singleton']
    refine ⟨s, fun x => ?_, hs.atom.after, ?_⟩
    · rw [hself, stripTags_append fun c hc => (hplain c hc).left]
    · rw [compact_blank hs, compact_blank hw]
  lexed := hw.atom.after
  noNul := fun _ hn => absurd (hs '\x00' hn) (by decide)

theorem Prints.of_span (hc : c ≠ '>' ∧ c ≠ '\x00') (hs : Lex.outside.after s = .outside)
    (hv : Lex.outside.after v = .outside) (hsv : compact .outside s = compact .outside v)
    (hn : '\x00' ∉ v → '\x00' ∉ s) : Prints (span c (docEscaped s)) v where
  shown := ⟨s, fun x => stripTags_span hc.left, hs, hsv⟩
  lexed := hv
  noNul := by
    intro hv hm
    have hopen : '\x00' ∉ "<span class=".toList := by decide
    have hclose : '\x00' ∉ "</span>".toList := by decide
    delta span at hm
    rw [List.mem_append, List.mem_cons, List.mem_cons, List.mem_append] at hm
    rcases hm with hm | hm | hm | hm | hm
    · exact hopen hm
    · exact hc.right hm.symm
    · exact absurd hm (by decide)
    · exact hn hv (nul_mem_of_mem_docEscaped hm)
    · exact hclose hm

end Printing

section Reading

variable {L : Lexemes} {s t v w r o : CString} {c c' : JsonCtx} {n k depth : Nat} {object : Bool}

theorem ws_blank {ok : Bool} (hw : Blank w) : JsonCtx.ws ⟨w ++ s, o, ok⟩ = JsonCtx.ws ⟨s, o, ok⟩ := by
  have hdrop : (w ++ s).dropWhile isBlank = s.dropWhile isBlank :=
    List.dropWhile_append_of_pos fun c hc => hw c hc
  rw [JsonCtx.ws, JsonCtx.ws, hdrop]

theorem ws_head {d : Char} {ok : Bool} (hd : ¬isBlank d) : JsonCtx.ws ⟨d :: s, o, ok⟩ = ⟨d :: s, o, ok⟩ := by
  rw [JsonCtx.ws, List.dropWhile_cons_of_neg hd]

theorem ws_ws : c.ws.ws = c.ws := by
  rw [JsonCtx.ws, JsonCtx.ws, List.dropWhile_idempotent]

theorem jsonValue_ws : jsonValue (n + 1) c.ws = jsonValue (n + 1) c := by
  rw [jsonValue, jsonValue, ws_ws]

theorem jsonValue_blank {ok : Bool} (hw : Blank w) :
    jsonValue (n + 1) ⟨w ++ s, o, ok⟩ = jsonValue (n + 1) ⟨s, o, ok⟩ := by
  rw [← jsonValue_ws, ws_blank hw, jsonValue_ws]

-- What `json_ws` reads is blank.
theorem ws_sound : ∃ w, Blank w ∧ c.p = w ++ c.ws.p :=
  ⟨c.p.takeWhile isBlank, fun _ hd => List.mem_takeWhile_imp hd, List.takeWhile_append_dropWhile.symm⟩

theorem jsonNumber_eq {d : Char} (hd : d = '-' ∨ d.isDigit) (hp : c.p = d :: t) :
    jsonNumber c = c.token 'n' (docEscaped (d :: t.takeWhile isNumberChar)) (t.dropWhile isNumberChar) := by
  have hsign : ((c.p.takeWhile (· == '-')).take 1) ++
      (c.p.drop ((c.p.takeWhile (· == '-')).take 1).length).takeWhile isNumberChar =
        d :: t.takeWhile isNumberChar ∧
      (c.p.drop ((c.p.takeWhile (· == '-')).take 1).length).dropWhile isNumberChar =
        t.dropWhile isNumberChar := by
    have hn := isNumberChar_first hd
    rw [hp]
    by_cases hm : d = '-'
    case pos => simp [hm]
    case neg => simp [hm, hn]
  rw [jsonNumber, hsign.left, hsign.right, if_neg (List.cons_ne_nil _ _)]

theorem jsonNumber_sound {d : Char} (hd : d = '-' ∨ d.isDigit) (hp : c.p = d :: t) :
    ∃ s, loose.isNumber s ∧ c.p = s ++ (jsonNumber c).p := by
  refine ⟨d :: t.takeWhile isNumberChar, ⟨d, _, rfl, hd, fun _ h => List.mem_takeWhile_imp h⟩, ?_⟩
  rw [jsonNumber_eq hd hp, hp]
  exact congrArg (d :: ·) List.takeWhile_append_dropWhile.symm

theorem jsonString_sound {cls : Char} (h : (jsonString cls c).ok) (hp : c.p = '"' :: t) :
    ∃ s, loose.isString s ∧ c.p = s ++ (jsonString cls c).p := by
  rw [jsonString, hp, List.tail_cons] at h ⊢
  cases hs : stringRest false t
  case none =>
    rw [hs] at h
    cases h
  case some sr =>
    obtain ⟨s, r⟩ := sr
    obtain ⟨ht, hbody⟩ := stringRest_sound hs
    exact ⟨'"' :: s, ⟨s, rfl, hbody⟩, congrArg ('"' :: ·) ht⟩

theorem jsonLiteral_sound (h : (jsonLiteral c).ok) : ∃ s ∈ literals, c.p = s ++ (jsonLiteral c).p := by
  rw [jsonLiteral] at h ⊢
  cases hs : literals.find? (·.isPrefixOf c.p)
  case none =>
    rw [hs] at h
    cases h
  case some lit =>
    obtain ⟨r, hr⟩ := List.isPrefixOf_iff_prefix.mp (List.find?_eq_some_iff_append.mp hs).left
    refine ⟨lit, List.mem_of_find?_eq_some hs, ?_⟩
    change c.p = lit ++ c.p.drop lit.length
    rw [← hr, List.drop_left]

theorem jsonKey_sound (h : (jsonKey object c).ok) :
    ∃ key, IsKey loose object key ∧ c.p = key ++ (jsonKey object c).p := by
  cases object
  case false => exact ⟨[], .array, rfl⟩
  case true =>
    rw [jsonKey, if_pos rfl] at h ⊢
    by_cases hq : c.p.head? = some '"'
    case neg =>
      rw [if_pos hq] at h
      cases h
    rw [if_neg (not_not.mpr hq)] at h ⊢
    dsimp only at h ⊢
    by_cases hcolon : (jsonString 'k' c).ws.p.head? = some ':'
    case neg =>
      rw [if_pos hcolon] at h
      cases h
    case pos =>
      rw [if_neg (not_not.mpr hcolon)] at h ⊢
      obtain ⟨t, hp⟩ := List.head?_eq_some_iff.mp hq
      obtain ⟨r, hr⟩ := List.head?_eq_some_iff.mp hcolon
      have hok : (jsonString 'k' c).ok := h
      obtain ⟨s, hs, hcs⟩ := jsonString_sound hok hp
      obtain ⟨w, hw, hws⟩ := @ws_sound (jsonString 'k' c)
      refine ⟨s ++ (w ++ [':']), .object hs hw, ?_⟩
      change c.p = s ++ (w ++ [':']) ++ (jsonString 'k' c).ws.p.tail
      rw [hcs, hws, hr, List.append_assoc, List.append_assoc]
      rfl

theorem jsonItems_sound {value : JsonCtx → JsonCtx}
    (hv : ∀ c, (value c).ok → ∃ w v, Blank w ∧ Derives loose .value n v ∧ c.p = w ++ (v ++ (value c).p))
    (h : (jsonItems value object depth k c).ok) :
    ∃ t, Derives loose (.row object) n t ∧ c.p = t ++ (jsonItems value object depth k c).p := by
  induction k generalizing c
  case zero => cases h
  case succ k hi =>
    rw [jsonItems] at h ⊢
    dsimp only at h ⊢
    obtain ⟨w₁, hw₁, hc₁⟩ := @ws_sound (c.append ('\n' :: docIndent (depth + 1)))
    generalize hk : jsonKey object ((c.append ('\n' :: docIndent (depth + 1))).ws) = ck at h ⊢
    by_cases hok : ck.ok
    case neg =>
      rw [if_pos (by simp [hok])] at h
      exact absurd h hok
    rw [if_neg (by simp [hok])] at h ⊢
    obtain ⟨key, hkey, hck⟩ := @jsonKey_sound _ object (hk ▸ hok)
    rw [hk] at hck
    by_cases hval : (value ck).ok
    case neg =>
      rw [if_pos (by simp [hval])] at h
      exact absurd h hval
    rw [if_neg (by simp [hval])] at h ⊢
    obtain ⟨w₂, v, hw₂, hd, hcv⟩ := hv ck hval
    obtain ⟨w₃, hw₃, hcw⟩ := @ws_sound (value ck)
    have hp : c.p = w₁ ++ (key ++ (w₂ ++ (v ++ (w₃ ++ (value ck).ws.p)))) := by
      rw [← hcw, ← hcv, ← hck]
      exact hc₁
    by_cases hcomma : (value ck).ws.p.head? = some ','
    case neg =>
      rw [if_neg hcomma] at h ⊢
      refine ⟨_, .last hw₁ hkey hw₂ hd hw₃, ?_⟩
      simp only [List.append_assoc]
      exact hp
    case pos =>
      rw [if_pos hcomma] at h ⊢
      obtain ⟨r, hr⟩ := List.head?_eq_some_iff.mp hcomma
      obtain ⟨t, ht, hct⟩ := hi h
      refine ⟨_, .more hw₁ hkey hw₂ hd hw₃ ht, ?_⟩
      simp only [List.append_assoc, List.cons_append]
      rw [← hct, hp, hr]
      rfl

theorem jsonRow_sound {value : JsonCtx → JsonCtx}
    (hv : ∀ c, (value c).ok → ∃ w v, Blank w ∧ Derives loose .value n v ∧ c.p = w ++ (v ++ (value c).p))
    (h : (jsonRow value object depth c).ok) :
    ∃ t, Derives loose .value (n + 1) (opens object :: t) ∧ c.p = t ++ (jsonRow value object depth c).p := by
  rw [jsonRow] at h ⊢
  dsimp only at h ⊢
  obtain ⟨w, hw, hc⟩ := @ws_sound c
  generalize c.ws = cw at h hc ⊢
  by_cases hempty : cw.p.head? = some (closes object)
  case pos =>
    rw [if_pos hempty]
    obtain ⟨r, hr⟩ := List.head?_eq_some_iff.mp hempty
    refine ⟨w ++ [closes object], .empty object hw, ?_⟩
    rw [hc, hr, List.append_assoc]
    rfl
  rw [if_neg hempty] at h ⊢
  generalize hci : jsonItems value object depth (cw.p.length + 1) cw = ci at h ⊢
  by_cases hok : ci.ok
  case neg =>
    rw [if_pos (by simp [hok])] at h
    exact absurd h hok
  rw [if_neg (by simp [hok])] at h ⊢
  obtain ⟨t, ht, hct⟩ := jsonItems_sound hv (hci ▸ hok)
  rw [hci] at hct
  by_cases hclose : (ci.append ('\n' :: docIndent depth)).p.head? = some (closes object)
  case neg =>
    rw [if_pos hclose] at h
    cases h
  rw [if_neg (not_not.mpr hclose)]
  obtain ⟨r, hr⟩ := List.head?_eq_some_iff.mp hclose
  have hr' : ci.p = closes object :: r := hr
  refine ⟨w ++ t ++ [closes object], .full object (ht.blank hw), ?_⟩
  rw [hc, hct, hr', JsonCtx.token, hr, List.tail_cons, List.append_assoc, List.append_assoc]
  rfl

-- What is accepted is a value that begins the text.
theorem jsonValue_sound (h : (jsonValue n c).ok) :
    ∃ w v, Blank w ∧ Derives loose .value n v ∧ c.p = w ++ (v ++ (jsonValue n c).p) := by
  induction n generalizing c
  case zero => cases h
  case succ n hi =>
    obtain ⟨w, hw, hc⟩ := @ws_sound c
    suffices ∃ v, Derives loose .value (n + 1) v ∧ c.ws.p = v ++ (jsonValue (n + 1) c).p by
      obtain ⟨v, hd, hv⟩ := this
      exact ⟨w, v, hw, hd, hv ▸ hc⟩
    rw [jsonValue] at h ⊢
    generalize c.ws = c at h ⊢
    obtain ⟨p, o, ok⟩ := c
    cases p
    case nil => cases h
    case cons ch cs =>
      dsimp only at h ⊢
      by_cases hopen : ch = '{' ∨ ch = '['
      case pos =>
        rw [if_pos hopen] at h ⊢
        have hch : opens (ch == '{') = ch := by rcases hopen with rfl | rfl <;> rfl
        obtain ⟨t, ht, hp⟩ := jsonRow_sound (fun c hc => hi hc) h
        rw [hch] at ht
        exact ⟨_, ht, congrArg (ch :: ·) hp⟩
      rw [if_neg hopen] at h ⊢
      by_cases hq : ch = '"'
      case pos =>
        rw [if_pos hq] at h ⊢
        obtain ⟨s, hs, hp⟩ := jsonString_sound h (congrArg (· :: cs) hq)
        exact ⟨s, .string hs, hp⟩
      rw [if_neg hq] at h ⊢
      by_cases hnum : ch = '-' ∨ ch.isDigit
      case pos =>
        rw [if_pos hnum] at h ⊢
        obtain ⟨s, hs, hp⟩ := @jsonNumber_sound cs ⟨ch :: cs, o, ok⟩ ch hnum rfl
        exact ⟨s, .number hs, hp⟩
      case neg =>
        rw [if_neg hnum] at h ⊢
        obtain ⟨s, hs, hp⟩ := jsonLiteral_sound h
        exact ⟨s, .literal hs, hp⟩

end Reading

section Writing

variable {s t v w w₁ w₂ w₃ key r o : CString} {c : JsonCtx} {n k depth : Nat} {object : Bool} {d : Char}

theorem jsonString_append {cls : Char} {ok : Bool} (hs : LooseBody s) :
    jsonString cls ⟨'"' :: (s ++ r), o, ok⟩ = ⟨r, o ++ span cls (docEscaped ('"' :: s)), ok⟩ := by
  rw [jsonString, List.tail_cons, stringRest_append hs]
  rfl

theorem jsonLiteral_append {ok : Bool} (hs : s ∈ literals) :
    jsonLiteral ⟨s ++ r, o, ok⟩ = ⟨r, o ++ span 'b' (docEscaped s), ok⟩ := by
  have hself : ∀ s ∈ literals, docEscaped s = s := by decide
  have hfind : literals.find? (·.isPrefixOf (s ++ r)) = some s := by
    rw [literals, List.mem_cons, List.mem_cons, List.mem_singleton] at hs
    rcases hs with rfl | rfl | rfl <;> rfl
  rw [jsonLiteral, hfind, hself s hs]
  dsimp only
  rw [List.drop_left]
  rfl

theorem Prints.token (hs : Lex.outside.after s = .outside) (hc : d ≠ '>' ∧ d ≠ '\x00') :
    Prints (span d (docEscaped s)) s :=
  .of_span hc hs hs rfl id

theorem Prints.bracket (hd : d ≠ '"' ∧ d ≠ '<' ∧ d ≠ '>' ∧ d ≠ '&') : Prints (span 'p' [d]) [d] := by
  have hself : docEscaped [d] = [d] := by
    rw [docEscaped, List.flatMap_singleton, docEscapeChar, if_neg hd.right.left, if_neg hd.right.right.left,
      if_neg hd.right.right.right]
  have hafter : Lex.outside.after [d] = .outside := if_neg hd.left
  have h := Prints.token (s := [d]) hafter (d := 'p') (by decide)
  rwa [hself] at h

-- A value can be told from the end of a row.
theorem head_of_derives (h : Derives loose .value n v) :
    ∃ d s, v = d :: s ∧ ¬isBlank d ∧ ∀ object, d ≠ closes object := by
  cases h
  case string h =>
    obtain ⟨t, rfl, -⟩ := h
    exact ⟨_, _, rfl, by decide⟩
  case number h =>
    obtain ⟨d, t, rfl, hd, -⟩ := h
    have hn := isNumberChar_first hd
    refine ⟨_, _, rfl, isNumberChar_not_blank hn, fun object => ?_⟩
    cases object
    case false => exact (isNumberChar_plain hn).right.right.right.left
    case true  => exact (isNumberChar_plain hn).right.right.right.right
  case literal h =>
    rw [literals, List.mem_cons, List.mem_cons, List.mem_singleton] at h
    rcases h with rfl | rfl | rfl <;> exact ⟨_, _, rfl, by decide⟩
  case empty object h => cases object <;> exact ⟨_, _, rfl, by decide⟩
  case full object h => cases object <;> exact ⟨_, _, rfl, by decide⟩

theorem head_of_item (h₁ : Blank w₁) (hk : IsKey loose object key) (h₂ : Blank w₂)
    (hv : Derives loose .value n v) :
    ∃ w d s, Blank w ∧ w₁ ++ (key ++ (w₂ ++ (v ++ r))) = w ++ d :: s ∧ ¬isBlank d ∧ d ≠ closes object := by
  cases hk
  case array =>
    obtain ⟨d, s, rfl, hd, hclose⟩ := head_of_derives hv
    refine ⟨w₁ ++ w₂, d, s ++ r, ?_, ?_, hd, hclose false⟩
    · exact fun c hc => (List.mem_append.mp hc).elim (h₁ c) (h₂ c)
    · rw [List.append_assoc]
      rfl
  case object hs hw =>
    obtain ⟨t, rfl, -⟩ := hs
    exact ⟨w₁, '"', _, h₁, rfl, by decide⟩

theorem head_of_row (h : Derives loose (.row object) n t) :
    ∃ w d s, Blank w ∧ t = w ++ d :: s ∧ ¬isBlank d ∧ d ≠ closes object := by
  cases h
  case last h₁ h₂ h₃ hk hv      => exact head_of_item h₁ hk h₂ hv
  case more h₁ h₂ h₃ hk hv ht => exact head_of_item h₁ hk h₂ hv

-- The name is read where a value is read next.
theorem jsonKey_append (hk : IsKey loose object key) :
    ∃ out, Prints out key ∧ ∀ r o, (jsonKey object (JsonCtx.ws ⟨key ++ r, o, true⟩)).ok ∧
      ∀ n, jsonValue (n + 1) (jsonKey object (JsonCtx.ws ⟨key ++ r, o, true⟩)) =
        jsonValue (n + 1) ⟨r, o ++ out, true⟩ := by
  cases hk
  case array =>
    refine ⟨[], .of_blank (by decide) (by decide), fun r o => ⟨rfl, fun n => ?_⟩⟩
    rw [List.append_nil]
    exact jsonValue_ws
  case object s w hs hw =>
    obtain ⟨t, rfl, ht⟩ := hs
    have hcolon : Prints (span 'p' (docEscaped ": ".toList)) [':'] :=
      .of_span (by decide) (by decide) (by decide) (by decide) (by decide)
    have hprints := (Prints.token ht.atom.after (d := 'k') (by decide)).append
      ((Prints.of_blank hw (s := []) (by decide)).append hcolon)
    refine ⟨_, hprints, fun r o => ?_⟩
    have hread : jsonKey true (JsonCtx.ws ⟨'"' :: t ++ (w ++ [':']) ++ r, o, true⟩) =
        ⟨r, o ++ (span 'k' (docEscaped ('"' :: t)) ++ ([] ++ span 'p' (docEscaped ": ".toList))), true⟩ := by
      rw [List.cons_append, List.cons_append, ws_head (by decide), List.append_assoc, List.append_assoc, jsonKey,
        if_pos rfl]
      dsimp only
      rw [List.head?_cons, if_neg (not_not.mpr rfl), jsonString_append ht, ws_blank hw, List.singleton_append,
        ws_head (by decide), List.head?_cons, if_neg (not_not.mpr rfl), List.tail_cons, JsonCtx.append,
        List.append_assoc]
      rfl
    rw [hread]
    exact ⟨rfl, fun n => rfl⟩

-- The texts that are read, each with what is written for it. A number has to end where it ends.
def Reads : Part → Nat → CString → Prop
  | .value, n, t => ∀ r o, (loose.isNumber t → r.takeWhile isNumberChar = []) →
    ∃ out, Prints out t ∧ jsonValue (n + 1) ⟨t ++ r, o, true⟩ = ⟨r, o ++ out, true⟩
  | .row object, n, t => ∀ k depth r o, t.count ',' < k →
    ∃ out, Prints out t ∧ jsonItems (jsonValue (n + 1)) object depth k ⟨t ++ closes object :: r, o, true⟩ =
      ⟨closes object :: r, o ++ out, true⟩

theorem takeWhile_of_blank (hw : Blank w) (hd : ¬isNumberChar d) :
    (w ++ d :: r).takeWhile isNumberChar = [] := by
  cases w
  case nil => exact List.takeWhile_cons_of_neg hd
  case cons c w =>
    have hc : ¬isNumberChar c := fun h => isNumberChar_not_blank h (hw c List.mem_cons_self)
    exact List.takeWhile_cons_of_neg hc

theorem blank_indent (depth : Nat) : Blank ('\n' :: docIndent depth) := by
  intro c hc
  rcases List.mem_cons.mp hc with rfl | hc
  · decide
  · obtain ⟨l, hl, hc⟩ := List.mem_flatten.mp hc
    have hall : ∀ c ∈ "  ".toList, isBlank c := by decide
    exact hall c (List.eq_of_mem_replicate hl ▸ hc)

-- A value of a row, with its name and up to what follows.
theorem jsonItems_step (h₁ : Blank w₁) (hk : IsKey loose object key) (h₂ : Blank w₂) (hv : Reads .value n v)
    (h₃ : Blank w₃) (hd : ¬isNumberChar d) (hb : ¬isBlank d) (depth : Nat) (r o : CString) :
    ∃ out, Prints out (w₁ ++ (key ++ (w₂ ++ (v ++ w₃)))) ∧ ∀ k,
      jsonItems (jsonValue (n + 1)) object depth (k + 1) ⟨w₁ ++ (key ++ (w₂ ++ (v ++ (w₃ ++ d :: r)))), o, true⟩ =
        if d = ',' then jsonItems (jsonValue (n + 1)) object depth k ⟨r, o ++ out ++ span 'p' [','], true⟩
        else ⟨d :: r, o ++ out, true⟩ := by
  obtain ⟨outk, hpk, hkey⟩ := jsonKey_append hk
  obtain ⟨hok, hread⟩ := hkey (w₂ ++ (v ++ (w₃ ++ d :: r))) (o ++ '\n' :: docIndent (depth + 1))
  obtain ⟨outv, hpv, hval⟩ := hv (w₃ ++ d :: r) (o ++ '\n' :: docIndent (depth + 1) ++ outk)
    fun _ => takeWhile_of_blank h₃ hd
  have hnone {w : CString} (hw : Blank w) : Prints [] w := .of_blank hw (by decide)
  have hprints := (Prints.of_blank h₁ (blank_indent (depth + 1))).append
    (hpk.append ((hnone h₂).append (hpv.append (hnone h₃))))
  refine ⟨_, hprints, fun k => ?_⟩
  rw [jsonItems, JsonCtx.append, ws_blank h₁]
  dsimp only
  rw [hok, hread n, jsonValue_blank h₂, hval]
  dsimp only
  rw [ws_blank h₃, ws_head hb]
  dsimp only
  simp only [List.head?_cons, Option.some_inj, JsonCtx.append, List.append_nil, List.nil_append, List.append_assoc]
  rfl

theorem jsonRow_empty {value : JsonCtx → JsonCtx} (hw : Blank w) :
    jsonRow value object depth ⟨w ++ closes object :: r, o, true⟩ = ⟨r, o ++ span 'p' [closes object], true⟩ := by
  have hclose : ¬isBlank (closes object) := by cases object <;> decide
  rw [jsonRow, ws_blank hw, ws_head hclose]
  exact if_pos rfl

theorem jsonItems_ws {value : JsonCtx → JsonCtx} :
    jsonItems value object depth (k + 1) c.ws = jsonItems value object depth (k + 1) c := by
  have h (x : CString) : (c.ws.append x).ws = (c.append x).ws := by
    rw [JsonCtx.ws, JsonCtx.append, JsonCtx.append, JsonCtx.ws, JsonCtx.ws, List.dropWhile_idempotent]
  rw [jsonItems, jsonItems, h]

theorem jsonRow_full (ht : Derives loose (.row object) n t) (hr : Reads (.row object) n t) (depth : Nat)
    (r o : CString) :
    ∃ out, Prints out t ∧ jsonRow (jsonValue (n + 1)) object depth ⟨t ++ closes object :: r, o, true⟩ =
      ⟨r, o ++ out ++ span 'p' [closes object], true⟩ := by
  obtain ⟨w, d, s, hw, rfl, hd, hne⟩ := head_of_row ht
  have hws : JsonCtx.ws ⟨w ++ d :: s ++ closes object :: r, o, true⟩ =
      ⟨d :: (s ++ closes object :: r), o, true⟩ := by
    rw [List.append_assoc, ws_blank hw, List.cons_append, ws_head hd]
  -- Blanks have no commas.
  have hfuel : (w ++ d :: s).count ',' < (d :: (s ++ closes object :: r)).length + 1 := by
    have hzero : w.count ',' = 0 := List.count_eq_zero.mpr fun hc => absurd (hw ',' hc) (by decide)
    have hle : (d :: s).count ',' ≤ (d :: s).length := List.count_le_length
    rw [List.count_append, hzero]
    simp only [List.length_cons, List.length_append] at hle ⊢
    omega
  obtain ⟨out, hp, hi⟩ := hr _ depth r o hfuel
  rw [← jsonItems_ws, hws] at hi
  refine ⟨out ++ '\n' :: docIndent depth, ?_, ?_⟩
  · have h := hp.append (Prints.of_blank (w := []) (by decide) (blank_indent depth))
    rwa [List.append_nil] at h
  rw [jsonRow, hws]
  dsimp only
  rw [if_neg (by simpa using hne), hi]
  simp only [JsonCtx.append, JsonCtx.token, List.append_assoc]
  exact if_neg (not_not.mpr rfl)

theorem jsonValue_opens {n : Nat} : jsonValue (n + 1) ⟨opens object :: r, o, true⟩ =
    jsonRow (jsonValue n) object (256 - n) ⟨r, o ++ span 'p' [opens object], true⟩ := by
  cases object <;> rfl

theorem Prints.brackets {out : CString} (h : Prints out t) :
    Prints (span 'p' [opens object] ++ (out ++ span 'p' [closes object]))
      (opens object :: (t ++ [closes object])) := by
  have hopen : Prints (span 'p' [opens object]) [opens object] := .bracket (by cases object <;> decide)
  have hclose : Prints (span 'p' [closes object]) [closes object] := .bracket (by cases object <;> decide)
  exact hopen.append (h.append hclose)

-- What a value or a row is made of is read, and it is what is written.
theorem reads_of_derives {p : Part} (h : Derives loose p n t) : Reads p n t := by
  induction h
  case string h =>
    obtain ⟨t, rfl, ht⟩ := h
    intro r o _
    refine ⟨_, Prints.token ht.atom.after (d := 's') (by decide), ?_⟩
    rw [List.cons_append, jsonValue, ws_head (by decide)]
    exact jsonString_append ht
  case number h =>
    have hafter := (loose_atom (.inr h)).after
    obtain ⟨d, t, rfl, hd, ht⟩ := h
    intro r o hr
    have hn := isNumberChar_first hd
    obtain ⟨hq, h₁, h₂, -, -⟩ := isNumberChar_plain hn
    have hr := hr ⟨d, t, rfl, hd, ht⟩
    have hdrop : r.dropWhile isNumberChar = r := by
      have h := @List.takeWhile_append_dropWhile _ isNumberChar r
      rwa [hr] at h
    refine ⟨_, Prints.token hafter (d := 'n') (by decide), ?_⟩
    rw [List.cons_append, jsonValue, ws_head (isNumberChar_not_blank hn)]
    dsimp only
    rw [if_neg fun h => h.elim h₂ h₁, if_neg hq, if_pos hd, jsonNumber_eq hd rfl, List.takeWhile_append_of_pos ht,
      List.dropWhile_append_of_pos ht, hr, List.append_nil, hdrop]
    rfl
  case literal s h =>
    intro r o _
    have hread := @jsonLiteral_append s r o true h
    refine ⟨_, Prints.token (literal_plain h).atom.after (d := 'b') (by decide), ?_⟩
    rw [literals, List.mem_cons, List.mem_cons, List.mem_singleton] at h
    rcases h with rfl | rfl | rfl <;> exact hread
  case empty object hw =>
    intro r o _
    refine ⟨_, (Prints.of_blank hw (s := []) (by decide)).brackets, ?_⟩
    rw [List.cons_append, jsonValue_opens, List.append_assoc, List.singleton_append, jsonRow_empty hw]
    simp only [List.append_assoc, List.nil_append]
  case full n t object ht hi =>
    intro r o _
    obtain ⟨out, hp, hread⟩ := jsonRow_full ht hi (256 - (n + 1)) r (o ++ span 'p' [opens object])
    refine ⟨_, hp.brackets, ?_⟩
    rw [List.cons_append, jsonValue_opens, List.append_assoc, List.singleton_append, hread]
    simp only [List.append_assoc]
  case last object h₁ hk h₂ hv h₃ hi =>
    intro k depth r o hcount
    obtain ⟨k, rfl⟩ := Nat.exists_eq_add_one_of_ne_zero (Nat.ne_zero_of_lt hcount)
    have hclose : ¬isNumberChar (closes object) ∧ ¬isBlank (closes object) ∧ closes object ≠ ',' := by
      cases object <;> decide
    obtain ⟨out, hp, hread⟩ := jsonItems_step h₁ hk h₂ hi h₃ hclose.left hclose.right.left depth r o
    refine ⟨out, hp, ?_⟩
    simp only [List.append_assoc]
    rw [hread, if_neg hclose.right.right]
  case more object h₁ hk h₂ hv h₃ ht hi hit =>
    intro k depth r o hcount
    obtain ⟨k, rfl⟩ := Nat.exists_eq_add_one_of_ne_zero (Nat.ne_zero_of_lt hcount)
    simp only [List.count_append, List.count_cons_self] at hcount
    obtain ⟨out, hp, hread⟩ := jsonItems_step h₁ hk h₂ hi h₃ (d := ',') (by decide) (by decide) depth _ o
    obtain ⟨out', hp', hread'⟩ := hit k depth r (o ++ out ++ span 'p' [',']) (by omega)
    have hcomma : Prints (span 'p' [',']) [','] := .bracket (by decide)
    refine ⟨out ++ (span 'p' [','] ++ out'), ?_, ?_⟩
    · have h := hp.append (hcomma.append hp')
      simpa only [List.append_assoc, List.singleton_append] using h
    · simp only [List.append_assoc, List.cons_append] at hread' ⊢
      rw [hread, if_pos rfl]
      simp only [List.append_assoc]
      exact hread'

end Writing

section Documents

variable {url json s t v r : CString}

theorem ne_nul_of_body (h : Body (fun c => 0x20 ≤ c.toNat) IsEscape t) : ∀ c ∈ t, c ≠ '\x00' := by
  induction h
  case close => decide
  case char hq hb hc _ hi =>
    refine List.forall_mem_cons.mpr ⟨?_, hi⟩
    rintro rfl
    exact absurd hc (by decide)
  case escape he _ hi =>
    refine List.forall_mem_cons.mpr ⟨by decide, List.forall_mem_append.mpr ⟨?_, hi⟩⟩
    cases he
    case char hc =>
      rw [List.forall_mem_singleton]
      rintro rfl
      exact absurd hc (by decide)
    case code ha hb hc hd =>
      have hne {c : Char} (h : IsHex c) : c ≠ '\x00' := by
        rintro rfl
        revert h
        unfold IsHex
        decide
      simp only [List.forall_mem_cons]
      exact ⟨by decide, hne ha, hne hb, hne hc, hne hd, fun c hc => absurd hc List.not_mem_nil⟩

theorem ne_nul_of_isText (h : IsText strict json) : '\x00' ∉ json := by
  obtain ⟨w, v, w', n, hw, hv, hw', rfl⟩ := h
  have hblank {c : Char} (h : isBlank c) : c ≠ '\x00' := by
    rintro rfl
    exact absurd h (by decide)
  have hlex {s : CString} (h : strict.isString s ∨ strict.isNumber s) : ∀ c ∈ s, c ≠ '\x00' := by
    rcases h with ⟨t, rfl, ht⟩ | h
    · exact List.forall_mem_cons.mpr ⟨by decide, ne_nul_of_body ht⟩
    · intro c hc
      have hn := isNumberChar_of_isNumber (loose_of_isNumber h) c hc
      rintro rfl
      exact absurd hn (by decide)
  have hrest (c : Char) (h : isBlank c ∨ c ∈ structural) : c ≠ '\x00' := by
    rcases h with h | h
    · exact hblank h
    · have hall : ∀ c ∈ structural, c ≠ '\x00' := by decide
      exact hall c h
  have hall : ∀ c ∈ w ++ (v ++ w'), c ≠ '\x00' :=
    List.forall_mem_append.mpr ⟨fun c hc => hblank (hw c hc),
      List.forall_mem_append.mpr ⟨hv.all hlex hrest, fun c hc => hblank (hw' c hc)⟩⟩
  exact fun hc => hall _ hc rfl

-- A value that is nested no deeper than the body is read where it begins the body.
theorem jsonValue_of_begins (h : NestedAtMost 256 (w ++ (v ++ r))) (hw : Blank w) {n : Nat}
    (hv : Derives loose .value n v) (hr : loose.isNumber v → r.takeWhile isNumberChar = []) :
    ∃ out, Prints out v ∧ jsonValue 257 (JsonCtx.ws ⟨w ++ (v ++ r), [], true⟩) = ⟨r, out, true⟩ := by
  obtain ⟨hd, -⟩ := hv.of_within loose_atom (hw.atom.within.mp h)
  obtain ⟨out, hp, hread⟩ := reads_of_derives hd r [] hr
  refine ⟨out, hp, ?_⟩
  rw [jsonValue_ws, jsonValue_blank hw]
  exact hread

theorem jsonDocument_isSome_iff (h : NestedAtMost 256 json) :
    (jsonDocument url json).isSome ↔ Begins loose json := by
  have hsome : (jsonDocument url json).isSome ↔ (jsonValue 257 (JsonCtx.ws ⟨json, [], true⟩)).ok := by
    rw [jsonDocument]
    by_cases hok : (jsonValue 257 (JsonCtx.ws ⟨json, [], true⟩)).ok
    case pos => simp [hok]
    case neg => simp [hok]
  rw [hsome]
  constructor
  · intro hok
    rw [jsonValue_ws] at hok
    obtain ⟨w, v, hw, hv, hp⟩ := jsonValue_sound hok
    exact ⟨w, v, _, _, hw, hv, hp⟩
  · rintro ⟨w, v, r, n, hw, hv, rfl⟩
    by_cases hn : loose.isNumber v
    case neg =>
      obtain ⟨out, -, hread⟩ := jsonValue_of_begins h hw hv fun h => absurd h hn
      rw [hread]
    case pos =>
      -- A number is read as far as it goes.
      obtain ⟨d, t, rfl, hd, ht⟩ := hn
      have hp : d :: t ++ r = d :: (t ++ r.takeWhile isNumberChar) ++ r.dropWhile isNumberChar := by
        rw [List.cons_append, List.cons_append, List.append_assoc, List.takeWhile_append_dropWhile]
      have hnum : loose.isNumber (d :: (t ++ r.takeWhile isNumberChar)) :=
        ⟨d, _, rfl, hd, List.forall_mem_append.mpr ⟨ht, fun _ hc => List.mem_takeWhile_imp hc⟩⟩
      rw [hp] at h ⊢
      obtain ⟨out, -, hread⟩ := jsonValue_of_begins h hw (.number (n := 0) hnum) fun _ =>
        List.takeWhile_eq_nil_iff.mpr (List.dropWhile_get_zero_not _ r)
      rw [hread]

theorem shows_of_isText (h : NestedAtMost 256 json) (hj : IsText strict json) :
    ∀ doc ∈ jsonDocument url json, Shows url json doc := by
  have hnul := ne_nul_of_isText hj
  obtain ⟨w, v, w', n, hw, hv, hw', rfl⟩ := hj
  have hend : w'.takeWhile isNumberChar = [] := by
    cases w'
    case nil => rfl
    case cons c w' =>
      exact List.takeWhile_cons_of_neg fun h => isNumberChar_not_blank h (hw' c List.mem_cons_self)
  obtain ⟨out, hp, hread⟩ := jsonValue_of_begins h hw (derives_loose hv) fun _ => hend
  have hout : gStrndup out = out := by
    refine gStrndup_eq_self (hp.noNul fun hc => hnul ?_)
    exact List.mem_append_right w (List.mem_append_left w' hc)
  obtain ⟨s, hshown, -, hcompact⟩ := hp.shown
  have htext : shownText out = s := by
    have hx := hshown []
    rw [List.append_nil, stripTags, List.append_nil] at hx
    rw [shownText, hx, decodeFrom_docEscaped]
  intro doc hdoc
  rw [jsonDocument, hread] at hdoc
  obtain rfl := Option.mem_some_iff.mp hdoc
  refine ⟨out, by rw [hout], ?_⟩
  rw [htext, compact_append, hw.atom.after, compact_append, hp.lexed, compact_blank hw, compact_blank hw',
    hcompact, List.append_nil]
  rfl

theorem begins_of_isJson (h : IsJson json) : Begins loose json := by
  obtain ⟨w, v, w', n, hw, hv, -, hs⟩ := h.left
  exact ⟨w, v, w', n, hw, derives_loose hv, hs⟩

-- There is a document for JSON, but also for what begins with a value and for what is only read as one.
theorem showsJson_iff (h : NestedAtMost 256 json) : ShowsJson url json ↔ IsJson json ∨ ¬Begins loose json := by
  rw [ShowsJson, jsonDocument_isSome_iff h]
  constructor
  · rintro ⟨hiff, -⟩
    by_cases hb : Begins loose json
    case pos => exact .inl (hiff.mp hb)
    case neg => exact .inr hb
  · rintro (hj | hb)
    · exact ⟨iff_of_true (begins_of_isJson hj) hj, shows_of_isText h hj.left⟩
    · refine ⟨iff_of_false hb fun hj => hb (begins_of_isJson hj), fun doc hdoc => ?_⟩
      exact absurd ((jsonDocument_isSome_iff h).mp (Option.isSome_of_mem hdoc)) hb

-- `[1]`
theorem showsJson_one : ShowsJson [] ['[', '1', ']'] := by
  have hone : strict.isNumber ['1'] :=
    ⟨[], ['1'], [], [], rfl, by decide, .inr ⟨⟨by decide, by decide⟩, by decide⟩, .inl rfl, .inl rfl⟩
  have hblank : Blank [] := by decide
  have hrow : Derives strict (.row false) 0 ['1'] :=
    .last hblank .array hblank (.number hone) hblank
  have htext : IsText strict ['[', '1', ']'] :=
    ⟨[], _, [], 1, by decide, .full false hrow, by decide, rfl⟩
  have hnested : NestedAtMost 256 ['[', '1', ']'] := by
    simp [NestedAtMost, Within, Lex.step]
  exact (showsJson_iff hnested).mpr (.inl ⟨htext, ⟨['[', '1', ']'], rfl⟩⟩)

-- `1 x` is shown as `1`.
theorem not_showsJson_trailing : ¬∀ url json, NestedAtMost 256 json → ShowsJson url json := by
  intro h
  have hnested : NestedAtMost 256 ['1', ' ', 'x'] := by
    simp [NestedAtMost, Within, Lex.step]
  have hread : jsonValue 257 (JsonCtx.ws ⟨['1', ' ', 'x'], [], true⟩) = ⟨[' ', 'x'], span 'n' ['1'], true⟩ := rfl
  have hdoc : jsonHead [] ++ gStrndup (span 'n' ['1']) ++ jsonFoot ∈ jsonDocument [] ['1', ' ', 'x'] := by
    rw [jsonDocument, hread]
    exact Option.mem_some_self _
  obtain ⟨content, heq, hc⟩ := (h [] ['1', ' ', 'x'] hnested).right _ hdoc
  have hcontent : gStrndup (span 'n' ['1']) = content :=
    List.append_cancel_left (List.append_cancel_right heq)
  rw [← hcontent] at hc
  exact absurd hc (by decide)

end Documents

end Nordstjernen.Html
