import Nordstjernen.Net.Cookie.File

open Nordstjernen.Glib

namespace Nordstjernen.Net.Cookie

namespace Printable

variable {s t : CString} {c : Char}

theorem not_mem (h : Printable s) (hc : c.toNat < 0x20) : c ∉ s :=
  fun hm => absurd (h c hm) (by simpa using hc)

theorem sublist (h : Printable t) (hs : s.Sublist t) : Printable s :=
  fun c hc => h c (hs.subset hc)

theorem append (h₁ : Printable s) (h₂ : Printable t) : Printable (s ++ t) := by
  intro c hc
  cases List.mem_append.mp hc
  case inl h => exact h₁ c h
  case inr h => exact h₂ c h

theorem boolField (b : Bool) : Printable (boolField b) := by
  cases b <;> decide

theorem formatInt64 (n : Int) : Printable (formatInt64 n) := by
  have hd (m : Nat) : Printable (Nat.toDigits 10 m) := fun c hc => by
    have h := Nat.isDigit_of_mem_toDigits (by omega) (by omega) hc
    have h := (Char.isDigit_iff_toNat.mp h).left
    exact Nat.le_trans (by decide) h
  rw [Glib.formatInt64]
  split
  case isTrue  => exact append (s := ['-']) (by decide) (hd _)
  case isFalse => exact hd _

end Printable

namespace Line

variable (l : Line)

-- The fields in front of the name.
def front : CString :=
  l.write.fileDomain ++ '\t' :: Cookie.boolField l.write.tail ++ '\t' :: l.write.path ++
  '\t' :: Cookie.boolField l.write.secure ++ '\t' :: Glib.formatInt64 l.write.expiry ++ ['\t']

-- The line without its `HttpOnly` marker and its value.
def stem : CString :=
  l.front ++ l.write.name

-- The line without its `HttpOnly` marker.
def body : CString :=
  l.stem ++ '\t' :: l.write.value

def marker : CString :=
  if l.httpOnly then httpOnlyPrefix else []

theorem text_eq : l.text = l.marker ++ l.body := by
  simp [text, formatLine, marker, body, stem, front, httpOnly]

theorem front_ne_nil : l.front ≠ [] := by
  simp [front]

theorem splitMax_front (n : Nat) (s : CString) :
    splitMax '\t' (n + 5) (l.front ++ s) =
      l.write.fileDomain :: Cookie.boolField l.write.tail :: l.write.path ::
        Cookie.boolField l.write.secure :: Glib.formatInt64 l.write.expiry :: splitMax '\t' n s := by
  have ht : ('\t').toNat < 0x20 := by decide
  rw [front]
  simp only [List.append_assoc, List.cons_append, List.nil_append]
  rw [splitMax_append_cons (l.sound.domain_printable.not_mem ht),
    splitMax_append_cons (Printable.boolField _ |>.not_mem ht),
    splitMax_append_cons (l.sound.path_printable.not_mem ht),
    splitMax_append_cons (Printable.boolField _ |>.not_mem ht),
    splitMax_append_cons (Printable.formatInt64 _ |>.not_mem ht)]

theorem lineFields_front (s : CString) :
    lineFields (l.front ++ s) =
      l.write.fileDomain :: Cookie.boolField l.write.tail :: l.write.path ::
        Cookie.boolField l.write.secure :: Glib.formatInt64 l.write.expiry :: splitMax '\t' 1 s := by
  rw [lineFields, gStrsplit, if_neg (by simp [front_ne_nil])]
  exact l.splitMax_front 1 s

theorem body_fields : lineFields l.body =
    [l.write.fileDomain, Cookie.boolField l.write.tail, l.write.path,
      Cookie.boolField l.write.secure, Glib.formatInt64 l.write.expiry, l.write.name,
      l.write.value] := by
  have hn := l.sound.name_printable.not_mem (c := '\t') (by decide)
  rw [body, stem, List.append_assoc, lineFields_front, splitMax_append_cons hn, splitMax_zero]

theorem stem_fields : lineFields l.stem =
    [l.write.fileDomain, Cookie.boolField l.write.tail, l.write.path,
      Cookie.boolField l.write.secure, Glib.formatInt64 l.write.expiry, l.write.name] := by
  have hn := l.sound.name_printable.not_mem (c := '\t') (by decide)
  rw [stem, lineFields_front, splitMax_of_not_mem hn]

theorem head?_body : l.body.head? = l.write.fileDomain.head? := by
  obtain ⟨c, cs, hc⟩ := List.exists_cons_of_ne_nil l.sound.domain_ne
  simp [body, stem, front, hc]

theorem head?_text : l.text.head? = some '#' ↔ l.httpOnly := by
  cases h : l.httpOnly <;> simp [text_eq, marker, h]
  case false => simpa [head?_body] using l.sound.domain_hash
  case true  => exact .inl rfl

theorem text_ne_nil : l.text ≠ [] := by
  simp [text_eq, body]

theorem newline_not_mem_text : '\n' ∉ l.text := by
  have hs := l.sound
  have hn : ('\n').toNat < 0x20 := by decide
  have hb : '\n' ∉ l.body := by
    simp [body, stem, front, hs.domain_printable.not_mem hn, hs.path_printable.not_mem hn,
      hs.name_printable.not_mem hn, hs.value_printable.not_mem hn,
      (Printable.boolField _).not_mem hn, (Printable.formatInt64 _).not_mem hn]
  rw [text_eq, List.mem_append]
  rintro (h | h)
  · exact absurd h (by rw [marker]; cases l.httpOnly <;> decide)
  · exact hb h

theorem drop_text (h : l.httpOnly) : l.text.drop httpOnlyPrefix.length = l.body := by
  simp [text_eq, marker, h]

theorem text_of_not_httpOnly (h : l.httpOnly = false) : l.text = l.body := by
  simp [text_eq, marker, h]

theorem isDead_formatInt64 (now : Nat) : isDead now (Glib.formatInt64 l.write.expiry) = l.dead now := by
  simp [isDead, dead, gAsciiStrtoll_formatInt64 l.sound.expiry_inInt64]

theorem sameKey_eq (w : Write) :
    sameKey w l.write.fileDomain l.write.path l.write.name = (l.key == w.key) := by
  rw [Bool.eq_iff_iff]
  simp [sameKey, strcaseEq, key, Write.key, and_assoc]

theorem isHttpOnlyDup_text (w : Write) :
    isHttpOnlyDup w l.text = (l.httpOnly && l.key == w.key) := by
  cases h : l.httpOnly
  case false =>
    have hp : gStrHasPrefix l.text httpOnlyPrefix = false := by
      rw [Bool.eq_false_iff]
      intro hp
      obtain ⟨t, ht⟩ := List.isPrefixOf_iff_prefix.mp hp
      have hh : l.text.head? = some '#' := by rw [← ht]; rfl
      exact absurd (l.head?_text.mp hh) (by simp [h])
    simp [isHttpOnlyDup, hp]
  case true =>
    have hp : gStrHasPrefix l.text httpOnlyPrefix := by
      simp [gStrHasPrefix, text_eq, marker, h]
    simp [isHttpOnlyDup, hp, l.drop_text h, body_fields, sameKey_eq]

theorem keepsLine_text (w : Line) : keepsLine w.write l.text = l.kept w := by
  cases h : l.httpOnly
  case false =>
    have hh := l.head?_text.not.mpr (by simp [h])
    rw [keepsLine, if_neg hh, l.text_of_not_httpOnly h, body_fields, kept, h]
    simp only [isDead_formatInt64, sameKey_eq, Bool.false_eq_true, ↓reduceIte]
    rfl
  case true =>
    rw [keepsLine, if_pos (l.head?_text.mpr h)]
    cases hr : w.write.route <;> simp [isHttpOnlyDup_text, kept, h, hr, bne, Line.key]

theorem not_isspace_of_not_isBlank {c : Char} (hp : 0x20 ≤ c.toNat) (hb : isBlank c = false) :
    gAsciiIsspace c = false := by
  simp only [isBlank, Bool.or_eq_false_iff] at hb
  have ne (d : Char) (hd : d.toNat < 0x20) : (c == d) = false := by
    rw [beq_eq_false_iff_ne]
    rintro rfl
    exact absurd hp (by simpa using hd)
  simp [gAsciiIsspace, hb.left, hb.right, ne '\n' (by decide), ne '\x0c' (by decide),
    ne '\r' (by decide)]

theorem gStrchomp_append {s t : CString} (ht : t ≠ []) (hp : Printable t)
    (hb : ∀ c ∈ t.getLast?, isBlank c = false) : gStrchomp (s ++ t) = s ++ t := by
  obtain ⟨i, c, rfl⟩ := List.eq_nil_or_concat t |>.resolve_left ht
  rw [List.concat_eq_append, ← List.append_assoc]
  exact gStrchomp_of_getLast (not_isspace_of_not_isBlank (hp c (by simp)) (hb c (by simp)))

theorem gStrchomp_text (h : l.write.value ≠ []) : gStrchomp l.text = l.text := by
  have hs : l.text = l.marker ++ l.stem ++ ['\t'] ++ l.write.value := by simp [text_eq, body]
  rw [hs]
  exact gStrchomp_append h l.sound.value_printable l.sound.value_trimmed

-- Without a value the line ends in a tab, which is chomped off together with its last field.
theorem gStrchomp_text_of_value_eq_nil (h : l.write.value = []) :
    gStrchomp l.text = l.marker ++ l.stem := by
  have hs : l.text = l.marker ++ l.front ++ l.write.name ++ ['\t'] := by
    simp [text_eq, body, stem, h]
  rw [hs, gStrchomp_append_of_isspace (by decide),
    gStrchomp_append l.sound.name_ne l.sound.name_printable l.sound.name_trimmed]
  simp [stem]

theorem cookiePart_append (inc : Bool) (s : CString) (hs : s.head? = l.write.fileDomain.head?) :
    cookiePart inc (l.marker ++ s) = if !l.httpOnly || inc then some s else none := by
  cases h : l.httpOnly
  case false =>
    have hh : s.head? ≠ some '#' := by simpa [hs] using l.sound.domain_hash
    simp [cookiePart, marker, h, hh]
  case true =>
    have hh : (httpOnlyPrefix ++ s).head? = some '#' := rfl
    have hp : gStrHasPrefix (httpOnlyPrefix ++ s) httpOnlyPrefix := by simp [gStrHasPrefix]
    simp [cookiePart, marker, h, hh, hp]

theorem readFields_body (now : Nat) (parts : UrlParts) :
    readFields now parts (lineFields l.body) =
      if reaches parts l.write && !l.dead now then some l.pair else none := by
  have hb (b : Bool) : strcaseEq (Cookie.boolField b) "TRUE".toList = b := by cases b <;> decide
  rw [body_fields, readFields]
  simp only [hb, isDead_formatInt64, reaches, touches, decide_eq_true l.sound.name_ne,
    Bool.and_true, pair]
  congr

theorem readLine_text (now : Nat) (parts : UrlParts) (inc : Bool) :
    readLine now parts inc l.text = if l.sent now parts inc then some l.pair else none := by
  by_cases hv : l.write.value = []
  case pos =>
    have hh : l.stem.head? = l.write.fileDomain.head? := by
      rw [← head?_body, body, List.head?_append_of_ne_nil _ (by simp [stem, front_ne_nil])]
    have hn : l.marker ++ l.stem ≠ [] := by simp [stem, front_ne_nil]
    have hf : readFields now parts (lineFields l.stem) = none := by rw [stem_fields]; rfl
    simp only [readLine, l.gStrchomp_text_of_value_eq_nil hv, if_neg hn,
      l.cookiePart_append inc _ hh, sent, hv]
    split <;> simp [hf]
  case neg =>
    rw [readLine, l.gStrchomp_text hv, if_neg l.text_ne_nil, text_eq,
      l.cookiePart_append inc _ l.head?_body]
    simp only [sent, decide_eq_true hv, Bool.and_true, Bool.and_assoc]
    cases hi : (!l.httpOnly || inc) <;> simp [readFields_body]

end Line

namespace Lines

variable (ls : Lines)

theorem splitOn_contents : (contents ls).splitOn '\n' = ls.map Line.text ++ [[]] := by
  induction ls
  case nil => rfl
  case cons l ls hi =>
    have hc : contents (l :: ls) = l.text ++ '\n' :: contents ls := by simp [contents, unlines]
    rw [hc, List.splitOn_append_cons_self_of_not_mem l.newline_not_mem_text, hi]
    rfl

theorem contents_eq_nil : contents ls = [] ↔ ls = [] := by
  cases ls <;> simp [contents, unlines]

theorem fileLines_contents : fileLines (contents ls) = ls.map Line.text := by
  rw [fileLines, gStrsplitAll]
  split
  case isTrue h => simp [(contents_eq_nil ls).mp h]
  case isFalse h =>
    rw [splitOn_contents, List.filter_append, List.filter_eq_self.mpr]
    · simp
    · simp [Line.text_ne_nil]

theorem isBlocked_contents (w : Line) : isBlocked w.write (contents ls) = ls.blocked w := by
  simp [isBlocked, blocked, fileLines_contents, Line.isHttpOnlyDup_text, Function.comp_def,
    Line.key]

-- The file that `rewriteFile` produces from lines is again one of lines.
theorem rewriteFile_contents (w : Line) :
    rewriteFile w.write (contents ls) = contents (ls.store w) := by
  have hf : (ls.map Line.text).filter (keepsLine w.write) =
      (ls.filter (·.kept w)).map Line.text := by
    rw [List.filter_map]
    congr 1
    exact List.filter_congr fun l _ => l.keepsLine_text w
  rw [rewriteFile, fileLines_contents, isBlocked_contents, hf, contents, store, List.map_append]
  split <;> rfl

theorem filterMap_readLine (now : Nat) (parts : UrlParts) (inc : Bool) :
    (gStrsplitAll (contents ls) '\n').filterMap (readLine now parts inc) =
      ls.pairs now parts inc := by
  have hr : readLine now parts inc [] = none := rfl
  have hm : (ls.map Line.text).filterMap (readLine now parts inc) = ls.pairs now parts inc := by
    rw [List.filterMap_map, pairs, ← List.filterMap_eq_map, ← List.filterMap_eq_filter,
      List.filterMap_filterMap]
    congr 1
    funext l
    cases h : l.sent now parts inc <;> simp [Line.readLine_text, Option.guard, h]
  rw [gStrsplitAll]
  split
  case isTrue h => simp [(contents_eq_nil ls).mp h, pairs]
  case isFalse h => simp [splitOn_contents, hr, hm]

end Lines

end Nordstjernen.Net.Cookie

namespace Nordstjernen.Net.Cookie

variable {l w : Line}

namespace Line

theorem route_eq_http_of_httpOnly (h : l.httpOnly) : l.write.route = .http := by
  simp only [httpOnly, Bool.and_eq_true, beq_iff_eq] at h
  exact h.left

theorem kept_iff (hr : l.write.route = w.write.route) :
    l.kept w ↔ l.key ≠ w.key ∧ (l.httpOnly ∨ l.dead w.write.now = false) := by
  rw [kept]
  split
  case isTrue h  => simp [← hr, route_eq_http_of_httpOnly h, h]
  case isFalse h => simp [h]

end Line

namespace Lines

variable {ls ws : Lines} {route : Route}

-- Whether all lines are of the route whose file they are in.
def Routed (route : Route) (ls : Lines) : Prop :=
  ∀ l ∈ ls, l.write.route = route

-- The file of the scripts has no `HttpOnly` line, so nothing is ever blocked.
theorem Routed.not_blocked (h : ls.Routed w.write.route) : blocked w ls = false := by
  simp only [blocked, Bool.and_eq_false_iff, List.any_eq_false]
  cases hr : w.write.route
  case http => exact .inl rfl
  case js =>
    right
    intro l hl hm
    have hh := Line.route_eq_http_of_httpOnly (Bool.and_eq_true_iff.mp hm).left
    rw [h l hl, hr] at hh
    cases hh

theorem Routed.mem_store (h : ls.Routed w.write.route) :
    l ∈ ls.store w ↔
      (l = w ∧ w.write.expired = false) ∨
      (l ∈ ls ∧ l.key ≠ w.key ∧ (l.httpOnly ∨ l.dead w.write.now = false)) := by
  rw [store, List.mem_append, List.mem_filter, h.not_blocked]
  have hk : l ∈ ls ∧ l.kept w ↔ l ∈ ls ∧ l.key ≠ w.key ∧ (l.httpOnly ∨ l.dead w.write.now = false) :=
    and_congr_right fun hl => Line.kept_iff (h l hl)
  rw [hk, or_comm]
  cases w.write.expired <;> simp

theorem Routed.store (h : ls.Routed route) (hw : w.write.route = route) :
    (ls.store w).Routed route := by
  subst hw
  intro l hl
  cases h.mem_store.mp hl
  case inl hl => exact hl.left ▸ rfl
  case inr hl => exact h l hl.left

end Lines

end Nordstjernen.Net.Cookie
