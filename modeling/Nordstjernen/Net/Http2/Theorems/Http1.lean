import Nordstjernen.Net.Http2.Http1
import Mathlib.Data.List.Infix

open Nordstjernen.Glib

namespace Nordstjernen.Net.Http2.Http1

section Lines

variable {s t l r buf : CString} {a b i n : Nat}

def firstCrlf (buf : CString) (a : Nat) : Option Nat :=
  (List.range' a (buf.length - 1 - a)).find? (crlfAt buf)

theorem crlfAt_iff : crlfAt s i ↔ s[i]? = some '\r' ∧ s[i + 1]? = some '\n' := by
  simp [crlfAt]

theorem lt_of_crlfAt (h : crlfAt s i) : i + 1 < s.length :=
  (List.getElem?_eq_some_iff.mp (crlfAt_iff.mp h).right).choose

theorem firstCrlf_eq_some_iff :
    firstCrlf buf a = some i ↔ a ≤ i ∧ crlfAt buf i ∧ ∀ k, a ≤ k → k < i → ¬crlfAt buf k := by
  rw [firstCrlf, List.find?_range'_eq_some]
  constructor
  case mp =>
    intro ⟨hp, hm, hk⟩
    have hm := List.mem_range'_1.mp hm
    exact ⟨hm.left, hp, fun k h₁ h₂ => by simpa using hk k h₁ h₂⟩
  case mpr =>
    intro ⟨ha, hp, hk⟩
    have hl := lt_of_crlfAt hp
    exact ⟨hp, List.mem_range'_1.mpr ⟨ha, by omega⟩, fun k h₁ h₂ => by simpa using hk k h₁ h₂⟩

theorem firstCrlf_congr (h : ∀ i, a ≤ i ∧ crlfAt buf i ↔ b ≤ i ∧ crlfAt buf i) :
    firstCrlf buf a = firstCrlf buf b := by
  refine Option.ext fun i => ?_
  rw [firstCrlf_eq_some_iff, firstCrlf_eq_some_iff]
  have hk (k : Nat) : (a ≤ k → k < i → ¬crlfAt buf k) ↔ (b ≤ k → k < i → ¬crlfAt buf k) := by
    have := h k
    tauto
  have hi := h i
  rw [forall_congr' hk]
  tauto

theorem splitLine_eq : splitLine s = (firstCrlf s 0).map fun i => (s.take i, s.drop (i + 2)) := by
  rw [splitLine, firstCrlf, List.range_eq_range', Nat.sub_zero]

theorem crlfAt_append (h : i + 1 < s.length) : crlfAt (s ++ t) i = crlfAt s i := by
  rw [crlfAt, crlfAt, List.getElem?_append_left h, List.getElem?_append_left (by omega)]

theorem crlfAt_drop : crlfAt (s.drop n) i = crlfAt s (n + i) := by
  rw [crlfAt, crlfAt, List.getElem?_drop, List.getElem?_drop, Nat.add_assoc]

theorem crlfAt_length : crlfAt (l ++ crlf ++ r) l.length := by
  simp [crlfAt, crlf]

theorem splitLine_eq_some_iff :
    splitLine s = some (l, r) ↔ s = l ++ crlf ++ r ∧ ∀ k < l.length, ¬crlfAt s k := by
  rw [splitLine_eq, Option.map_eq_some_iff]
  constructor
  case mp =>
    rintro ⟨i, hi, he⟩
    obtain ⟨rfl, rfl⟩ := Prod.mk.inj he
    obtain ⟨-, hc, hk⟩ := firstCrlf_eq_some_iff.mp hi
    have hl := lt_of_crlfAt hc
    have hlen : (s.take i).length = i := by rw [List.length_take]; omega
    obtain ⟨h₁, h₂⟩ := crlfAt_iff.mp hc
    refine ⟨?_, fun k h => hk k (Nat.zero_le k) (hlen ▸ h)⟩
    have hd : s.drop i = crlf ++ s.drop (i + 2) := by
      have e₁ : s[i] = '\r' := (List.getElem?_eq_some_iff.mp h₁).choose_spec
      have e₂ : s[i + 1] = '\n' := (List.getElem?_eq_some_iff.mp h₂).choose_spec
      rw [List.drop_eq_getElem_cons (by omega), List.drop_eq_getElem_cons hl, e₁, e₂]
      rfl
    rw [List.append_assoc, ← hd, List.take_append_drop]
  case mpr =>
    rintro ⟨rfl, hk⟩
    refine ⟨l.length, firstCrlf_eq_some_iff.mpr ⟨Nat.zero_le _, crlfAt_length, fun k _ h => hk k h⟩, ?_⟩
    rw [List.append_assoc, List.take_left, ← List.append_assoc]
    congr
    exact List.drop_left' (by simp [crlf])

theorem splitLine_append (h : splitLine s = some (l, r)) : splitLine (s ++ t) = some (l, r ++ t) := by
  obtain ⟨rfl, hk⟩ := splitLine_eq_some_iff.mp h
  refine splitLine_eq_some_iff.mpr ⟨(List.append_assoc _ _ _), fun k hl => ?_⟩
  rw [crlfAt_append (by simp [crlf]; omega)]
  exact hk k hl

theorem length_of_splitLine (h : splitLine s = some (l, r)) : s.length = l.length + 2 + r.length := by
  obtain ⟨rfl, -⟩ := splitLine_eq_some_iff.mp h
  simp only [List.length_append, crlf, List.length_cons, List.length_nil]

theorem splitLine_drop : splitLine (buf.drop a) =
    (firstCrlf buf a).map fun i => ((buf.drop a).take (i - a), buf.drop (i + 2)) := by
  refine Option.ext fun x => ?_
  rw [splitLine_eq, Option.map_eq_some_iff, Option.map_eq_some_iff]
  constructor
  case mp =>
    rintro ⟨i, hi, rfl⟩
    obtain ⟨-, hc, hk⟩ := firstCrlf_eq_some_iff.mp hi
    refine ⟨a + i, firstCrlf_eq_some_iff.mpr ⟨Nat.le_add_right a i, crlfAt_drop ▸ hc, fun k h₁ h₂ => ?_⟩, ?_⟩
    · have h := hk (k - a) (Nat.zero_le _) (by omega)
      rwa [crlfAt_drop, Nat.add_sub_cancel' h₁] at h
    · rw [Nat.add_sub_cancel_left, List.drop_drop, Nat.add_assoc]
  case mpr =>
    rintro ⟨i, hi, rfl⟩
    obtain ⟨ha, hc, hk⟩ := firstCrlf_eq_some_iff.mp hi
    refine ⟨i - a, firstCrlf_eq_some_iff.mpr ⟨Nat.zero_le _, ?_, fun k _ h => ?_⟩, ?_⟩
    · rwa [crlfAt_drop, Nat.add_sub_cancel' ha]
    · rw [crlfAt_drop]
      exact hk (a + k) (Nat.le_add_right a k) (by omega)
    · rw [List.drop_drop]
      congr 2
      omega

-- The lines of the start of some bytes are lines of the whole.
theorem linesFuel_eq {n m : Nat} (hn : s.length ≤ n) (hm : s.length ≤ m) : linesFuel n s = linesFuel m s := by
  induction n generalizing s m
  case zero =>
    obtain rfl := List.eq_nil_of_length_eq_zero (Nat.le_zero.mp hn)
    cases m <;> rfl
  case succ n hi =>
    cases m
    case zero =>
      obtain rfl := List.eq_nil_of_length_eq_zero (Nat.le_zero.mp hm)
      rfl
    case succ m =>
      rw [linesFuel, linesFuel]
      cases h : splitLine s
      case none   => rfl
      case some x =>
        have hl := length_of_splitLine h
        exact congrArg _ (hi (by omega) (by omega))

theorem linesOf_eq_nil (h : splitLine s = none) : linesOf s = [] := by
  rw [linesOf]
  cases s.length
  case zero   => rfl
  case succ n => rw [linesFuel, h]

theorem linesOf_eq_cons (h : splitLine s = some (l, r)) : linesOf s = l :: linesOf r := by
  have hl := length_of_splitLine h
  have hs : s.length = l.length + 1 + r.length + 1 := by omega
  rw [linesOf, hs, linesFuel, h, linesOf]
  exact congrArg _ (linesFuel_eq (by omega) le_rfl)

theorem linesOf_append : ∃ more, linesOf (s ++ t) = linesOf s ++ more := by
  induction hn : s.length using Nat.strong_induction_on generalizing s
  case h n hi =>
    cases h : splitLine s
    case none   => exact ⟨linesOf (s ++ t), by rw [linesOf_eq_nil h, List.nil_append]⟩
    case some x =>
      have hl := length_of_splitLine h
      obtain ⟨more, hm⟩ := hi x.2.length (by omega) rfl
      exact ⟨more, by rw [linesOf_eq_cons (splitLine_append h), linesOf_eq_cons h, hm, List.cons_append]⟩

theorem length_linesOf : (linesOf s).length ≤ s.length := by
  induction hn : s.length using Nat.strong_induction_on generalizing s
  case h n hi =>
    cases h : splitLine s
    case none   => rw [linesOf_eq_nil h]; exact Nat.zero_le n
    case some x =>
      have hl := length_of_splitLine h
      have hx := hi x.2.length (by omega) rfl
      rw [linesOf_eq_cons h, List.length_cons]
      omega

end Lines

section Reads

variable {buf s l rest : CString} {pos search : Nat} {reads : Reads}

-- The search goes on from the last byte, before which there is nothing to find.
theorem firstCrlf_append {tmp : CString} (hp : pos ≤ buf.length) (hn : firstCrlf buf pos = none)
    (hl : pos = 0 ∨ buf[pos - 1]? = some '\n') :
    firstCrlf (buf ++ tmp) (buf.length - 1) = firstCrlf (buf ++ tmp) pos := by
  refine firstCrlf_congr fun i => and_congr_left fun hc => ?_
  constructor
  case mp =>
    intro hi
    by_contra hlt
    -- The byte in front of a line ends the line before it.
    have hi : i = pos - 1 ∧ i + 1 = buf.length := by omega
    rcases hl with rfl | hl
    · omega
    · have hr := (crlfAt_iff.mp hc).left
      rw [hi.left, List.getElem?_append_left (by omega), hl] at hr
      cases hr
  case mpr =>
    intro hi
    by_contra hlt
    rw [crlfAt_append (by omega)] at hc
    have hf : (firstCrlf buf pos).isSome := List.find?_isSome.mpr ⟨i, List.mem_range'_1.mpr ⟨hi, by omega⟩, hc⟩
    rw [hn] at hf
    cases hf

-- A line that was read: the reads that were needed, and what is ahead after it.
structure Taken (buf : CString) (pos : Nat) (reads : Reads) (l rest : CString) (new reads' : Reads) : Prop where
  reads    : reads = new ++ reads'
  ne_nil   : ∀ tmp ∈ new, tmp ≠ []
  ahead    : rest = (buf ++ new.flatten).drop (pos + l.length + 2) ++ window (buf ++ new.flatten).length reads'
  pos_le   : pos + l.length + 2 ≤ (buf ++ new.flatten).length
  newline  : (buf ++ new.flatten)[pos + l.length + 1]? = some '\n'
  needed   : new = [] ∨ (buf ++ new.dropLast.flatten).length < pos + l.length + 2

namespace Reader

theorem readLineFrom_found {i : Nat} (h : firstCrlf buf search = some i) :
    readLineFrom buf pos search reads =
      (some ((buf.drop pos).take (i - pos)), { buf, pos := i + 2, reads }) := by
  cases reads <;> rw [readLineFrom] <;>
    rw [show (List.range' search (buf.length - 1 - search)).find? (crlfAt buf) = some i from h]

theorem readLineFrom_nil (h : firstCrlf buf search = none) :
    readLineFrom buf pos search [] = (none, { buf, pos, reads := [] }) := by
  rw [readLineFrom]
  rw [show (List.range' search (buf.length - 1 - search)).find? (crlfAt buf) = none from h]

theorem readLineFrom_cons {tmp : CString} {tail : Reads} (h : firstCrlf buf search = none) :
    readLineFrom buf pos search (tmp :: tail) =
      if tmp = [] then (none, { buf, pos, reads := tmp :: tail })
      else if lineLimit < (buf ++ tmp).length then (none, { buf := buf ++ tmp, pos, reads := tail })
      else readLineFrom (buf ++ tmp) pos (buf.length - 1) tail := by
  rw [readLineFrom]
  rw [show (List.range' search (buf.length - 1 - search)).find? (crlfAt buf) = none from h]

variable (reads) in
-- A line that is there already.
theorem readLineFrom_spec_found {i : Nat} (hp : pos ≤ buf.length) (hf : firstCrlf buf pos = some i)
    (hs : firstCrlf buf search = firstCrlf buf pos) :
    ∃ l rest, splitLine (buf.drop pos ++ window buf.length reads) = some (l, rest) ∧
      Taken buf pos reads l rest [] reads ∧ readLineFrom buf pos search reads =
        (some l, { buf, pos := pos + l.length + 2, reads }) := by
  obtain ⟨hi, hc, -⟩ := firstCrlf_eq_some_iff.mp hf
  have hlt := lt_of_crlfAt hc
  have hlen : ((buf.drop pos).take (i - pos)).length = i - pos := by
    rw [List.length_take, List.length_drop]
    omega
  have he : pos + (i - pos) = i := by omega
  have hsplit : splitLine (buf.drop pos) = some ((buf.drop pos).take (i - pos), buf.drop (i + 2)) := by
    rw [splitLine_drop, hf, Option.map_some]
  refine ⟨_, _, splitLine_append hsplit, ⟨rfl, nofun, ?_, ?_, ?_, .inl rfl⟩, ?_⟩
  · rw [hlen, he, List.flatten_nil, List.append_nil]
  · rw [hlen, he, List.flatten_nil, List.append_nil]
    omega
  · rw [hlen, he, List.flatten_nil, List.append_nil]
    exact (crlfAt_iff.mp hc).right
  · rw [readLineFrom_found (hs.trans hf), hlen, he]

theorem readLineFrom_spec (hp : pos ≤ buf.length) (hs : firstCrlf buf search = firstCrlf buf pos)
    (hl : pos = 0 ∨ buf[pos - 1]? = some '\n') :
    match splitLine (buf.drop pos ++ window buf.length reads) with
    | none           => (readLineFrom buf pos search reads).1 = none
    | some (l, rest) => ∃ new reads', Taken buf pos reads l rest new reads' ∧ readLineFrom buf pos search reads =
        (some l, { buf := buf ++ new.flatten, pos := pos + l.length + 2, reads := reads' }) := by
  induction reads generalizing buf search
  all_goals cases hf : firstCrlf buf pos
  case nil.some i =>
    obtain ⟨l, rest, hsplit, ht, hr⟩ := readLineFrom_spec_found [] hp hf hs
    rw [hsplit]
    exact ⟨[], [], ht, by rw [hr, List.flatten_nil, List.append_nil]⟩
  case cons.some tmp tail hi i =>
    obtain ⟨l, rest, hsplit, ht, hr⟩ := readLineFrom_spec_found (tmp :: tail) hp hf hs
    rw [hsplit]
    exact ⟨[], tmp :: tail, ht, by rw [hr, List.flatten_nil, List.append_nil]⟩
  case nil.none =>
    have hn : splitLine (buf.drop pos) = none := by rw [splitLine_drop, hf, Option.map_none]
    rw [window, List.append_nil, hn, readLineFrom_nil (hs.trans hf)]
  case cons.none tmp tail hi =>
    have hn : splitLine (buf.drop pos) = none := by rw [splitLine_drop, hf, Option.map_none]
    rw [window, readLineFrom_cons (hs.trans hf)]
    by_cases ht : tmp = []
    case pos => rw [if_pos (.inl ht), if_pos ht, List.append_nil, hn]
    case neg =>
      rw [if_neg ht, List.length_append]
      by_cases hlim : lineLimit < buf.length + tmp.length
      case pos => rw [if_pos (.inr hlim), if_pos hlim, List.append_nil, hn]
      case neg =>
        rw [if_neg (not_or_intro ht hlim), if_neg hlim]
        have h := @hi (buf ++ tmp) (buf.length - 1) (by rw [List.length_append]; omega) (firstCrlf_append hp hf hl)
          (hl.imp_right fun hl => by
            rw [List.getElem?_append_left (List.getElem?_eq_some_iff.mp hl).choose, hl])
        rw [List.drop_append_of_le_length hp, List.length_append, List.append_assoc] at h
        cases hsplit : splitLine (buf.drop pos ++ (tmp ++ window (buf.length + tmp.length) tail))
        case none => 
          rw [hsplit] at h
          exact h
        case some x =>
          rw [hsplit] at h
          obtain ⟨new, reads', htaken, hr⟩ := h
          refine ⟨tmp :: new, reads', ?_, ?_⟩
          · refine ⟨congrArg _ htaken.reads, List.forall_mem_cons.mpr ⟨ht, htaken.ne_nil⟩, ?_, ?_, ?_, .inr ?_⟩
            · simpa using htaken.ahead
            · simpa using htaken.pos_le
            · simpa using htaken.newline
            · cases htaken.needed
              case inl hnew =>
                -- Otherwise the line would have been there before.
                by_contra hle
                obtain ⟨he, -⟩ := splitLine_eq_some_iff.mp hsplit
                have hc := crlfAt_length (l := x.1) (r := x.2)
                subst hnew
                rw [List.dropLast_singleton, List.flatten_nil, List.append_nil] at hle
                rw [← he, crlfAt_append (by rw [List.length_drop]; omega), crlfAt_drop] at hc
                have hf' : (firstCrlf buf pos).isSome :=
                  List.find?_isSome.mpr ⟨_, List.mem_range'_1.mpr ⟨Nat.le_add_right _ _, by omega⟩, hc⟩
                rw [hf] at hf'
                cases hf'
              case inr hneeded =>
                cases new
                case nil        =>
                  simp only [List.dropLast_nil, List.dropLast_singleton, List.flatten_nil, List.append_nil,
                    List.length_append] at hneeded ⊢
                  omega
                case cons c new => simpa [List.dropLast_cons_cons] using hneeded
          · rw [hr, List.flatten_cons, List.append_assoc]

end Reader

theorem stream_cons {tmp : CString} {tail : Reads} (h : tmp ≠ []) : stream (tmp :: tail) = tmp ++ stream tail := by
  rw [stream, List.takeWhile_cons_of_pos (by simpa using h), List.flatten_cons]
  rfl

theorem stream_append {new tail : Reads} (h : ∀ tmp ∈ new, tmp ≠ []) :
    stream (new ++ tail) = new.flatten ++ stream tail := by
  induction new
  case nil             => rfl
  case cons tmp new hi =>
    rw [List.cons_append, stream_cons (h _ List.mem_cons_self), hi fun c hc => h c (List.mem_cons_of_mem _ hc),
      List.flatten_cons, List.append_assoc]

variable (reads) in
theorem window_prefix (got : Nat) : ∃ more, stream reads = window got reads ++ more := by
  induction reads generalizing got
  case nil => exact ⟨[], rfl⟩
  case cons tmp tail hi =>
    rw [window]
    split
    case isTrue h  => exact ⟨_, rfl⟩
    case isFalse h =>
      obtain ⟨more, hm⟩ := hi (got + tmp.length)
      exact ⟨more, by rw [stream_cons fun he => h (.inl he), hm, List.append_assoc]⟩

-- The reads that were taken are those which the bytes up to `pos` need.
structure Reader.Follows (r : Reader) (reads : Reads) : Prop where
  taken : ∃ taken, reads = taken ++ r.reads ∧ (∀ tmp ∈ taken, tmp ≠ []) ∧ r.buf = taken.flatten ∧
    (taken = [] ∨ taken.dropLast.flatten.length < r.pos)
  pos_le  : r.pos ≤ r.buf.length
  newline : r.pos = 0 ∨ r.buf[r.pos - 1]? = some '\n'

namespace Reader

variable {r : Reader}

-- The bytes in which lines are looked for.
def ahead (r : Reader) : CString :=
  r.buf.drop r.pos ++ window r.buf.length r.reads

theorem follows_start : Follows { reads } reads :=
  ⟨⟨[], rfl, nofun, rfl, .inl rfl⟩, le_rfl, .inl rfl⟩

-- One line.
theorem Follows.readLine (h : r.Follows reads) :
    match splitLine r.ahead with
    | none           => ∃ r', r.readLine = (none, r')
    | some (l, rest) => ∃ r', r.readLine = (some l, r') ∧ r'.Follows reads ∧ r'.ahead = rest ∧
        r'.pos = r.pos + l.length + 2 := by
  have hs := @readLineFrom_spec r.buf r.pos r.pos r.reads h.pos_le rfl h.newline
  rw [← ahead] at hs
  cases hsplit : splitLine r.ahead
  case none =>
    rw [hsplit] at hs
    exact ⟨_, Prod.ext hs rfl⟩
  case some x =>
    rw [hsplit] at hs
    obtain ⟨new, reads', ht, hr⟩ := hs
    obtain ⟨taken, hreads, hne, hbuf, hneeded⟩ := h.taken
    refine ⟨_, hr, ⟨⟨taken ++ new, ?_, ?_, ?_, ?_⟩, ht.pos_le, .inr ht.newline⟩, ht.ahead.symm, rfl⟩
    · rw [hreads, ht.reads, List.append_assoc]
    · exact fun c hc => (List.mem_append.mp hc).elim (hne c) (ht.ne_nil c)
    · rw [List.flatten_append, hbuf]
    · cases ht.needed
      case inl hnew =>
        subst hnew
        rw [List.append_nil]
        exact hneeded.imp_right fun hlt => by simp only; omega
      case inr hlt =>
        cases new
        case nil =>
          refine hneeded.imp ?_ ?_
          · exact fun he => by rw [he]; rfl
          · exact fun hlt => by rw [List.append_nil]; simp only; omega
        case cons c new =>
          right
          rw [List.dropLast_append_of_ne_nil (List.cons_ne_nil c new), List.flatten_append, ← hbuf]
          exact hlt

theorem drain_append {new tail : Reads} {n : Nat} (hne : ∀ tmp ∈ new, tmp ≠ []) (hn : n ≤ new.flatten.length)
    (hlt : new = [] ∨ new.dropLast.flatten.length < n) : drain n (new ++ tail) = (new.flatten.drop n, tail) := by
  induction new generalizing n
  case nil =>
    obtain rfl := Nat.le_zero.mp hn
    cases tail <;> rfl
  case cons tmp new hi =>
    have ht := hne tmp List.mem_cons_self
    replace hlt := hlt.resolve_left (List.cons_ne_nil tmp new)
    rw [List.cons_append, drain, if_neg (by omega)]
    cases new
    case nil =>
      rw [List.flatten_cons, List.flatten_nil, List.append_nil] at hn ⊢
      rw [if_pos hn]
      rfl
    case cons c new =>
      rw [List.dropLast_cons_cons, List.flatten_cons, List.length_append] at hlt
      rw [List.flatten_cons, List.length_append] at hn
      have hc : 0 < c.length := List.length_pos_iff.mpr (hne c (List.mem_cons_of_mem _ List.mem_cons_self))
      by_cases hle : n ≤ tmp.length
      case pos => omega
      case neg =>
        rw [if_neg hle, hi (fun c hc => hne c (List.mem_cons_of_mem _ hc)) (by omega) (.inr (by omega)),
          List.flatten_cons (l := tmp), List.drop_append, List.drop_eq_nil_of_le (Nat.le_of_not_le hle), List.nil_append]

theorem Follows.drain (h : r.Follows reads) : drain r.pos reads = (r.buf.drop r.pos, r.reads) := by
  obtain ⟨taken, hreads, hne, hbuf, hlt⟩ := h.taken
  rw [hreads, hbuf]
  exact drain_append hne (hbuf ▸ h.pos_le) hlt

theorem Follows.restAfter (h : r.Follows reads) : (stream reads).drop r.pos = restAfter r.pos reads := by
  obtain ⟨taken, hreads, hne, hbuf, hlt⟩ := h.taken
  rw [Http1.restAfter, h.drain, hreads, stream_append hne, ← hbuf, List.drop_append_of_le_length h.pos_le]

end Reader

end Reads

section HeadLines

variable {h : Head} {line : CString} {block : List CString}

namespace Head

variable (h line) in
-- A line of a field changes nothing that is about the status.
theorem field_status : (h.field line).status = h.status ∧ (h.field line).informational = h.informational ∧
    (h.field line).statusParsed = h.statusParsed ∧ (h.field line).fed = h.fed ++ [gStrndup line ++ crlf] := by
  rw [field]
  split_ifs <;> exact ⟨rfl, rfl, rfl, rfl⟩

theorem next_of_informational (hp : h.statusParsed) (hi : h.informational) : h.next line = h := by
  rw [next, if_neg (by simp [hp]), if_pos hi]

theorem next_of_final (hp : h.statusParsed) (hi : h.informational = false) : h.next line = h.field line := by
  rw [next, if_neg (by simp [hp]), if_neg (by simp [hi])]

theorem foldl_next_of_informational (hp : h.statusParsed) (hi : h.informational) : block.foldl next h = h := by
  induction block
  case nil             => rfl
  case cons l block ih => rw [List.foldl_cons, next_of_informational hp hi, ih]

theorem foldl_next_of_final (hp : h.statusParsed) (hi : h.informational = false) :
    (block.foldl next h).statusParsed ∧ (block.foldl next h).informational = false ∧
    (block.foldl next h).fed = h.fed ++ block.map (gStrndup · ++ crlf) := by
  induction block generalizing h
  case nil => exact ⟨hp, hi, (List.append_nil _).symm⟩
  case cons l block ih =>
    obtain ⟨-, h₁, h₂, h₃⟩ := field_status h l
    have hb := ih (h := h.field l) (by rw [h₂, hp]) (by rw [h₁, hi])
    rw [List.foldl_cons, next_of_final hp hi]
    refine ⟨hb.left, hb.right.left, ?_⟩
    rw [hb.right.right, h₃, List.append_assoc]
    rfl

end Head

theorem headAfter_cons : headAfter (line :: block) = block.foldl Head.next (({} : Head).statusLine line) :=
  rfl

theorem headAfter_append : headAfter (block ++ [line]) = (headAfter block).next line :=
  List.foldl_concat ..

theorem isInterim_cons : isInterim (line :: block) = isInformational ((statusOf? line).getD 0) :=
  rfl

theorem statusParsed_headAfter : (headAfter block).statusParsed = decide (block ≠ []) := by
  cases block
  case nil             => rfl
  case cons line block =>
    rw [headAfter_cons]
    cases hi : (({} : Head).statusLine line).informational
    case true  => rw [Head.foldl_next_of_informational rfl hi]; rfl
    case false => exact (Head.foldl_next_of_final rfl hi).left

theorem informational_headAfter : (headAfter block).informational = isInterim block := by
  cases block
  case nil             => rfl
  case cons line block =>
    have hs : (({} : Head).statusLine line).informational = isInterim (line :: block) := rfl
    rw [headAfter_cons, ← hs]
    cases hi : (({} : Head).statusLine line).informational
    case true  => rw [Head.foldl_next_of_informational rfl hi, hi]
    case false => exact (Head.foldl_next_of_final rfl hi).right.left

-- Nothing remains of an interim block.
theorem headAfter_of_isInterim (hi : isInterim block) :
    { headAfter block with informational := false, statusParsed := false, status := 0 } = headAfter [] := by
  cases block
  case nil             => cases hi
  case cons line block =>
    have hs : (({} : Head).statusLine line).informational = true := hi
    rw [headAfter_cons, Head.foldl_next_of_informational rfl hs, Head.statusLine]
    simp only [show isInformational ((statusOf? line).getD 0) = true from hi, if_true]
    rfl

theorem fed_headAfter (hi : isInterim block = false) : (headAfter block).fed = block.map (gStrndup · ++ crlf) := by
  cases block
  case nil             => rfl
  case cons line block =>
    have hs : (({} : Head).statusLine line).informational = false := hi
    have hf : (({} : Head).statusLine line).fed = [gStrndup line ++ crlf] := by
      rw [Head.statusLine]
      simp only [show isInformational ((statusOf? line).getD 0) = false from hi, Bool.false_eq_true, if_false]
      rfl
    rw [headAfter_cons, (Head.foldl_next_of_final rfl hs).right.right, hf]
    rfl

theorem headOf_not_interim {lines : List CString} {used u : Nat} {b : List CString}
    (h : headOf block used lines = .ends b u) : isInterim b = false := by
  induction lines generalizing block used
  case nil => cases h
  case cons line lines ih =>
    rw [headOf] at h
    split_ifs at h with h₁ h₂
    · exact ih h
    · exact ih h
    · obtain ⟨rfl, -⟩ := HeadEnd.ends.inj h
      exact Bool.not_eq_true _ ▸ h₂

theorem headOf_append {lines more : List CString} {used u : Nat} {b : List CString}
    (h : headOf block used lines = .ends b u) : headOf block used (lines ++ more) = .ends b u := by
  induction lines generalizing block used
  case nil => cases h
  case cons line lines ih =>
    rw [headOf] at h
    rw [List.cons_append, headOf]
    split_ifs at h ⊢
    · exact ih h
    · exact ih h
    · exact h

-- The loop over the header lines finds what the lines that are ahead hold.
theorem headLoop_eq (block : List CString) {n : Nat} {r : Reader} {reads : Reads} (hf : r.Follows reads)
    (hn : (linesOf r.ahead).length < n) :
    match headOf block r.pos (linesOf r.ahead) with
    | .breaksOff b =>
      if b = [] then headLoop n r (headAfter block) = none
      else ∃ r', headLoop n r (headAfter block) = some (headAfter b, r', false)
    | .ends b used => ∃ r', headLoop n r (headAfter block) = some (headAfter b, r', true) ∧ r'.Follows reads ∧
        r'.pos = used := by
  induction n generalizing r block
  case zero => exact absurd hn (Nat.not_lt_zero _)
  case succ n ih =>
    have hl := hf.readLine
    cases hsplit : splitLine r.ahead
    case none =>
      rw [hsplit] at hl
      obtain ⟨r', hr⟩ := hl
      rw [linesOf_eq_nil hsplit, headOf, headLoop, hr]
      simp only [statusParsed_headAfter]
      split
      case isTrue h  => simp [h]
      case isFalse h => exact ⟨r', by simp [h]⟩
    case some x =>
      rw [hsplit] at hl
      obtain ⟨r', hr, hf', ha, hp⟩ := hl
      rw [linesOf_eq_cons hsplit] at hn ⊢
      rw [headOf, headLoop, hr, ← ha]
      have hn' : (linesOf r'.ahead).length < n := by
        rw [List.length_cons, ← ha] at hn
        omega
      obtain ⟨l, rest⟩ := x
      cases l
      case cons c s =>
        rw [if_pos (List.cons_ne_nil c s)]
        have h := ih (block ++ [c :: s]) hf' hn'
        rw [headAfter_append, hp] at h
        exact h
      case nil =>
        rw [if_neg (by simp)]
        simp only [informational_headAfter]
        rw [List.length_nil, Nat.add_zero] at hp
        by_cases hi : isInterim block
        case pos =>
          rw [if_pos hi, if_pos hi, headAfter_of_isInterim hi, ← hp]
          exact ih [] hf' hn'
        case neg =>
          rw [if_neg hi, if_neg hi]
          exact ⟨r', rfl, hf', hp⟩

end HeadLines

section Body

variable {budget need got : Nat} {clen : Option Nat} {raw s body : CString} {reads : Reads}

theorem keeps_of_le (h : need ≤ got) : Keeps budget need got reads := by
  cases reads
  case nil  => exact h
  case cons => exact .inl h

theorem collect_prefix : collect clen budget raw reads <+: raw ++ stream reads := by
  induction reads generalizing raw
  case nil => exact List.prefix_append _ _
  case cons tmp tail ih =>
    rw [collect]
    split
    case isTrue h  => exact List.prefix_append _ _
    case isFalse h =>
      have ht : tmp ≠ [] := fun he => h (by simp [he])
      rw [stream_cons ht, ← List.append_assoc]
      split
      case isTrue  => exact List.prefix_append _ _
      case isFalse => exact ih

-- What is needed of a body is read if the budget leaves room for it.
theorem le_length_collect (hc : ∀ n ∈ clen, n = need) (hn : need ≤ (raw ++ stream reads).length) :
    need ≤ (collect clen budget raw reads).length ↔ Keeps budget need raw.length reads := by
  induction reads generalizing raw
  case nil => exact Iff.rfl
  case cons tmp tail ih =>
    rw [collect, Keeps]
    by_cases hstop : clen.any (· ≤ raw.length) || tmp = []
    case pos =>
      have hle : need ≤ raw.length := by
        cases Bool.or_eq_true _ _ ▸ hstop
        case inl h =>
          cases clen
          case none   => cases h
          case some n => exact hc n rfl ▸ of_decide_eq_true h
        case inr h =>
          have he : stream (tmp :: tail) = [] := by rw [of_decide_eq_true h]; rfl
          rwa [he, List.append_nil] at hn
      rw [if_pos hstop]
      exact iff_of_true hle (.inl hle)
    case neg =>
      have ht : tmp ≠ [] := fun he => hstop (by simp [he])
      rw [if_neg hstop, List.length_append]
      rw [stream_cons ht, ← List.append_assoc] at hn
      by_cases hb : budget * 2 < raw.length + tmp.length
      case pos =>
        rw [if_pos hb, List.length_append]
        constructor
        case mp  => exact fun h => .inr ⟨ht, .inr h, keeps_of_le h⟩
        case mpr => exact fun h => h.elim (fun h => by omega) fun h => h.right.left.elim (by omega) id
      case neg =>
        have hi := @ih (raw ++ tmp) hn
        rw [List.length_append] at hi
        rw [if_neg hb, hi]
        constructor
        case mp  => exact fun h => .inr ⟨ht, .inl (by omega), h⟩
        case mpr => exact fun h => h.elim (fun h => keeps_of_le (by omega)) fun h => h.right.right

theorem not_strtollIsspace_of_isHexDigit {c : Char} (h : isHexDigit c) : strtollIsspace c = false := by
  by_contra hs
  rw [Bool.not_eq_false] at hs
  simp only [strtollIsspace, gAsciiIsspace, Bool.or_eq_true, beq_iff_eq] at hs
  obtain ((((rfl | rfl) | rfl) | rfl) | rfl) | rfl := hs <;> exact absurd h (by decide)

theorem takeWhile_isHexDigit_gStrndup {line : CString} :
    (gStrndup line).takeWhile isHexDigit = line.takeWhile isHexDigit := by
  rw [gStrndup, List.takeWhile_takeWhile]
  congr 1
  funext c
  by_cases hc : c = '\x00'
  case pos => subst hc; decide
  case neg => simp [hc]

-- The digits of a size have no sign and no prefix in front of them.
theorem strtolHex_of_chunkSize? {line : CString} {n : Nat} (h : chunkSize? line = some n) :
    strtolHex (gStrndup line) = clampInt64 n := by
  rw [chunkSize?] at h
  split_ifs at h with hd
  obtain ⟨hne, hrest⟩ := hd
  rw [Option.some.injEq] at h
  rw [← takeWhile_isHexDigit_gStrndup] at h
  obtain ⟨d, ds, hline⟩ : ∃ d ds, line = d :: ds := by
    cases line
    case nil       => exact absurd rfl hne
    case cons d ds => exact ⟨d, ds, rfl⟩
  have hd : isHexDigit d := by
    by_contra hd
    rw [hline, List.takeWhile_cons_of_neg hd] at hne
    exact hne rfl
  have hs : gStrndup line = d :: gStrndup ds := by
    rw [hline, gStrndup, List.takeWhile_cons_of_pos (by rw [bne_iff_ne]; rintro rfl; exact absurd hd (by decide))]
    rfl
  have hprefix (x c : Char) (tl : CString) (hx : x = 'x' ∨ x = 'X') : gStrndup ds ≠ x :: c :: tl := by
    intro he
    have hxd : isHexDigit x = false ∧ isOws x = false ∧ x ≠ ';' := by
      obtain rfl | rfl := hx <;> decide
    obtain ⟨ds', rfl⟩ : ∃ ds', ds = x :: ds' := by
      cases ds
      case nil       => cases he
      case cons y ds =>
        rw [gStrndup, List.takeWhile_cons] at he
        split at he
        · exact ⟨ds, by rw [(List.cons.inj he).left]⟩
        · cases he
    rw [hline, List.dropWhile_cons_of_pos hd, List.dropWhile_cons_of_neg (by simp [hxd.left]),
      List.dropWhile_cons_of_neg (by simp [hxd.right.left])] at hrest
    exact hxd.right.right (of_decide_eq_true hrest)
  have hw : (d :: gStrndup ds).dropWhile strtollIsspace = d :: gStrndup ds :=
    List.dropWhile_cons_of_neg (by simp [not_strtollIsspace_of_isHexDigit hd])
  rw [hs] at h
  rw [strtolHex, hs]
  simp only [hw]
  split
  case h_1 heq => exact absurd hd ((List.cons.inj heq).left ▸ by decide)
  case h_2 heq => exact absurd hd ((List.cons.inj heq).left ▸ by decide)
  case h_3     =>
    rw [← h]
    split
    case h_1 x c tl heq =>
      obtain ⟨rfl, he⟩ := List.cons.inj heq
      rw [if_neg fun hx => hprefix x c tl hx.left he, he]
    case h_2 => rfl

theorem splitLine_of_prefix {raw rest : CString} {l : CString} (hs : splitLine s = some (l, rest)) (hp : raw <+: s) :
    if l.length + 2 ≤ raw.length then ∃ rest', splitLine raw = some (l, rest') ∧ rest' <+: rest
    else splitLine raw = none := by
  obtain ⟨t, ht⟩ := hp
  split
  case isTrue hle =>
    obtain ⟨he, hk⟩ := splitLine_eq_some_iff.mp hs
    have hpre : l ++ crlf <+: raw :=
      List.prefix_of_prefix_length_le ⟨rest, he.symm⟩ ⟨t, ht⟩ (by simpa [crlf] using hle)
    obtain ⟨rest', rfl⟩ := hpre
    refine ⟨rest', splitLine_eq_some_iff.mpr ⟨rfl, fun k hl hc => hk k hl ?_⟩, ⟨t, ?_⟩⟩
    · rw [← ht, crlfAt_append (lt_of_crlfAt hc)]
      exact hc
    · rw [he, List.append_assoc (l ++ crlf)] at ht
      exact List.append_cancel_left ht
  case isFalse hlt =>
    by_contra hne
    obtain ⟨x, hx⟩ := Option.ne_none_iff_exists'.mp hne
    have ha := splitLine_append (t := t) (show splitLine raw = some (x.1, x.2) from hx)
    rw [ht, hs] at ha
    have hl := length_of_splitLine (show splitLine raw = some (x.1, x.2) from hx)
    rw [(Prod.mk.inj (Option.some.inj ha)).left] at hlt
    omega

theorem length_of_chunks {m : Nat} (hc : chunks m s = some (body, need)) : need = 0 ↔ body = [] := by
  cases m
  case zero => cases hc
  case succ m =>
    simp only [chunks, Option.bind_eq_bind, Option.bind_eq_some_iff] at hc
    obtain ⟨⟨line, rest⟩, hs, size, hz, hc⟩ := hc
    split_ifs at hc with h₁ h₂
    · obtain ⟨rfl, rfl⟩ := Prod.mk.inj (Option.some.inj hc)
      exact iff_of_true rfl rfl
    · obtain ⟨⟨b, reach⟩, -, hc⟩ := Option.bind_eq_some_iff.mp hc
      obtain ⟨rfl, rfl⟩ := Prod.mk.inj (Option.some.inj hc)
      refine iff_of_false (by omega) fun he => ?_
      have hl := congrArg List.length (List.append_eq_nil_iff.mp he).left
      rw [List.length_take, List.length_nil] at hl
      omega

theorem dechunk_of_splitLine {n : Nat} (h : splitLine raw = none) : dechunk n raw = [] := by
  cases n
  case zero   => rfl
  case succ n => rw [dechunk, h]

theorem clampInt64_natCast {n : Nat} (h : n < 4294967296) : clampInt64 n = n :=
  clampInt64_of_inInt64 ⟨by rw [int64Min]; omega, by rw [int64Max]; omega⟩

-- The chunks that are read give the body if their data is read.
theorem dechunk_eq_iff {n m : Nat} (hc : chunks m s = some (body, need)) (hp : raw <+: s) (hn : raw.length ≤ n)
    (hs : s.length < 4294967296) : dechunk n raw = body ↔ need ≤ raw.length := by
  induction m generalizing n s raw body need
  case zero => cases hc
  case succ m ih =>
    have hnil := length_of_chunks hc
    simp only [chunks, Option.bind_eq_bind, Option.bind_eq_some_iff] at hc
    obtain ⟨⟨line, rest⟩, hsplit, size, hz, hc⟩ := hc
    have hraw := splitLine_of_prefix hsplit hp
    have hlen := length_of_splitLine hsplit
    have hstr := strtolHex_of_chunkSize? hz
    dsimp only at hc
    by_cases hle : line.length + 2 ≤ raw.length
    case neg =>
      -- The size is not read yet.
      rw [if_neg hle] at hraw
      rw [dechunk_of_splitLine hraw, eq_comm, ← hnil]
      constructor
      case mp  => exact fun h => h ▸ Nat.zero_le _
      case mpr =>
        intro h
        split_ifs at hc with h₁ h₂
        · exact ((Prod.mk.inj (Option.some.inj hc)).right).symm
        · obtain ⟨⟨b, reach⟩, -, hc⟩ := Option.bind_eq_some_iff.mp hc
          have hneed : line.length + 2 + size + (if reach = 0 then 0 else 2 + reach) = need :=
            (Prod.mk.inj (Option.some.inj hc)).right
          omega
    case pos =>
      rw [if_pos hle] at hraw
      obtain ⟨rest', hsplit', hp'⟩ := hraw
      have hp' : rest' <+: rest := hp'
      have hlen' := length_of_splitLine hsplit'
      obtain ⟨n, rfl⟩ : ∃ k, n = k + 1 := ⟨n - 1, by omega⟩
      rw [dechunk, hsplit']
      simp only [hstr]
      split_ifs at hc with h₁ h₂
      · -- The last chunk.
        obtain ⟨rfl, rfl⟩ := Prod.mk.inj (Option.some.inj hc)
        subst h₁
        exact iff_of_true rfl (Nat.zero_le _)
      · obtain ⟨⟨b, reach⟩, hb, hc⟩ := Option.bind_eq_some_iff.mp hc
        dsimp only at hc hb
        obtain ⟨rfl, rfl⟩ := Prod.mk.inj (Option.some.inj hc)
        have hsize := h₂.left
        rw [clampInt64_natCast (by omega), if_neg (by omega), Int.toNat_natCast]
        by_cases hdata : size ≤ rest'.length
        case pos =>
          have htake : rest'.take size = rest.take size := by
            obtain ⟨t, rfl⟩ := hp'
            exact (List.take_append_of_le_length hdata).symm
          have hi := ih (n := n) hb (hp'.drop (size + 2))
            (by rw [List.length_drop]; omega) (by rw [List.length_drop]; omega)
          rw [htake, List.append_cancel_left_eq, hi, List.length_drop]
          split_ifs with h₀ <;> omega
        case neg =>
          -- The data is cut off.
          rw [List.drop_eq_nil_of_le (by omega), List.take_of_length_le (by omega)]
          refine iff_of_false (fun he => ?_) (by omega)
          have hd : dechunk n [] = [] := dechunk_of_splitLine rfl
          have hl := congrArg List.length he
          rw [hd, List.append_nil, List.length_append, List.length_take] at hl
          omega

variable {h : Head} {left rest : CString} {more : Reads}

-- The number of bytes after which the code stops reading.
def Head.stopsAt (h : Head) : Option Nat :=
  if h.haveClen && !h.chunked then some h.clen.toNat else none

theorem Head.body_eq_iff {f : Framing} (hf : h.framing = f) (hb : f.body? s = some (body, need)) (hp : raw <+: s)
    (hs : s.length < 4294967296) : h.body raw = body ↔ need ≤ raw.length := by
  have hl := hp.length_le
  subst hf
  rw [framing] at hb
  rw [Head.body]
  split_ifs at hb ⊢
  · exact dechunk_eq_iff hb hp le_rfl hs
  · rw [Framing.body?] at hb
    split_ifs at hb with hn
    obtain ⟨rfl, rfl⟩ := Prod.mk.inj (Option.some.inj hb)
    obtain ⟨t, rfl⟩ := hp
    constructor
    case mp =>
      intro he
      have hlen := congrArg List.length he
      rw [List.length_take, List.length_take] at hlen
      omega
    case mpr => exact fun hle => (List.take_append_of_le_length hle).symm
  · obtain ⟨rfl, rfl⟩ := Prod.mk.inj (Option.some.inj hb)
    exact ⟨fun he => he ▸ le_rfl, fun hle => hp.eq_of_length_le hle⟩

theorem reach_le {m : Nat} (hc : chunks m s = some (body, need)) : need ≤ s.length := by
  induction m generalizing s body need
  case zero => cases hc
  case succ m ih =>
    simp only [chunks, Option.bind_eq_bind, Option.bind_eq_some_iff] at hc
    obtain ⟨⟨line, rest⟩, hsplit, size, -, hc⟩ := hc
    have hlen := length_of_splitLine hsplit
    dsimp only at hc
    split_ifs at hc with h₁ h₂
    · obtain ⟨rfl, rfl⟩ := Prod.mk.inj (Option.some.inj hc)
      exact Nat.zero_le _
    · obtain ⟨⟨b, reach⟩, hb, hc⟩ := Option.bind_eq_some_iff.mp hc
      dsimp only at hc hb
      obtain ⟨rfl, rfl⟩ := Prod.mk.inj (Option.some.inj hc)
      have hr := ih hb
      have hsize := h₂.left
      rw [List.length_drop] at hr
      split_ifs <;> omega

theorem Head.stopsAt_framing {f : Framing} (hf : h.framing = f) (hb : f.body? s = some (body, need)) :
    need ≤ s.length ∧ ∀ n ∈ h.stopsAt, n = need := by
  subst hf
  rw [framing] at hb
  rw [stopsAt]
  split_ifs at hb with hc hl
  · exact ⟨reach_le hb, by simp [hc]⟩
  · rw [Framing.body?] at hb
    split_ifs at hb with hn
    obtain ⟨rfl, rfl⟩ := Prod.mk.inj (Option.some.inj hb)
    exact ⟨hn, by simp [hc, hl]⟩
  · obtain ⟨rfl, rfl⟩ := Prod.mk.inj (Option.some.inj hb)
    exact ⟨le_rfl, by simp [hl]⟩

theorem Head.body_nil : h.body [] = [] := by
  rw [body]
  split_ifs
  · rfl
  · exact List.take_nil
  · rfl

theorem Head.body_of_length_zero (hf : h.framing = .length 0) : h.body raw = [] := by
  rw [framing] at hf
  rw [body]
  split_ifs at hf ⊢
  rw [Framing.length.inj hf, List.take_zero]

end Body

section Response

variable {method : CString} {budget : Nat} {reads : Reads}

theorem ahead_start : Reader.ahead { reads } = window 0 reads :=
  rfl

theorem length_window_le {got : Nat} : (window got reads).length ≤ reads.flatten.length := by
  induction reads generalizing got
  case nil => exact le_rfl
  case cons tmp tail ih =>
    rw [window, List.flatten_cons, List.length_append]
    split
    case isTrue  => exact Nat.zero_le _
    case isFalse =>
      rw [List.length_append]
      exact Nat.add_le_add_left ih _

variable (reads) in
-- What the header lines that are read come to.
theorem headLoop_start : match headOf [] 0 (linesOf (window 0 reads)) with
    | .breaksOff b =>
      if b = [] then headLoop (reads.flatten.length + 1) { reads } {} = none
      else ∃ r', headLoop (reads.flatten.length + 1) { reads } {} = some (headAfter b, r', false)
    | .ends b used => ∃ r', headLoop (reads.flatten.length + 1) { reads } {} = some (headAfter b, r', true) ∧
        r'.Follows reads ∧ r'.pos = used :=
  headLoop_eq [] Reader.follows_start
    (Nat.lt_succ_of_le (ahead_start ▸ length_linesOf.trans length_window_le))

theorem fed_eq_iff {block : List CString} :
    block.map (gStrndup · ++ crlf) = block.map (· ++ crlf) ↔ ∀ line ∈ block, '\x00' ∉ line := by
  rw [List.map_inj_left]
  refine forall₂_congr fun line _ => ?_
  rw [List.append_cancel_right_eq, gStrndup, List.takeWhile_eq_self_iff]
  constructor
  case mp  => exact fun h hm => absurd (h _ hm) (by decide)
  case mpr =>
    intro h c hc
    rw [bne_iff_ne]
    exact fun he => h (he ▸ hc)

-- Where the code finds the end of the header lines, it passes on what it reads of the body.
theorem sound_iff_of_ends {block : List CString} {used : Nat} (hs : (stream reads).length < 4294967296)
    (he : headOf [] 0 (linesOf (window 0 reads)) = .ends block used) (hne : block ≠ [])
    (ha : FramedAlike method block (restAfter used reads)) :
    Sound method budget reads ↔ (∀ line ∈ block, '\x00' ∉ line) ∧ ∃ f body need, framing? method block = some f ∧
      f.body? (restAfter used reads) = some (body, need) ∧
      Keeps budget need (drain used reads).1.length (drain used reads).2 := by
  have hl := headLoop_start reads
  rw [he] at hl
  obtain ⟨r, hr, hf, rfl⟩ := hl
  obtain ⟨more, hw⟩ := window_prefix reads 0
  obtain ⟨lines, hlines⟩ := linesOf_append (s := window 0 reads) (t := more)
  have hstream : headOf [] 0 (linesOf (stream reads)) = .ends block r.pos := by
    rw [hw, hlines]
    exact headOf_append he
  have hfed := fed_headAfter (headOf_not_interim he)
  have hrest := hf.restAfter
  have hdrain := hf.drain
  have hlen : (restAfter r.pos reads).length < 4294967296 := by
    rw [← hrest, List.length_drop]
    omega
  have hafter : restAfter r.pos reads = r.buf.drop r.pos ++ stream r.reads := by
    rw [restAfter, hdrain]
  -- What the run comes to.
  let raw := collect (headAfter block).stopsAt budget (r.buf.drop r.pos) r.reads
  have hraw : raw <+: restAfter r.pos reads := hafter ▸ collect_prefix
  have hrun : (runHttp1 budget reads).success ∧ (runHttp1 budget reads).fed = block.map (gStrndup · ++ crlf) ∧
      (runHttp1 budget reads).body = (headAfter block).body raw := by
    rw [runHttp1, hr]
    exact ⟨statusParsed_headAfter.trans (decide_eq_true hne), hfed, rfl⟩
  have hcomplete (b : List CString) (body : CString) : Complete method (stream reads) b body ↔ b = block ∧
      ∃ f need, framing? method block = some f ∧ f.body? (restAfter r.pos reads) = some (body, need) := by
    constructor
    case mp =>
      intro h
      obtain ⟨used, f, need, hb, -, hf, hbody⟩ := h
      rw [hstream] at hb
      obtain ⟨rfl, rfl⟩ := HeadEnd.ends.inj hb
      exact ⟨rfl, f, need, hf, hrest ▸ hbody⟩
    case mpr =>
      rintro ⟨rfl, f, need, hf, hbody⟩
      exact ⟨r.pos, f, need, hstream, hne, hf, hrest.symm ▸ hbody⟩
  have hbody (f : Framing) (body : CString) (need : Nat) (hfr : framing? method block = some f)
      (hb : f.body? (restAfter r.pos reads) = some (body, need)) : (headAfter block).body raw = body ↔
      Keeps budget need (r.buf.drop r.pos).length r.reads := by
    obtain hal | ⟨hno, hal⟩ := ha
    case inl =>
      obtain rfl := Option.some.inj (hfr.symm.trans hal)
      obtain ⟨hn, hstop⟩ := Head.stopsAt_framing rfl hb
      rw [Head.body_eq_iff rfl hb hraw hlen, ← le_length_collect hstop (hafter ▸ hn)]
    case inr =>
      obtain rfl := Option.some.inj (hfr.symm.trans hno)
      obtain ⟨rfl, rfl⟩ := Prod.mk.inj (Option.some.inj hb)
      refine iff_of_true ?_ (keeps_of_le (Nat.zero_le _))
      cases hal
      case inl hnil =>
        rw [hnil, List.prefix_nil] at hraw
        rw [hraw, Head.body_nil]
      case inr hzero => exact Head.body_of_length_zero hzero
  rw [Sound, hdrain]
  constructor
  case mp =>
    intro h
    obtain ⟨b, body, hc, hfd, hbd⟩ := h hrun.left
    obtain ⟨rfl, f, need, hfr, hb⟩ := (hcomplete b body).mp hc
    rw [hrun.right.left] at hfd
    rw [hrun.right.right] at hbd
    exact ⟨fed_eq_iff.mp hfd, f, body, need, hfr, hb, (hbody f body need hfr hb).mp hbd⟩
  case mpr =>
    intro ⟨hnul, f, body, need, hfr, hb, hk⟩ _
    refine ⟨block, body, (hcomplete block body).mpr ⟨rfl, f, need, hfr, hb⟩, ?_, ?_⟩
    · rw [hrun.right.left, fed_eq_iff.mpr hnul]
    · rw [hrun.right.right, (hbody f body need hfr hb).mpr hk]

-- Success is sound where the condition holds, and but for misread header lines only there.
theorem sound_of_meets_and_sound_iff_meets (hs : (stream reads).length < 4294967296) :
    (Meets method budget reads → Sound method budget reads) ∧
    (¬Misreads method reads → (Sound method budget reads ↔ Meets method budget reads)) := by
  have hl := headLoop_start reads
  rw [Meets, Misreads]
  cases he : headOf [] 0 (linesOf (window 0 reads))
  case breaksOff block =>
    rw [he] at hl
    dsimp only at hl ⊢
    by_cases hb : block = []
    case pos =>
      rw [if_pos hb] at hl
      have hsound : Sound method budget reads := by
        intro h
        rw [runHttp1, hl] at h
        cases h
      exact ⟨fun _ => hsound, fun _ => iff_of_true hsound hb⟩
    case neg =>
      rw [if_neg hb] at hl
      obtain ⟨r, hr⟩ := hl
      refine ⟨fun h => absurd h hb, fun hm => iff_of_false (fun h => ?_) hb⟩
      have hw : window 0 reads = stream reads := by
        by_contra hne
        exact hm ⟨hb, hne⟩
      have hsuccess : (runHttp1 budget reads).success := by
        rw [runHttp1, hr]
        exact statusParsed_headAfter.trans (decide_eq_true hb)
      obtain ⟨b, body, ⟨used, f, need, hends, -⟩, -⟩ := h hsuccess
      rw [← hw, he] at hends
      cases hends
  case ends block used =>
    by_cases hb : block = []
    case pos =>
      rw [he] at hl
      obtain ⟨r, hr, -⟩ := hl
      have hsound : Sound method budget reads := by
        intro h
        rw [runHttp1, hr, hb] at h
        cases h
      exact ⟨fun _ => hsound, fun _ => iff_of_true hsound (.inl hb)⟩
    case neg =>
      constructor
      case left =>
        intro h
        obtain ⟨ha, hrest⟩ := h.resolve_left hb
        exact (sound_iff_of_ends hs he hb ha).mpr hrest
      case right =>
        intro ha
        have ha := not_not.mp ha
        rw [sound_iff_of_ends hs he hb ha]
        exact ⟨fun h => .inr ⟨ha, h⟩, fun h => (h.resolve_left hb).right⟩

def shortBody : Reads :=
  ["HTTP/1.1 200 OK\r\nContent-".toList, "Length: 2\r\n\r\no".toList, "k".toList]

theorem sound_shortBody : Sound "GET".toList 1000 shortBody :=
  (sound_of_meets_and_sound_iff_meets (by decide +kernel)).left (by
    have he : headOf [] 0 (linesOf (window 0 shortBody)) =
        .ends ["HTTP/1.1 200 OK".toList, "Content-Length: 2".toList] 38 := by decide +kernel
    have hr : restAfter 38 shortBody = "ok".toList := by decide +kernel
    rw [Meets, he]
    dsimp only
    rw [hr]
    exact .inr ⟨.inl (by decide +kernel), by decide +kernel, .length 2, "ok".toList, 2, by decide +kernel,
      by decide +kernel, .inr ⟨by decide, .inr (by decide +kernel), show 2 ≤ _ by decide +kernel⟩⟩)

-- The connection ends within the header lines.
theorem not_sound_brokenOff : ¬∀ (method : CString) (budget : Nat) (reads : Reads),
    (stream reads).length < 4294967296 → Sound method budget reads := by
  intro h
  let reads : Reads := ["HTTP/1.1 200 OK\r\nContent-Length: 5\r\n".toList]
  obtain ⟨block, body, ⟨used, f, need, he, -⟩, -⟩ := h "GET".toList 1000 reads (by decide +kernel) (by decide +kernel)
  have hb : headOf [] 0 (linesOf (stream reads)) =
      .breaksOff ["HTTP/1.1 200 OK".toList, "Content-Length: 5".toList] := by decide +kernel
  rw [hb] at he
  cases he

end Response

end Nordstjernen.Net.Http2.Http1
