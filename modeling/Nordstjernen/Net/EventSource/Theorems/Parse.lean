import Mathlib.Data.List.Infix
import Nordstjernen.Net.EventSource.Parse

open Nordstjernen.Glib

namespace Nordstjernen.Net.EventSource

variable {l line field value text stream : CString} {c : Char} {w : Bool} {p : Parse} {b : Buffers}

section Lines

-- The same as `splitLines`, one character after the other: whether the last one was a CR.
def scanLines (line : CString) (lastWasCr : Bool) : CString → List CString
  | []      => [line]
  | c :: cs =>
    if c = '\n' ∧ lastWasCr then scanLines line false cs
    else if c = '\r' ∨ c = '\n' then line :: scanLines [] (c == '\r') cs
    else scanLines (line ++ [c]) false cs

theorem scanLines_of_ne (h : text.head? ≠ some '\n') : scanLines line true text = scanLines line false text := by
  cases text
  case nil       => rfl
  case cons c cs =>
    have hc : c ≠ '\n' := fun he => h (by rw [he]; rfl)
    simp only [scanLines, hc, false_and, if_false]

theorem splitLines_eq : splitLines line text = scanLines line false text := by
  fun_induction splitLines line text
  case case1 line rest hi => simp [scanLines, hi]
  case case2 line rest hne hi => 
    have hh : rest.head? ≠ some '\n' := by
      intro hh
      obtain ⟨cs, rfl⟩ := List.head?_eq_some_iff.mp hh
      exact hne cs rfl
    simp [scanLines, scanLines_of_ne hh, hi]
  case case3 line rest hi => simp [scanLines, hi]
  case case4 line c rest _ hr hn hi => simp [scanLines, show c ≠ '\r' from hr, show c ≠ '\n' from hn, hi]
  case case5 line => rfl

theorem scanLines_ne_nil : scanLines line w text ≠ [] := by
  induction text generalizing line w
  case nil          => simp [scanLines]
  case cons c cs hi =>
    rw [scanLines]
    split
    · exact hi
    · split
      · simp
      · exact hi

-- Some line is as long as its beginning.
theorem exists_le_length : ∃ l ∈ scanLines line w text, line.length ≤ l.length := by
  induction text generalizing line w
  case nil          => exact ⟨line, by simp [scanLines], Nat.le_refl _⟩
  case cons c cs hi =>
    rw [scanLines]
    split
    · exact hi
    · split
      · exact ⟨line, List.mem_cons_self, Nat.le_refl _⟩
      · obtain ⟨l, hl, hle⟩ := @hi (line ++ [c]) false
        exact ⟨l, hl, by rw [List.length_append] at hle; omega⟩

end Lines

namespace Parse

-- A parser, but for what it knows of the line that it is in.
def core (p : Parse) : Parse :=
  { p with line := [], lastWasCr := false }

def processLines (p : Parse) (lines : List CString) : Parse :=
  lines.foldl (fun p l => p.processLine (gStrndup l)) p

theorem processLine_with {line' : CString} : ({ p with line := line', lastWasCr := w } : Parse).processLine line =
    { p.processLine line with line := line', lastWasCr := w } := by
  simp only [processLine, dispatchEvent, processField]
  split_ifs <;> rfl

theorem core_processLine : (p.processLine l).core = (p.core.processLine l).core := by
  have h := congrArg core (@processLine_with l p.lastWasCr p.core p.line)
  exact h

theorem core_processLines {lines : List CString} : (p.processLines lines).core = (p.core.processLines lines).core := by
  induction lines generalizing p
  case nil             => rfl
  case cons l lines hi =>
    simp only [processLines, List.foldl_cons] at hi ⊢
    rw [hi, core_processLine, ← hi]

theorem core_processLines_congr {q : Parse} {lines : List CString} (h : p.core = q.core) :
    (p.processLines lines).core = (q.processLines lines).core := by
  rw [core_processLines, h, ← core_processLines]

theorem fatal_processLine (h : p.fatal = true) : (p.processLine line).fatal = true := by
  simp only [processLine, dispatchEvent, processField]
  split_ifs <;> first | exact h | rfl

theorem fatal_feed (h : p.fatal = true) : (p.feed text).fatal = true := by
  induction text generalizing p
  case nil          => exact h
  case cons c cs hi =>
    rw [feed]
    split
    · exact hi h
    · split
      · exact hi (fatal_processLine h)
      · split
        · rfl
        · exact hi h

-- A text is processed line by line, unless one of its lines is too long.
theorem core_feed_or : (p.feed text).fatal = true ∧ (∃ l ∈ scanLines p.line p.lastWasCr text, maxLine < l.length) ∨
    (p.feed text).core = (p.processLines (scanLines p.line p.lastWasCr text).dropLast).core := by
  induction text generalizing p
  case nil          => exact .inr rfl
  case cons c cs hi =>
    rw [scanLines, feed]
    split
    case isTrue hlf =>
      exact hi.imp_right fun h => h.trans (core_processLines_congr rfl)
    case isFalse hlf =>
      split
      case isTrue heol =>
        rw [List.dropLast_cons_of_ne_nil scanLines_ne_nil]
        refine hi.imp (fun ⟨hf, l, hl, hlong⟩ => ⟨hf, l, List.mem_cons_of_mem _ hl, hlong⟩) fun h => ?_
        exact h.trans (core_processLines_congr rfl)
      case isFalse heol =>
        split
        case isTrue hlong =>
          obtain ⟨l, hl, hle⟩ := @exists_le_length (p.line ++ [c]) cs false
          exact .inl ⟨rfl, l, hl, by rw [List.length_append, List.length_singleton] at hle; omega⟩
        case isFalse =>
          exact hi.imp_right fun h => h.trans (core_processLines_congr rfl)

-- What becomes of a text whose lines are short enough.
theorem core_feed (h : ∀ l ∈ scanLines p.line p.lastWasCr text, l.length ≤ maxLine) :
    (p.feed text).core = (p.processLines (scanLines p.line p.lastWasCr text).dropLast).core :=
  core_feed_or.resolve_left fun ⟨_, l, hl, hlong⟩ => absurd (h l hl) (Nat.not_le.mpr hlong)

theorem core_feed_of_not_fatal (h : (p.feed text).fatal = false) :
    (p.feed text).core = (p.processLines (scanLines p.line p.lastWasCr text).dropLast).core :=
  core_feed_or.resolve_left fun ⟨hf, _⟩ => by rw [h] at hf; cases hf

theorem fatal_feed_append {text' : CString} (h : (p.feed text).fatal = true) :
    (p.feed (text ++ text')).fatal = true := by
  induction text generalizing p
  case nil          => exact fatal_feed h
  case cons c cs hi =>
    rw [feed] at h
    rw [List.cons_append, feed]
    split
    case isTrue hlf  => exact hi (by rwa [if_pos hlf] at h)
    case isFalse hlf =>
      rw [if_neg hlf] at h
      split
      case isTrue heol  => exact hi (by rwa [if_pos heol] at h)
      case isFalse heol =>
        rw [if_neg heol] at h
        split
        case isTrue        => rfl
        case isFalse hlong => exact hi (by rwa [if_neg hlong] at h)

-- A chunk behind another one that has not been fatal.
theorem feed_append {text' : CString} (h : (p.feed text).fatal = false) :
    p.feed (text ++ text') = (p.feed text).feed text' := by
  induction text generalizing p
  case nil          => rfl
  case cons c cs hi =>
    rw [feed] at h
    rw [List.cons_append, feed, feed]
    split
    case isTrue hlf  =>
      rw [if_pos hlf] at h
      exact hi h
    case isFalse hlf =>
      rw [if_neg hlf] at h
      split
      case isTrue heol  =>
        rw [if_pos heol] at h
        exact hi h
      case isFalse heol =>
        rw [if_neg heol] at h
        split
        case isTrue hlong  =>
          rw [if_pos hlong] at h
          cases h
        case isFalse hlong =>
          rw [if_neg hlong] at h
          exact hi h

-- However the text is cut, it is fed as a whole, unless it is fatal.
theorem writeAll_eq {chunks : List CString} (h : (p.feed chunks.flatten).fatal = false) :
    p.writeAll chunks = p.feed chunks.flatten := by
  induction chunks generalizing p
  case nil                  => rfl
  case cons chunk chunks hi =>
    rw [List.flatten_cons] at h ⊢
    have hp : p.fatal = false := by
      by_contra hf
      rw [fatal_feed (by simpa using hf)] at h
      cases h
    have hc : (p.feed chunk).fatal = false := by
      by_contra hf
      rw [fatal_feed_append (by simpa using hf)] at h
      cases h
    rw [feed_append hc] at h ⊢
    rw [writeAll, List.foldl_cons, write, if_neg (by simp [hp])]
    exact hi h

end Parse

section Meaning

theorem unspaced_eq : unspaced value = if value.head? = some ' ' then value.tail else value := by
  unfold unspaced
  split
  case h_1        => rfl
  case h_2 hspace =>
    rw [if_neg fun hh => ?_]
    obtain ⟨t, ht⟩ := List.head?_eq_some_iff.mp hh
    exact hspace t ht

theorem fieldValue_eq : Parse.fieldValue line =
    (line.takeWhile (· != ':'), unspaced ((line.dropWhile (· != ':')).drop 1)) := by
  rw [Parse.fieldValue, List.span_eq_takeWhile_dropWhile]
  cases line.dropWhile (· != ':')
  case nil       => rfl
  case cons _ v => rw [unspaced_eq]; rfl

theorem not_mem_unspaced {s : CString} (h : c ∉ s) : c ∉ unspaced s := by
  unfold unspaced
  split
  · exact fun hm => h (List.mem_cons_of_mem _ hm)
  · exact h

-- What the parser has read so far is what the format makes of it.
structure Matches (p : Parse) (b : Buffers) : Prop where
  data      : p.data = b.data
  eventType : p.eventType.getD [] = b.eventType
  typed     : p.eventType ≠ some []
  lastId    : p.lastEventId = b.lastId
  posted    : p.posted = b.events
  fatal     : p.fatal = false

theorem Matches.dispatch (h : Matches p b) : Matches p.dispatchEvent (b.apply .dispatch) := by
  obtain ⟨hdata, hevent, htyped, hid, hposted, hfatal⟩ := h
  rw [Parse.dispatchEvent, Buffers.apply, ← hdata]
  by_cases hd : p.data = []
  case pos =>
    cases ht : p.eventType
    case none   =>
      rw [if_pos ⟨hd, rfl⟩, if_pos hd]
      exact ⟨rfl, by rw [ht]; rfl, by simp [ht], hid, hposted, hfatal⟩
    case some t =>
      rw [if_neg (by simp), if_pos hd, if_pos hd]
      exact ⟨rfl, rfl, by simp, hid, hposted, hfatal⟩
  case neg =>
    rw [if_neg (hd ·.left), if_neg hd, if_neg hd]
    have htype : p.eventType.getD "message".toList =
        if b.eventType = [] then "message".toList else b.eventType := by
      rw [← hevent]
      cases ht : p.eventType
      case none   => rfl
      case some t =>
        have hne : t ≠ [] := fun he => htyped (by rw [ht, he])
        simp [hne]
    exact ⟨rfl, rfl, by simp, hid, by rw [hposted, hid, htype], hfatal⟩

theorem Matches.processField (h : Matches p b) (hn : '\x00' ∉ value)
    (hd : (b.apply (fieldMeaning field value)).data.length ≤ maxEvent) :
    Matches (p.processField field value) (b.apply (fieldMeaning field value)) := by
  obtain ⟨hdata, hevent, htyped, hid, hposted, hfatal⟩ := h
  unfold fieldMeaning at hd ⊢
  rw [Parse.processField]
  split
  case isTrue hf =>
    rw [if_pos hf] at hd
    have hlen : ¬p.data.length + value.length + 1 > maxEvent := by
      simp only [Buffers.apply, List.length_append, List.length_singleton] at hd
      rw [hdata]
      omega
    rw [if_neg hlen]
    exact ⟨by simp only [Buffers.apply, hdata], hevent, htyped, hid, hposted, hfatal⟩
  case isFalse =>
    split
    case isTrue  =>
      refine ⟨hdata, ?_, ?_, hid, hposted, hfatal⟩
      · by_cases hv : value = [] <;> simp [hv, Buffers.apply]
      · by_cases hv : value = [] <;> simp [hv]
    case isFalse =>
      split
      case isTrue  => exact ⟨hdata, hevent, htyped, rfl, hposted, hfatal⟩
      case isFalse =>
        have hb : b.apply .other = b := rfl
        rw [hb]
        split
        · dsimp only
          split
          · exact ⟨hdata, hevent, htyped, hid, hposted, hfatal⟩
          · exact ⟨hdata, hevent, htyped, hid, hposted, hfatal⟩
        · exact ⟨hdata, hevent, htyped, hid, hposted, hfatal⟩

theorem Matches.processLine (h : Matches p b) (hn : '\x00' ∉ line)
    (hd : (b.apply (meaning line)).data.length ≤ maxEvent) :
    Matches (p.processLine line) (b.apply (meaning line)) := by
  rw [Parse.processLine]
  unfold meaning at hd ⊢
  split
  case isTrue     => exact h.dispatch
  case isFalse hl =>
    rw [if_neg hl] at hd
    split
    case isTrue     => exact h
    case isFalse hc =>
      rw [if_neg hc] at hd
      rw [fieldValue_eq]
      refine h.processField (not_mem_unspaced fun hm => hn ?_) hd
      exact (List.dropWhile_suffix _).subset (List.mem_of_mem_drop hm)

theorem not_mem_gStrndup : '\x00' ∉ gStrndup line :=
  fun hm => absurd (List.mem_takeWhile_imp hm) (by decide)

-- Lines that mean the same to the parser, which sees no more than what is in front of a NUL.
theorem Matches.processLines {lines : List CString} {ms : List Meaning} (h : Matches p b)
    (hm : lines.map (fun l => meaning (gStrndup l)) = ms)
    (hd : ∀ ms' : List Meaning, ms'.IsPrefix ms → (ms'.foldl Buffers.apply b).data.length ≤ maxEvent) :
    Matches (p.processLines lines) (ms.foldl Buffers.apply b) := by
  subst hm
  induction lines generalizing p b
  case nil             => exact h
  case cons l lines hi =>
    rw [List.map_cons] at hd ⊢
    refine hi (h.processLine not_mem_gStrndup (hd [_] (by simp))) fun ms' hms => ?_
    exact hd (_ :: ms') (by simpa using hms)

end Meaning

section Plain

theorem fieldMeaning_other (hd : field ≠ "data".toList) (he : field ≠ "event".toList) (hi : field ≠ "id".toList) :
    fieldMeaning field value = .other := by
  rw [fieldMeaning, if_neg hd, if_neg he, if_neg hi]

theorem ne_of_mem (h : c ∈ field) (hc : ∀ f ∈ ["data".toList, "event".toList, "id".toList], c ∉ f) :
    fieldMeaning field value = .other := by
  refine fieldMeaning_other ?_ ?_ ?_
  · rintro rfl; exact hc _ (by simp) h
  · rintro rfl; exact hc _ (by simp) h
  · rintro rfl; exact hc _ (by simp) h

-- The field of a line that means nothing has no known name, or its value has a NUL.
theorem of_fieldMeaning_other (h : fieldMeaning field value = .other) (hn : '\x00' ∉ value) {value' : CString} :
    fieldMeaning field value' = .other := by
  unfold fieldMeaning at h
  split at h
  · cases h
  · split at h
    · cases h
    · split at h
      · cases h
      · exact fieldMeaning_other ‹_› ‹_› ‹_›

theorem eq_append_of_mem (h : '\x00' ∈ l) : ∃ t, l = gStrndup l ++ '\x00' :: t := by
  have hd : l.dropWhile (· != '\x00') ≠ [] := by
    intro he
    have hall := List.dropWhile_eq_nil_iff.mp he '\x00' h
    exact absurd hall (by decide)
  have hh : (l.dropWhile (· != '\x00')).head hd = '\x00' := by simpa using List.head_dropWhile_not (· != '\x00') hd
  have hsplit := List.cons_head_tail hd
  rw [hh] at hsplit
  exact ⟨_, List.takeWhile_append_dropWhile.symm.trans (congrArg (gStrndup l ++ ·) hsplit.symm)⟩

-- A line means nothing where what is in front of its first NUL means nothing.
theorem meaning_other_of_cut (h : '\x00' ∈ l) (hm : meaning (gStrndup l) = .other) : meaning l = .other := by
  obtain ⟨t, ht⟩ := eq_append_of_mem h
  have hn : '\x00' ∉ gStrndup l := not_mem_gStrndup
  generalize gStrndup l = u at ht hm hn
  subst ht
  cases u
  case nil       => cases hm
  case cons c u =>
    unfold meaning at hm ⊢
    rw [if_neg (by simp)] at hm ⊢
    split
    case isTrue      => rfl
    case isFalse hc =>
      rw [if_neg (show ¬(c :: u).head? = some ':' from hc)] at hm
      rw [List.takeWhile_append]
      split
      case isTrue  =>
        refine ne_of_mem (c := '\x00') (List.mem_append_right _ ?_) (by decide)
        rw [List.takeWhile_cons_of_pos (by decide)]
        exact List.mem_cons_self
      case isFalse =>
        refine of_fieldMeaning_other hm (not_mem_unspaced fun hv => hn ?_)
        exact (List.dropWhile_suffix _).subset (List.mem_of_mem_drop hv)

theorem meaning_gStrndup (h : '\x00' ∈ l → meaning (gStrndup l) = .other) : meaning (gStrndup l) = meaning l := by
  by_cases hn : '\x00' ∈ l
  case pos => rw [h hn, meaning_other_of_cut hn (h hn)]
  case neg =>
    have hall : ∀ c ∈ l, (c != '\x00') = true := fun c hc => by
      simpa using fun he : c = '\x00' => hn (he ▸ hc)
    rw [gStrndup, List.takeWhile_eq_self_iff.mpr hall]

theorem scanLines_append {start : CString} :
    scanLines (start ++ line) w text = (scanLines line w text).modifyHead (start ++ ·) := by
  induction text generalizing line w
  case nil          => rfl
  case cons c cs hi =>
    rw [scanLines, scanLines]
    split
    · exact hi
    · split
      · rfl
      · rw [List.append_assoc]
        exact hi

def bomBytes : CString :=
  "\xef\xbb\xbf".toList

theorem stripBom_cases : stream = bomBytes ++ stripBom stream ∨ stripBom stream = stream := by
  unfold stripBom
  split
  · exact .inl rfl
  · exact .inr rfl

-- The first line behind a byte order mark is a field that no one knows.
theorem meaning_bom : meaning (gStrndup (bomBytes ++ l)) = .other := by
  have hcut : gStrndup (bomBytes ++ l) = bomBytes ++ gStrndup l := by
    rw [gStrndup, List.takeWhile_append_of_pos (by simp [bomBytes])]
    rfl
  rw [hcut]
  unfold meaning
  rw [if_neg (by simp [bomBytes]), if_neg (by simp [bomBytes]), List.takeWhile_append_of_pos (by simp [bomBytes])]
  exact ne_of_mem (c := '\xef') (List.mem_append_left _ List.mem_cons_self) (by decide)

theorem map_meaning_of_nul {lines : List CString}
    (h : ∀ l ∈ lines, '\x00' ∈ l → meaning (gStrndup l) = .other) :
    lines.map (fun l => meaning (gStrndup l)) = lines.map meaning :=
  List.map_congr_left fun l hl => meaning_gStrndup (h l hl)

-- The lines of a plain stream mean to the parser what they mean.
theorem Plain.map_meaning (h : Plain stream) :
    (completeLines stream).map (fun l => meaning (gStrndup l)) = meanings stream := by
  by_cases hs : stripBom stream = stream
  case pos => rw [meanings, hs, map_meaning_of_nul h.nul]
  case neg =>
    have he := stripBom_cases.resolve_right hs
    have hfirst := h.bom hs
    have hnul := h.nul
    rw [meanings]
    generalize stripBom stream = rest at he hfirst ⊢
    have hlines : splitLines [] stream = (splitLines [] rest).modifyHead (bomBytes ++ ·) := by
      have hbom : splitLines [] stream = splitLines (bomBytes ++ []) rest := by rw [he]; rfl
      rw [hbom, splitLines_eq, splitLines_eq, scanLines_append]
    unfold completeLines at hfirst hnul ⊢
    rw [hlines] at hnul ⊢
    generalize splitLines [] rest = lines at hfirst hnul ⊢
    cases lines
    case nil         => rfl
    case cons x ys =>
      cases ys
      case nil       => rfl
      case cons y ys =>
        simp only [List.modifyHead_cons, List.dropLast_cons_cons, List.map_cons] at hnul ⊢
        rw [meaning_bom, hfirst x (by simp), map_meaning_of_nul fun l hl => hnul l (List.mem_cons_of_mem _ hl)]

end Plain

theorem data_foldl {b b' : Buffers} {ms : List Meaning} (h : b.data = b'.data) :
    (ms.foldl Buffers.apply b).data = (ms.foldl Buffers.apply b').data := by
  induction ms generalizing b b'
  case nil          => exact h
  case cons m ms hi =>
    refine hi ?_
    cases m <;> simp only [Buffers.apply, h]
    split <;> rfl

-- Within the limits, the parser dispatches the events of a plain stream, however it is cut into chunks.
theorem posted_eq_events {chunks : List CString} {lastId : CString} (hw : Within chunks.flatten)
    (hp : Plain chunks.flatten) :
    (({ lastEventId := lastId } : Parse).writeAll chunks).posted = events lastId chunks.flatten := by
  have hm : Matches (({ lastEventId := lastId } : Parse).processLines (completeLines chunks.flatten))
      ((meanings chunks.flatten).foldl Buffers.apply { lastId }) := by
    refine Matches.processLines ⟨rfl, rfl, by simp, rfl, rfl, rfl⟩ hp.map_meaning fun ms hms => ?_
    rw [@data_foldl { lastId } {} ms rfl]
    exact hw.data ms hms
  have hcore : (({ lastEventId := lastId } : Parse).feed chunks.flatten).core =
      (({ lastEventId := lastId } : Parse).processLines (completeLines chunks.flatten)).core := by
    rw [completeLines, splitLines_eq]
    refine Parse.core_feed fun l hl => hw.lines l ?_
    rwa [splitLines_eq]
  have hfatal := (congrArg Parse.fatal hcore).trans hm.fatal
  rw [Parse.writeAll_eq hfatal]
  exact (congrArg Parse.posted hcore).trans hm.posted

-- Line ends and fields that straddle the chunks.
def straddling : List CString :=
  ["id: 1\r\nda".toList, "ta: a\r".toList, "\ndata:b\n\r".toList, "\n".toList]

theorem posted_straddling : (({} : Parse).writeAll straddling).posted = events [] straddling.flatten := by
  have hdata : ∀ ms ∈ (meanings straddling.flatten).inits, (ms.foldl Buffers.apply {}).data.length ≤ maxEvent := by
    decide
  have hnul : ∀ l ∈ completeLines straddling.flatten, '\x00' ∉ l := by decide
  exact posted_eq_events ⟨by decide, fun ms hms => hdata ms ((List.mem_inits ms _).mpr hms)⟩
    ⟨fun l hl hn => absurd hn (hnul l hl), by decide⟩

-- The byte order mark takes the first field away.
theorem not_posted_bom : ¬∀ (chunks : List CString) (lastId : CString), Within chunks.flatten →
    (({ lastEventId := lastId } : Parse).writeAll chunks).posted = events lastId chunks.flatten := by
  intro h
  have hdata : ∀ ms ∈ (meanings "\xef\xbb\xbfdata: a\n\n".toList).inits,
      (ms.foldl Buffers.apply {}).data.length ≤ maxEvent := by decide
  have he := h ["\xef\xbb\xbfdata: a\n\n".toList] [] ⟨by decide, fun ms hms => hdata ms ((List.mem_inits ms _).mpr hms)⟩
  exact absurd he (by decide)

end Nordstjernen.Net.EventSource
