import Nordstjernen.Streaming.Hls

open Nordstjernen.Glib Nordstjernen.Js

namespace Nordstjernen.Streaming.Hls

section Lines

variable {l s : CString} {ls : List CString}

theorem splitLines_cons {c : Char} (hc : c ≠ '\n' ∧ c ≠ '\r') (hs : splitLines s = l :: ls) :
    splitLines (c :: s) = (c :: l) :: ls := by
  rw [splitLines.eq_def]
  split
  case h_1 e => cases e
  case h_2 e => exact absurd (List.cons.inj e).left hc.right
  case h_3 e => exact absurd (List.cons.inj e).left hc.left
  case h_4 e =>
    cases e
    rw [hs]

theorem splitLines_append (h : OneLine l) (hs : splitLines s = [] :: ls) :
    splitLines (l ++ s) = l :: ls := by
  induction l
  case nil => exact hs
  case cons c l ih =>
    have ⟨h₁, h₂⟩ := h
    rw [List.mem_cons, not_or] at h₁ h₂
    exact splitLines_cons ⟨Ne.symm h₁.left, Ne.symm h₂.left⟩ (ih ⟨h₁.right, h₂.right⟩)

theorem splitLines_of_printed (h : Printed ls s) (ho : ∀ l ∈ ls, OneLine l) : splitLines s = ls := by
  induction h
  case last l =>
    have hs := splitLines_append (ho l List.mem_cons_self) (s := []) rfl
    rwa [List.append_nil] at hs
  case lf ih =>
    have ⟨h, ho⟩ := List.forall_mem_cons.mp ho
    exact splitLines_append h (by rw [splitLines, ih ho])
  case crlf ih =>
    have ⟨h, ho⟩ := List.forall_mem_cons.mp ho
    exact splitLines_append h (by rw [splitLines, ih ho])

end Lines

section Text

variable {n : Numeral}

theorem Numeral.notMem {c : Char} (n : Numeral) (hc : c.isDigit = false) : c ∉ n.digits := by
  intro h
  rw [n.isDigit c h] at hc
  cases hc

theorem Numeral.parseInt (n : Numeral) : parseInt n.digits = some (n.value : Int) :=
  parseInt_digits n.ne_nil n.isDigit

theorem byteRange_length (n : Numeral) : byteRange n.digits =
    if 0 < n.value then Nat.toDigits 10 0 ++ '-' :: Nat.toDigits 10 (n.value - 1) else [] := by
  have hs : n.digits.splitOn '@' = [n.digits] := by
    have h : (['@'].intercalate [n.digits]).splitOn '@' = [n.digits] :=
      List.splitOn_intercalate '@' (by simpa using n.notMem rfl) (by simp)
    rwa [List.intercalate_singleton] at h
  rw [byteRange, if_neg n.ne_nil, hs]
  simp only [n.parseInt, Int.natCast_pos]
  split
  case isTrue h =>
    have hn : (0 : Int) + n.value - 1 = (n.value - 1 : Nat) := by omega
    rw [Option.map_some, hn, numberText_natCast]
    rfl
  case isFalse => rfl

theorem byteRange_offset (n o : Numeral) : byteRange (n.digits ++ '@' :: o.digits) =
    if 0 < n.value then
      Nat.toDigits 10 o.value ++ '-' :: Nat.toDigits 10 (o.value + n.value - 1)
    else [] := by
  have hs : (n.digits ++ '@' :: o.digits).splitOn '@' = [n.digits, o.digits] := by
    have h : (['@'].intercalate [n.digits, o.digits]).splitOn '@' = [n.digits, o.digits] :=
      List.splitOn_intercalate '@' (by simpa using ⟨n.notMem rfl, o.notMem rfl⟩) (by simp)
    simpa using h
  rw [byteRange, if_neg (by simp), hs]
  simp only [n.parseInt, o.parseInt, Int.natCast_pos]
  split
  case isTrue h =>
    have hn : (o.value : Int) + n.value - 1 = (o.value + n.value - 1 : Nat) := by omega
    rw [Option.map_some, hn, numberText_natCast, numberText_natCast]
  case isFalse => rfl

theorem parseFloat_decimal {D : Type} [Number D] (d : Decimal) (s : CString) :
    orZero (parseFloat (d.text ++ ',' :: s)) = (d.value : D) := by
  rcases d with ⟨whole, _ | f, hd, hn⟩
  case none =>
    have hw : ∀ c ∈ whole, c.isDigit = true := fun c hc => hd c (List.mem_append_left _ hc)
    have hh : StartsNumber (whole ++ ',' :: s) := by
      obtain ⟨c, tl, rfl⟩ := List.exists_cons_of_ne_nil (List.append_nil whole ▸ hn)
      rintro _ ⟨⟩
      exact .inl (hw _ List.mem_cons_self)
    have hp : parseFloat (D := D) (whole ++ ',' :: s) = _ :=
      parseFloat_append hw hh (by rintro _ ⟨⟩; rfl) rfl hn rfl
    exact (congrArg orZero hp).trans (orZero_ofDecimal _ _)
  case some =>
    have hw : ∀ c ∈ whole, c.isDigit = true := fun c hc => hd c (List.mem_append_left _ hc)
    have hf : ∀ c ∈ f, c.isDigit = true := fun c hc => hd c (List.mem_append_right _ hc)
    have hc : ∀ c ∈ (',' :: s).head?, c.isDigit = false := by
      rintro _ ⟨⟩
      rfl
    have hh : StartsNumber (whole ++ '.' :: (f ++ ',' :: s)) := by
      cases whole
      case nil  => rintro _ ⟨⟩; exact .inr rfl
      case cons => rintro _ ⟨⟩; exact .inl (hw _ List.mem_cons_self)
    have hfr : fraction ('.' :: (f ++ ',' :: s)) = (f, ',' :: s) := by
      rw [fraction, takeWhile_isDigit_append hf hc, dropWhile_isDigit_append hf hc]
    have hp : parseFloat (D := D) (whole ++ '.' :: (f ++ ',' :: s)) = _ :=
      parseFloat_append hw hh (by rintro _ ⟨⟩; rfl) hfr hn rfl
    have ht : Decimal.text ⟨whole, some f, hd, hn⟩ ++ ',' :: s = whole ++ '.' :: (f ++ ',' :: s) :=
      List.append_assoc ..
    rw [ht]
    exact (congrArg orZero hp).trans (orZero_ofDecimal _ _)

end Text

section Tags

variable {D : Type} [Number D] {absolute : CString → CString → CString} {base : CString}
variable {r : Reading D} {s : CString}

-- What a tag in front of a URI line does to the reading of segments.
structure Reads (timed : Option Decimal) (ranged : Option ByteRange) (r r' : Reading D) : Prop where
  segments        : r'.segments = r.segments
  duration        : r'.duration = r.duration
  startSequence   : r'.startSequence = r.startSequence
  pendingDuration : r'.pendingDuration = (timed.map (·.value)).getD r.pendingDuration
  pendingRange    : r'.pendingRange = (ranged.map (·.text)).getD r.pendingRange

theorem after_append (start s : CString) : after start (start ++ s) = some s := by
  rw [after, if_pos (by simp), List.drop_left]

theorem after_eq_none {start line line' : CString} (h : after start line = none)
    (hp : line' <+: line) : after start line' = none := by
  rw [after] at h ⊢
  split at h
  case isTrue     => cases h
  case isFalse hs =>
    rw [if_neg]
    intro hs'
    exact hs (List.isPrefixOf_iff_prefix.mpr ((List.isPrefixOf_iff_prefix.mp hs').trans hp))

theorem line_tag {tl tl' : CString} (h : trim ('#' :: tl) = '#' :: tl') :
    r.line absolute base ('#' :: tl) = r.tag absolute base ('#' :: tl') := by
  rw [Reading.line, h]
  rfl

theorem reads_other (h : IsOther s) : Reads none none r (r.line absolute base s) := by
  obtain ⟨-, rfl | ⟨hh, h₁, h₂, h₃⟩⟩ := h
  case inl => exact ⟨rfl, rfl, rfl, rfl, rfl⟩
  case inr =>
    obtain ⟨c, tl, rfl⟩ := List.exists_cons_of_ne_nil (l := s) (by rintro rfl; cases hh)
    cases hh
    have ht : trim ('#' :: tl) = '#' :: tl.rdropWhile isWhiteSpace :=
      trim_append_cons (a := []) (by rintro _ ⟨⟩; rfl) rfl
    have hp : '#' :: tl.rdropWhile isWhiteSpace <+: '#' :: tl :=
      (List.prefix_cons_inj _).mpr (List.rdropWhile_prefix ..)
    rw [line_tag ht, Reading.tag, after_eq_none h₁ hp, after_eq_none h₂ hp]
    dsimp only
    -- Neither the map nor the target duration nor the end concerns the segments.
    split
    case h_1 =>
      split
      case isTrue  => exact ⟨rfl, rfl, rfl, rfl, rfl⟩
      case isFalse => exact ⟨rfl, rfl, rfl, rfl, rfl⟩
    case h_2 =>
      split
      case h_1 => exact ⟨rfl, rfl, rfl, rfl, rfl⟩
      case h_2 =>
        rw [after_eq_none h₃ hp]
        dsimp only
        split
        case isTrue  => exact ⟨rfl, rfl, rfl, rfl, rfl⟩
        case isFalse => exact ⟨rfl, rfl, rfl, rfl, rfl⟩

theorem reads_extinf (d : Decimal) (title : CString) :
    Reads (some d) none r (r.line absolute base (Tag.extinf d title).text) := by
  have ht : trim (("#EXTINF:".toList ++ d.text) ++ ',' :: title) =
      ("#EXTINF:".toList ++ d.text) ++ ',' :: title.rdropWhile isWhiteSpace :=
    trim_append_cons (by rintro _ ⟨⟩; rfl) rfl
  rw [List.append_assoc, List.append_assoc] at ht
  have hl : r.line absolute base (Tag.extinf d title).text = _ := line_tag ht
  have ha := after_append "#EXTINF:".toList (d.text ++ ',' :: title.rdropWhile isWhiteSpace)
  have hr : r.tag absolute base ("#EXTINF:".toList ++ (d.text ++ ',' :: title.rdropWhile isWhiteSpace)) =
      { r with pendingDuration := d.value } := by
    rw [Reading.tag, ha]
    dsimp only
    rw [parseFloat_decimal]
  exact (hl.trans hr) ▸ ⟨rfl, rfl, rfl, rfl, rfl⟩

theorem ByteRange.not_isWhiteSpace (b : ByteRange) : ∀ c ∈ b.text, isWhiteSpace c = false := by
  intro c hc
  rcases b with ⟨n, _ | o⟩
  case none => exact not_isWhiteSpace_of_isDigit (n.isDigit c hc)
  case some =>
    rcases List.mem_append.mp hc with h | h
    · exact not_isWhiteSpace_of_isDigit (n.isDigit c h)
    · rcases List.mem_cons.mp h with rfl | h
      · rfl
      · exact not_isWhiteSpace_of_isDigit (o.isDigit c h)

theorem trim_tag (start : CString) {s : CString} (h : ∀ c ∈ start, isWhiteSpace c = false)
    (hs : ∀ c ∈ s, isWhiteSpace c = false) : trim (start ++ s) = start ++ s := by
  refine trim_eq_self fun c hc => ?_
  rcases List.mem_append.mp hc with hc | hc
  · exact h c hc
  · exact hs c hc

theorem reads_byteRange (b : ByteRange) :
    Reads none (some b) r (r.line absolute base (Tag.byteRange b).text) := by
  have hl : r.line absolute base (Tag.byteRange b).text = _ :=
    line_tag (trim_tag "#EXT-X-BYTERANGE:".toList (not_isWhiteSpace_of_any rfl) b.not_isWhiteSpace)
  have hn : after "#EXTINF:".toList ("#EXT-X-BYTERANGE:".toList ++ b.text) = none := rfl
  have ha := after_append "#EXT-X-BYTERANGE:".toList b.text
  have hr : r.tag absolute base ("#EXT-X-BYTERANGE:".toList ++ b.text) =
      { r with pendingRange := b.text } := by
    rw [Reading.tag, hn, ha]
    dsimp only
    rw [trim_eq_self b.not_isWhiteSpace]
  exact (hl.trans hr) ▸ ⟨rfl, rfl, rfl, rfl, rfl⟩

theorem line_sequence (n : Numeral) :
    r.line absolute base ("#EXT-X-MEDIA-SEQUENCE:".toList ++ n.digits) =
      { r with startSequence := n.value } := by
  have hd : ∀ c ∈ n.digits, isWhiteSpace c = false :=
    fun c hc => not_isWhiteSpace_of_isDigit (n.isDigit c hc)
  have hl : r.line absolute base ("#EXT-X-MEDIA-SEQUENCE:".toList ++ n.digits) = _ :=
    line_tag (trim_tag "#EXT-X-MEDIA-SEQUENCE:".toList (not_isWhiteSpace_of_any rfl) hd)
  have h₁ : after "#EXTINF:".toList ("#EXT-X-MEDIA-SEQUENCE:".toList ++ n.digits) = none := rfl
  have h₂ : after "#EXT-X-BYTERANGE:".toList ("#EXT-X-MEDIA-SEQUENCE:".toList ++ n.digits) = none := rfl
  have h₃ : after "#EXT-X-MAP:".toList ("#EXT-X-MEDIA-SEQUENCE:".toList ++ n.digits) = none := rfl
  have h₄ : after "#EXT-X-TARGETDURATION:".toList ("#EXT-X-MEDIA-SEQUENCE:".toList ++ n.digits) = none :=
    rfl
  have ha := after_append "#EXT-X-MEDIA-SEQUENCE:".toList n.digits
  refine hl.trans ?_
  have hr : r.tag absolute base ("#EXT-X-MEDIA-SEQUENCE:".toList ++ n.digits) =
      { r with startSequence := n.value } := by
    rw [Reading.tag, h₁, h₂, h₃, h₄, ha]
    dsimp only
    rw [n.parseInt]
    rfl
  exact hr

theorem line_uri (h : IsUri s) : r.line absolute base s = r.uri absolute base s := by
  obtain ⟨h₁, h₂, h₃⟩ := h
  rw [Reading.line, trim_eq_self h₃]
  split
  case h_1 => exact absurd rfl h₁
  case h_2 => exact absurd rfl h₂
  case h_3 => rfl

theorem Reads.refl : Reads none none r r :=
  ⟨rfl, rfl, rfl, rfl, rfl⟩

theorem Reads.trans {d d' : Option Decimal} {b b' : Option ByteRange} {r' r'' : Reading D}
    (h : Reads d b r r') (h' : Reads d' b' r' r'') : Reads (d'.or d) (b'.or b) r r'' where
  segments        := h'.segments.trans h.segments
  duration        := h'.duration.trans h.duration
  startSequence   := h'.startSequence.trans h.startSequence
  pendingDuration := by
    rw [h'.pendingDuration, h.pendingDuration]
    cases d' <;> rfl
  pendingRange := by
    rw [h'.pendingRange, h.pendingRange]
    cases b' <;> rfl

theorem reads_tag {t : Tag} (h : t.Legal) :
    Reads t.duration? t.range? r (r.line absolute base t.text) := by
  cases t
  case extinf d title => exact reads_extinf d title
  case byteRange b    => exact reads_byteRange b
  case other          => exact reads_other h

theorem getLast?_filterMap_cons {α β : Type} (f : α → Option β) (a : α) (l : List α) :
    ((a :: l).filterMap f).getLast? = (l.filterMap f).getLast?.or (f a) := by
  rw [List.filterMap_cons]
  cases f a
  case none => exact (Option.or_none).symm
  case some b => exact List.getLast?_append (l := [b])

-- The last tag of a kind counts.
theorem reads_tags {tags : List Tag} (h : ∀ t ∈ tags, t.Legal) :
    Reads (tags.filterMap Tag.duration?).getLast? (tags.filterMap Tag.range?).getLast? r
      ((tags.map Tag.text).foldl (Reading.line absolute base) r) := by
  induction tags generalizing r
  case nil => exact .refl
  case cons t ts ih =>
    have ⟨ht, hs⟩ := List.forall_mem_cons.mp h
    rw [getLast?_filterMap_cons, getLast?_filterMap_cons]
    exact (reads_tag ht).trans (ih hs)

theorem reads_others {ls : List CString} (h : ∀ l ∈ ls, IsOther l) :
    Reads none none r (ls.foldl (Reading.line absolute base) r) := by
  induction ls generalizing r
  case nil => exact .refl
  case cons l ls ih =>
    have ⟨hl, hs⟩ := List.forall_mem_cons.mp h
    exact (reads_other hl).trans (ih hs)

end Tags

section Items

variable {D : Type} [Number D] (absolute : CString → CString → CString) (base : CString)
variable {r : Reading D} {item : Item} {items : List Item}

-- The segments that the code makes of items.
def readFrom : D → Int → List Item → List (Segment D)
  | _,     _,        []            => []
  | start, sequence, item :: items =>
    { url      := absolute item.uri base
      duration := item.duration.value
      start    := start
      range    := byteRange ((item.range.map (·.text)).getD [])
      sequence := sequence } ::
      readFrom (start + item.duration.value) (sequence + 1) items

variable {absolute base}

theorem foldl_lines (absolute : CString → CString → CString) (base : CString) (r : Reading D)
    (item : Item) : ∃ r' : Reading D, Reads (some item.duration) item.range r r' ∧
    item.lines.foldl (Reading.line absolute base) r = r'.uri absolute base item.uri := by
  have ht : Reads _ _ r ((item.tags.map Tag.text).foldl (Reading.line absolute base) r) :=
    reads_tags item.legal
  have hl : item.range.toList.getLast? = item.range := by cases item.range <;> rfl
  rw [item.timed, item.ranged, List.getLast?_singleton, hl] at ht
  refine ⟨_, ht, ?_⟩
  rw [Item.lines, List.foldl_append, List.foldl_cons, List.foldl_nil, line_uri item.isUri]

theorem segments_foldl_items (absolute : CString → CString → CString) (base : CString)
    (items : List Item) (h : r.pendingRange = []) :
    ((items.flatMap Item.lines).foldl (Reading.line absolute base) r).segments =
      r.segments ++ readFrom absolute base r.duration (r.startSequence + r.segments.length) items := by
  induction items generalizing r
  case nil => exact (List.append_nil _).symm
  case cons item items ih =>
    obtain ⟨r', hr, hf⟩ := foldl_lines absolute base r item
    have hi := ih (r := r'.uri absolute base item.uri) rfl
    rw [List.flatMap_cons, List.foldl_append, hf, hi]
    simp only [Reading.uri, readFrom, hr.segments, hr.duration, hr.startSequence, hr.pendingDuration,
      hr.pendingRange, h]
    simp [Int.add_assoc]

end Items

section Playlist

variable {D : Type} [Number D] {absolute : CString → CString → CString} {base : CString}
variable {resource : CString → CString} {p : Playlist resource} {v : Version resource}

theorem oneLine_of_not_isWhiteSpace {s : CString} (h : ∀ c ∈ s, isWhiteSpace c = false) :
    OneLine s :=
  ⟨fun hn => absurd (h _ hn) (by decide), fun hr => absurd (h _ hr) (by decide)⟩

theorem OneLine.append {s t : CString} (hs : OneLine s) (ht : OneLine t) : OneLine (s ++ t) :=
  ⟨fun h => (List.mem_append.mp h).elim hs.left ht.left,
    fun h => (List.mem_append.mp h).elim hs.right ht.right⟩

theorem Decimal.not_isWhiteSpace (d : Decimal) : ∀ c ∈ d.text, isWhiteSpace c = false := by
  intro c hc
  rcases d with ⟨whole, _ | f, hd, _⟩
  case none => exact not_isWhiteSpace_of_isDigit (hd c (List.mem_append_left _ hc))
  case some =>
    rcases List.mem_append.mp hc with h | h
    · exact not_isWhiteSpace_of_isDigit (hd c (List.mem_append_left _ h))
    · rcases List.mem_cons.mp h with rfl | h
      · rfl
      · exact not_isWhiteSpace_of_isDigit (hd c (List.mem_append_right _ h))

theorem Tag.oneLine {t : Tag} (h : t.Legal) : OneLine t.text := by
  cases t
  case extinf d title =>
    have hc : OneLine [','] := oneLine_of_not_isWhiteSpace (not_isWhiteSpace_of_any rfl)
    have ht : OneLine (',' :: title) := hc.append h
    exact .append (oneLine_of_not_isWhiteSpace (not_isWhiteSpace_of_any rfl))
      ((oneLine_of_not_isWhiteSpace d.not_isWhiteSpace).append ht)
  case byteRange b =>
    exact .append (oneLine_of_not_isWhiteSpace (not_isWhiteSpace_of_any rfl))
      (oneLine_of_not_isWhiteSpace b.not_isWhiteSpace)
  case other => exact h.left

theorem Playlist.oneLine (p : Playlist resource) : ∀ l ∈ p.lines, OneLine l := by
  intro l hl
  rw [Playlist.lines, List.mem_append, List.mem_append, List.mem_append] at hl
  rcases hl with ((hl | hl) | hl) | hl
  · exact (p.header_ok l hl).left
  · obtain ⟨n, -, rfl⟩ := Option.map_eq_some_iff.mp (Option.mem_toList.mp hl)
    exact .append (oneLine_of_not_isWhiteSpace (not_isWhiteSpace_of_any rfl))
      (oneLine_of_not_isWhiteSpace fun c hc => not_isWhiteSpace_of_isDigit (n.isDigit c hc))
  · obtain ⟨item, -, hl⟩ := List.mem_flatMap.mp hl
    rcases List.mem_append.mp hl with hl | hl
    · obtain ⟨t, ht, rfl⟩ := List.mem_map.mp hl
      exact Tag.oneLine (item.legal t ht)
    · rw [List.mem_singleton.mp hl]
      exact oneLine_of_not_isWhiteSpace item.isUri.right.right
  · exact (p.trailer_ok l hl).left

theorem foldl_sequenceLines {r : Reading D} (h : r.startSequence = 0) :
    p.sequenceLines.foldl (Reading.line absolute base) r = { r with startSequence := p.first } := by
  rw [Playlist.sequenceLines, Playlist.first]
  cases p.sequence
  case none =>
    cases r
    cases h
    rfl
  case some n => exact line_sequence n

theorem Version.parsed_eq (v : Version resource) :
    v.parsed absolute base = readFrom (D := D) absolute base 0 v.playlist.first v.playlist.items := by
  have hh : Reads none none .initial
      (v.playlist.header.foldl (Reading.line absolute base) (.initial : Reading D)) :=
    reads_others v.playlist.header_ok
  rw [Version.parsed, parseMediaPlaylist, splitLines_of_printed v.printed v.playlist.oneLine,
    Playlist.lines, List.foldl_append, List.foldl_append, List.foldl_append,
    foldl_sequenceLines hh.startSequence]
  generalize v.playlist.header.foldl (Reading.line absolute base) (.initial : Reading D) = r at hh
  have hi := segments_foldl_items absolute base v.playlist.items
    (r := { r with startSequence := v.playlist.first }) hh.pendingRange
  dsimp only at hi ⊢
  rw [(reads_others v.playlist.trailer_ok).segments, hi, hh.segments, hh.duration]
  simp [Reading.initial]

end Playlist

section Agree

variable {D : Type} [Number D] {absolute : CString → CString → CString} {base : CString}
variable {resource : CString → CString} {item : Item} {items : List Item}

theorem toDigits_of_text {n : Nat} {s : CString} :
    (Nat.toDigits 10 n ++ '-' :: s).takeWhile Char.isDigit = Nat.toDigits 10 n :=
  takeWhile_toDigits_append rfl n

theorem digits_injective {m n : Nat} {s t : CString}
    (h : Nat.toDigits 10 m ++ '-' :: s = Nat.toDigits 10 n ++ '-' :: t) : m = n := by
  have hd := congrArg (List.takeWhile Char.isDigit) h
  rw [toDigits_of_text, toDigits_of_text] at hd
  rw [← Nat.ofDigitChars_ten_toDigits (n := m), hd, Nat.ofDigitChars_ten_toDigits]

theorem requests_iff_explicit {ends : Option Nat} {r : ByteRange}
    (h : r.offset = none → ∃ e > 0, ends = some e) :
    Requests (byteRange r.text) (some (r.offsetAfter ends, r.length.value)) ↔
      0 < r.length.value ∧ r.offset.isSome := by
  rcases r with ⟨n, _ | o⟩
  case none =>
    obtain ⟨e, he, rfl⟩ := h rfl
    refine ⟨?_, fun h => absurd h.right (by simp)⟩
    rintro ⟨hn, ht⟩
    have hb : byteRange n.digits = _ := byteRange_length n
    rw [if_pos hn] at hb
    exact absurd (digits_injective (hb.symm.trans ht)) (Nat.ne_of_lt he)
  case some =>
    refine ⟨fun h => ⟨h.left, rfl⟩, fun ⟨hn, _⟩ => ⟨hn, ?_⟩⟩
    have hb : byteRange (n.digits ++ '@' :: o.digits) = _ := byteRange_offset n o
    rw [if_pos hn] at hb
    exact hb

theorem requests_item_iff (item : Item) {ends : Option Nat}
    (h : ∀ r, item.range = some r → r.offset = none → ∃ e > 0, ends = some e) :
    Requests (byteRange ((item.range.map (·.text)).getD []))
      (item.range.map fun r => (r.offsetAfter ends, r.length.value)) ↔ item.Explicit := by
  rw [Item.Explicit]
  generalize item.range = range at h
  cases range
  case none   => exact iff_of_true rfl (by rintro _ ⟨⟩)
  case some r =>
    refine (requests_iff_explicit (h r rfl)).trans ⟨?_, fun h => h r rfl⟩
    rintro h _ ⟨⟩
    exact h

theorem agrees_iff_explicit {ends : Option Nat} {last : Option CString} {start : D} {sequence : Nat}
    (hc : Continues (absolute · base) last items) (hl : ∀ u, last = some u → ∃ e > 0, ends = some e) :
    List.Forall₂ Agrees (readFrom absolute base start sequence items)
      (segmentsFrom (absolute · base) ends start sequence items) ↔ ∀ item ∈ items, item.Explicit := by
  induction items generalizing ends last start sequence
  case nil => simp [readFrom, segmentsFrom]
  case cons item items ih =>
    have ⟨hi, hs⟩ := hc
    have hr := requests_item_iff item fun r h₁ h₂ => hl _ (hi r h₁ h₂)
    rw [readFrom, segmentsFrom, List.forall₂_cons, List.forall_mem_cons]
    by_cases he : item.Explicit
    case neg => exact ⟨fun h => absurd (hr.mp h.left.range) he, fun h => absurd h.left he⟩
    case pos =>
      refine and_congr ⟨fun _ => he, fun _ => ⟨rfl, rfl, rfl, hr.mpr he, rfl⟩⟩ (ih hs ?_)
      -- What is not empty ends behind the beginning.
      intro u hu
      obtain ⟨r, h, -⟩ := Option.map_eq_some_iff.mp hu
      rw [h]
      exact ⟨_, Nat.lt_of_lt_of_le (he r h).left (Nat.le_add_left _ _), rfl⟩

end Agree

section Merge

variable {D : Type} {segments incoming : List (Segment D)} {first first' : Int}

-- The last number of a list.
def known (segments : List (Segment D)) : Int :=
  (segments.getLast?.map (·.sequence)).getD (-1)

-- Consecutive numbers from the first one on.
structure Window (first : Int) (l : List (Segment D)) : Prop where
  increasing : l.Pairwise (·.sequence < ·.sequence)
  mem_iff    : ∀ n, (∃ s ∈ l, s.sequence = n) ↔ first ≤ n ∧ n < first + l.length

-- What has been merged leaves out no number between the first one of the last version and its own
-- last one.
structure Covers (first : Int) (segments : List (Segment D)) : Prop where
  increasing : segments.Pairwise (·.sequence < ·.sequence)
  covered    : ∀ n, first ≤ n → n ≤ known segments → ∃ s ∈ segments, s.sequence = n

theorem covers_nil (h : 0 ≤ first) : Covers first ([] : List (Segment D)) where
  increasing := .nil
  covered n h₁ h₂ := by
    have hk : n ≤ -1 := h₂
    omega

theorem known_concat (l : List (Segment D)) (s : Segment D) : known (l ++ [s]) = s.sequence := by
  rw [known, List.getLast?_concat]
  rfl

theorem le_known (h : segments.Pairwise (·.sequence < ·.sequence)) :
    ∀ s ∈ segments, s.sequence ≤ known segments := by
  intro s hs
  rcases List.eq_nil_or_concat' segments with rfl | ⟨l, t, rfl⟩
  case inl => cases hs
  case inr =>
    rw [known_concat]
    rcases List.mem_append.mp hs with hs | hs
    · exact Int.le_of_lt ((List.pairwise_append.mp h).right.right s hs t (List.mem_singleton_self t))
    · exact Int.le_of_eq (congrArg _ (List.mem_singleton.mp hs))

theorem mem_mergeSegments {s : Segment D} : s ∈ mergeSegments segments incoming ↔
    s ∈ segments ∨ s ∈ incoming ∧ known segments < s.sequence := by
  rw [mergeSegments, List.mem_append, List.mem_filter, decide_eq_true_iff]
  rfl

theorem known_mergeSegments (segments incoming : List (Segment D)) : known (mergeSegments segments incoming) = known segments ∨
    ∃ s ∈ incoming, known (mergeSegments segments incoming) = s.sequence := by
  rw [mergeSegments]
  rcases List.eq_nil_or_concat' (incoming.filter (known segments < ·.sequence)) with h | ⟨l, s, h⟩
  case inl =>
    left
    exact congrArg known ((congrArg (segments ++ ·) h).trans (List.append_nil _))
  case inr =>
    right
    have hs : s ∈ incoming.filter (known segments < ·.sequence) := h ▸ List.mem_concat_self
    refine ⟨s, List.mem_of_mem_filter hs, ?_⟩
    refine (congrArg known (congrArg (segments ++ ·) h)).trans ?_
    rw [← List.append_assoc, known_concat]

section Step

variable (hc : Covers first segments) (hw : Window first' incoming) (hf : first ≤ first')
include hc hw hf

theorem Covers.listed : ∀ s ∈ incoming,
    ∃ t ∈ mergeSegments segments incoming, t.sequence = s.sequence := by
  intro s hs
  by_cases hk : s.sequence ≤ known segments
  case pos =>
    have hn := ((hw.mem_iff _).mp ⟨s, hs, rfl⟩).left
    obtain ⟨t, ht, h⟩ := hc.covered _ (Int.le_trans hf hn) hk
    exact ⟨t, mem_mergeSegments.mpr (.inl ht), h⟩
  case neg => exact ⟨s, mem_mergeSegments.mpr (.inr ⟨hs, Int.not_le.mp hk⟩), rfl⟩

theorem Covers.merge : Covers first' (mergeSegments segments incoming) where
  increasing := by
    rw [mergeSegments, List.pairwise_append]
    refine ⟨hc.increasing, hw.increasing.filter _, fun s hs t ht => ?_⟩
    have hk : known segments < t.sequence := of_decide_eq_true (List.mem_filter.mp ht).right
    exact Int.lt_of_le_of_lt (le_known hc.increasing s hs) hk
  covered n h₁ h₂ := by
    by_cases hk : n ≤ known segments
    case pos =>
      obtain ⟨s, hs, h⟩ := hc.covered n (Int.le_trans hf h₁) hk
      exact ⟨s, mem_mergeSegments.mpr (.inl hs), h⟩
    case neg =>
      -- The number is in the new version, for its last segment has come to the end of the list.
      rcases known_mergeSegments segments incoming with h | ⟨s, hs, h⟩
      case inl => exact absurd (h ▸ h₂) hk
      case inr =>
        have hl := ((hw.mem_iff _).mp ⟨s, hs, rfl⟩).right
        obtain ⟨t, ht, e⟩ := (hw.mem_iff n).mpr ⟨h₁, by omega⟩
        exact ⟨t, mem_mergeSegments.mpr (.inr ⟨ht, by omega⟩), e⟩

end Step

theorem mergeSegments_nil (hw : Window first incoming) (h : 0 ≤ first) :
    mergeSegments [] incoming = incoming := by
  refine List.filter_eq_self.mpr fun s hs => decide_eq_true ?_
  have hs := ((hw.mem_iff _).mp ⟨s, hs, rfl⟩).left
  have hn : -1 < s.sequence := by omega
  exact hn

variable [Number D] {absolute : CString → CString → CString} {base : CString}
variable {resource : CString → CString} {vs : List (Version resource)}

theorem window_readFrom (start : D) (sequence : Int) (items : List Item) :
    Window sequence (readFrom absolute base start sequence items) := by
  induction items generalizing start sequence
  case nil =>
    refine ⟨.nil, fun n => ?_⟩
    refine iff_of_false (fun ⟨s, hs, _⟩ => List.not_mem_nil hs) ?_
    rw [readFrom, List.length_nil]
    omega
  case cons item items ih =>
    have ⟨hp, hm⟩ := ih (start + item.duration.value) (sequence + 1)
    rw [readFrom]
    refine ⟨List.pairwise_cons.mpr ⟨fun s hs => ?_, hp⟩, fun n => ?_⟩
    · have hs := ((hm _).mp ⟨s, hs, rfl⟩).left
      dsimp only
      omega
    · rw [List.exists_mem_cons_iff, hm, List.length_cons]
      dsimp only
      omega

theorem exists_mem_readFrom (absolute : CString → CString → CString) (base : CString)
    {res : CString → CString} {ends : Option Nat} {start : D} {sequence : Nat}
    {items : List Item} : ∀ m ∈ segmentsFrom res ends start sequence items,
      ∃ s ∈ readFrom absolute base start sequence items, s.sequence = m.sequence := by
  induction items generalizing ends start sequence
  case nil => exact fun _ h => absurd h List.not_mem_nil
  case cons item items ih =>
    rw [segmentsFrom, readFrom, List.forall_mem_cons]
    refine ⟨⟨_, List.mem_cons_self, rfl⟩, fun m hm => ?_⟩
    obtain ⟨s, hs, h⟩ := ih m hm
    exact ⟨s, List.mem_cons_of_mem _ hs, h⟩

theorem Version.window (v : Version resource) (absolute : CString → CString → CString) (base : CString) :
    Window (v.playlist.first : Int) (v.parsed (D := D) absolute base) := by
  rw [v.parsed_eq]
  exact window_readFrom 0 _ _

-- Every refresh keeps what is there and adds what is new.
theorem foldl_merge (absolute : CString → CString → CString) (base : CString)
    (hp : vs.Pairwise fun v w => v.playlist.first ≤ w.playlist.first)
    (hf : ∀ v ∈ vs, first ≤ v.playlist.first) (hc : Covers first segments) :
    let merged := vs.foldl (fun segments w => mergeSegments segments (w.parsed absolute base)) segments
    merged.Pairwise (·.sequence < ·.sequence) ∧ (∀ s ∈ segments, s ∈ merged) ∧
      (∀ v ∈ vs, ∀ s ∈ v.parsed (D := D) absolute base, ∃ t ∈ merged, t.sequence = s.sequence) ∧
      ∀ t ∈ merged, t ∈ segments ∨ ∃ v ∈ vs, t ∈ v.parsed absolute base := by
  induction vs generalizing segments first
  case nil => exact ⟨hc.increasing, fun _ h => h, by simp, fun _ h => .inl h⟩
  case cons v vs ih =>
    have ⟨hv, hp⟩ := List.pairwise_cons.mp hp
    have ⟨hv', hf⟩ := List.forall_mem_cons.mp hf
    have hw := v.window (D := D) absolute base
    have ⟨hi, hk, hl, hs⟩ := ih hp (fun w hw => Int.ofNat_le.mpr (hv w hw)) (hc.merge hw hv')
    refine ⟨hi, fun s h => hk s (mem_mergeSegments.mpr (.inl h)),
      List.forall_mem_cons.mpr ⟨fun s h => ?_, hl⟩, fun t ht => ?_⟩
    · obtain ⟨t, ht, e⟩ := hc.listed hw hv' s h
      exact ⟨t, hk t ht, e⟩
    · rcases hs t ht with h | ⟨w, hw, h⟩
      · rcases mem_mergeSegments.mp h with h | ⟨h, -⟩
        · exact .inl h
        · exact .inr ⟨v, List.mem_cons_self, h⟩
      · exact .inr ⟨w, List.mem_cons_of_mem _ hw, h⟩

theorem Live.merged_eq (l : Live resource) : l.merged absolute base =
    l.versions.foldl (fun segments w => mergeSegments segments (w.parsed (D := D) absolute base)) [] := by
  rw [Live.merged]
  cases l.versions
  case nil       => rfl
  case cons v vs => rw [List.foldl_cons, mergeSegments_nil (v.window absolute base) (Int.natCast_nonneg _)]

theorem Live.merges (l : Live resource) : l.Merges (D := D) absolute base (l.merged absolute base) := by
  have ⟨hi, _, hl, hs⟩ := foldl_merge (D := D) absolute base l.increasing
    (fun v _ => Int.natCast_nonneg _) (covers_nil (Int.le_refl 0))
  rw [l.merged_eq]
  refine ⟨hi, fun v hv m hm => ?_, fun s h => (hs s h).resolve_left List.not_mem_nil⟩
  obtain ⟨s, h, e⟩ := exists_mem_readFrom absolute base m hm
  obtain ⟨t, ht, e'⟩ := hl v hv s (by rwa [v.parsed_eq])
  exact ⟨t, ht, e'.trans e⟩

end Merge

section Implicit

def numeral (c : Char) (h : c.isDigit = true) : Numeral where
  digits  := [c]
  isDigit := by simpa using h
  ne_nil  := List.cons_ne_nil _ _

-- A second of nine bytes.
def nineBytes (offset : Option Numeral) : Item where
  tags     := [.extinf ⟨['1'], none, List.all_eq_true.mp rfl, List.cons_ne_nil _ _⟩ [], .byteRange ⟨numeral '9' rfl, offset⟩]
  uri      := ['a']
  duration := ⟨['1'], none, List.all_eq_true.mp rfl, List.cons_ne_nil _ _⟩
  range    := some ⟨numeral '9' rfl, offset⟩
  legal    := by
    intro t ht
    simp only [List.mem_cons, List.not_mem_nil, or_false] at ht
    rcases ht with rfl | rfl
    · exact ⟨by decide, by decide⟩
    · trivial
  isUri    := ⟨List.cons_ne_nil _ _, by decide, not_isWhiteSpace_of_any rfl⟩
  timed    := rfl
  ranged   := rfl

-- The second range has no offset.
def nineAndNine : Version (fun u => u) where
  playlist := {
    header     := []
    sequence   := none
    items      := [nineBytes (some (numeral '0' rfl)), nineBytes none]
    trailer    := []
    header_ok  := fun _ h => absurd h List.not_mem_nil
    trailer_ok := fun _ h => absurd h List.not_mem_nil
    continues  := ⟨by rintro _ ⟨⟩ ⟨⟩, fun _ _ _ => rfl, trivial⟩
  }
  text    := "#EXTINF:1,\n#EXT-X-BYTERANGE:9@0\na\n#EXTINF:1,\n#EXT-X-BYTERANGE:9\na".toList
  printed := .lf "#EXTINF:1,".toList (.lf "#EXT-X-BYTERANGE:9@0".toList (.lf "a".toList
    (.lf "#EXTINF:1,".toList (.lf "#EXT-X-BYTERANGE:9".toList (.last "a".toList)))))

end Implicit

end Nordstjernen.Streaming.Hls
