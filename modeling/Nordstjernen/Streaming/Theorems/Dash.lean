import Mathlib.Algebra.Order.Field.Basic
import Mathlib.Algebra.Order.Floor.Ring
import Mathlib.Tactic.Ring
import Nordstjernen.Streaming.Dash

open Nordstjernen.Glib

namespace Nordstjernen.Streaming.Dash

section Expand

variable {v : Values} {rest : CString}

theorem expandFrom_skip (s : CString) : expandFrom v (s ++ rest) s.length = expandFrom v rest 0 := by
  induction s
  case nil         => rfl
  case cons c s ih => exact ih

theorem expandFrom_of_matchAt {c : Char} {s value : CString}
    (h : matchAt v (c :: s ++ rest) = some (value, rest)) :
    expandFrom v (c :: s ++ rest) 0 = value ++ expandFrom v rest 0 := by
  rw [List.cons_append] at h ⊢
  rw [expandFrom, h]
  dsimp only
  rw [List.length_append, Nat.add_sub_cancel, expandFrom_skip]

theorem expandFrom_literal {text : CString} (h : '$' ∉ text) :
    expandFrom v (text ++ rest) 0 = text ++ expandFrom v rest 0 := by
  induction text
  case nil         => rfl
  case cons c s ih =>
    have ⟨hc, hs⟩ := List.ne_and_not_mem_of_not_mem_cons h
    have hm : matchAt v (c :: (s ++ rest)) = none := by
      rw [matchAt]
      case x_2 => exact fun _ e => hc (List.cons.inj e).left.symm
      case x_3 => exact fun _ e => hc (List.cons.inj e).left.symm
    rw [List.cons_append, expandFrom, hm]
    dsimp only
    rw [ih hs, List.cons_append]

theorem widthOf_text (w : Width) :
    widthOf (Width.text (some w) ++ rest) = some (Width.value (some w), rest) := by
  have hd : ¬ 'd'.isDigit := by decide
  have ht : (w.digits ++ 'd' :: rest).takeWhile Char.isDigit = w.digits := by
    rw [List.takeWhile_append_of_pos w.isDigit, List.takeWhile_cons_of_neg hd, List.append_nil]
  have hr : (w.digits ++ 'd' :: rest).dropWhile Char.isDigit = 'd' :: rest := by
    rw [List.dropWhile_append_of_pos w.isDigit, List.dropWhile_cons_of_neg hd]
  have hw : Width.text (some w) ++ rest = '%' :: '0' :: (w.digits ++ 'd' :: rest) := by
    simp [Width.text]
  rw [hw, widthOf, ht, hr, Width.value]
  cases hc : w.digits
  case nil  => exact absurd hc w.nonempty
  case cons => rfl

theorem closes_text (w : Option Width) :
    closes (Width.text w ++ '$' :: rest) = some (w.map (Width.value ∘ some), rest) := by
  cases w
  case none   => rfl
  case some w =>
    unfold closes
    rw [widthOf_text]
    rfl

theorem matchAt_dollar_cons {c : Char} {s : CString} (h : c ≠ '$') :
    matchAt v ('$' :: c :: s) = v.names.findSome? fun (name, value) =>
      if gStrHasPrefix (c :: s) name then
        (closes ((c :: s).drop name.length)).map fun (width, tl) =>
          (padded (width.getD 0) value, tl)
      else
        none := by
  rw [matchAt]
  exact fun _ e => h (List.cons.inj e).left

theorem matchAt_name {name value : CString} (h : (name, value) ∈ v.names) (w : Option Width) :
    matchAt v ('$' :: (name ++ (Width.text w ++ '$' :: rest))) =
      some (padded (Width.value w) value, rest) := by
  have hc : closes (Width.text w ++ '$' :: rest) = _ := closes_text w
  have hp : padded ((w.map (Width.value ∘ some)).getD 0) value = padded (Width.value w) value := by
    cases w <;> rfl
  rw [← hp]
  -- No name starts with another one.
  simp only [Values.names, List.mem_cons, Prod.mk.injEq, List.not_mem_nil, or_false] at h
  rcases h with ⟨rfl, rfl⟩ | ⟨rfl, rfl⟩ | ⟨rfl, rfl⟩ | ⟨rfl, rfl⟩ <;> simp only [String.reduceToList, List.cons_append] <;>
    rw [matchAt_dollar_cons (by decide)] <;> simp [Values.names, gStrHasPrefix, hc]

theorem expandFrom_name {name value : CString} (h : (name, value) ∈ v.names) (w : Option Width) :
    expandFrom v ('$' :: (name ++ Width.text w ++ ['$']) ++ rest) 0 =
      padded (Width.value w) value ++ expandFrom v rest 0 := by
  refine expandFrom_of_matchAt ?_
  have hm : matchAt v ('$' :: (name ++ (Width.text w ++ '$' :: rest))) = _ := matchAt_name h w
  simpa using hm

theorem expandFrom_piece {p : Piece} (h : p ≠ .dollar) :
    expandFrom v (p.text ++ rest) 0 = p.expand v ++ expandFrom v rest 0 := by
  cases p
  case dollar           => exact absurd rfl h
  case literal hd       => exact expandFrom_literal hd
  case representationId =>
    have hn : ("RepresentationID".toList, v.representationId) ∈ v.names := .head _
    have he : expandFrom v ('$' :: ("RepresentationID".toList ++ Width.text none ++ ['$']) ++ rest) 0 =
        _ := expandFrom_name hn none
    rw [Width.text, List.append_nil, Width.value, padded, Nat.zero_sub] at he
    exact he
  case number w =>
    have hn : ("Number".toList, Values.text v.number) ∈ v.names := .tail _ (.head _)
    exact expandFrom_name hn w
  case bandwidth w =>
    have hn : ("Bandwidth".toList, Values.text v.bandwidth) ∈ v.names := .tail _ (.tail _ (.head _))
    exact expandFrom_name hn w
  case time w =>
    have hn : ("Time".toList, Values.text v.time) ∈ v.names :=
      .tail _ (.tail _ (.tail _ (.head _)))
    exact expandFrom_name hn w

theorem expandTemplate_text {u : UrlTemplate} (h : .dollar ∉ u) :
    expandTemplate u.text v = u.expand v := by
  rw [expandTemplate, UrlTemplate.text, UrlTemplate.expand]
  induction u
  case nil         => rfl
  case cons p u ih =>
    have ⟨hp, hu⟩ := List.ne_and_not_mem_of_not_mem_cons h
    rw [List.flatMap_cons, List.flatMap_cons, expandFrom_piece (Ne.symm hp), ih hu]

end Expand

section Timeline

variable {absolute : CString → CString} {rep : Representation} {template : SegmentTemplate}
  {url : UrlTemplate} {finish : ℚ} {es : List Entry} {e : Entry} {time number : Nat}

theorem length_repeated {d k : Nat} :
    (repeated absolute rep template time number d k).length = k := by
  induction k generalizing time number
  case zero      => rfl
  case succ k ih => rw [repeated, List.length_cons, ih]

theorem repeated_eq_map (hu : template.media = url.text) (hd : .dollar ∉ url) {d k : Nat} :
    repeated absolute rep template time number d k =
      ((List.range k).map fun k => (number + k, time + k * d, d)).map
        (standardSegment absolute rep template url) := by
  induction k generalizing time number
  case zero      => rfl
  case succ k ih =>
    rw [repeated, ih, List.range_succ_eq_map]
    simp only [List.map_cons, List.map_map]
    congr 1
    case e_head =>
      simp [standardSegment, segmentUrl, hu, expandTemplate_text hd]
    case e_tail =>
      refine List.map_congr_left fun k _ => ?_
      have hn : number + 1 + k = number + (k + 1) := by omega
      have ht : time + d + k * d = time + (k + 1) * d := by ring
      simp only [Function.comp_apply, Nat.succ_eq_add_one, hn, ht]

theorem turns_le_count : (e.r + 1).toNat ≤ e.count es finish time := by
  rw [Entry.count]
  split
  case isTrue    => exact le_rfl
  case isFalse h => rw [Int.toNat_of_nonpos (by omega)]; exact Nat.zero_le _

theorem count_eq_turns_iff :
    e.count es finish time = (e.r + 1).toNat ↔ (e.r < 0 → repeatEnd es finish ≤ time) := by
  have hd : (0 : ℚ) < e.d := by exact_mod_cast e.d_pos
  rw [Entry.count]
  split
  case isTrue h  => simp [not_lt.mpr h]
  case isFalse h =>
    rw [Int.toNat_of_nonpos (by omega : e.r + 1 ≤ 0), Int.toNat_eq_zero, Int.ceil_le, Int.cast_zero,
      div_le_iff₀ hd, zero_mul, sub_nonpos]
    exact ⟨fun hl _ => hl, fun hl => hl (not_le.mp h)⟩

theorem timelineSegments_eq (hu : template.media = url.text) (hd : .dollar ∉ url)
    (h : NothingToRepeat finish es time) :
    timelineSegments absolute rep template es time number =
      (timelineStandard finish es time number).map (standardSegment absolute rep template url) := by
  induction es generalizing time number
  case nil => rfl
  case cons e es ih =>
    have ⟨he, hr⟩ := h
    rw [timelineSegments, timelineStandard]
    rw [count_eq_turns_iff.mpr he, List.map_append, repeated_eq_map hu hd, ih hr]

theorem length_le_standard {time' number' : Nat} :
    (timelineSegments absolute rep template es time number).length ≤
      (timelineStandard finish es time' number').length := by
  induction es generalizing time number time' number'
  case nil => exact Nat.le_refl _
  case cons e es ih =>
    rw [timelineSegments, timelineStandard, List.length_append, List.length_append, length_repeated,
      List.length_map, List.length_range]
    exact Nat.add_le_add turns_le_count ih

-- Dropped repetitions are missed in the end, as no other entry makes up for them.
theorem nothingToRepeat_of_length_eq
    (h : (timelineSegments absolute rep template es time number).length =
      (timelineStandard finish es time number).length) : NothingToRepeat finish es time := by
  induction es generalizing time number
  case nil => trivial
  case cons e es ih =>
    rw [timelineSegments, timelineStandard, List.length_append, List.length_append, length_repeated,
      List.length_map, List.length_range] at h
    have hc : (e.r + 1).toNat ≤ e.count es finish (e.t.getD time) := turns_le_count
    have hl : (timelineSegments absolute rep template es
          (e.t.getD time + (e.r + 1).toNat * e.d) (number + (e.r + 1).toNat)).length ≤
        (timelineStandard finish es (e.t.getD time + e.count es finish (e.t.getD time) * e.d)
          (number + e.count es finish (e.t.getD time))).length :=
      length_le_standard
    have he : e.count es finish (e.t.getD time) = (e.r + 1).toNat := by omega
    rw [he] at h
    exact ⟨count_eq_turns_iff.mp he, ih (Nat.add_left_cancel h)⟩

end Timeline

section Listed

variable (absolute : CString → CString) (rep : Representation) (template : SegmentTemplate)
  (url : UrlTemplate) (timeline : List Entry) (mime inherited : CString) (presentationDuration : ℚ)

def withTimeline : SegmentTemplate :=
  { template with media := url.text, timeline := some timeline }

theorem listed_nil :
    listed absolute rep (withTimeline template [] timeline) mime inherited presentationDuration = [] := by
  rfl

theorem listed_cons {p : Piece} :
    listed absolute rep (withTimeline template (p :: url) timeline) mime inherited presentationDuration =
      timelineSegments absolute rep (withTimeline template (p :: url) timeline) timeline 0
        template.startNumber := by
  have hp : p.text ≠ [] := by cases p <;> simp [Piece.text, *]
  have hm : (withTimeline template (p :: url) timeline).media ≠ [] := fun he =>
    hp (List.append_eq_nil_iff.mp he).left
  rw [listed, dashRepresentation, if_neg hm]
  have hs : segments absolute rep (withTimeline template (p :: url) timeline) presentationDuration =
      some (timelineSegments absolute rep (withTimeline template (p :: url) timeline) timeline 0
        template.startNumber) := rfl
  rw [hs]
  cases timelineSegments absolute rep (withTimeline template (p :: url) timeline) timeline 0
    template.startNumber <;> rfl

end Listed

-- `$$` stays as it is.
theorem not_listed_dollar :
    expandTemplate (UrlTemplate.text [.dollar]) ⟨[], 0, 0, 0⟩ ≠
      UrlTemplate.expand [.dollar] ⟨[], 0, 0, 0⟩ := by
  decide +kernel

end Nordstjernen.Streaming.Dash
