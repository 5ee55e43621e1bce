import Mathlib.Data.List.Infix
import Nordstjernen.Net.Header.Capture

open Nordstjernen.Glib

namespace Nordstjernen.Net.Header

-- The equations of what is matched on most are derived here, once for all the proofs below.
section
attribute [local simp] HeaderCtx.headerCb gStrHasPrefix HeaderCtx.sinkFeed varyNames
  HeaderCtx.capture captured HeaderCtx.append HeaderCtx.feedAll gAsciiStrdown HeaderCtx.keepRaw
  putsInCache Field.chain strstr Block.lines HeaderCtx.joined commaJoin hasCasePrefix
end

section Names

theorem hasCasePrefix_iff {s p : CString} : hasCasePrefix s p ↔ gAsciiStrdown p <+: gAsciiStrdown s := by
  rw [hasCasePrefix, beq_iff_eq, List.prefix_iff_eq_take, length_gAsciiStrdown, gAsciiStrdown,
    gAsciiStrdown, gAsciiStrdown, List.map_take]
  exact eq_comm

example : hasCasePrefix "ETag: 1".toList "etag:".toList := by decide +kernel

-- Two prefixes of one line are prefixes of each other.
theorem comparable_of_hasCasePrefix {s p q : CString} (hp : hasCasePrefix s p)
    (hq : hasCasePrefix s q) :
    gAsciiStrdown p <+: gAsciiStrdown q ∨ gAsciiStrdown q <+: gAsciiStrdown p :=
  List.prefix_or_prefix_of_prefix (hasCasePrefix_iff.mp hp) (hasCasePrefix_iff.mp hq)

variable {line : CString} {f g : Field}

theorem Field.mem_chain (f : Field) : f ∈ chain := by
  cases f <;> simp [chain]

theorem Field.eq_of_startsWith (h : gAsciiStrdown f.name <+: gAsciiStrdown g.name) : f = g := by
  have hd : ∀ p ∈ chain.map fun f => (f, gAsciiStrdown f.name), ∀ q ∈ chain.map fun f => (f, gAsciiStrdown f.name),
      p.2 <+: q.2 → p.1 = q.1 := by
    simp only [chain, List.map_cons, List.map_nil]
    delta name
    dsimp only
    repeat rw [String.toList_ofList]
    decide +kernel
  exact hd _ (List.mem_map_of_mem f.mem_chain) _ (List.mem_map_of_mem g.mem_chain) h

theorem Field.eq_of_hasCasePrefix (hf : hasCasePrefix line f.name) (hg : hasCasePrefix line g.name) :
    f = g :=
  (comparable_of_hasCasePrefix hf hg).elim eq_of_startsWith fun h => (eq_of_startsWith h).symm

theorem find?_chain (h : hasCasePrefix line f.name) :
    Field.chain.find? (hasCasePrefix line ·.name) = some f := by
  cases hc : Field.chain.find? (hasCasePrefix line ·.name)
  case none   => exact absurd h (List.find?_eq_none.mp hc f f.mem_chain)
  case some g =>
    have hg : hasCasePrefix line g.name := List.find?_some (p := fun f => hasCasePrefix line (Field.name f)) hc
    rw [Field.eq_of_hasCasePrefix h hg]

theorem not_hasCasePrefix_name {p : CString} (hp : hasCasePrefix line p)
    (hd : ∀ s ∈ Field.chain.map fun f => gAsciiStrdown f.name, ¬(gAsciiStrdown p <+: s ∨ s <+: gAsciiStrdown p)) :
    hasCasePrefix line f.name = false := by
  rw [Bool.eq_false_iff]
  exact fun hf => hd _ (List.mem_map_of_mem f.mem_chain) (comparable_of_hasCasePrefix hp hf)

theorem not_name_of_isStatusLine (h : isStatusLine line) : hasCasePrefix line f.name = false := by
  refine not_hasCasePrefix_name h ?_
  simp only [Field.chain, List.map_cons, List.map_nil]
  delta Field.name
  dsimp only
  repeat rw [String.toList_ofList]
  decide +kernel

theorem not_name_of_isSetCookie (h : isSetCookie line) : hasCasePrefix line f.name = false := by
  refine not_hasCasePrefix_name h ?_
  simp only [Field.chain, List.map_cons, List.map_nil]
  delta Field.name
  dsimp only
  repeat rw [String.toList_ofList]
  decide +kernel

theorem not_isSetCookie_of_isStatusLine (h : isStatusLine line) : isSetCookie line = false := by
  rw [Bool.eq_false_iff]
  exact fun hs => absurd (comparable_of_hasCasePrefix h hs) (by decide)

theorem hasCasePrefix_nil : hasCasePrefix [] f.name = false := by
  cases f <;> (delta Field.name; dsimp only; rw [String.toList_ofList]; rfl)

end Names

section Join

variable {us vs : List CString} {u v p name : CString}

theorem commaJoin_eq_nil : commaJoin vs = [] ↔ ∀ v ∈ vs, v = [] := by
  have hf : commaJoin vs = [] ↔ vs.filter (· ≠ []) = [] := by
    rw [commaJoin]
    have hne : ∀ v ∈ vs.filter (· ≠ []), v ≠ [] := by simp
    generalize vs.filter (· ≠ []) = ws at hne
    cases ws
    case nil => simp
    case cons w ws =>
      have hw := hne w List.mem_cons_self
      cases ws <;> simp [hw]
  rw [hf, List.filter_eq_nil_iff]
  simp

theorem commaJoin_cons : commaJoin (u :: us) =
    if u = [] then commaJoin us
    else if commaJoin us = [] then u else u ++ ", ".toList ++ commaJoin us := by
  by_cases hu : u = []
  case pos => simp [commaJoin, hu]
  case neg =>
    have hc : commaJoin (u :: us) = ", ".toList.intercalate (u :: us.filter (· ≠ [])) := by
      simp [commaJoin, hu]
    rw [hc, if_neg hu]
    split
    case isTrue h =>
      have hn : us.filter (· ≠ []) = [] := by
        rw [List.filter_eq_nil_iff]
        simpa using commaJoin_eq_nil.mp h
      rw [hn, List.intercalate_singleton]
    case isFalse h =>
      have hn : us.filter (· ≠ []) ≠ [] := by
        intro hn
        exact h (by rw [commaJoin, hn]; rfl)
      rw [List.intercalate_cons_of_ne_nil hn]
      rfl

@[simp]
theorem commaJoin_nil : commaJoin [] = [] :=
  rfl

theorem commaJoin_append : commaJoin (us ++ vs) =
    if commaJoin us = [] then commaJoin vs
    else if commaJoin vs = [] then commaJoin us
    else commaJoin us ++ ", ".toList ++ commaJoin vs := by
  induction us
  case nil => simp
  case cons u us hi =>
    rw [List.cons_append, commaJoin_cons, commaJoin_cons, hi]
    by_cases hu : u = [] <;> by_cases hus : commaJoin us = [] <;> by_cases hvs : commaJoin vs = [] <;>
      simp [hu, hus, hvs]

@[simp]
theorem commaJoin_singleton : commaJoin [v] = v := by
  rw [commaJoin_cons]
  split <;> simp_all

theorem infix_commaJoin (h : v ∈ vs) : v <:+: commaJoin vs := by
  induction vs
  case nil => simp at h
  case cons u us hi =>
    rw [commaJoin_cons]
    cases List.mem_cons.mp h
    case inl h =>
      subst h
      split
      case isTrue hv => simp [hv]
      case isFalse =>
        split
        · exact List.infix_rfl
        · rw [List.append_assoc]; exact (List.prefix_append _ _).isInfix
    case inr h =>
      have hv := hi h
      split
      · exact hv
      split
      case isTrue hn => rw [hn] at hv; simp [List.infix_nil.mp hv]
      case isFalse   => exact hv.trans (List.suffix_append _ _).isInfix

theorem strstr_iff {s p : CString} : strstr s p ↔ p <:+: s := by
  simp only [strstr, gStrHasPrefix, List.any_eq_true, List.mem_tails, List.isPrefixOf_iff_prefix,
    List.infix_iff_prefix_suffix]
  exact exists_congr fun _ => and_comm

theorem strstr_commaJoin (h : v ∈ vs) (hp : strstr v p) : strstr (commaJoin vs) p :=
  strstr_iff.mpr ((strstr_iff.mp hp).trans (infix_commaJoin h))

@[simp]
theorem varyNames_nil : varyNames [] = [] :=
  rfl

theorem varyNames_append (hu : u ≠ []) (hv : v ≠ []) :
    varyNames (u ++ ", ".toList ++ v) = varyNames u ++ varyNames v := by
  have hs : gStrsplitAll (u ++ ", ".toList ++ v) ',' =
      gStrsplitAll u ',' ++ (gStrsplitAll v ',').modifyHead (' ' :: ·) := by
    have ht : u ++ ", ".toList ++ v = u ++ ',' :: ' ' :: v := by simp
    rw [gStrsplitAll, gStrsplitAll, gStrsplitAll, if_neg (by simp), if_neg hu, if_neg hv, ht,
      List.splitOn_append_cons_self, List.splitOn_cons_eq_if_modifyHead]
    rfl
  have hm (ts : List CString) :
      (ts.modifyHead (' ' :: ·)).map (fun t => gAsciiStrdown (gStrstrip t)) =
        ts.map fun t => gAsciiStrdown (gStrstrip t) := by
    cases ts <;> simp [gStrstrip_cons (show gAsciiIsspace ' ' by decide)]
  simp only [varyNames, hs, List.map_append, hm, List.filter_append]

theorem mem_varyNames_commaJoin (h : v ∈ vs) (hn : name ∈ varyNames v) :
    name ∈ varyNames (commaJoin vs) := by
  induction vs
  case nil => simp at h
  case cons u us hi =>
    have hv : v ≠ [] := by
      rintro rfl
      exact absurd hn (by simp)
    rw [commaJoin_cons]
    cases List.mem_cons.mp h
    case inl h =>
      subst h
      rw [if_neg hv]
      split
      case isTrue  => exact hn
      case isFalse hj => rw [varyNames_append hv hj]; exact List.mem_append_left _ hn
    case inr h =>
      have hu := hi h
      split
      · exact hu
      split
      case isTrue hj     => rw [hj] at hu; exact absurd hu (by simp)
      case isFalse hn hj => rw [varyNames_append hn hj]; exact List.mem_append_right _ hu

end Join

namespace HeaderCtx

variable {hc : HeaderCtx} {line : CString} {lines : List CString} {f : Field}

-- What a line of the field does to the slot of the field.
def update (f : Field) (slot : Option CString) (val : CString) : Option CString :=
  if f = .csp then joined slot val else some val

def lineValues (lines : List CString) (f : Field) : List CString :=
  (lines.filter (hasCasePrefix · f.name)).map (headerValueDup · f.name.length)

@[simp]
theorem keepRaw_slots : (hc.keepRaw line).slots = hc.slots := by
  rw [keepRaw]
  split <;> [rfl; split <;> rfl]

@[simp]
theorem keepRaw_setCookieSeen : (hc.keepRaw line).setCookieSeen = hc.setCookieSeen := by
  rw [keepRaw]
  split <;> [rfl; split <;> rfl]

theorem sinkFeed_slots (hc : HeaderCtx) (line : CString) (f : Field) : (hc.sinkFeed line).slots f =
    if hasCasePrefix line f.name
    then update f (hc.slots f) (headerValueDup line f.name.length)
    else hc.slots f := by
  rw [sinkFeed]
  split
  case isTrue hn => simp [hn, hasCasePrefix_nil]
  case isFalse =>
    rw [headerCb]
    cases hm : Field.chain.find? (hasCasePrefix line ·.name)
    case none =>
      rw [if_neg (List.find?_eq_none.mp hm f f.mem_chain)]
      dsimp only
      split <;> simp
    case some g =>
      have hg := List.find?_some hm
      by_cases hf : f = g
      case pos =>
        subst hf
        rw [if_pos hg, update]
        cases f <;> simp [capture, append]
      case neg =>
        rw [if_neg fun h => hf (Field.eq_of_hasCasePrefix h hg)]
        cases g <;> simp [capture, append, hf]

theorem sinkFeed_setCookieSeen (hc : HeaderCtx) (line : CString) :
    (hc.sinkFeed line).setCookieSeen = (hc.setCookieSeen || isSetCookie line) := by
  rw [sinkFeed]
  split
  case isTrue hn => subst hn; rw [show isSetCookie [] = false by decide, Bool.or_false]
  case isFalse =>
    rw [headerCb]
    cases hm : Field.chain.find? (hasCasePrefix line ·.name)
    case none =>
      dsimp only
      split <;> simp_all
    case some g =>
      have hs : isSetCookie line = false := by
        rw [Bool.eq_false_iff]
        intro hs
        exact absurd (List.find?_some hm) (by simp [not_name_of_isSetCookie hs])
      cases g <;> simp [capture, append, hs]

theorem feedAll_slots (hc : HeaderCtx) (lines : List CString) (f : Field) :
    (hc.feedAll lines).slots f = (lineValues lines f).foldl (update f) (hc.slots f) := by
  induction lines generalizing hc
  case nil => rfl
  case cons line lines hi =>
    have hs := hi (hc.sinkFeed line)
    rw [sinkFeed_slots] at hs
    rw [feedAll, List.foldl_cons]
    refine hs.trans ?_
    rw [lineValues, lineValues, List.filter_cons]
    split <;> rfl

theorem feedAll_setCookieSeen (hc : HeaderCtx) (lines : List CString) :
    (hc.feedAll lines).setCookieSeen = (hc.setCookieSeen || lines.any isSetCookie) := by
  induction lines generalizing hc
  case nil => simp [feedAll]
  case cons line lines hi =>
    have hs := hi (hc.sinkFeed line)
    rw [sinkFeed_setCookieSeen] at hs
    rw [feedAll, List.foldl_cons]
    refine hs.trans ?_
    rw [List.any_cons, Bool.or_assoc]

theorem foldl_update (hf : f ≠ .csp) (slot : Option CString) (vs : List CString) :
    vs.foldl (update f) slot = vs.getLast?.or slot := by
  induction vs generalizing slot
  case nil => rfl
  case cons v vs hi =>
    rw [List.foldl_cons, hi, update, if_neg hf, List.getLast?_cons]
    cases vs.getLast? <;> rfl

theorem getD_foldl_joined (slot : Option CString) (us vs : List CString)
    (h : slot.getD [] = commaJoin us) :
    (vs.foldl joined slot).getD [] = commaJoin (us ++ vs) := by
  induction vs generalizing slot us
  case nil => simpa using h
  case cons v vs hi =>
    have hs : (joined slot v).getD [] = commaJoin (us ++ [v]) := by
      rw [commaJoin_append, ← h, commaJoin_singleton]
      rcases slot with _ | _ | ⟨c, s⟩ <;> cases v <;> simp [joined]
    have hj := hi _ _ hs
    rwa [List.append_assoc] at hj

end HeaderCtx

section Captured

variable {interim : List Block} {final : Block} {f : Field}

theorem Block.lineValues_lines (b : Block) (f : Field) :
    HeaderCtx.lineValues b.lines f = b.values f := by
  have hs := not_name_of_isStatusLine (f := f) b.isStatus
  rw [HeaderCtx.lineValues, Block.lines, List.filter_cons_of_neg (by simp [hs])]
  rfl

theorem lineValues_blocks (interim : List Block) (final : Block) (f : Field) :
    HeaderCtx.lineValues (interim.flatMap Block.lines ++ final.lines) f =
      interim.flatMap (·.values f) ++ final.values f := by
  have ha (ls ms : List CString) : HeaderCtx.lineValues (ls ++ ms) f =
      HeaderCtx.lineValues ls f ++ HeaderCtx.lineValues ms f := by
    simp [HeaderCtx.lineValues]
  rw [ha, final.lineValues_lines]
  congr 1
  induction interim
  case nil => rfl
  case cons b bs hi => rw [List.flatMap_cons, ha, b.lineValues_lines, hi, List.flatMap_cons]

theorem captured_slots (interim : List Block) (final : Block) (hf : f ≠ .csp) :
    (captured interim final).slots f =
      (interim.flatMap (·.values f) ++ final.values f).getLast? := by
  rw [captured, HeaderCtx.feedAll_slots, lineValues_blocks, HeaderCtx.foldl_update hf]
  exact Option.or_none

theorem captured_csp (interim : List Block) (final : Block) :
    ((captured interim final).slots .csp).getD [] =
      commaJoin (interim.flatMap (·.values .csp) ++ final.values .csp) := by
  rw [captured, HeaderCtx.feedAll_slots, lineValues_blocks]
  exact HeaderCtx.getD_foldl_joined none [] _ rfl

theorem Block.any_lines_isSetCookie (b : Block) : b.lines.any isSetCookie = b.hasSetCookie := by
  rw [Block.lines, List.any_cons, not_isSetCookie_of_isStatusLine b.isStatus, Bool.false_or]
  rfl

theorem captured_setCookieSeen (interim : List Block) (final : Block) :
    (captured interim final).setCookieSeen =
      (interim.any (·.hasSetCookie) || final.hasSetCookie) := by
  rw [captured, HeaderCtx.feedAll_setCookieSeen, List.any_append, final.any_lines_isSetCookie,
    List.any_flatMap]
  simp [Block.any_lines_isSetCookie]

-- The last value of a list of lines is the whole list only if the others are empty.
theorem getLast?_eq_commaJoin_iff {us vs : List CString} :
    (us ++ vs).getLast?.getD [] = commaJoin vs ↔
      (∀ v ∈ vs.dropLast, v = []) ∧ (vs = [] → ∀ v ∈ us.getLast?, v = []) := by
  rcases List.eq_nil_or_concat vs with rfl | ⟨ws, v, rfl⟩
  case inl => cases h : us.getLast? <;> simp [h]
  case inr =>
    rw [List.concat_eq_append, ← List.append_assoc, List.getLast?_concat, List.dropLast_concat,
      commaJoin_append, commaJoin_singleton, ← commaJoin_eq_nil]
    by_cases hw : commaJoin ws = []
    case pos => simp [hw]
    case neg =>
      by_cases hv : v = []
      case pos => simp [hw, hv, Ne.symm hw]
      case neg =>
        simp only [hw, hv, ↓reduceIte, iff_false, false_and]
        intro h
        have hl := congrArg List.length h
        simp at hl
        omega

theorem commaJoin_append_eq_right_iff {us vs : List CString} :
    commaJoin (us ++ vs) = commaJoin vs ↔ ∀ u ∈ us, u = [] := by
  rw [commaJoin_append, ← commaJoin_eq_nil]
  by_cases hu : commaJoin us = []
  case pos => simp [hu]
  case neg =>
    rw [if_neg hu]
    constructor
    case mp =>
      intro h
      split at h
      case isTrue hv  => exact h.trans hv
      case isFalse hv =>
        have hl := congrArg List.length h
        simp at hl
        omega
    case mpr => exact fun h => absurd h hu

theorem Field.isList_iff : f.isList ↔ f = .csp ∨ f = .cacheControl ∨ f = .vary := by
  cases f <;> simp [Field.isList]

theorem single_iff (hf : f.isList = false) :
    (captured interim final).slots f = (captured [] final).slots f ↔
      (final.values f = [] → ∀ b ∈ interim, b.values f = []) := by
  have hc : f ≠ .csp := by rintro rfl; exact absurd hf (by decide)
  rw [captured_slots _ _ hc, captured_slots _ _ hc, List.flatMap_nil, List.nil_append]
  rcases List.eq_nil_or_concat (final.values f) with h | ⟨vs, v, h⟩
  case inl => simp [h]
  case inr => simp [h]

theorem putsInCache_of_noStore {hc : HeaderCtx}
    (h : strstr ((hc.slots .cacheControl).getD []) "no-store".toList) (rest : Bool)
    (headers : List CString) : putsInCache rest headers hc = false := by
  simp only [putsInCache, h, Bool.true_or, Bool.not_true, Bool.and_false, Bool.false_and]

-- For every interim block and every repetition of a field.
theorem capturesFinal_iff (interim : List Block) (final : Block) :
    CapturesFinal interim final ↔ FinalOk interim final := by
  have hl (f : Field) (hf : f = .cacheControl ∨ f = .vary) :
      ((captured interim final).slots f).getD [] = commaJoin (final.values f) ↔
        (∀ v ∈ (final.values f).dropLast, v = []) ∧
        (final.values f = [] → ∀ v ∈ (interim.flatMap (·.values f)).getLast?, v = []) := by
    rw [captured_slots _ _ (by rcases hf with rfl | rfl <;> decide), getLast?_eq_commaJoin_iff]
  have hs : (captured interim final).setCookieSeen = final.hasSetCookie ↔
      (final.hasSetCookie = false → ∀ b ∈ interim, b.hasSetCookie = false) := by
    rw [captured_setCookieSeen]
    cases final.hasSetCookie <;> simp
  have hc : ((captured interim final).slots .csp).getD [] = commaJoin (final.values .csp) ↔
      ∀ b ∈ interim, ∀ v ∈ b.values .csp, v = [] := by
    rw [captured_csp, commaJoin_append_eq_right_iff]
    simp only [List.mem_flatMap]
    exact ⟨fun h b hb v hv => h v ⟨b, hb, hv⟩, fun h v ⟨b, hb, hv⟩ => h b hb v hv⟩
  constructor
  case mp =>
    intro h
    have list (f : Field) (hf : f = .cacheControl ∨ f = .vary) :=
      (hl f hf).mp (h.list f (Field.isList_iff.mpr (.inr hf)))
    exact {
      single f hf := (single_iff hf).mp (h.single f hf)
      setCookie   := hs.mp h.setCookie
      csp         := hc.mp (h.list .csp rfl)
      list f hf   := (list f hf).left
      noList f hf := (list f hf).right
    }
  case mpr =>
    intro h
    have list (f : Field) (hf : f.isList) :
        ((captured interim final).slots f).getD [] = commaJoin (final.values f) := by
      cases Field.isList_iff.mp hf
      case inl hf => exact hf ▸ hc.mpr h.csp
      case inr hf => exact (hl f hf).mpr ⟨h.list f hf, h.noList f hf⟩
    exact {
      single f hf := (single_iff hf).mpr (h.single f hf)
      setCookie   := hs.mpr h.setCookie
      list        := list
      noStore v hv hp rest headers :=
        putsInCache_of_noStore (list .cacheControl rfl ▸ strstr_commaJoin hv hp) rest headers
      vary v hv name hn := list .vary rfl ▸ mem_varyNames_commaJoin hv hn
    }

def okBlock (fields : List CString) (h : ∀ l ∈ fields, isStatusLine l = false) : Block where
  status   := "HTTP/1.1 200 OK".toList
  fields   := fields
  isStatus := by decide
  noStatus := h

-- The last of two `Cache-Control` lines replaces the first one.
theorem not_capturesFinal_of_two_lines :
    ¬CapturesFinal [] (okBlock
      ["Cache-Control: no-store".toList, "Cache-Control: max-age=60".toList] (by decide)) := by
  intro h
  exact absurd (h.list .cacheControl rfl) (by decide)

end Captured

end Nordstjernen.Net.Header
