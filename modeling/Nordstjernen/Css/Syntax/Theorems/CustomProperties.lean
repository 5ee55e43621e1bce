import Nordstjernen.Css.Syntax.Declarations
import Nordstjernen.Css.Syntax.Theorems.Declarations

open Nordstjernen.Glib Nordstjernen.Lib

namespace Nordstjernen.Css.Syntax

section Winner

variable {ds : List VarDecl}

theorem winner_concat {d : VarDecl} : winner (ds ++ [d]) = some d ↔ (d.important ∨ ∀ e ∈ ds, ¬e.important) := by
  cases hd : d.important
  case true  => simp [winner, hd]
  case false =>
    cases hl : (ds.filter (·.important)).getLast?
    case none   =>
      have hnil := List.getLast?_eq_none_iff.mp hl
      simpa [winner, hd, hl] using hnil
    case some w =>
      have hw := List.mem_filter.mp (List.mem_of_getLast? hl)
      have hne : w ≠ d := fun he => by simp [he, hd] at hw
      have hwin : winner (ds ++ [d]) = some w := by simp [winner, hd, hl]
      rw [hwin, Option.some_inj]
      constructor
      · exact fun he => absurd he hne
      · rintro (hi | hn)
        · cases hi
        · exact absurd hw.right (hn w hw.left)

theorem winner_eq_getLast_iff :
    winner ds = ds.getLast? ↔ (∃ d ∈ ds, d.important) → ∃ d ∈ ds.getLast?, d.important := by
  cases ds using List.reverseRecOn
  case nil => simp [winner]
  case append_singleton ds d _ =>
    rw [List.getLast?_concat, winner_concat]
    constructor
    · intro h ⟨e, he, hi⟩
      obtain hd | hn := h
      · exact ⟨d, rfl, hd⟩
      · obtain he | he := List.mem_append.mp he
        · exact absurd hi (hn e he)
        · exact ⟨d, rfl, List.mem_singleton.mp he ▸ hi⟩
    · intro h
      by_cases hn : ∀ e ∈ ds, ¬e.important
      case pos => exact .inr hn
      case neg =>
        obtain ⟨e, he, hi⟩ := by simpa using hn
        obtain ⟨d', hd', hid⟩ := h ⟨e, by simp [he], hi⟩
        cases hd'
        exact .inl hid

end Winner

namespace Capture

variable {cap : Capture} {name : CString} {names : List CString} {source : SourceKeys} {rule : Nat}

def decl (cap : Capture) (name : CString) : Option VarDecl :=
  (cap.vars name).map fun text => ⟨text, cap.varImportant name⟩

theorem filterMap_of_nodup (h : names.Nodup) :
    (names.filterMap fun n => (cap.vars n).map (n, ·)).filter (·.fst = name) =
      if name ∈ names then ((cap.vars name).map (name, ·)).toList else [] := by
  induction names
  case nil => rfl
  case cons n names hind =>
    have ⟨hn, hnd⟩ := List.nodup_cons.mp h
    by_cases he : n = name
    case pos =>
      subst he
      cases hv : cap.vars n <;> simp [hv, hind hnd, hn]
    case neg =>
      cases hv : cap.vars n <;> simp [hv, hind hnd, he, Ne.symm he]

-- The number that the loop counts up plays no part.
theorem matchesOf_filter (l : List (CString × CString)) (k : Nat) :
    (((l.zipIdx k).map fun ((name, text), i) =>
      ({ source, declOrder := i, important := cap.varImportant name, rule, name, text } : VarMatch)).filter
        (·.name = name)).map (fun vm => (⟨vm.text, vm.important⟩ : VarDecl)) =
      (l.filter (·.fst = name)).map fun nt => ⟨nt.snd, cap.varImportant nt.fst⟩ := by
  induction l generalizing k
  case nil => rfl
  case cons nt l hind =>
    by_cases he : nt.fst = name <;> simp [List.zipIdx_cons, he, hind]

theorem varMatches_of_enumerates (h : cap.Enumerates names) :
    ((cap.varMatches names source rule).filter (·.name = name)).map (fun vm => ⟨vm.text, vm.important⟩) =
      (cap.decl name).toList := by
  rw [varMatches, matchesOf_filter, filterMap_of_nodup h.nodup]
  cases hv : cap.vars name
  case none => simp [decl, hv]
  case some text => simp [decl, hv, (h.mem name).mpr (by simp [hv])]

end Capture

variable {δ : Type*} {expander : Expander δ} {b b' : Block δ} {name : CString} {ds : List VarDecl}

theorem iteration_eq : Block.iteration expander b =
    match turn b.p with
    | .leave p                      => .done { b with p }
    | .skip p                       => .yield { b with p }
    | .declaration pname rawVtext p => .yield { b.add expander pname rawVtext with p } := by
  simp only [Block.iteration, turn]
  split
  case isTrue  => rfl
  case isFalse =>
    split
    case isTrue  => rfl
    case isFalse =>
      split
      case isTrue  => rfl
      case isFalse =>
        split <;> rfl

-- What the capture has of a name after some declarations of it.
def Keeps (b : Block δ) (name : CString) (ds : List VarDecl) : Prop :=
  ∃ cap, b.capture = some cap ∧ cap.decl name = ds.getLast? ∧ ∃ names, cap.Enumerates names

theorem enumerates_update {cap : Capture} {names : List CString} {pname raw : CString}
    (h : cap.Enumerates names) : ∃ names', (cap.addVar pname raw).Enumerates names' := by
  by_cases hm : pname ∈ names
  case pos =>
    refine ⟨names, h.nodup, fun n => ?_⟩
    by_cases he : n = pname
    case pos => simp [Capture.addVar, he, hm]
    case neg => simp [Capture.addVar, he, h.mem]
  case neg =>
    refine ⟨pname :: names, List.nodup_cons.mpr ⟨hm, h.nodup⟩, fun n => ?_⟩
    by_cases he : n = pname
    case pos => simp [Capture.addVar, he]
    case neg => simp [Capture.addVar, he, h.mem]

theorem Keeps.add {pname raw : CString} (hn : NamesCustom name) (h : Keeps b name ds) :
    Keeps (b.add expander pname raw) name (ds ++ (varDecl name (pname, raw)).toList) := by
  obtain ⟨cap, hc, hd, names, he⟩ := h
  rw [Block.add, hc]
  split
  case isFalse hv => exact ⟨cap, hc, by simpa [varDecl, hv] using hd, names, he⟩
  case isTrue hv =>
    by_cases hp : pname = name
    case pos =>
      subst hp
      have hcu : (isCustom pname && decide (pname.length > 2)) = true := by
        simpa [NamesCustom] using hn
      simp only [hcu, if_true]
      refine ⟨_, rfl, ?_, enumerates_update he⟩
      simp [varDecl, hv, Capture.decl, Capture.addVar, gStrstrip, gStrchomp]
    case neg =>
      have hvd : varDecl name (pname, raw) = none := if_neg fun h => hp h.left
      rw [hvd]
      simp only [Option.toList_none, List.append_nil]
      split
      case isTrue =>
        refine ⟨_, rfl, ?_, enumerates_update he⟩
        simpa [Capture.decl, Capture.addVar, Ne.symm hp] using hd
      case isFalse =>
        split
        case isTrue  => exact ⟨_, rfl, hd, names, he.nodup, he.mem⟩
        case isFalse => exact ⟨cap, hc, hd, names, he⟩

theorem Keeps.loop {n : Nat} (hn : NamesCustom name) (h : Keeps b name ds)
    (hl : Lib.loop (Block.iteration expander) n b = some b') :
    Keeps b' name (ds ++ (declarations n b.p).filterMap (varDecl name)) := by
  induction n generalizing b ds
  case zero        => cases hl
  case succ n hind =>
    rw [Lib.loop, iteration_eq] at hl
    rw [declarations]
    cases ht : turn b.p <;> simp only [ht] at hl ⊢
    case leave p =>
      cases hl
      simpa [Keeps] using h
    case skip p => exact hind (b := { b with p }) h hl
    case declaration pname raw p =>
      have ha := @Keeps.add _ expander _ _ _ pname raw hn h
      have hr := hind (b := { b.add expander pname raw with p }) ha hl
      cases hv : varDecl name (pname, raw) <;> simpa [hv] using hr

theorem keeps_empty (p name : CString) : Keeps ({ p, capture := some {} } : Block δ) name [] :=
  ⟨{}, rfl, rfl, [], List.nodup_nil, by simp⟩

theorem keeps_parseDeclarationBlock {p : CString} (hn : NamesCustom name)
    (h : parseDeclarationBlock expander { p, capture := some {} } = some b') :
    Keeps b' name (varDecls name p) := by
  obtain ⟨b, hl, rfl⟩ := Option.map_eq_some_iff.mp h
  have hk : Keeps b name _ := (keeps_empty p name).loop hn hl
  exact hk

theorem Keeps.sees_iff_winner (h : Keeps b name ds) : Sees b name ds ↔ winner ds = ds.getLast? := by
  obtain ⟨cap, hc, hd, names, he⟩ := h
  constructor
  · intro ⟨cap', hc', hs⟩
    obtain rfl : cap = cap' := Option.some_inj.mp (hc.symm.trans hc')
    have hw := hs names he ⟨0, 0, 0, 0, 0, 0, 0, 0⟩ 0
    rw [Capture.varMatches_of_enumerates he, hd] at hw
    simpa using (congrArg List.head? hw).symm
  · intro hw
    refine ⟨cap, hc, fun names' he' source rule => ?_⟩
    rw [Capture.varMatches_of_enumerates he', hd, hw]

-- The cascade gets of a custom property what it would choose of the declarations of a block if the last
-- one of them is important or none is.
theorem varDecls_sees_iff {p : CString} (hn : NamesCustom name)
    (h : parseDeclarationBlock expander { p, capture := some {} } = some b') :
    Sees b' name (varDecls name p) ↔
      ((∃ d ∈ varDecls name p, d.important) → ∃ d ∈ (varDecls name p).getLast?, d.important) := by
  rw [(keeps_parseDeclarationBlock hn h).sees_iff_winner, winner_eq_getLast_iff]

variable (expander) in
theorem exists_parse_of_not_mem {p : CString} (h : '{' ∉ p ∧ '\x00' ∉ p) :
    ∃ b', parseDeclarationBlock expander { p, capture := some {} } = some b' :=
  Option.isSome_iff_exists.mp (Block.isSome_parseDeclarationBlock_iff.mpr (Block.returns_of_not_mem h))

theorem varDecls_sees_importantLast :
    ∃ b' : Block Unit, parseDeclarationBlock (fun _ _ _ => [])
      { p := "--x: blue; --x: red !important\x7d".toList, capture := some {} } = some b' ∧
      Sees b' "--x".toList (varDecls "--x".toList "--x: blue; --x: red !important\x7d".toList) := by
  obtain ⟨b', hb⟩ := exists_parse_of_not_mem (fun _ _ _ => ([] : List Unit))
    (show '{' ∉ "--x: blue; --x: red !important\x7d".toList ∧
      '\x00' ∉ "--x: blue; --x: red !important\x7d".toList by decide)
  refine ⟨b', hb, (varDecls_sees_iff ⟨by decide, by decide⟩ hb).mpr fun _ => ⟨⟨"red".toList, true⟩, ?_, rfl⟩⟩
  rfl

theorem not_sees_importantFirst :
    ¬∀ (p name : CString) (b' : Block Unit), NamesCustom name →
      parseDeclarationBlock (fun _ _ _ => []) { p, capture := some {} } = some b' →
        Sees b' name (varDecls name p) := by
  intro h
  obtain ⟨b', hb⟩ := exists_parse_of_not_mem (fun _ _ _ => ([] : List Unit))
    (show '{' ∉ "--x: red !important; --x: blue\x7d".toList ∧
      '\x00' ∉ "--x: red !important; --x: blue\x7d".toList by decide)
  have hn : NamesCustom "--x".toList := ⟨by decide, by decide⟩
  have hw := ((keeps_parseDeclarationBlock hn hb).sees_iff_winner).mp (h _ _ b' hn hb)
  have he : varDecls "--x".toList "--x: red !important; --x: blue\x7d".toList =
      [⟨"red".toList, true⟩, ⟨"blue".toList, false⟩] := rfl
  rw [he] at hw
  exact absurd hw (by decide)

end Nordstjernen.Css.Syntax
