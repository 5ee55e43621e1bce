import Nordstjernen.Dom.Attr
import Nordstjernen.Lib.Run

open Nordstjernen.Glib Nordstjernen.Lib

namespace Nordstjernen.Dom

-- Whether the first attribute of one kind, or the one appended where there is none, is the first one of
-- another kind.
def hits (p q : Attr → Bool) (appended : Bool) : List Attr → Bool
  | []      => appended
  | a :: as => if p a then q a else if q a then false else hits p q appended as

namespace Element

-- The tokens of the value of the attribute, separated by white space.
def classTokens (el : Element) : List CString :=
  (((el.getAttr "class".toList).getD []).splitOnP clssetWs).filter (· ≠ [])

def Fresh (el : Element) : Prop :=
  ∀ c, (el.hasClass c).fst ↔ c ∈ el.classTokens

def isClass (el : Element) : Attr → Bool :=
  Attr.named el.svg "class".toList

-- A namespaced call drops the cache, finds none, or leaves the attribute alone that has the classes.
def SparesCache (el : Element) : Event → Prop
  | .setAttrNs uri localName name _ => el.classSet = none ∨ isClassNs uri localName ∨
    hits (Attr.matchesNs uri localName) el.isClass
      (el.isClass { name := if name = [] then localName else name, value := [] }) el.attrs = false
  | .removeAttrNs uri localName     => el.classSet = none ∨ isClassNs uri localName ∨
    hits (Attr.matchesNs uri localName) el.isClass false el.attrs = false
  | _                               => True

instance SparesCache.decidable : ∀ el e, Decidable (SparesCache el e)
  | _, .setAttrNs ..    => inferInstanceAs (Decidable (_ ∨ _ ∨ _))
  | _, .removeAttrNs .. => inferInstanceAs (Decidable (_ ∨ _ ∨ _))
  | _, .setAttr ..      => inferInstanceAs (Decidable True)
  | _, .removeAttr _    => inferInstanceAs (Decidable True)
  | _, .hasClass _      => inferInstanceAs (Decidable True)

end Element

section Tokens

variable {tok s : CString}

theorem buildFrom_eq (h : ∀ c ∈ tok, clssetWs c = false) :
    buildFrom tok s = ((tok ++ s).splitOnP clssetWs).filter (· ≠ []) := by
  induction s generalizing tok
  case nil =>
    rw [buildFrom, List.append_nil, List.splitOnP_eq_singleton h]
    by_cases ht : tok = [] <;> simp [ht]
  case cons c cs hind =>
    rw [buildFrom]
    split
    case isTrue hc =>
      rw [List.splitOnP_append_cons_of_forall_mem h c hc, hind (by simp)]
      by_cases ht : tok = [] <;> simp [ht]
    case isFalse hc =>
      rw [hind, List.append_assoc, List.singleton_append]
      intro x hx
      obtain hx | hx := List.mem_append.mp hx
      · exact h x hx
      · rw [List.mem_singleton.mp hx, Bool.eq_false_iff.mpr hc]

end Tokens

section Attrs

variable {p q : Attr → Bool} {new : Attr} {as : List Attr} {b : Bool}

-- The first attribute of a kind keeps its value where another one is changed.
theorem find?_putAttr (hq : ∀ a v, q { a with value := v } = q a) (h : hits p q (q new) as = false) :
    ((putAttr p new as).find? q).map (·.value) = (as.find? q).map (·.value) := by
  induction as
  case nil =>
    have hn : q new = false := h
    simp [putAttr, hn]
  case cons a as hind =>
    rw [hits] at h
    rw [putAttr]
    split at h
    case isTrue hp =>
      rw [if_pos hp, List.find?_cons_of_neg (by simp [hq, h]), List.find?_cons_of_neg (by simp [h])]
    case isFalse hp =>
      rw [if_neg hp]
      split at h
      case isTrue ha  => rw [List.find?_cons_of_pos ha, List.find?_cons_of_pos ha]
      case isFalse ha => rw [List.find?_cons_of_neg ha, List.find?_cons_of_neg ha, hind h]

theorem find?_eraseP (h : hits p q b as = false) : (as.eraseP p).find? q = as.find? q := by
  induction as
  case nil => rfl
  case cons a as hind =>
    rw [hits] at h
    split at h
    case isTrue hp =>
      rw [List.eraseP_cons_of_pos hp, List.find?_cons_of_neg (by simp [h])]
    case isFalse hp =>
      rw [List.eraseP_cons_of_neg hp]
      split at h
      case isTrue ha  => rw [List.find?_cons_of_pos ha, List.find?_cons_of_pos ha]
      case isFalse ha => rw [List.find?_cons_of_neg ha, List.find?_cons_of_neg ha, hind h]

-- Where the first attribute of one kind is not of the other one, it is not the first one of that kind.
theorem hits_of_find? (h : ∀ a ∈ as.find? p, q a = false) (hb : as.find? p = none → b = false) :
    hits p q b as = false := by
  induction as
  case nil => exact hb rfl
  case cons a as hind =>
    rw [hits]
    split
    case isTrue hp  => exact h a (List.find?_cons_of_pos hp)
    case isFalse hp =>
      rw [List.find?_cons_of_neg hp] at h hb
      rw [hind h hb, ite_self]

-- Kinds that have nothing in common.
theorem hits_of_disjoint (h : ∀ a, p a → q a = false) : hits p q false as = false :=
  hits_of_find? (fun a ha => h a (List.find?_some ha)) fun _ => rfl

end Attrs

namespace Element

variable {el : Element} {e : Event} {c name value localName : CString} {uri : Option CString}

-- The cache is empty, or it is what would be put into it.
def Inv (el : Element) : Prop :=
  ∀ cs ∈ el.classSet, cs = el.buildClassSet

theorem buildClassSet_eq : el.buildClassSet = el.classTokens := by
  rw [buildClassSet, classTokens]
  cases el.getAttr "class".toList
  case none     => rfl
  case some cls =>
    dsimp only [Option.getD_some]
    split
    case isTrue h  => subst h; rfl
    case isFalse h => exact buildFrom_eq (by simp)

theorem Inv.fresh (h : el.Inv) : el.Fresh := by
  intro c
  rw [hasClass, ← buildClassSet_eq]
  cases hc : el.classSet
  case none    => simp
  case some cs => simp [h cs hc]

theorem Inv.of_none (h : el.classSet = none) : el.Inv := by
  simp [Inv, h]

-- An attribute is the one with the classes by its name alone.
theorem isClass_value (a : Attr) (v : CString) : el.isClass { a with value := v } = el.isClass a :=
  rfl

theorem strcaseEq_of_isClass {a : Attr} (h : el.isClass a) : strcaseEq a.name "class".toList := by
  rw [isClass, Attr.named] at h
  split at h
  case isTrue  => rw [beq_iff_eq.mp h]; exact strcaseEq_refl _
  case isFalse =>
    split at h
    case isTrue  => rw [beq_iff_eq.mp (Bool.and_eq_true_iff.mp h).right]; exact strcaseEq_refl _
    case isFalse => exact h

-- The attributes with some other name are not the one with the classes.
theorem isClass_of_strcaseEq {a : Attr} (hn : strcaseEq name "class".toList = false)
    (ha : strcaseEq a.name name) : el.isClass a = false := by
  rw [Bool.eq_false_iff]
  intro hc
  rw [strcaseEq_iff] at ha
  have h := strcaseEq_iff.mp (strcaseEq_of_isClass hc)
  rw [ha, ← strcaseEq_iff, hn] at h
  cases h

-- The cache stays right where the value of the attribute stays as it is.
theorem Inv.change {b : Bool} {as : List Attr} (h : el.Inv) (hk : el.classSet = none ∨ b ∨
      (as.find? el.isClass).map (·.value) = (el.attrs.find? el.isClass).map (·.value)) :
    Inv { el.dropClassSet b with attrs := as } := by
  by_cases hd : el.classSet = none ∨ b
  case pos =>
    refine .of_none ?_
    rcases hd with hc | rfl
    · simp [dropClassSet, hc]
    · cases hc : el.classSet <;> simp [dropClassSet, hc, clearClassSet]
  case neg =>
    obtain ⟨hc, hb⟩ := not_or.mp hd
    have ha := (hk.resolve_left hc).resolve_left hb
    have hs : el.dropClassSet b = el := by simp [dropClassSet, hb]
    have hg : Element.getAttr { el with attrs := as } "class".toList = el.getAttr "class".toList := by
      have hm := congrArg (Option.map gStrndup) ha
      simp only [Option.map_map] at hm
      exact hm
    intro cs hcs
    rw [hs] at hcs ⊢
    rw [buildClassSet, hg]
    exact h cs hcs

theorem Inv.step (h : el.Inv) (hk : el.SparesCache e) : (el.step e).Inv := by
  cases e
  case setAttr name value =>
    refine h.change (.inr ?_)
    cases hn : strcaseEq name "class".toList
    case true  => exact .inl rfl
    case false =>
      refine .inr (find?_putAttr isClass_value ?_)
      rw [isClass_of_strcaseEq hn (strcaseEq_refl name)]
      exact hits_of_disjoint fun a => isClass_of_strcaseEq hn
  case removeAttr name =>
    refine h.change (.inr ?_)
    cases hn : strcaseEq name "class".toList
    case true  => exact .inl rfl
    case false =>
      exact .inr (congrArg _ (find?_eraseP (hits_of_disjoint fun a => isClass_of_strcaseEq hn)))
  case setAttrNs uri localName name value =>
    exact h.change (hk.imp_right (.imp_right fun hs => find?_putAttr isClass_value hs))
  case removeAttrNs uri localName =>
    exact h.change (hk.imp_right (.imp_right fun hs => congrArg _ (find?_eraseP hs)))
  case hasClass c =>
    intro cs hcs
    cases hcs
    cases hc : el.classSet
    case none     => rfl
    case some cs' => exact h cs' hc

-- As long as every namespaced call spares a cache that is filled, the classes are those of the value.
theorem fresh_of_run {es : List Event} {el' : Element} (hc : el.classSet = none)
    (hr : run (fun el e => some (step el e)) el es = some el')
    (hs : StepsMeet SparesCache (fun el e => some (step el e)) el es) : el'.Fresh := by
  refine Inv.fresh (run_preserves ?_ hr hs (.of_none hc))
  intro s e t hi hk hst
  cases hst
  exact hi.step hk

-- A query, and then the attribute without a namespace, which drops the cache.
def plainRun : List Event :=
  [.hasClass "a".toList, .setAttrNs none "class".toList [] "a b".toList, .hasClass "b".toList]

theorem fresh_plainRun : ∃ el', run (fun el e => some (step el e)) {} plainRun = some el' ∧ el'.Fresh :=
  ⟨_, rfl, @fresh_of_run {} plainRun _ rfl rfl (by decide)⟩

-- A query, and then an attribute of that name in a namespace, which does not.
theorem not_fresh_namespacedRun : ¬∀ (el : Element), el.classSet = none → ∀ es el',
    run (fun el e => some (step el e)) el es = some el' → el'.Fresh := by
  intro h
  have hf := h {} rfl [.hasClass "a".toList, .setAttrNs (some "x".toList) "class".toList [] "a".toList] _ rfl
  exact absurd ((hf "a".toList).mpr (by decide)) (by decide)

end Element

end Nordstjernen.Dom
