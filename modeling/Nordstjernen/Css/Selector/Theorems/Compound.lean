import Nordstjernen.Css.Selector.Grammar

open Nordstjernen.Glib Nordstjernen.Css.Syntax

namespace Nordstjernen.Css.Selector

-- The equations of what is matched on most are derived here, once for all the proofs below.
section
attribute [local simp] Compound.has SimpleToken.wellFormed Compound.inNamespace Compound.apply
  Compound.pseudo Compound.not Compound.pseudoClass Compound.pseudoElementNamed Compound.isOrWhere
  compound Raised.or
end

namespace Raised

variable {r s t : Raised}

-- Whether the flags make a text invalid. Only `ns_css_parse_selector_list_checked` looks at the namespaces.
def fails (checked : Bool) (r : Raised) : Bool :=
  r.error || checked && r.nsPrefix

@[simp]
theorem or_error : (r.or s).error = (r.error || s.error) :=
  rfl

@[simp]
theorem fails_or {checked : Bool} : (r.or s).fails checked = (r.fails checked || s.fails checked) := by
  cases checked <;> simp [fails, or, Bool.or_assoc, Bool.or_left_comm]

@[simp]
theorem fails_default {checked : Bool} : ({} : Raised).fails checked = false := by
  simp [fails]

theorem fails_of_error {checked : Bool} (h : r.error) : r.fails checked := by
  simp [fails, h]

example : ({ nsPrefix := true } : Raised).fails false = false := by decide +kernel

@[simp]
theorem or_default : r.or {} = r := by
  simp [or]

@[simp]
theorem default_or : ({} : Raised).or r = r := by
  simp [or]

theorem or_assoc : (r.or s).or t = r.or (s.or t) := by
  simp [or, Bool.or_assoc]

end Raised

namespace Compound

variable {group : Context → CString → List Sel × Raised} {ctx : Context} {c : Compound} {t : SimpleToken}
  {name arg : CString} {r : Raised}

-- What is not about the flags leaves them as they are.

@[simp] theorem raise_any : (c.raise r).any = c.any := rfl
@[simp] theorem error_any : c.error.any = c.any := rfl
@[simp] theorem neverMatch_any : c.neverMatch.any = c.any := rfl
@[simp] theorem addSpec_any {s : Specificity} : (c.addSpec s).any = c.any := rfl
@[simp] theorem setType_any {t : CString} : (c.setType t).any = c.any := rfl
@[simp] theorem setTests_any {t : Tests Sel} : (c.setTests t).any = c.any := rfl

@[simp] theorem raise_raised : (c.raise r).raised = c.raised.or r := rfl
@[simp] theorem error_raised : c.error.raised = c.raised.or { error := true } := rfl
@[simp] theorem neverMatch_raised : c.neverMatch.raised = c.raised := rfl
@[simp] theorem addSpec_raised {s : Specificity} : (c.addSpec s).raised = c.raised := rfl
@[simp] theorem setType_raised {t : CString} : (c.setType t).raised = c.raised := rfl
@[simp] theorem setTests_raised {t : Tests Sel} : (c.setTests t).raised = c.raised := rfl

-- A step that reads a simple selector: the flags that were raised stay.
structure Grows (c d : Compound) : Prop where
  any   : d.any = c.any
  error : c.raised.error → d.raised.error

theorem Grows.trans {c d e : Compound} (h : Grows c d) (h' : Grows d e) : Grows c e where
  any      := h'.any.trans h.any
  error he := h'.error (h.error he)

theorem grows_inNamespace {nsNone : Bool} {type : Option CString} : Grows c (c.inNamespace nsNone type) := by
  unfold inNamespace
  split
  · exact ⟨rfl, fun h => h⟩
  · exact ⟨rfl, fun h => by simp [h]⟩
  · dsimp only
    split <;> exact ⟨rfl, fun h => h⟩

theorem grows_pseudoElementNamed : Grows c (c.pseudoElementNamed name) := by
  rw [pseudoElementNamed]
  split
  · exact ⟨rfl, fun h => h⟩
  · split <;> exact ⟨rfl, fun h => by simp [h]⟩

theorem grows_has : Grows c (c.has group ctx arg) := by
  rw [has]
  dsimp only
  split <;> exact ⟨rfl, fun h => by simp [h]⟩

theorem grows_isOrWhere {isWhere : Bool} : Grows c (c.isOrWhere group ctx isWhere arg) := by
  rw [isOrWhere]
  dsimp only
  split
  · exact ⟨rfl, fun h => by simp [h]⟩
  · split <;> exact ⟨rfl, fun h => by simp [h]⟩

theorem grows_not : Grows c (c.not group ctx arg) := by
  rw [not]
  dsimp only
  split <;> exact ⟨rfl, fun h => by simp [h]⟩

theorem grows_pseudoClass {arg : Option CString} : Grows c (c.pseudoClass group ctx name arg) := by
  rw [pseudoClass]
  dsimp only
  split
  · exact ⟨rfl, fun h => by simp [h]⟩
  · split <;> exact ⟨rfl, fun h => by simp [h]⟩

theorem grows_pseudo {isElement : Bool} {arg : Option CString} :
    Grows c (c.pseudo group ctx isElement name arg) := by
  have he : Grows c c.neverMatch.error := ⟨rfl, fun h => by simp [h]⟩
  unfold pseudo
  split
  · exact he
  · split
    · exact grows_pseudoElementNamed
    · split
      · exact grows_pseudoClass
      · split
        · split
          · exact he
          · exact grows_has
        · split
          · exact grows_isOrWhere
          · split
            · exact grows_isOrWhere
            · split
              · exact grows_not
              · exact grows_pseudoClass

theorem grows_apply (h : t.isNameless = false) : Grows { c with any := true } (c.apply group ctx t) := by
  cases t
  case universal =>
    rw [apply]
    dsimp only
    split <;> exact ⟨rfl, fun (h : c.raised.error) => by simp [h]⟩
  case inNamespace nsNone type => exact grows_inNamespace
  case id name =>
    rw [apply]
    dsimp only
    split <;> exact ⟨rfl, fun (h : c.raised.error) => by simp [h]⟩
  case «class» badStart name =>
    rw [apply]
    dsimp only
    split <;> exact ⟨rfl, fun (h : c.raised.error) => by simp [h]⟩
  case type name =>
    rw [apply]
    dsimp only
    split <;> exact ⟨rfl, fun (h : c.raised.error) => by simp [h]⟩
  case prefixed => exact ⟨rfl, fun (h : c.raised.error) => by simp [apply, h]⟩
  case pseudo isElement name arg => exact grows_pseudo
  case attr nsPrefix error pred =>
    rw [apply]
    dsimp only
    split <;> exact ⟨rfl, fun (h : c.raised.error) => by simp [h]⟩
  case nameless nsPrefix => cases h

theorem apply_nameless {nsPrefix : Bool} : Grows c (c.apply group ctx (.nameless nsPrefix)) := by
  rw [apply]
  split <;> exact ⟨rfl, fun h => by simp [h]⟩

theorem apply_any : (c.apply group ctx t).any = (c.any || !t.isNameless) := by
  cases ht : t.isNameless
  case false => simp [(grows_apply ht).any]
  case true  =>
    cases t
    case nameless nsPrefix => simp [apply_nameless.any]
    all_goals cases ht

theorem apply_error (h : c.raised.error) : (c.apply group ctx t).raised.error := by
  cases ht : t.isNameless
  case false => exact (grows_apply ht).error h
  case true  =>
    cases t
    case nameless nsPrefix => exact apply_nameless.error h
    all_goals cases ht

-- A simple selector that is not well-formed is an error, if it is not one without a name.
theorem apply_error_of_not_wellFormed (h : t.wellFormed = false) (hn : t.isNameless = false) :
    (c.apply group ctx t).raised.error := by
  cases t
  case inNamespace nsNone type =>
    obtain rfl : type = some [] := by simpa [SimpleToken.wellFormed] using h
    simp [apply, inNamespace]
  case id name =>
    obtain rfl : name = [] := by simpa [SimpleToken.wellFormed] using h
    simp [apply]
  case «class» badStart name =>
    have hc : badStart = true ∨ name = [] := by
      cases badStart
      case true  => exact .inl rfl
      case false => exact .inr (by simpa [SimpleToken.wellFormed] using h)
    simp [apply, hc]
  case pseudo isElement name arg =>
    obtain rfl : name = [] := by simpa [SimpleToken.wellFormed] using h
    simp [apply, pseudo]
  case attr nsPrefix error pred =>
    obtain rfl : error = true := by simpa [SimpleToken.wellFormed] using h
    rw [apply]
    dsimp only
    split <;> simp
  case nameless nsPrefix => cases hn
  all_goals cases h

end Compound

section Fold

variable {group : Context → CString → List Sel × Raised} {ctx : Context} {c : Compound} {ts : List SimpleToken}

theorem foldl_apply_error (h : c.raised.error) :
    (ts.foldl (Compound.apply group ctx) c).raised.error := by
  induction ts generalizing c
  case nil          => exact h
  case cons t ts hi => exact hi (Compound.apply_error h)

theorem foldl_apply_any :
    (ts.foldl (Compound.apply group ctx) c).any = (c.any || !ts.all SimpleToken.isNameless) := by
  induction ts generalizing c
  case nil          => simp
  case cons t ts hi => simp [hi, Compound.apply_any, Bool.or_assoc]

theorem compound_any : (compound group ctx ts).any = !ts.all SimpleToken.isNameless := by
  rw [compound, foldl_apply_any, Bool.false_or]

theorem foldl_apply_wellFormed (h : (ts.foldl (Compound.apply group ctx) c).raised.error = false) :
    ∀ t ∈ ts, t.isNameless = false → t.wellFormed := by
  induction ts generalizing c
  case nil          => exact fun t ht => absurd ht List.not_mem_nil
  case cons t ts hi =>
    intro u hu hn
    obtain rfl | hu := List.mem_cons.mp hu
    case inr => exact hi h u hu hn
    case inl =>
      by_contra hw
      have he := @Compound.apply_error_of_not_wellFormed group ctx c _ (Bool.of_not_eq_true hw) hn
      rw [List.foldl_cons, foldl_apply_error he] at h
      cases h

-- The simple selectors of a compound selector without errors.
theorem wellFormed_of_compound {checked : Bool} (h : (compound group ctx ts).raised.fails checked = false)
    (hn : ts.any SimpleToken.isNameless = false) : ∀ t ∈ ts, t.wellFormed := by
  intro t ht
  have he : (compound group ctx ts).raised.error = false := by
    by_contra hc
    rw [Raised.fails_of_error (Bool.of_not_eq_false hc)] at h
    cases h
  exact foldl_apply_wellFormed he t ht (by simpa using List.any_eq_false.mp hn t ht)

end Fold

end Nordstjernen.Css.Selector
