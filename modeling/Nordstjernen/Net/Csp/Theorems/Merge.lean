import Nordstjernen.Net.Csp.Policy

open Nordstjernen.Glib

namespace Nordstjernen.Net

namespace CspPolicy

variable {p : CspPolicy} {kind : CspKind} {list : List CString}

theorem addClause_of_set {clause : CString} (h : p kind = some list) :
    p.addClause clause kind = some list := by
  rw [addClause]
  generalize (gStrstrip clause).splitOnP _ = toks
  cases toks
  case nil => exact h
  case cons name toks =>
    cases hk : CspKind.ofName? name <;> simp only [hk]
    case none => exact h
    case some other =>
      cases hn : p other
      case some => exact h
      case none =>
        have hne : kind ≠ other := fun e => by rw [← e, h] at hn; cases hn
        exact (Function.update_of_ne hne ..).trans h

theorem foldl_addClause_of_set {clauses : List CString} (h : p kind = some list) :
    clauses.foldl addClause p kind = some list := by
  induction clauses generalizing p
  case nil          => exact h
  case cons c cs ih => exact ih (addClause_of_set h)

-- Further clauses neither widen nor replace the list of a directive that is set.
theorem parse_append_of_set {text rest : CString} (h : parse text kind = some list) :
    parse (text ++ ';' :: rest) kind = some list := by
  cases text
  case nil       => cases h
  case cons c cs =>
    rw [parse, gStrsplitAll, if_neg (List.cons_ne_nil _ _)] at h
    rw [parse, gStrsplitAll, if_neg (by simp), List.splitOn_append_cons_self, List.foldl_append]
    exact foldl_addClause_of_set h

theorem parse_append_of_set_script :
    parse ("script-src 'self'".toList ++ ';' :: "script-src *".toList) .script = some ["'self'".toList] :=
  parse_append_of_set (by decide +kernel)

end CspPolicy

namespace Csp

section Parse

-- The texts of the policies in a header.
def policyTexts (header : CString) : List CString :=
  ((header.splitOn ',').map gStrstrip).filter (· ≠ [])

theorem policiesOf_eq (header : CString) :
    policiesOf header = (policyTexts header).map CspPolicy.parse := by
  rw [policiesOf, policyTexts, gStrsplitAll]
  split
  case isTrue h  => subst h; rfl
  case isFalse _ => rfl

theorem policyTexts_space_cons (h : CString) : policyTexts (' ' :: h) = policyTexts h := by
  have ⟨first, rest, hs⟩ := List.exists_cons_of_ne_nil (List.splitOn_ne_nil ',' h)
  have hc : (' ' :: h).splitOn ',' = (' ' :: first) :: rest := by
    rw [List.splitOn_cons_eq_if_modifyHead, hs]
    rfl
  rw [policyTexts, hc, policyTexts, hs, List.map_cons, List.map_cons, gStrstrip_cons (by decide)]

theorem policyTexts_append (h₁ h₂ : CString) :
    policyTexts (h₁ ++ ", ".toList ++ h₂) = policyTexts h₁ ++ policyTexts h₂ := by
  have hc : h₁ ++ ", ".toList ++ h₂ = h₁ ++ ',' :: ' ' :: h₂ := by simp
  rw [hc, ← policyTexts_space_cons h₂, policyTexts, List.splitOn_append_cons_self, List.map_append,
    List.filter_append, policyTexts, policyTexts]

theorem policiesOf_append (h₁ h₂ : CString) :
    policiesOf (h₁ ++ ", ".toList ++ h₂) = policiesOf h₁ ++ policiesOf h₂ := by
  simp only [policiesOf_eq, policyTexts_append, List.map_append]

end Parse

-- The policies that are in force.
def inForce : Option Csp → List CspPolicy
  | none     => []
  | some csp => csp.policies

section InForce

variable {csp csp' : Option Csp}

theorem inForce_injective (h : inForce csp = inForce csp') : csp = csp' := by
  match csp, csp' with
  | none,        none        => rfl
  | none,        some ⟨_, n⟩ => exact absurd h.symm n
  | some ⟨_, n⟩, none        => exact absurd h n
  | some ⟨p, _⟩, some ⟨q, _⟩ => cases h; rfl

@[simp]
theorem inForce_parse (h : CString) : inForce (parse h) = policiesOf h := by
  rw [parse]
  split
  case isTrue hn  => rw [hn]; rfl
  case isFalse hn => rfl

@[simp]
theorem inForce_addHeader (csp : Option Csp) (h : CString) :
    inForce (addHeader csp h) = inForce csp ++ policiesOf h := by
  rw [← inForce_parse h]
  cases hp : parse h <;> cases csp <;> simp only [addHeader, hp] <;> simp [inForce, merge]

theorem addHeader_parse (h₁ h₂ : CString) :
    addHeader (parse h₁) h₂ = parse (h₁ ++ ", ".toList ++ h₂) := by
  apply inForce_injective
  rw [inForce_addHeader, inForce_parse, inForce_parse, policiesOf_append]

end InForce

section Allows

variable (L : CspLib) {csp : Option Csp} {req : CspRequest}

theorem allows_iff : allows L csp req ↔ ∀ p ∈ inForce csp, p.answers L req := by
  cases csp <;> simp [allows, inForce]

theorem allows_addHeader_iff {h : CString} :
    allows L (addHeader csp h) req ↔ allows L csp req ∧ allows L (parse h) req := by
  simp only [allows_iff, inForce_addHeader, inForce_parse, List.forall_mem_append]

-- The headers of a response are added one by one, or arrive as one list.
theorem allows_foldl_addHeader_iff {headers : List CString} :
    allows L (headers.foldl addHeader csp) req ↔
      allows L csp req ∧ ∀ h ∈ headers, allows L (parse h) req := by
  induction headers generalizing csp
  case nil           => simp
  case cons h hs ih  => rw [List.foldl_cons, ih, allows_addHeader_iff, List.forall_mem_cons, and_assoc]

theorem allows_added_iff_both (h₁ h₂ : CString) :
    (∀ req, allows L (addHeader (parse h₁) h₂) req ↔
      allows L (parse h₁) req ∧ allows L (parse h₂) req) ∧
    (∀ csp req, allows L (addHeader csp h₂) req → allows L csp req) ∧
    parse (h₁ ++ ", ".toList ++ h₂) = addHeader (parse h₁) h₂ :=
  ⟨fun _ => allows_addHeader_iff L, fun _ _ h => ((allows_addHeader_iff L).mp h).left,
    (addHeader_parse h₁ h₂).symm⟩

end Allows

end Csp

end Nordstjernen.Net
