import Nordstjernen.Css.PropMath

open Nordstjernen.Glib

namespace Nordstjernen.Css.PropMath

-- The equations of what is matched on most are derived here, once for all the proofs below.
section
attribute [local simp] mathEvalDimension mathAdd sumKind MathFn.apply
end

section Values

variable {a b v : MathValue} {q r : Quantity} {unit : MathUnit} {x y : ℚ} {sign : ℚ}

theorem LenUnit.mem_all (u : LenUnit) : u ∈ LenUnit.all := by
  cases u <;> decide

theorem mathHasLengthTerms_iff : mathHasLengthTerms v ↔ ∃ i, v.len i ≠ 0 := by
  simp [mathHasLengthTerms, LenUnit.mem_all]

theorem mathHasLengthTerms_eq_false (h : ∀ i, v.len i = 0) : mathHasLengthTerms v = false :=
  Bool.of_not_eq_true fun hl => by
    obtain ⟨i, hi⟩ := mathHasLengthTerms_iff.mp hl
    exact hi (h i)

-- What a literal is read as is a quantity.
theorem exists_quantity {c : Component} (h : mathEvalDimension c = some v) : ∃ q : Quantity, v = q.value := by
  cases c
  case number n         => exact ⟨⟨.number, n⟩, (Option.some.inj h).symm⟩
  case percentage n     => exact ⟨⟨.percent, n⟩, (Option.some.inj h).symm⟩
  case whitespace       => cases h
  case comma            => cases h
  case delim            => cases h
  case function         => cases h
  case block            => cases h
  case other            => cases h
  case dimension n name =>
    rw [mathEvalDimension] at h
    split at h
    case h_1 u hu => exact ⟨⟨.length u, n⟩, (Option.some.inj h).symm⟩
    case h_2      =>
      split at h
      · exact ⟨⟨.angle, _⟩, (Option.some.inj h).symm⟩
      · split at h
        · exact ⟨⟨.time, _⟩, (Option.some.inj h).symm⟩
        · split at h
          · exact ⟨⟨.resolution, _⟩, (Option.some.inj h).symm⟩
          · split at h
            · exact ⟨⟨.flex, n⟩, (Option.some.inj h).symm⟩
            · cases h

def MathUnit.kind : MathUnit → MathKind
  | number     => .number
  | percent    => .percent
  | length _   => .length
  | angle      => .angle
  | time       => .time
  | resolution => .resolution
  | flex       => .flex

namespace Quantity

@[simp]
theorem value_kind : (value ⟨unit, x⟩).kind = unit.kind := by
  cases unit <;> rfl

-- The sizes of quantities in one unit are told apart.
theorem size_eq_of_value_eq (h : value ⟨unit, x⟩ = value ⟨unit, y⟩) : x = y := by
  cases unit
  case number     => exact congrArg MathValue.number h
  case percent    => exact congrArg MathValue.percent h
  case angle      => exact congrArg MathValue.number h
  case time       => exact congrArg MathValue.number h
  case resolution => exact congrArg MathValue.number h
  case flex       => exact congrArg MathValue.number h
  case length u   => simpa [value] using congrFun (congrArg MathValue.len h) u

theorem hasLengthTerms_value : mathHasLengthTerms (value ⟨unit, x⟩) ↔ (∃ u, unit = .length u) ∧ x ≠ 0 := by
  rw [mathHasLengthTerms_iff]
  cases unit <;> simp [value]

theorem isZero_value : mathIsZero (value ⟨.number, x⟩) ↔ x = 0 := by
  have hl : mathHasLengthTerms (value ⟨.number, x⟩) = false := mathHasLengthTerms_eq_false fun _ => rfl
  rw [mathIsZero, hl, if_neg (by simp [value]), if_neg Bool.false_ne_true]
  exact decide_eq_true_iff

end Quantity

theorem MathUnit.kind_ne_invalid : unit.kind ≠ .invalid := by
  cases unit <;> exact nofun

theorem mathAdd_value : mathAdd (Quantity.value ⟨unit, x⟩) (Quantity.value ⟨unit, y⟩) sign =
    some (Quantity.value ⟨unit, x + sign * y⟩) := by
  rw [mathAdd, if_neg (by simp [MathUnit.kind_ne_invalid]), sumKind, if_pos (by simp)]
  cases unit
  case length u =>
    simp only [Quantity.value, Option.map_some, mul_zero, add_zero, Bool.or_self, Option.some.injEq,
      MathValue.mk.injEq, true_and]
    funext i
    split <;> simp
  all_goals simp [Quantity.value]

theorem sumKind_number_left (h : unit ≠ .number) :
    sumKind (Quantity.value ⟨.number, x⟩) (Quantity.value ⟨unit, y⟩) = if x = 0 then some unit.kind else none := by
  cases unit
  case number => exact absurd rfl h
  all_goals simp [sumKind, MathUnit.kind, Quantity.isZero_value]

theorem sumKind_number_right (h : unit ≠ .number) :
    sumKind (Quantity.value ⟨unit, x⟩) (Quantity.value ⟨.number, y⟩) = if y = 0 then some unit.kind else none := by
  cases unit
  case number => exact absurd rfl h
  all_goals simp [sumKind, MathUnit.kind, Quantity.isZero_value]

theorem mathAdd_number_left (h : unit ≠ .number) :
    mathAdd (Quantity.value ⟨.number, x⟩) (Quantity.value ⟨unit, y⟩) sign =
      if x = 0 then some (Quantity.value ⟨unit, sign * y⟩) else none := by
  rw [mathAdd, if_neg (by simp [MathUnit.kind_ne_invalid]), sumKind_number_left h]
  split
  case isFalse   => rfl
  case isTrue hx =>
    subst hx
    cases unit
    case number   => exact absurd rfl h
    case length u =>
      simp only [Quantity.value, Option.map_some, mul_zero, zero_add, Bool.or_self, Option.some.injEq,
        MathValue.mk.injEq, true_and, MathUnit.kind]
      funext i
      split <;> simp
    all_goals simp [Quantity.value, MathUnit.kind]

theorem mathAdd_number_right (h : unit ≠ .number) :
    mathAdd (Quantity.value ⟨unit, x⟩) (Quantity.value ⟨.number, y⟩) sign =
      if y = 0 then some (Quantity.value ⟨unit, x⟩) else none := by
  rw [mathAdd, if_neg (by simp [MathUnit.kind_ne_invalid]), sumKind_number_right h]
  split
  case isFalse   => rfl
  case isTrue hy =>
    subst hy
    cases unit
    case number => exact absurd rfl h
    all_goals simp [Quantity.value, MathUnit.kind]

end Values

section Functions

variable {libm : LibM} {name : CString} {fn : MathFn} {unit : MathUnit} {x y : ℚ} {xs : List ℚ} {q : Quantity}
variable {children : List Component} {sum sum' : List Component → Option MathValue}

theorem nameIs_eq {s t : String} (h : nameIs name s) : nameIs name t = nameIs s.toList t := by
  rw [nameIs, strcaseEq_iff] at h
  rw [Bool.eq_iff_iff, nameIs, nameIs, strcaseEq_iff, strcaseEq_iff, h]

-- How one argument is added to those in front of it.
def MathUnit.step (unit : MathUnit) (fn : MathFn) (x y : ℚ) : ℚ :=
  match unit with
  | .percent  => x
  | .length _ => if y ≠ 0 then y else x
  | _         =>
    match fn with
    | .min => min x y
    | .max => max x y
    | _    => y

def MathFn.isFold : MathFn → Bool
  | min | max | clamp => true
  | _                 => false

theorem pick_scalar (h : nameIs name fn.name) (hf : fn.isFold) (hu : unit.isScalar) :
    pick libm name (Quantity.value ⟨unit, x⟩) (Quantity.value ⟨unit, y⟩) =
      Quantity.value ⟨unit, unit.step fn x y⟩ := by
  have hl (z : ℚ) : mathHasLengthTerms (Quantity.value ⟨unit, z⟩) = false := by
    refine Bool.of_not_eq_true fun hl => ?_
    obtain ⟨⟨u, rfl⟩, -⟩ := Quantity.hasLengthTerms_value.mp hl
    cases hu
  have hp (z : ℚ) : (Quantity.value ⟨unit, z⟩).hasPercent = false := by
    cases unit <;> first | rfl | cases hu
  rw [pick, hl, hl, hp, hp, if_neg (by decide)]
  simp only [nameIs_eq h]
  cases fn
  case min   => cases unit <;> first | rfl | cases hu
  case max   => cases unit <;> first | rfl | cases hu
  case clamp => cases unit <;> first | rfl | cases hu
  all_goals cases hf

theorem pick_percent : pick libm name (Quantity.value ⟨.percent, x⟩) (Quantity.value ⟨.percent, y⟩) =
    Quantity.value ⟨.percent, x⟩ := by
  rw [pick, if_pos (by simp [Quantity.value])]
  simp [Quantity.value]

theorem pick_length (h : nameIs name fn.name) (hf : fn.isFold) (u : LenUnit) :
    pick libm name (Quantity.value ⟨.length u, x⟩) (Quantity.value ⟨.length u, y⟩) =
      Quantity.value ⟨.length u, if y ≠ 0 then y else x⟩ := by
  rw [pick]
  split
  case isTrue =>
    simp only [Quantity.value, Bool.false_eq_true, if_false, MathValue.mk.injEq, true_and]
    funext i
    split <;> simp_all
  case isFalse hc =>
    have hzero (z : ℚ) : ¬mathHasLengthTerms (Quantity.value ⟨.length u, z⟩) → z = 0 := by
      rw [Quantity.hasLengthTerms_value]
      simp
    simp only [Bool.or_eq_true, not_or] at hc
    obtain rfl := hzero y hc.left.left.left
    obtain rfl := hzero x hc.left.right
    simp only [nameIs_eq h]
    cases fn
    case min =>
      rw [if_pos (show nameIs MathFn.min.name.toList "min" from rfl)]
      simp [Quantity.value]
    case max =>
      rw [if_neg (show ¬nameIs MathFn.max.name.toList "min" by decide)]
      rw [if_pos (show nameIs MathFn.max.name.toList "max" from rfl)]
      simp [Quantity.value]
    case clamp =>
      rw [if_neg (show ¬nameIs MathFn.clamp.name.toList "min" by decide)]
      rw [if_neg (show ¬nameIs MathFn.clamp.name.toList "max" by decide)]
      rw [if_neg (show ¬nameIs MathFn.clamp.name.toList "hypot" by decide)]
      simp [Quantity.value]
    all_goals cases hf

theorem foldArg_value (h : nameIs name fn.name) (hf : fn.isFold) :
    foldArg libm name (Quantity.value ⟨unit, x⟩) (Quantity.value ⟨unit, y⟩) =
      some (Quantity.value ⟨unit, unit.step fn x y⟩) := by
  have hself : { Quantity.value ⟨unit, x⟩ with kind := unit.kind } = Quantity.value ⟨unit, x⟩ := by
    rw [← @Quantity.value_kind unit x]
  rw [foldArg, mathAdd_value, Option.map_some, Quantity.value_kind, hself]
  cases hu : unit.isScalar
  case true  => rw [pick_scalar h hf hu]
  case false =>
    cases unit
    case percent  => rw [pick_percent]; rfl
    case length u => rw [pick_length h hf]; rfl
    all_goals cases hu

theorem foldlM_foldArg (h : nameIs name fn.name) (hf : fn.isFold) :
    (xs.map fun y => Quantity.value ⟨unit, y⟩).foldlM (foldArg libm name) (Quantity.value ⟨unit, x⟩) =
      some (Quantity.value ⟨unit, xs.foldl (unit.step fn) x⟩) := by
  induction xs generalizing x
  case nil          => rfl
  case cons y xs hi =>
    rw [List.map_cons, List.foldlM_cons, foldArg_value h hf, List.foldl_cons]
    exact hi

theorem nameIs_calc (h : nameIs name fn.name) : nameIs name "calc" = false := by
  rw [nameIs_eq h]
  cases fn <;> rfl

theorem nameIs_fold (h : nameIs name fn.name) :
    (nameIs name "min" || nameIs name "max" || nameIs name "clamp" || nameIs name "hypot") = fn.isFold := by
  simp only [nameIs_eq h]
  cases fn <;> rfl

theorem nameIs_unary (h : nameIs name fn.name) :
    (nameIs name "abs" || nameIs name "sign") = (fn = .abs || fn = .sign) := by
  simp only [nameIs_eq h]
  cases fn <;> rfl

theorem nameIs_steps (h : nameIs name fn.name) :
    (nameIs name "round" || nameIs name "mod" || nameIs name "rem") = (fn = .round || fn = .mod) := by
  simp only [nameIs_eq h]
  cases fn <;> rfl

theorem mathFunctionName_name (h : nameIs name fn.name) : mathFunctionName name := by
  simp only [mathFunctionName, List.any_cons, nameIs_eq h]
  cases fn <;> rfl

variable {args : List (Option MathValue)}

theorem evalFunction_fold (h : nameIs name fn.name) (hf : fn.isFold) (hn : args ≠ []) :
    evalFunction libm name args = (args.mapM id).bind fun
      | []      => none
      | v :: vs => vs.foldlM (foldArg libm name) v := by
  have hn := Nat.one_le_iff_ne_zero.mpr (mt List.length_eq_zero_iff.mp hn)
  rw [evalFunction, nameIs_calc h, nameIs_fold h, hf, if_neg (by simp)]
  exact if_pos (by simpa using hn)

theorem evalFunction_abs (h : nameIs name MathFn.abs.name) (v : Option MathValue) :
    evalFunction libm name [v] = v.map fun out => if out.number < 0 then mathScale out (-1) else out := by
  rw [evalFunction, nameIs_calc h, nameIs_fold h, nameIs_unary h, if_neg (by simp)]
  rw [if_neg (by simp [MathFn.isFold]), if_pos (by simp), nameIs_eq h]
  rfl

theorem evalFunction_sign (h : nameIs name MathFn.sign.name) (v : Option MathValue) :
    evalFunction libm name [v] = v.map fun out =>
      { kind := .number, number := if out.number > 0 then 1 else if out.number < 0 then -1 else 0 } := by
  rw [evalFunction, nameIs_calc h, nameIs_fold h, nameIs_unary h, if_neg (by simp)]
  rw [if_neg (by simp [MathFn.isFold]), if_pos (by simp), nameIs_eq h]
  rfl

theorem evalFunction_steps (h : nameIs name fn.name) (hf : fn = .round ∨ fn = .mod) (a b : Option MathValue) :
    evalFunction libm name [a, b] = a.bind fun a => b.bind fun b => (mathAdd a b 1).map fun _ => a := by
  have hfold : fn.isFold = false := by cases hf <;> subst fn <;> rfl
  have hunary : (fn = .abs || fn = .sign) = false := by cases hf <;> subst fn <;> rfl
  have hsteps : (fn = .round || fn = .mod) = true := by simpa using hf
  rw [evalFunction, nameIs_calc h, nameIs_fold h, nameIs_unary h, nameIs_steps h, hfold, hunary, hsteps]
  rfl

theorem mapM_id_map_some {α β : Type} (f : α → β) (l : List α) :
    (l.map fun a => some (f a)).mapM id = some (l.map f) := by
  induction l
  case nil         => rfl
  case cons a l hi => rw [List.map_cons, List.mapM_cons, hi]; rfl

theorem evalFunction_values (h : nameIs name fn.name) (hf : fn.isFold) :
    evalFunction libm name ((x :: xs).map fun x => some (Quantity.value ⟨unit, x⟩)) =
      some (Quantity.value ⟨unit, xs.foldl (unit.step fn) x⟩) := by
  rw [evalFunction_fold h hf (by simp), mapM_id_map_some, Option.bind_some, List.map_cons]
  exact foldlM_foldArg h hf

theorem left_length (u : LenUnit) : MathUnit.left (.length u) (x :: xs) = (xs.filter (· ≠ 0)).getLastD x := by
  rw [MathUnit.left, List.filter_cons]
  by_cases hx : x = 0
  case pos => rw [if_neg (by simpa using hx), hx]
  case neg => rw [if_pos (by simpa using hx), List.getLastD_cons]

theorem left_scalar (h : unit.isScalar) : unit.left (x :: xs) = xs.getLastD x := by
  rw [← @List.getLastD_cons _ 0]
  cases unit <;> first | rfl | cases h

theorem foldl_first : xs.foldl (fun x _ => x) x = x := by
  induction xs
  case nil          => rfl
  case cons y xs hi => exact hi

theorem foldl_last : xs.foldl (fun _ y => y) x = xs.getLastD x := by
  induction xs generalizing x
  case nil          => rfl
  case cons y xs hi => rw [List.foldl_cons, hi, List.getLastD_cons]

theorem foldl_nonzero : xs.foldl (fun x y => if y ≠ 0 then y else x) x = (xs.filter (· ≠ 0)).getLastD x := by
  induction xs generalizing x
  case nil          => rfl
  case cons y xs hi =>
    rw [List.foldl_cons, hi, List.filter_cons]
    by_cases hy : y = 0
    case pos => rw [if_neg (by simpa using hy), if_neg (by simpa using hy)]
    case neg => rw [if_pos (by simpa using hy), if_pos (by simpa using hy), List.getLastD_cons]

-- What is left of several arguments where they are not compared.
theorem foldl_step_eq_left (h : unit.isScalar = false ∨ fn = .clamp) :
    xs.foldl (unit.step fn) x = unit.left (x :: xs) := by
  cases hu : unit.isScalar
  case true =>
    obtain rfl : fn = .clamp := h.resolve_left (by rw [hu]; simp)
    rw [left_scalar hu, ← foldl_last]
    cases unit <;> first | rfl | cases hu
  case false =>
    cases unit
    case percent  => exact foldl_first
    case length u => rw [left_length, ← foldl_nonzero]; rfl
    all_goals cases hu

theorem left_mem : unit.left (x :: xs) ∈ x :: xs := by
  cases hu : unit.isScalar
  case true  => rw [left_scalar hu]; exact List.getLastD_mem_cons
  case false =>
    cases unit
    case percent  => exact List.mem_cons_self
    case length u =>
      rw [left_length]
      exact List.cons_subset_cons x (List.filter_subset_self xs) List.getLastD_mem_cons
    all_goals cases hu

theorem foldl_min (h : unit.isScalar) : xs.foldl (unit.step .min) x = xs.foldl min x := by
  cases unit <;> first | rfl | cases h

theorem foldl_max (h : unit.isScalar) : xs.foldl (unit.step .max) x = xs.foldl max x := by
  cases unit <;> first | rfl | cases h

theorem some_value_inj : some (Quantity.value ⟨unit, x⟩) = some (Quantity.value ⟨unit, y⟩) ↔ x = y :=
  ⟨fun h => Quantity.size_eq_of_value_eq (Option.some.inj h), fun h => by rw [h]⟩

theorem evalFunction_min_iff (h : nameIs name MathFn.min.name) (hq : MathFn.min.apply unit (x :: xs) = some q) :
    evalFunction libm name ((x :: xs).map fun x => some (Quantity.value ⟨unit, x⟩)) = some q.value ↔
      MathFn.min.Exact unit (x :: xs) := by
  rw [MathFn.apply, List.min?_cons', Option.map_some] at hq
  obtain rfl := Option.some.inj hq
  rw [evalFunction_values h rfl, some_value_inj, MathFn.Exact]
  cases hu : unit.isScalar
  case true  => simp [foldl_min hu]
  case false =>
    have hm : (x :: xs).min? = some (xs.foldl min x) := List.min?_cons'
    obtain ⟨hmem, hle⟩ := List.min?_eq_some_iff.mp hm
    rw [foldl_step_eq_left (.inl hu)]
    constructor
    case mp  => exact fun he => .inr fun y hy => he ▸ hle y hy
    case mpr =>
      intro he
      exact le_antisymm (he.resolve_left (by simp) _ hmem) (hle _ left_mem)

theorem evalFunction_max_iff (h : nameIs name MathFn.max.name) (hq : MathFn.max.apply unit (x :: xs) = some q) :
    evalFunction libm name ((x :: xs).map fun x => some (Quantity.value ⟨unit, x⟩)) = some q.value ↔
      MathFn.max.Exact unit (x :: xs) := by
  rw [MathFn.apply, List.max?_cons', Option.map_some] at hq
  obtain rfl := Option.some.inj hq
  rw [evalFunction_values h rfl, some_value_inj, MathFn.Exact]
  cases hu : unit.isScalar
  case true  => simp [foldl_max hu]
  case false =>
    have hm : (x :: xs).max? = some (xs.foldl max x) := List.max?_cons'
    obtain ⟨hmem, hle⟩ := List.max?_eq_some_iff.mp hm
    rw [foldl_step_eq_left (.inl hu)]
    constructor
    case mp  => exact fun he => .inr fun y hy => he ▸ hle y hy
    case mpr =>
      intro he
      exact le_antisymm (hle _ left_mem) (he.resolve_left (by simp) _ hmem)

-- The number in the value of a scalar is its size, and any other value has no number.
theorem value_number (unit : MathUnit) (x : ℚ) :
    (Quantity.value ⟨unit, x⟩).number = if unit.isScalar then x else 0 := by
  cases unit <;> rfl

theorem mathScale_neg (h : unit.isScalar) :
    mathScale (Quantity.value ⟨unit, x⟩) (-1) = Quantity.value ⟨unit, -x⟩ := by
  cases unit
  case percent => cases h
  case length  => cases h
  all_goals simp [mathScale, Quantity.value]

theorem evalFunction_abs_iff (h : nameIs name MathFn.abs.name) :
    evalFunction libm name [some (Quantity.value ⟨unit, x⟩)] = some (Quantity.value ⟨unit, |x|⟩) ↔
      MathFn.abs.Exact unit [x] := by
  rw [evalFunction_abs h, Option.map_some, value_number, MathFn.Exact]
  cases hu : unit.isScalar
  case true =>
    refine iff_of_true ?_ (.inl rfl)
    rw [if_pos rfl]
    split
    case isTrue hx  => rw [mathScale_neg hu, abs_of_neg hx]
    case isFalse hx => rw [abs_of_nonneg (not_lt.mp hx)]
  case false =>
    rw [if_neg Bool.false_ne_true, if_neg (lt_irrefl 0), some_value_inj, eq_comm, abs_eq_self]
    simp

theorem evalFunction_sign_iff (h : nameIs name MathFn.sign.name) (hq : MathFn.sign.apply unit [x] = some q) :
    evalFunction libm name [some (Quantity.value ⟨unit, x⟩)] = some q.value ↔ MathFn.sign.Exact unit [x] := by
  have hvalue (y : ℚ) : ({ kind := .number, number := y } : MathValue) = Quantity.value ⟨.number, y⟩ := rfl
  obtain rfl := Option.some.inj hq
  rw [evalFunction_sign h, Option.map_some, value_number, hvalue, some_value_inj, MathFn.Exact]
  cases hu : unit.isScalar
  case true  => simp
  case false =>
    rw [if_neg Bool.false_ne_true, if_neg (lt_irrefl 0), if_neg (lt_irrefl 0)]
    constructor
    case mp =>
      intro hs
      by_contra hx
      cases lt_or_gt_of_ne (not_or.mp hx).right
      case inl hlt => rw [if_neg (not_lt.mpr hlt.le), if_pos hlt] at hs; exact absurd hs (by decide)
      case inr hgt => rw [if_pos hgt] at hs; exact absurd hs (by decide)
    case mpr =>
      intro hx
      rw [hx.resolve_left Bool.false_ne_true, if_neg (lt_irrefl 0), if_neg (lt_irrefl 0)]

theorem nearestMultiple_eq_iff (hy : y ≠ 0) : x = nearestMultiple x y ↔ ∃ z : ℤ, x = z * y := by
  rw [nearestMultiple]
  cases abs_choice y
  case inl ha =>
    rw [ha]
    constructor
    case mp  => exact fun h => ⟨round (x / y), h.trans (mul_comm _ _)⟩
    case mpr =>
      intro ⟨z, hz⟩
      rw [hz, mul_div_cancel_right₀ _ hy, round_intCast, mul_comm]
  case inr ha =>
    rw [ha]
    constructor
    case mp =>
      intro h
      refine ⟨-round (x / -y), h.trans ?_⟩
      push_cast
      ring
    case mpr =>
      intro ⟨z, hz⟩
      have hdiv : (z : ℚ) * y / -y = ((-z : ℤ) : ℚ) := by
        rw [div_neg, mul_div_cancel_right₀ _ hy]
        push_cast
        rfl
      rw [hz, hdiv, round_intCast]
      push_cast
      ring

theorem modulo_eq_iff (hy : y ≠ 0) : x = modulo x y ↔ 0 ≤ x / y ∧ x / y < 1 := by
  rw [modulo, eq_comm, sub_eq_self, mul_eq_zero, or_iff_right hy, Int.cast_eq_zero, Int.floor_eq_zero_iff]
  rw [Set.mem_Ico]

theorem evalFunction_steps_iff (h : nameIs name fn.name) (hf : fn = .round ∨ fn = .mod)
    (hq : fn.apply unit [x, y] = some q) :
    evalFunction libm name [some (Quantity.value ⟨unit, x⟩), some (Quantity.value ⟨unit, y⟩)] = some q.value ↔
      fn.Exact unit [x, y] := by
  rw [evalFunction_steps h hf, Option.bind_some, Option.bind_some, mathAdd_value, Option.map_some]
  cases hf
  case inl hf =>
    subst hf
    rw [MathFn.apply] at hq
    split at hq
    case isTrue     => cases hq
    case isFalse hy =>
      obtain rfl := Option.some.inj hq
      rw [some_value_inj, nearestMultiple_eq_iff hy]
      rfl
  case inr hf =>
    subst hf
    rw [MathFn.apply] at hq
    split at hq
    case isTrue     => cases hq
    case isFalse hy =>
      obtain rfl := Option.some.inj hq
      rw [some_value_inj, modulo_eq_iff hy]
      rfl

-- Where a function of plain quantities is computed.
theorem evalFunction_eq_iff (h : nameIs name fn.name) (hq : fn.apply unit xs = some q) :
    evalFunction libm name (xs.map fun x => some (Quantity.value ⟨unit, x⟩)) = some q.value ↔
      fn.Exact unit xs := by
  cases fn
  case min =>
    cases xs
    case nil       => cases hq
    case cons x xs => exact evalFunction_min_iff h hq
  case max =>
    cases xs
    case nil       => cases hq
    case cons x xs => exact evalFunction_max_iff h hq
  case abs =>
    match xs, hq with
    | [x], hq =>
      obtain rfl := Option.some.inj hq
      exact evalFunction_abs_iff h
  case sign =>
    match xs, hq with
    | [x], hq => exact evalFunction_sign_iff h hq
  case round =>
    match xs, hq with
    | [x, y], hq => exact evalFunction_steps_iff h (.inl rfl) hq
  case mod =>
    match xs, hq with
    | [x, y], hq => exact evalFunction_steps_iff h (.inr rfl) hq
  case clamp =>
    match xs, hq with
    | [lo, x, hi], hq =>
      obtain rfl := Option.some.inj hq
      rw [evalFunction_values h rfl, some_value_inj, foldl_step_eq_left (.inr rfl)]
      rfl

theorem mapM_id_some {α : Type} {l : List (Option α)} {vs : List α} (h : l.mapM id = some vs) :
    ∀ a ∈ l, ∃ v, a = some v := by
  induction l generalizing vs
  case nil         => exact fun a ha => absurd ha List.not_mem_nil
  case cons a l hi =>
    rw [List.mapM_cons] at h
    obtain ⟨v, hv, h⟩ := Option.bind_eq_some_iff.mp h
    obtain ⟨vs, hvs, -⟩ := Option.bind_eq_some_iff.mp h
    exact List.forall_mem_cons.mpr ⟨⟨v, hv⟩, hi hvs⟩

theorem apply_nil : fn.apply unit [] = none := by
  cases fn <;> rfl

-- A function of as many arguments as it takes looks at all of them.
theorem exists_of_evalFunction {v : MathValue} (h : nameIs name fn.name) (hq : fn.apply unit xs = some q)
    (hl : args.length = xs.length) (he : evalFunction libm name args = some v) : ∀ a ∈ args, ∃ w, a = some w := by
  have hfold (hf : fn.isFold) : ∀ a ∈ args, ∃ w, a = some w := by
    have hn : args ≠ [] := by
      intro hn
      rw [hn, List.length_nil, eq_comm, List.length_eq_zero_iff] at hl
      rw [hl, apply_nil] at hq
      cases hq
    rw [evalFunction_fold h hf hn] at he
    obtain ⟨vs, hvs, -⟩ := Option.bind_eq_some_iff.mp he
    exact mapM_id_some hvs
  have hsteps (hf : fn = .round ∨ fn = .mod) (hx : xs.length = 2) : ∀ a ∈ args, ∃ w, a = some w := by
    obtain ⟨a, b, rfl⟩ := List.length_eq_two.mp (hl.trans hx)
    rw [evalFunction_steps h hf] at he
    obtain ⟨x, ha, he⟩ := Option.bind_eq_some_iff.mp he
    obtain ⟨y, hb, -⟩ := Option.bind_eq_some_iff.mp he
    exact List.forall_mem_cons.mpr ⟨⟨x, ha⟩, List.forall_mem_singleton.mpr ⟨y, hb⟩⟩
  cases fn
  case min   => exact hfold rfl
  case max   => exact hfold rfl
  case clamp => exact hfold rfl
  case abs =>
    match xs, hq with
    | [x], _ =>
      obtain ⟨a, rfl⟩ := List.length_eq_one_iff.mp hl
      rw [evalFunction_abs h] at he
      obtain ⟨w, hw, -⟩ := Option.map_eq_some_iff.mp he
      exact List.forall_mem_singleton.mpr ⟨w, hw⟩
  case sign =>
    match xs, hq with
    | [x], _ =>
      obtain ⟨a, rfl⟩ := List.length_eq_one_iff.mp hl
      rw [evalFunction_sign h] at he
      obtain ⟨w, hw, -⟩ := Option.map_eq_some_iff.mp he
      exact List.forall_mem_singleton.mpr ⟨w, hw⟩
  case round =>
    match xs, hq with
    | [x, y], _ => exact hsteps (.inl rfl) rfl
  case mod =>
    match xs, hq with
    | [x, y], _ => exact hsteps (.inr rfl) rfl

end Functions

end Nordstjernen.Css.PropMath
