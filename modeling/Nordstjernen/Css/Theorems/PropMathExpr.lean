import Nordstjernen.Css.Theorems.PropMath

open Nordstjernen.Glib

namespace Nordstjernen.Css.PropMath

section Terms

variable {libm : LibM} {sum : List Component → Option MathValue} {c : Component} {items rest : List Component}
variable {out v : MathValue} {n k : Nat} {blank : Nat × Nat}

-- What stands between white space and operators.
def operand (libm : LibM) (sum : List Component → Option MathValue) : Component → Option MathValue
  | .block delimiter children => if delimiter = ')' then sum children else none
  | .function name children   => if mathFunctionName name then mathEvalFunction libm sum name children else none
  | c                         => mathEvalDimension c

theorem skipWs_blanks (n : Nat) (items : List Component) :
    skipWs (List.replicate n .whitespace ++ items) = skipWs items := by
  induction n
  case zero      => rfl
  case succ n hi => exact hi

theorem skipWs_replicate (n : Nat) : skipWs (List.replicate n .whitespace) = [] := by
  have := skipWs_blanks n []
  rwa [List.append_nil] at this

theorem skipWs_cons (h : componentIsWs c = false) : skipWs (c :: items) = c :: items :=
  List.dropWhile_cons_of_neg (by rw [h]; exact Bool.false_ne_true)

theorem mathEvalTerm_eq (h : skipWs items = c :: rest) :
    mathEvalTerm libm sum items = (operand libm sum c).map (·, rest) := by
  rw [mathEvalTerm, h]
  cases c <;> rfl

-- A product ends where nothing follows but white space, or a sign.
theorem productLoop_end (h : ∀ op items, skipWs rest = .delim op :: items → op = '+' ∨ op = '-') :
    productLoop libm sum n out rest = some (out, rest) := by
  cases n
  case zero   => rfl
  case succ n =>
    rw [productLoop]
    split
    case h_1 op items hs =>
      rw [if_neg]
      cases h op items hs <;> subst op <;> decide
    case h_2 => rfl

theorem mathEvalProduct_eq (hc : componentIsWs c = false)
    (h : ∀ op items, skipWs rest = .delim op :: items → op = '+' ∨ op = '-') :
    mathEvalProduct libm sum (List.replicate n .whitespace ++ c :: rest) = (operand libm sum c).map (·, rest) := by
  rw [mathEvalProduct, mathEvalTerm_eq ((skipWs_blanks _ _).trans (skipWs_cons hc))]
  cases operand libm sum c
  case none   => rfl
  case some v => exact productLoop_end h

theorem sumLoop_end (h : skipWs rest = []) : sumLoop libm sum n out rest = some out := by
  cases n
  case zero   => rfl
  case succ n => rw [sumLoop, h]

theorem mathEvalSum_spaced (hc : componentIsWs c = false) :
    mathEvalSum libm (k + 1) (spaced blank c) = operand libm (mathEvalSum libm k) c := by
  have hend := skipWs_replicate blank.snd
  rw [mathEvalSum, spaced, mathEvalProduct_eq hc (by rw [hend]; exact nofun)]
  cases operand libm (mathEvalSum libm k) c
  case none   => rfl
  case some v => exact sumLoop_end hend

def isComma : Component → Bool
  | .comma => true
  | _      => false

theorem mathSplitArgs_append {as : List Component} (h : ∀ a ∈ as, isComma a = false) (items : List Component) :
    mathSplitArgs (as ++ items) = (mathSplitArgs items).modifyHead (as ++ ·) := by
  induction as
  case nil          => rw [List.nil_append]; cases mathSplitArgs items <;> rfl
  case cons a as hi =>
    obtain ⟨ha, has⟩ := List.forall_mem_cons.mp h
    have hstep : mathSplitArgs (a :: (as ++ items)) = (mathSplitArgs (as ++ items)).modifyHead (a :: ·) := by
      cases a <;> first | rfl | cases ha
    rw [List.cons_append, hstep, hi has, List.modifyHead_modifyHead]
    rfl

theorem mathSplitArgs_commaSeparated {args : List (List Component)} (hn : args ≠ [])
    (h : ∀ arg ∈ args, ∀ a ∈ arg, isComma a = false) : mathSplitArgs (commaSeparated args) = args := by
  induction args
  case nil            => exact absurd rfl hn
  case cons a args hi =>
    obtain ⟨ha, hargs⟩ := List.forall_mem_cons.mp h
    cases args
    case nil =>
      have := mathSplitArgs_append ha []
      rw [List.append_nil] at this
      rw [commaSeparated, this]
      simp [mathSplitArgs]
    case cons b args =>
      have hcomma (items : List Component) : mathSplitArgs (.comma :: items) = [] :: mathSplitArgs items := rfl
      rw [commaSeparated, mathSplitArgs_append ha, hcomma, hi (List.cons_ne_nil b args) hargs]
      simp
      exact nofun

end Terms

section Expressions

variable {libm : LibM} {e s : Expr} {q r : Quantity} {k j : Nat} {v : MathValue}
variable {fn : MathFn} {name : CString} {hname : nameIs name fn.name} {n : Nat} {args : Fin n → Expr}
variable {blanks : Fin n → Nat × Nat}

theorem Expr.component_plain (e : Expr) : componentIsWs e.component = false ∧ isComma e.component = false := by
  cases e
  case app             => exact ⟨rfl, rfl⟩
  case literal q c h =>
    rw [Expr.component]
    cases c <;> first | exact ⟨rfl, rfl⟩ | cases h

theorem ne_zero_of_apply {unit : MathUnit} {xs : Fin n → ℚ} (h : fn.apply unit (List.ofFn xs) = some q) :
    n ≠ 0 := by
  rintro rfl
  rw [List.ofFn_zero, apply_nil] at h
  cases h

theorem Denotes.unique (hq : Denotes e q) (hr : Denotes e r) : q = r := by
  induction hq generalizing r
  case literal => cases hr; rfl
  case app hargs happly hi =>
    cases hr
    case app hargs' happly' =>
      have heq i := hi i (hargs' i)
      have hunit := congrArg Quantity.unit (heq ⟨0, Nat.pos_of_ne_zero (ne_zero_of_apply happly)⟩)
      have hxs := congrArg List.ofFn (funext fun i => congrArg Quantity.size (heq i))
      dsimp only at hunit hxs
      rw [hunit, hxs, happly'] at happly
      exact (Option.some.inj happly).symm

theorem Denotes.unique_args {unit unit' : MathUnit} {xs ys : Fin n → ℚ} (hn : n ≠ 0)
    (hxs : ∀ i, Denotes (args i) ⟨unit, xs i⟩) (hys : ∀ i, Denotes (args i) ⟨unit', ys i⟩) :
    unit = unit' ∧ xs = ys := by
  have heq i := (hxs i).unique (hys i)
  exact ⟨congrArg Quantity.unit (heq ⟨0, Nat.pos_of_ne_zero hn⟩), funext fun i => congrArg Quantity.size (heq i)⟩

-- The value of an expression in a sum above so many levels.
def Expr.eval (libm : LibM) (k : Nat) (e : Expr) : Option MathValue :=
  operand libm (mathEvalSum libm k) e.component

theorem mathEvalComponent_eq (e : Expr) : mathEvalComponent libm e.component = e.eval libm maxDepth := by
  cases e
  case app           => rfl
  case literal q c h =>
    rw [Expr.eval, Expr.component]
    cases c <;> first | rfl | cases h

theorem eval_literal {c : Component} {h : mathEvalDimension c = some q.value} :
    (Expr.literal q c h).eval libm k = some q.value := by
  rw [← h, Expr.eval, Expr.component]
  cases c <;> first | rfl | cases h

theorem eval_app (hn : n ≠ 0) : (Expr.app fn name hname n args blanks).eval libm k =
    evalFunction libm name (List.ofFn fun i => mathEvalSum libm k (spaced (blanks i) (args i).component)) := by
  have hsplit : mathSplitArgs (commaSeparated (List.ofFn fun i => spaced (blanks i) (args i).component)) =
      List.ofFn fun i => spaced (blanks i) (args i).component := by
    refine mathSplitArgs_commaSeparated (by simpa using hn) fun arg harg a ha => ?_
    obtain ⟨i, rfl⟩ := List.mem_ofFn.mp harg
    simp only [spaced, List.mem_append, List.mem_cons, List.mem_replicate] at ha
    obtain ⟨-, rfl⟩ | rfl | ⟨-, rfl⟩ := ha
    · rfl
    · exact (args i).component_plain.right
    · rfl
  rw [Expr.eval, Expr.component, operand, if_pos (mathFunctionName_name hname), mathEvalFunction, hsplit]
  rw [List.map_ofFn]
  rfl

theorem eval_app_succ (hn : n ≠ 0) : (Expr.app fn name hname n args blanks).eval libm (k + 1) =
    evalFunction libm name (List.ofFn fun i => (args i).eval libm k) := by
  rw [eval_app hn]
  congr 2
  funext i
  exact mathEvalSum_spaced (args i).component_plain.left

-- The arguments of a function that has a value have values.
theorem exists_eval_arg {unit : MathUnit} {xs : Fin n → ℚ} (hq : fn.apply unit (List.ofFn xs) = some q)
    (hv : (Expr.app fn name hname n args blanks).eval libm k = some v) :
    ∃ j, k = j + 1 ∧ ∀ i, ∃ w, (args i).eval libm j = some w := by
  have hn := ne_zero_of_apply hq
  cases k
  case zero =>
    rw [eval_app hn] at hv
    obtain ⟨w, hw⟩ := exists_of_evalFunction hname hq (by simp) hv none
      (List.mem_ofFn.mpr ⟨⟨0, Nat.pos_of_ne_zero hn⟩, rfl⟩)
    cases hw
  case succ k =>
    rw [eval_app_succ hn] at hv
    exact ⟨k, rfl, fun i => exists_of_evalFunction hname hq (by simp) hv _ (List.mem_ofFn.mpr ⟨i, rfl⟩)⟩

-- An expression that has a value below some level has it below any higher one.
theorem Denotes.eval_mono (h : Denotes e q) (hv : e.eval libm k = some v) (hj : k ≤ j) :
    e.eval libm j = some v := by
  induction h generalizing k j v
  case literal                   => rw [eval_literal] at hv ⊢; exact hv
  case app hargs happly hi =>
    obtain ⟨k, rfl, hw⟩ := exists_eval_arg happly hv
    obtain ⟨j, rfl⟩ : ∃ i, j = i + 1 := ⟨j - 1, by omega⟩
    have hn := ne_zero_of_apply happly
    rw [eval_app_succ hn] at hv ⊢
    rw [← hv]
    congr 2
    funext i
    obtain ⟨w, hw⟩ := hw i
    rw [hw, hi i hw (Nat.le_of_succ_le_succ hj)]

-- Where the arguments are computed, what is left is the function.
theorem eval_app_eq_iff {unit : MathUnit} {xs : Fin n → ℚ} (hq : fn.apply unit (List.ofFn xs) = some q)
    (hargs : ∀ i, (args i).eval libm k = some (Quantity.value ⟨unit, xs i⟩)) :
    (Expr.app fn name hname n args blanks).eval libm (k + 1) = some q.value ↔ fn.Exact unit (List.ofFn xs) := by
  have hvalues : (List.ofFn fun i => (args i).eval libm k) =
      (List.ofFn xs).map fun x => some (Quantity.value ⟨unit, x⟩) := by
    rw [List.map_ofFn, funext hargs]
    rfl
  rw [eval_app_succ (ne_zero_of_apply hq), hvalues, evalFunction_eq_iff hname hq]

-- What is regular is computed.
theorem Denotes.eval_eq (h : Denotes e q) (hr : e.Regular k) : e.eval libm k = some q.value := by
  induction h generalizing k
  case literal => exact eval_literal
  case app hargs happly hi =>
    cases k
    case zero   => exact hr.elim
    case succ k => exact (eval_app_eq_iff happly fun i => hi i (hr.left i)).mpr (hr.right _ _ hargs)

-- What is computed below the top level is what is computed on it.
theorem Denotes.eval_computed (h : Denotes e q) (hc : Computed libm e) (hv : ∃ v, e.eval libm k = some v)
    (hk : k ≤ maxDepth) : e.eval libm k = some q.value := by
  obtain ⟨v, hv⟩ := hv
  rw [hv, ← h.eval_mono hv hk, ← mathEvalComponent_eq, hc q h]

-- What is computed with all its parts is regular.
theorem Denotes.regular (h : Denotes e q) (hc : ∀ s, Part s e → Computed libm s) (hk : k ≤ maxDepth)
    (hv : e.eval libm k = some v) : e.Regular k := by
  induction h generalizing k v
  case literal => trivial
  case app hargs happly hi =>
    obtain ⟨k, rfl, hw⟩ := exists_eval_arg happly hv
    refine ⟨fun i => ?_, fun unit xs hxs => ?_⟩
    · obtain ⟨w, hw⟩ := hw i
      exact hi i (fun s hs => hc s (.arg i hs)) (Nat.le_of_succ_le hk) hw
    · obtain ⟨rfl, rfl⟩ := Denotes.unique_args (ne_zero_of_apply happly) hargs hxs
      have hvalue i := (hargs i).eval_computed (hc _ (.arg i .refl)) (hw i) (Nat.le_of_succ_le hk)
      exact (eval_app_eq_iff happly hvalue).mp (Denotes.eval_computed (.app hargs happly) (hc _ .refl) ⟨_, hv⟩ hk)

theorem Expr.Regular.mono (h : e.Regular k) (hj : k ≤ j) : e.Regular j := by
  induction e generalizing k j
  case literal => trivial
  case app hi  =>
    cases k
    case zero   => exact h.elim
    case succ k =>
      obtain ⟨j, rfl⟩ : ∃ i, j = i + 1 := ⟨j - 1, by omega⟩
      exact ⟨fun i => hi i (h.left i) (Nat.le_of_succ_le_succ hj), h.right⟩

theorem Part.regular (h : Part s e) (hr : e.Regular k) : s.Regular k := by
  induction h generalizing k
  case refl     => exact hr
  case arg i _ hi =>
    cases k
    case zero   => exact hr.elim
    case succ k => exact hi (Expr.Regular.mono (hr.left i) (Nat.le_succ k))

theorem forall_computed_iff (h : Denotes e q) : (∀ s, Part s e → Computed libm s) ↔ e.Regular maxDepth := by
  constructor
  case mp =>
    intro hc
    have he := hc e .refl q h
    rw [mathEvalComponent_eq] at he
    exact h.regular hc (Nat.le_refl _) he
  case mpr =>
    intro hr s hs r hr'
    rw [mathEvalComponent_eq, hr'.eval_eq (hs.regular hr)]

end Expressions

section Sums

variable {libm : LibM} {unit : MathUnit} {x : ℚ} {terms : List (ℚ × Quantity)} {k n : Nat} {out : MathValue}
variable {rest : List Summand} {first : Expr} {blank : Nat × Nat} {name : CString} {q : Expr → Quantity}

def addTerm (out : MathValue) (t : ℚ × Quantity) : Option MathValue :=
  mathAdd out t.snd.value t.fst

-- A dimension takes no number but zero.
theorem isSome_add_dimension (hne : unit ≠ .number) (h : ∀ t ∈ terms, t.snd.unit = .number ∨ t.snd.unit = unit) :
    (terms.foldlM addTerm (Quantity.value ⟨unit, x⟩)).isSome ↔
      ∀ t ∈ terms, t.snd.unit = .number → t.snd.size = 0 := by
  induction terms generalizing x
  case nil           => simp
  case cons t terms hi =>
    obtain ⟨ht, hterms⟩ := List.forall_mem_cons.mp h
    obtain ⟨sign, ⟨u, y⟩⟩ := t
    rw [List.foldlM_cons, List.forall_mem_cons, addTerm]
    cases ht
    case inl hu =>
      dsimp only at hu
      subst hu
      rw [mathAdd_number_right hne]
      split
      case isTrue hy  => simp [hy, hi hterms]
      case isFalse hy => simp [hy]
    case inr hu =>
      dsimp only at hu
      subst hu
      rw [mathAdd_value]
      simp [hi hterms, hne]

-- Numbers take a dimension if they cancel out.
theorem isSome_add_number (hne : unit ≠ .number) (h : ∀ t ∈ terms, t.snd.unit = .number ∨ t.snd.unit = unit)
    (hd : ∃ t ∈ terms, t.snd.unit = unit) :
    (terms.foldlM addTerm (Quantity.value ⟨.number, x⟩)).isSome ↔
      x + ((terms.takeWhile (·.snd.unit = .number)).map fun t => t.fst * t.snd.size).sum = 0 ∧
        ∀ t ∈ terms.dropWhile (·.snd.unit = .number), t.snd.unit = .number → t.snd.size = 0 := by
  induction terms generalizing x
  case nil           => simp at hd
  case cons t terms hi =>
    obtain ⟨ht, hterms⟩ := List.forall_mem_cons.mp h
    obtain ⟨sign, ⟨u, y⟩⟩ := t
    rw [List.foldlM_cons, addTerm]
    cases ht
    case inl hu =>
      dsimp only at hu
      subst hu
      have hd : ∃ t ∈ terms, t.snd.unit = unit := by simpa [hne.symm] using hd
      rw [mathAdd_value]
      simp only [Option.bind_eq_bind, Option.bind_some, hi hterms hd, List.takeWhile_cons, List.dropWhile_cons,
        decide_true, if_true, List.map_cons, List.sum_cons, add_assoc]
    case inr hu =>
      dsimp only at hu
      subst hu
      rw [mathAdd_number_left hne]
      simp only [List.takeWhile_cons, List.dropWhile_cons, hne, decide_false, Bool.false_eq_true, if_false,
        List.map_nil, List.sum_nil, add_zero]
      split
      case isTrue hx  => simp [hx, isSome_add_dimension hne hterms, hne]
      case isFalse hx => simp [hx]

theorem isSome_add_iff {q : Quantity} (hm : Mixes unit (q :: terms.map (·.snd))) :
    (terms.foldlM addTerm q.value).isSome ↔ Negligible ((1, q) :: terms) := by
  obtain ⟨u, x⟩ := q
  have hterms : ∀ t ∈ terms, t.snd.unit = .number ∨ t.snd.unit = unit := fun t ht =>
    hm.units t.snd (List.mem_cons_of_mem _ (List.mem_map.mpr ⟨t, ht, rfl⟩))
  cases hm.units _ List.mem_cons_self
  case inl hu =>
    dsimp only at hu
    subst hu
    have hd : ∃ t ∈ terms, t.snd.unit = unit := by
      obtain ⟨r, hr, he⟩ := hm.dimension
      cases List.mem_cons.mp hr
      case inl hr =>
        subst hr
        exact absurd he.symm hm.ne
      case inr hr =>
        obtain ⟨t, ht, rfl⟩ := List.mem_map.mp hr
        exact ⟨t, ht, he⟩
    rw [isSome_add_number hm.ne hterms hd]
    simp [Negligible]
  case inr hu =>
    dsimp only at hu
    subst hu
    rw [isSome_add_dimension hm.ne hterms]
    simp [Negligible, hm.ne]

def Summand.term (q : Expr → Quantity) (s : Summand) : ℚ × Quantity :=
  (s.factor, q s.expr)

-- What follows a term is nothing, or a sign.
theorem sign_of_skipWs (b : Nat) (op : Char) (items : List Component)
    (h : skipWs (rest.flatMap Summand.text ++ List.replicate b .whitespace) = .delim op :: items) :
    op = '+' ∨ op = '-' := by
  cases rest
  case nil         => rw [List.flatMap_nil, List.nil_append, skipWs_replicate] at h; cases h
  case cons s rest =>
    rw [List.flatMap_cons, Summand.text, List.append_assoc, List.append_assoc, List.append_assoc] at h
    rw [skipWs_blanks] at h
    exact Component.delim.inj (List.cons.inj h).left ▸ s.isOp

theorem sumLoop_terms (h : ∀ s ∈ rest, s.expr.eval libm k = some (q s.expr).value)
    (hn : (rest.flatMap Summand.text).length ≤ n) (b : Nat) :
    sumLoop libm (mathEvalSum libm k) n out (rest.flatMap Summand.text ++ List.replicate b .whitespace) =
      (rest.map (Summand.term q)).foldlM addTerm out := by
  induction rest generalizing n out
  case nil            => exact sumLoop_end (skipWs_replicate b)
  case cons s rest hi =>
    obtain ⟨hs, hrest⟩ := List.forall_mem_cons.mp h
    generalize htail : rest.flatMap Summand.text ++ List.replicate b .whitespace = tail at hi
    have hitems : (s :: rest).flatMap Summand.text ++ List.replicate b .whitespace =
        List.replicate (s.before + 1) .whitespace ++
          .delim s.op :: (List.replicate (s.after + 1) .whitespace ++ s.expr.component :: tail) := by
      simp [Summand.text, ← htail]
    have hlen : (rest.flatMap Summand.text).length + 1 ≤ n := by
      rw [List.flatMap_cons, List.length_append, Summand.text] at hn
      simp only [List.length_append, List.length_cons, List.length_replicate] at hn
      omega
    obtain ⟨n, rfl⟩ : ∃ m, n = m + 1 := ⟨n - 1, by omega⟩
    have hop : (s.op == '+' || s.op == '-') = true := by simpa using s.isOp
    have hs : operand libm (mathEvalSum libm k) s.expr.component = some (q s.expr).value := hs
    rw [hitems, sumLoop, skipWs_blanks, skipWs_cons rfl]
    dsimp only
    rw [if_pos (by rw [hop]; rfl)]
    rw [mathEvalProduct_eq s.expr.component_plain.left (by rw [← htail]; exact sign_of_skipWs b), hs]
    rw [Option.map_some, Option.bind_some, List.map_cons, List.foldlM_cons]
    exact congrArg _ (funext fun out => hi hrest (Nat.le_of_succ_le_succ hlen))

theorem Summand.isComma_text {s : Summand} : ∀ c ∈ s.text, isComma c = false := by
  intro c hc
  simp only [text, List.mem_append, List.mem_cons, List.mem_replicate, List.not_mem_nil, or_false] at hc
  obtain (⟨-, rfl⟩ | rfl | ⟨-, rfl⟩) | rfl := hc
  · rfl
  · rfl
  · rfl
  · exact s.expr.component_plain.right

-- What a sum of terms that are computed comes to.
theorem mathEvalComponent_calcOf (hname : nameIs name "calc")
    (h : ∀ e ∈ first :: rest.map Summand.expr, e.eval libm (maxDepth - 1) = some (q e).value) :
    mathEvalComponent libm (calcOf name blank first rest) =
      (rest.map (Summand.term q)).foldlM addTerm (q first).value := by
  obtain ⟨hfirst, hrest⟩ := List.forall_mem_cons.mp h
  have hrest s (hs : s ∈ rest) : s.expr.eval libm 31 = some (q s.expr).value :=
    hrest s.expr (List.mem_map.mpr ⟨s, hs, rfl⟩)
  have hfirst : operand libm (mathEvalSum libm 31) first.component = some (q first).value := hfirst
  have hfn : mathFunctionName name := by
    simp only [mathFunctionName, List.any_cons, nameIs_eq hname]
    rfl
  generalize hitems : List.replicate blank.fst .whitespace ++ first.component :: rest.flatMap Summand.text ++
    List.replicate blank.snd .whitespace = items
  have hcomma : ∀ c ∈ items, isComma c = false := by
    intro c hc
    simp only [← hitems, List.mem_append, List.mem_cons, List.mem_replicate, List.mem_flatMap] at hc
    obtain (⟨-, rfl⟩ | rfl | ⟨s, -, hs⟩) | ⟨-, rfl⟩ := hc
    · rfl
    · exact first.component_plain.right
    · exact s.isComma_text c hs
    · rfl
  have hsplit : mathSplitArgs items = [items] := by
    have := mathSplitArgs_append hcomma []
    rw [List.append_nil] at this
    rw [this]
    simp [mathSplitArgs]
  have hcalc : evalFunction libm name [mathEvalSum libm maxDepth items] = mathEvalSum libm maxDepth items := by
    rw [evalFunction, hname]
    rfl
  rw [calcOf, hitems, mathEvalComponent, if_pos hfn, mathEvalFunction, hsplit, List.map_singleton, hcalc, ← hitems]
  rw [maxDepth, mathEvalSum, List.append_assoc, List.cons_append]
  rw [mathEvalProduct_eq first.component_plain.left (sign_of_skipWs blank.snd), hfirst]
  rw [Option.map_some, Option.bind_some]
  exact sumLoop_terms hrest (by simp) blank.snd

-- A sum of numbers and dimensions is rejected unless the numbers add nothing.
theorem calcOf_eq_none_iff (hname : nameIs name "calc")
    (h : ∀ e ∈ first :: rest.map Summand.expr, Denotes e (q e) ∧ e.Regular (maxDepth - 1))
    (hm : Mixes unit ((first :: rest.map Summand.expr).map q)) :
    mathEvalComponent libm (calcOf name blank first rest) = none ↔
      ¬Negligible ((1, q first) :: rest.map (Summand.term q)) := by
  have hm : Mixes unit (q first :: (rest.map (Summand.term q)).map (·.snd)) := by
    simpa [Summand.term, Function.comp_def] using hm
  rw [mathEvalComponent_calcOf hname fun e he => (h e he).left.eval_eq (h e he).right]
  rw [← isSome_add_iff hm, Option.not_isSome_iff_eq_none]

end Sums

def pxLiteral (n : ℚ) : Expr :=
  .literal ⟨.length .px, n⟩ (.dimension n "px".toList) rfl

def literalQuantity : Expr → Quantity
  | .literal q _ _   => q
  | .app _ _ _ _ _ _ => ⟨.number, 0⟩

-- `max(2px, 1px)`
def maxOfPx : Expr :=
  .app .max "max".toList rfl 2 (fun i => pxLiteral (if i.val = 0 then 2 else 1)) fun i => (i.val, 0)

theorem apply_maxOfPx : MathFn.max.apply (.length .px) (List.ofFn fun i : Fin 2 => if i.val = 0 then 2 else 1) =
    some ⟨.length .px, 2⟩ := by
  simp [MathFn.apply]

-- A library none of whose functions is called.
def idleLib : LibM :=
  ⟨id, id, id, id, id, id, fun x _ => x, id, id, id, fun x _ => x⟩

end Nordstjernen.Css.PropMath
