import Nordstjernen.Css.Container

open Nordstjernen.Glib Nordstjernen.Css.Syntax

namespace Nordstjernen.Css.Container

section Items

variable {p : Place} {a b c : CString} {its its' : List Item}

-- Where the loop is at the end of a text.
def Place.after : Place → CString → Place
  | p,          []      => p
  | .between,   c :: cs =>
    if isWs c then after .between cs
    else if c = '(' then after (.group 1 []) cs
    else after (.word [c]) cs
  | .word w,    c :: cs =>
    if isWs c then after .between cs
    else if c = '(' then after (.group 1 []) cs
    else after (.word (w ++ [c])) cs
  | .group d g, c :: cs =>
    if c = '(' then after (.group (d + 1) (g ++ [c])) cs
    else if c = ')' then
      if d = 1 then after .between cs else after (.group (d - 1) (g ++ [c])) cs
    else after (.group d (g ++ [c])) cs

def Place.isGroup : Place → Bool
  | .group .. => true
  | _         => false

-- Whether a condition ends in a group that has not been closed.
def leavesOpen (q : CString) : Bool :=
  (Place.between.after q).isGroup

theorem itemsFrom_append (h : (p.after a).isGroup = false) :
    itemsFrom p (a ++ ' ' :: b) = itemsFrom p a ++ itemsFrom .between b := by
  induction a generalizing p
  case nil =>
    cases p
    case between   => simp [itemsFrom, isWs]
    case word w    => simp [itemsFrom, isWs]
    case group d g => cases h
  case cons c a hi =>
    cases p
    all_goals
      simp only [Place.after, itemsFrom, List.cons_append] at h ⊢
      grind

theorem items_join (h : leavesOpen a = false) :
    items (a ++ " and ".toList ++ b) = items a ++ .word "and".toList :: items b := by
  have hb : itemsFrom .between ("and ".toList ++ b) = .word "and".toList :: items b := by
    simp [items, itemsFrom, isWs]
  rw [← hb, List.append_assoc]
  exact itemsFrom_append h

end Items

section Verdict

variable {value : CString → Bool} {v : Verdict} {its its' : List Item} {neg neg' : Bool} {w : CString}

def isOr : Item → Bool
  | .word w => strcaseEq w "or".toList
  | .group _ => false

def hasOr (its : List Item) : Bool :=
  its.any isOr

-- Whether a `not` is still to be applied.
def notAfter : Bool → List Item → Bool
  | neg, []              => neg
  | neg, .word w :: its  => notAfter (if strcaseEq w "not".toList then !neg else neg) its
  | _,   .group _ :: its => notAfter false its

-- The groups, each with whether it is negated.
def signed : Bool → List Item → List (Bool × CString)
  | _,   []              => []
  | neg, .word w :: its  => signed (if strcaseEq w "not".toList then !neg else neg) its
  | neg, .group g :: its => (neg, g) :: signed false its

def holds (value : CString → Bool) (g : Bool × CString) : Bool :=
  value g.2 != g.1

-- What some groups are worth together.
def verdict (value : CString → Bool) (gs : List (Bool × CString)) (or : Bool) : Bool :=
  if gs = [] then true else if or then gs.any (holds value) else gs.all (holds value)

-- The result before there is a group.
def Verdict.Ok (v : Verdict) : Prop :=
  v.any = false → v.accAnd = true ∧ v.accOr = false

theorem not_strcaseEq_not (h : strcaseEq w "or".toList) : strcaseEq w "not".toList = false := by
  rw [strcaseEq, beq_iff_eq] at h
  rw [strcaseEq, h]
  rfl

theorem foldl_step (h : v.Ok) : its.foldl (Verdict.step value) v =
    { haveOr     := v.haveOr || hasOr its
      any        := v.any || signed v.pendingNot its ≠ []
      pendingNot := notAfter v.pendingNot its
      accAnd     := v.accAnd && (signed v.pendingNot its).all (holds value)
      accOr      := v.accOr || (signed v.pendingNot its).any (holds value) } := by
  induction its generalizing v
  case nil            => simp [hasOr, signed, notAfter]
  case cons it its hi =>
    cases it
    case word w =>
      rw [List.foldl_cons]
      by_cases hor : strcaseEq w "or".toList
      case pos =>
        have hnot := not_strcaseEq_not hor
        have hs : v.step value (.word w) = { v with haveOr := true } := by simp only [Verdict.step, hor, if_true]
        rw [hs, hi (by exact h)]
        simp only [hasOr, List.any_cons, isOr, hor, signed, notAfter, hnot, Bool.true_or, Bool.or_true,
          Bool.false_eq_true, if_false]
      case neg =>
        by_cases hnot : strcaseEq w "not".toList
        case pos =>
          have hs : v.step value (.word w) = { v with pendingNot := !v.pendingNot } := by
            simp only [Verdict.step, hor, hnot, if_true, if_false, Bool.false_eq_true]
          rw [hs, hi (by exact h)]
          simp only [hasOr, List.any_cons, isOr, hor, signed, notAfter, hnot, Bool.false_or, if_true]
        case neg =>
          have hs : v.step value (.word w) = v := by
            simp only [Verdict.step, hor, hnot, if_false, Bool.false_eq_true]
          rw [hs, hi (by exact h)]
          simp only [hasOr, List.any_cons, isOr, hor, signed, notAfter, hnot, Bool.false_or, Bool.false_eq_true,
            if_false]
    case group g =>
      have hs : v.step value (.group g) =
          { v with
            pendingNot := false
            any        := true
            accAnd     := v.accAnd && holds value (v.pendingNot, g)
            accOr      := v.accOr || holds value (v.pendingNot, g) } := by
        cases ha : v.any
        case true  => simp [Verdict.step, ha, holds]
        case false => simp [Verdict.step, ha, holds, h ha]
      rw [List.foldl_cons, hs, hi (by rintro ⟨⟩)]
      simp [hasOr, isOr, signed, notAfter, Bool.and_assoc, Bool.or_assoc]

theorem evalItems_eq : evalItems value its = verdict value (signed false its) (hasOr its) := by
  rw [evalItems, foldl_step (by rintro -; exact ⟨rfl, rfl⟩), Verdict.result, verdict]
  by_cases hs : signed false its = [] <;> simp [hs]

end Verdict

section Join

variable {neg : Bool} {its its' : List Item} {c : CString} {cs ps : List CString} {p : CString}

def nameOf (c : CString) : Option CString :=
  (splitName (items c)).1

def groupsOf (c : CString) : List (Bool × CString) :=
  signed false (items c)

-- Whether there is an `or` behind the name.
def orOf (c : CString) : Bool :=
  hasOr (splitName (items c)).2

-- Whether a condition ends in a `not` that is still to be applied.
def leavesNot (c : CString) : Bool :=
  notAfter false (items c)

def join : CString → List CString → CString
  | c, []      => c
  | c, d :: ds => c ++ " and ".toList ++ join d ds

theorem containerCondition_cons :
    containerCondition (p :: ps) = some (join (gStrstrip p) (ps.map gStrstrip)) := by
  induction ps generalizing p
  case nil            => rfl
  case cons q ps hi => rw [containerCondition, hi]; rfl

theorem signed_append : signed neg (its ++ its') = signed neg its ++ signed (notAfter neg its) its' := by
  induction its generalizing neg
  case nil            => rfl
  case cons it its hi => cases it <;> simp [signed, notAfter, hi]

-- What comes behind the name has the groups of the condition.
theorem signed_splitName : signed neg (splitName its).2 = signed neg its := by
  cases its
  case nil           => rfl
  case cons it its =>
    cases it
    case group g => rfl
    case word w  =>
      rw [splitName]
      split
      case isTrue    => rfl
      case isFalse h => rw [signed, if_neg h]

theorem signed_eq_nil (h : signed neg its = []) (neg' : Bool) : signed neg' its = [] := by
  induction its generalizing neg neg'
  case nil            => rfl
  case cons it its hi =>
    cases it
    case word w  => exact hi h _
    case group g => cases h

def rest (cs : List CString) : List Item :=
  cs.flatMap fun c => .word "and".toList :: items c

theorem items_join_cons (h : ∀ d ∈ (c :: cs).dropLast, leavesOpen d = false) :
    items (join c cs) = items c ++ rest cs := by
  induction cs generalizing c
  case nil            => simp [join, rest]
  case cons d cs hi =>
    have hc := h c (by simp)
    have hd := @hi d fun e he => h e (by
      rw [List.dropLast_cons_of_ne_nil (List.cons_ne_nil d cs)]
      exact List.mem_cons_of_mem c he)
    rw [join, items_join hc, hd]
    simp [rest]

theorem signed_rest_eq_nil (h : ∀ d ∈ cs, groupsOf d = []) : signed neg (rest cs) = [] := by
  induction cs generalizing neg
  case nil            => rfl
  case cons d cs hi =>
    have hd := signed_eq_nil (h d List.mem_cons_self)
    have hr {neg} := @hi neg fun e he => h e (List.mem_cons_of_mem d he)
    have hs : rest (d :: cs) = .word "and".toList :: (items d ++ rest cs) := by simp [rest]
    rw [hs, signed, signed_append, hd, hr, List.append_nil]

-- A `not` that is still to be applied finds no group in the conditions after it.
def NotsStay : List CString → Prop
  | []      => True
  | c :: cs => (leavesNot c = false ∨ ∀ d ∈ cs, groupsOf d = []) ∧ NotsStay cs

theorem signed_join (h : NotsStay (c :: cs)) :
    signed false (items c ++ rest cs) = (c :: cs).flatMap groupsOf := by
  induction cs generalizing c
  case nil            => simp [rest, groupsOf]
  case cons d cs hi =>
    obtain ⟨hc, hcs⟩ := h
    rw [signed_append, List.flatMap_cons]
    refine congrArg (groupsOf c ++ ·) ?_
    obtain hc | hc := hc
    case inl =>
      have hs : rest (d :: cs) = .word "and".toList :: (items d ++ rest cs) := by simp [rest]
      have hn : notAfter false (items c) = false := hc
      rw [hn, hs, signed, ← hi hcs]
      rfl
    case inr =>
      rw [signed_rest_eq_nil hc]
      exact (List.flatMap_eq_nil_iff.mpr hc).symm

theorem splitName_append (h : its ≠ []) :
    splitName (its ++ its') = ((splitName its).1, (splitName its).2 ++ its') := by
  cases its
  case nil           => exact absurd rfl h
  case cons it its =>
    cases it
    case group g => rfl
    case word w  =>
      rw [List.cons_append, splitName, splitName]
      split <;> rfl

end Join

section Nested

variable {σ : Type} {featureMatches : CString → σ → Bool} {stack : List (CqContainer σ)}
  {outer c : CString} {inner : List CString}

theorem containerCondMatches_eq : containerCondMatches featureMatches stack c =
    (cqSelectContainer stack (nameOf c)).any fun d =>
      verdict (groupValue featureMatches d) (groupsOf c) (orOf c) := by
  rw [containerCondMatches, nameOf, groupsOf, orOf]
  cases hs : cqSelectContainer stack (splitName (items c)).1
  case none   => simp [hs]
  case some d => simp [hs, evalItems_eq, signed_splitName]

-- Conditions that come to the same together as each by itself.
structure Separate (stack : List (CqContainer σ)) (outer : CString) (inner : List CString) : Prop where
  -- The outermost condition is not blank: the name of the joined condition is its own.
  named     : items outer ≠ []
  -- No group is open where the next condition begins.
  closed    : ∀ c ∈ (outer :: inner).dropLast, leavesOpen c = false
  -- Every condition with groups selects the container of the outermost one.
  container : ∀ d ∈ cqSelectContainer stack (nameOf outer), ∀ c ∈ inner,
    cqSelectContainer stack (nameOf c) = some d ∨
      groupsOf c = [] ∧ (cqSelectContainer stack (nameOf c)).isSome
  nots      : NotsStay (outer :: inner)
  -- There is no `or`, which is one for all of them, or only one of them has groups.
  ors       : orOf outer = false ∧ (∀ c ∈ inner, hasOr (items c) = false) ∨
    ∃ i : Nat, (∀ k c, (outer :: inner)[k]? = some c → k ≠ i → groupsOf c = []) ∧
      ∀ c, (outer :: inner)[i]? = some c → orOf c ∨ (groupsOf c).length ≤ 1

-- Conditions of one rule that do not get in each other's way.
def Apart (stack : List (CqContainer σ)) : List CString → Prop
  | outer :: c :: inner => Separate stack outer (c :: inner)
  | _                   => True

theorem verdict_false {value : CString → Bool} {gs : List (Bool × CString)} :
    verdict value gs false = gs.all (holds value) := by
  cases gs <;> rfl

theorem verdict_of_length_le {value : CString → Bool} {gs : List (Bool × CString)} (h : gs.length ≤ 1) (or or' : Bool) :
    verdict value gs or = verdict value gs or' := by
  match gs, h with
  | [],  _ => rfl
  | [g], _ => cases or <;> cases or' <;> simp [verdict]

theorem hasOr_append {its its' : List Item} : hasOr (its ++ its') = (hasOr its || hasOr its') :=
  List.any_append

-- A name may be the word `or`.
theorem hasOr_of_splitName {its : List Item} (h : hasOr (splitName its).2) : hasOr its := by
  cases its
  case nil           => exact h
  case cons it its =>
    cases it
    case group g => exact h
    case word w  =>
      rw [splitName] at h
      split at h
      case isTrue  => exact h
      case isFalse => exact List.any_eq_true.mpr (by grind [hasOr])

theorem hasOr_rest {cs : List CString} : hasOr (rest cs) = cs.any fun c => hasOr (items c) := by
  induction cs
  case nil            => rfl
  case cons c cs hi =>
    have hs : rest (c :: cs) = .word "and".toList :: (items c ++ rest cs) := by simp [rest]
    have ha : isOr (.word "and".toList) = false := by decide
    rw [hs, hasOr, List.any_cons, ha, Bool.false_or, ← hasOr, hasOr_append, hi, List.any_cons]

-- Whether there is an `or` behind the name of the joined condition.
def orOfJoin (outer : CString) (inner : List CString) : Bool :=
  orOf outer || inner.any fun c => hasOr (items c)

theorem orOfJoin_of_orOf (hc : c ∈ outer :: inner) (h : orOf c) : orOfJoin outer inner := by
  rw [orOfJoin, Bool.or_eq_true, List.any_eq_true]
  obtain rfl | hc := List.mem_cons.mp hc
  case inl => exact .inl h
  case inr => exact .inr ⟨c, hc, hasOr_of_splitName h⟩

theorem orOf_eq_false (h : orOf outer = false ∧ ∀ c ∈ inner, hasOr (items c) = false) (hc : c ∈ outer :: inner) :
    orOf c = false := by
  obtain rfl | hc := List.mem_cons.mp hc
  case inl => exact h.1
  case inr =>
    by_contra ho
    have hi := hasOr_of_splitName (Bool.of_not_eq_false ho)
    rw [h.2 c hc] at hi
    cases hi

section Single

variable {α β : Type} {as : List α} {i : Nat}

theorem all_eq_all {f g : α → Bool} (h : ∀ a ∈ as, f a = g a) : as.all f = as.all g := by
  rw [Bool.eq_iff_iff, List.all_eq_true, List.all_eq_true]
  exact forall₂_congr fun a ha => by rw [h a ha]

theorem all_eq_all_getElem? {f : α → Bool} (h : ∀ k a, as[k]? = some a → k ≠ i → f a) :
    as.all f = as[i]?.all f := by
  induction as generalizing i
  case nil            => rfl
  case cons a as hi =>
    cases i
    case zero =>
      have ht : as.all f := List.all_eq_true.mpr fun b hb => by
        obtain ⟨k, hk⟩ := List.mem_iff_getElem?.mp hb
        exact h (k + 1) b hk k.succ_ne_zero
      simp [ht]
    case succ i =>
      have ha := h 0 a rfl (Nat.succ_ne_zero i).symm
      have ht := @hi i fun k b hk hne => h (k + 1) b hk (by omega)
      simp [ha, ht]

theorem flatMap_eq_getElem? {f : α → List β} (h : ∀ k a, as[k]? = some a → k ≠ i → f a = []) :
    as.flatMap f = (as[i]?.map f).getD [] := by
  induction as generalizing i
  case nil            => rfl
  case cons a as hi =>
    cases i
    case zero =>
      have ht : as.flatMap f = [] := List.flatMap_eq_nil_iff.mpr fun b hb => by
        obtain ⟨k, hk⟩ := List.mem_iff_getElem?.mp hb
        exact h (k + 1) b hk k.succ_ne_zero
      simp [ht]
    case succ i =>
      have ha := h 0 a rfl (Nat.succ_ne_zero i).symm
      have ht := @hi i fun k b hk hne => h (k + 1) b hk (by omega)
      simp [ha, ht]

end Single

-- Against one container, the groups of all conditions come to the same as the groups of each.
theorem verdict_flatMap (h : Separate stack outer inner) (value : CString → Bool) :
    verdict value ((outer :: inner).flatMap groupsOf) (orOfJoin outer inner) =
      (outer :: inner).all fun c => verdict value (groupsOf c) (orOf c) := by
  obtain ho | ⟨i, hne, hi⟩ := h.ors
  case inl =>
    have hj : orOfJoin outer inner = false := by
      rw [orOfJoin, ho.1, Bool.false_or, List.any_eq_false]
      exact fun c hc => by simp [ho.2 c hc]
    rw [hj, verdict_false, List.all_flatMap]
    refine all_eq_all fun c hc => ?_
    rw [orOf_eq_false ho hc, verdict_false]
  case inr =>
    have hv : ∀ k c, (outer :: inner)[k]? = some c → k ≠ i → verdict value (groupsOf c) (orOf c) := by
      intro k c hc hk
      rw [hne k c hc hk]
      rfl
    rw [all_eq_all_getElem? hv, flatMap_eq_getElem? hne]
    cases hc : (outer :: inner)[i]?
    case none   => rfl
    case some c =>
      obtain ho | hl := hi c hc
      case inl => simp only [Option.map_some, Option.getD_some, Option.all_some, ho,
        orOfJoin_of_orOf (List.mem_of_getElem? hc) ho]
      case inr => exact verdict_of_length_le hl _ _

theorem splitName_join (h : Separate stack outer inner) :
    splitName (items (join outer inner)) = (nameOf outer, (splitName (items outer)).2 ++ rest inner) := by
  rw [items_join_cons h.closed, splitName_append h.named, nameOf]

theorem containerCondMatches_join (h : Separate stack outer inner) :
    containerCondMatches featureMatches stack (join outer inner) =
      (cqSelectContainer stack (nameOf outer)).any fun d =>
        verdict (groupValue featureMatches d) ((outer :: inner).flatMap groupsOf) (orOfJoin outer inner) := by
  have hs := splitName_join h
  have hn : nameOf (join outer inner) = nameOf outer := by rw [nameOf, hs]
  have hg : groupsOf (join outer inner) = (outer :: inner).flatMap groupsOf := by
    rw [groupsOf, items_join_cons h.closed, signed_join h.nots]
  have ho : orOf (join outer inner) = orOfJoin outer inner := by
    rw [orOf, hs, hasOr_append, hasOr_rest, orOfJoin, orOf]
  rw [containerCondMatches_eq, hn, hg, ho]

-- By itself, every condition is evaluated against the container of the outermost one.
theorem containerCondMatches_of_mem {d : CqContainer σ} (h : Separate stack outer inner)
    (hd : cqSelectContainer stack (nameOf outer) = some d) (hc : c ∈ outer :: inner) :
    containerCondMatches featureMatches stack c =
      verdict (groupValue featureMatches d) (groupsOf c) (orOf c) := by
  rw [containerCondMatches_eq]
  obtain rfl | hc := List.mem_cons.mp hc
  case inl => rw [hd]; rfl
  case inr =>
    obtain hs | ⟨hg, hs⟩ := h.container d hd c hc
    case inl => rw [hs]; rfl
    case inr =>
      obtain ⟨e, he⟩ := Option.isSome_iff_exists.mp hs
      rw [he, hg]
      rfl

theorem containerCondMatches_join_eq (h : Separate stack outer inner) :
    containerCondMatches featureMatches stack (join outer inner) =
      (outer :: inner).all (containerCondMatches featureMatches stack) := by
  rw [containerCondMatches_join h]
  cases hd : cqSelectContainer stack (nameOf outer)
  case none   => simp [containerCondMatches_eq, hd]
  case some d =>
    rw [Option.any_some, verdict_flatMap h]
    exact all_eq_all fun c hc => (containerCondMatches_of_mem h hd hc).symm

end Nested

-- A `min-width` feature in pixels, and the width of a container.
def minWidth (feature : CString) (width : Nat) : Bool :=
  "min-width: ".toList.isPrefixOf feature &&
    ((feature.drop 11).takeWhile Char.isDigit).foldl (fun n c => 10 * n + (c.toNat - '0'.toNat)) 0 ≤ width

-- A container that is 500 pixels wide, with one of 200 pixels in it.
def card : List (CqContainer Nat) :=
  [⟨some "card".toList, 500⟩, ⟨none, 200⟩]

end Nordstjernen.Css.Container
