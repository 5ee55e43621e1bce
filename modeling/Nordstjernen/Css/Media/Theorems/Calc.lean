import Nordstjernen.Css.Media.Theorems.CalcParse

open Nordstjernen.Glib

namespace Nordstjernen.Css.Media

-- How the source types an expression of its own.
def nested : Kind → Kind :=
  fun _ => .dimension

section Outcome

variable {α β γ δ : Type} {deep deep' zero zero' : Prop}

open Classical in
-- An evaluation fails for three reasons: it is too deep, it divides by zero, or it has no kind.
noncomputable def outcome (deep zero : Prop) (kind : Option α) (f : α → β) : Option β :=
  if deep ∨ zero then none else kind.map f

variable (deep' zero') in
theorem outcome_bind {kind : Option α} {kind' : α → Option δ} {f : α → β} {g : β → Option γ} {h : δ → γ}
    {deepest zeros : Prop} (hg : ∀ a, g (f a) = outcome deep' zero' (kind' a) h) (hd : deepest ↔ deep ∨ deep')
    (hz : zeros ↔ zero ∨ zero') :
    (outcome deep zero kind f).bind g = outcome deepest zeros (kind.bind kind') h := by
  rw [propext hd, propext hz]
  by_cases hbad : deep ∨ zero
  case pos =>
    rw [outcome, if_pos hbad, outcome, if_pos (hbad.imp .inl .inl)]
    rfl
  case neg =>
    obtain ⟨hd, hz⟩ := not_or.mp hbad
    rw [outcome, if_neg hbad]
    cases kind
    case none =>
      rw [outcome, Option.map_none, Option.bind_none, Option.bind_none, Option.map_none, ite_self]
    case some a =>
      rw [Option.map_some, Option.bind_some, Option.bind_some, hg, eq_false hd, eq_false hz, false_or, false_or]

theorem map_outcome {kind : Option α} {f : α → β} {g : β → γ} {h : δ → γ} {e : α → δ}
    (he : ∀ a, g (f a) = h (e a)) :
    (outcome deep zero kind f).map g = outcome deep zero (kind.map e) h := by
  have he : g ∘ f = h ∘ e := funext he
  rw [outcome, outcome]
  split
  · rfl
  · rw [Option.map_map, Option.map_map, he]

end Outcome

section Evaluation

variable {D : Type} [Double D]

open Double

variable {k k' : Kind} {a b : D} {n : Nat}

def numeric (v : D) (k : Kind) : D × Bool :=
  (v, decide (k = .number))

theorem scaled_times : scaled .times (numeric a k) (numeric b k') =
    outcome False False (Scale.times.kind k k') (numeric (a * b)) := by
  cases k <;> cases k' <;> simp [scaled, numeric, Scale.kind, outcome]

theorem scaled_per : scaled .per (numeric a k) (numeric b k') =
    outcome False (beq b 0) (Scale.per.kind k k') (numeric (a / b)) := by
  cases k <;> cases k' <;> cases hb : beq b 0 <;> simp [scaled, numeric, Scale.kind, hb, outcome]

variable (view : Viewport D) (quantity : Quantity)

variable {view quantity} in
theorem eval_product {first : Operand} {factors : Factors}
    (hf : first.eval view quantity n = outcome (n < first.nesting) (first.dividesByZero view quantity)
      (first.kindWith view quantity nested) (numeric (first.value view quantity)))
    (hs : ∀ v k, factors.eval view quantity n (numeric v k) = outcome (n < factors.nesting)
      (factors.dividesByZero view quantity) (factors.kindWith view quantity nested k)
      (numeric (factors.value view quantity v))) :
    ((first.eval view quantity n).bind fun s => factors.eval view quantity n s) =
      outcome (n < first.nesting ∨ n < factors.nesting)
        (first.dividesByZero view quantity ∨ factors.dividesByZero view quantity)
        ((first.kindWith view quantity nested).bind fun k => factors.kindWith view quantity nested k)
        (numeric (factors.value view quantity (first.value view quantity))) := by
  rw [hf]
  exact outcome_bind _ _ (fun k => hs _ k) .rfl .rfl

omit [Double D] in
theorem compared_eq {s : D × Bool} {k k' : Kind} {rest : Option D} (hs : s = numeric a k') :
    (if s.snd ≠ decide (k = .number) then none else rest) = (sumKind k k').bind fun _ => rest := by
  subst hs
  cases k <;> cases k' <;> rfl

mutual

theorem Operand.eval_eq (o : Operand) {n : Nat} :
    o.eval view quantity n = outcome (n < o.nesting) (o.dividesByZero view quantity)
      (o.kindWith view quantity nested) (numeric (o.value view quantity)) := by
  cases o
  case literal l =>
    rw [Operand.eval, Operand.kindWith, Operand.value, outcome, if_neg]
    · rfl
    · simp [Operand.nesting, Operand.dividesByZero]
  case closed opener lead first factors terms trail =>
    rw [Operand.kindWith, Operand.value, Operand.dividesByZero, Operand.nesting]
    cases n
    case zero =>
      rw [Operand.eval, outcome, if_pos (.inl (Nat.succ_pos _))]
    case succ n =>
      rw [Operand.eval, eval_product first.eval_eq fun v k => factors.eval_eq, ← Option.bind_assoc]
      have hterms (k : Kind) :=
        terms.eval_eq (n := n) (v := factors.value view quantity (first.value view quantity))
        (k := k)
      refine Eq.trans (congrArg (Option.map _) (outcome_bind (f := numeric _) _ _ hterms ?_ ?_))
        (map_outcome (h := numeric _) (e := nested) fun _ => rfl)
      · omega
      · simp only [Bool.or_eq_true]

theorem Factors.eval_eq (fs : Factors) {n : Nat} {v : D} {k : Kind} :
    fs.eval view quantity n (numeric v k) = outcome (n < fs.nesting) (fs.dividesByZero view quantity)
      (fs.kindWith view quantity nested k) (numeric (fs.value view quantity v)) := by
  cases fs
  case nil => simp [Factors.eval, outcome, Factors.nesting, Factors.dividesByZero, Factors.kindWith, Factors.value]
  case cons before op lead operand rest =>
    rw [Factors.eval, operand.eval_eq, Factors.nesting, Factors.kindWith]
    cases op
    case times =>
      rw [Factors.dividesByZero, Factors.value]
      refine outcome_bind (n < rest.nesting) (rest.dividesByZero view quantity) (fun k' => ?_) (by omega)
        (by simp only [Bool.or_eq_true])
      rw [scaled_times]
      exact outcome_bind _ _ (fun k => rest.eval_eq) (by simp only [false_or]) (by simp only [false_or])
    case per =>
      rw [Factors.dividesByZero, Factors.value]
      refine outcome_bind (n < rest.nesting)
        (beq (operand.value view quantity) 0 ∨ rest.dividesByZero view quantity) (fun k' => ?_) (by omega)
        (by simp only [Bool.or_eq_true, or_assoc])
      rw [scaled_per]
      exact outcome_bind _ _ (fun k => rest.eval_eq) (by simp only [false_or]) .rfl

theorem Terms.eval_eq (ts : Terms) {n : Nat} {v : D} {k : Kind} :
    ts.eval view quantity n (decide (k = .number)) v = outcome (n < ts.nesting) (ts.dividesByZero view quantity)
      (ts.kindWith view quantity nested k) fun _ => ts.value view quantity v := by
  cases ts
  case nil => simp [Terms.eval, outcome, Terms.nesting, Terms.dividesByZero, Terms.kindWith, Terms.value]
  case cons before op lead operand factors rest =>
    rw [Terms.eval, eval_product operand.eval_eq fun v k => factors.eval_eq, Terms.nesting, Terms.dividesByZero,
      Terms.kindWith]
    have hvalue : (Terms.cons before op lead operand factors rest).value view quantity v =
        rest.value view quantity (shifted op v (factors.value view quantity (operand.value view quantity))) := by
      cases op <;> rfl
    rw [hvalue]
    refine outcome_bind (f := numeric _) (n < rest.nesting) (rest.dividesByZero view quantity) (fun k' => ?_)
      (by omega) (by simp only [Bool.or_eq_true])
    rw [compared_eq rfl]
    by_cases hk : k = k'
    case pos =>
      rw [sumKind, if_pos hk, Option.bind_some, Option.bind_some]
      exact rest.eval_eq
    case neg =>
      rw [sumKind, if_neg hk, Option.bind_none, Option.bind_none, outcome, Option.map_none, ite_self]

end

namespace CalcExpr

variable (after : CString) (e : CalcExpr)

theorem mqParseCalc_eq : mqParseCalc view quantity after e.text =
    outcome (mqMaxDepth < e.nesting) (e.dividesByZero view quantity)
      (e.operand.kindWith view quantity nested) fun _ => e.operand.value view quantity := by
  have hnesting : e.operand.nesting = e.nesting + 1 := rfl
  have hzero : e.operand.dividesByZero view quantity = e.dividesByZero view quantity := rfl
  rw [e.mqParseCalc_text, e.operand.eval_eq, outcome, outcome, hnesting, hzero]
  by_cases hbad : mqMaxDepth < e.nesting ∨ e.dividesByZero view quantity
  case pos => rw [if_pos hbad, if_pos (hbad.imp Nat.succ_lt_succ id), Option.map_none]
  case neg =>
    rw [if_neg hbad, if_neg fun h => hbad (h.imp Nat.lt_of_succ_lt_succ id), Option.map_map]
    rfl

-- A parenthesised number is a length to the source. What it computes is the result of standard arithmetic where
-- this, and the bound of the nesting, make no difference to whether there is one.
theorem mqParseCalc_eq_meaning_iff : mqParseCalc view quantity after e.text = e.meaning view quantity ↔
    e.dividesByZero view quantity ∨
      (e.typedAsDimensions view quantity ∧ e.nesting ≤ mqMaxDepth ↔ e.typed view quantity) := by
  rw [mqParseCalc_eq, meaning, outcome, ← Nat.not_lt]
  cases hz : e.dividesByZero view quantity
  case true  => simp
  case false =>
    by_cases hdeep : mqMaxDepth < e.nesting
    case pos =>
      rw [if_pos (.inl hdeep)]
      cases e.typed view quantity <;> simp [hdeep]
    case neg =>
      rw [if_neg (by simpa using hdeep)]
      have hkind : (e.operand.kindWith view quantity nested).isSome = e.typedAsDimensions view quantity := rfl
      cases hk : e.operand.kindWith view quantity nested <;> rw [hk] at hkind <;>
        cases e.typed view quantity <;> simp [hdeep, ← hkind]

end CalcExpr

end Evaluation

def two : Literal where
  number := ['2']
  unit   := []
  starts := ⟨'2', [], rfl, .inl rfl⟩
  plain  := by decide
  units  := by decide
  read   := by decide +kernel

def tenPixels : Literal where
  number := ['1', '0']
  unit   := ['p', 'x']
  starts := ⟨'1', ['0'], rfl, .inl rfl⟩
  plain  := by decide
  units  := by decide
  read   := by decide +kernel

def noBlank : Blanks :=
  ⟨[], by decide⟩

def oneBlank : Blanks :=
  ⟨[' '], by decide⟩

def twiceTenPixels : CalcExpr where
  name    := ['c', 'a', 'l', 'c']
  isCalc  := by decide +kernel
  lead    := noBlank
  first   := .closed ⟨[], .inl rfl⟩ noBlank (.literal two) .nil .nil noBlank
  factors := .cons oneBlank .times oneBlank (.literal tenPixels) .nil
  terms   := .nil
  trail   := noBlank

theorem twiceTenPixels_rejected :
    twiceTenPixels.text = ['c', 'a', 'l', 'c', '(', '(', '2', ')', ' ', '*', ' ', '1', '0', 'p', 'x', ')'] ∧
    twiceTenPixels.meaning (D := ℚ) ⟨800, 600⟩ .length = some 20 ∧
    mqParseCalc (D := ℚ) ⟨800, 600⟩ .length [')'] twiceTenPixels.text = none := by
  decide +kernel

end Nordstjernen.Css.Media
