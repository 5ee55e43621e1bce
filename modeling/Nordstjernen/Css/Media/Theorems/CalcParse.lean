import Nordstjernen.Css.Media.Calc

open Nordstjernen.Glib

namespace Nordstjernen.Css.Media

section Cursors

variable {c : Char} {s r k : CString} {prev : Char}

namespace Cursor

@[simp]
theorem rest_advance (p : Cursor) (n : Nat) : (p.advance n).rest = p.rest.drop n :=
  rfl

variable (prev) in
theorem exists_advance_append (s r : CString) :
    ∃ prev', (Cursor.mk prev (s ++ r)).advance s.length = ⟨prev', r⟩ :=
  ⟨_, by simp only [advance, List.drop_left]; rfl⟩

theorem takeWhile_blank (hs : ∀ d ∈ s, mqIsWs d) (hc : mqIsWs c = false) :
    (s ++ c :: r).takeWhile mqIsWs = s := by
  rw [List.takeWhile_append_of_pos hs, List.takeWhile_cons_of_neg (by simp [hc]), List.append_nil]

variable (prev) in
theorem exists_skipWs (hs : ∀ d ∈ s, mqIsWs d) (hc : mqIsWs c = false) :
    ∃ prev', (Cursor.mk prev (s ++ c :: r)).skipWs = ⟨prev', c :: r⟩ := by
  rw [skipWs, takeWhile_blank hs hc]
  exact exists_advance_append prev s (c :: r)

theorem skipWs_cons (hc : mqIsWs c = false) : (Cursor.mk prev (c :: r)).skipWs = ⟨prev, c :: r⟩ := by
  rw [skipWs, List.takeWhile_cons_of_neg (by simp [hc])]
  rfl

variable (prev) in
-- After a gap the last character is a blank.
theorem exists_skipWs_gap (hs : ∀ d ∈ s, mqIsWs d) (hne : s ≠ []) (hc : mqIsWs c = false) :
    ∃ prev', (Cursor.mk prev (s ++ c :: r)).skipWs = ⟨prev', c :: r⟩ ∧ mqIsWs prev' := by
  obtain rfl | ⟨t, d, rfl⟩ := s.eq_nil_or_concat
  · exact absurd rfl hne
  · refine ⟨d, ?_, hs d (by simp)⟩
    rw [skipWs, takeWhile_blank hs hc, advance, List.drop_left]
    simp

end Cursor

end Cursors

-- What may come behind an operand.
def follows (c : Char) : Bool :=
  endsNumber c && !isUnitChar c

def Followed (k : CString) : Prop :=
  ∃ c t, k = c :: t ∧ follows c

section Follow

variable {c : Char} {k : CString}

theorem follows_of_isWs (hc : mqIsWs c) : follows c := by
  simp only [mqIsWs, Bool.or_eq_true, beq_iff_eq] at hc
  obtain (((rfl | rfl) | rfl) | rfl) | rfl := hc <;> decide

theorem Blanks.followed (b : Blanks) (hk : Followed k) : Followed (b.text ++ k) := by
  cases ht : b.text
  case nil       => exact hk
  case cons c t  => exact ⟨c, t ++ k, rfl, follows_of_isWs (b.blank c (ht ▸ List.mem_cons_self))⟩

theorem follows_scale (op : Scale) : follows op.char := by
  cases op <;> decide

theorem follows_paren : follows ')' := by
  decide

theorem Factors.followed (fs : Factors) (hk : Followed k) : Followed (fs.text ++ k) := by
  cases fs
  case nil => rwa [Factors.text]
  case cons before op lead operand rest =>
    rw [Factors.text, List.append_assoc]
    exact before.followed ⟨_, _, rfl, follows_scale op⟩

theorem Terms.followed (ts : Terms) (hk : Followed k) : Followed (ts.text ++ k) := by
  cases ts
  case nil => rwa [Terms.text]
  case cons before op lead operand factors rest =>
    rw [Terms.text, List.append_assoc]
    cases ht : before.text
    case nil      => exact absurd ht before.nonempty
    case cons c t => exact ⟨c, _, rfl, follows_of_isWs (before.blank c (ht ▸ List.mem_cons_self))⟩

end Follow

section Evaluation

variable {D : Type} [Double D] (view : Viewport D) (quantity : Quantity)

open Double

-- What the functions of the source compute, over the syntax of what they read.

def scaled (op : Scale) (a b : D × Bool) : Option (D × Bool) :=
  match op with
  | .times => if !a.snd && !b.snd then none else some (a.fst * b.fst, a.snd && b.snd)
  | .per  => if !b.snd || beq b.fst 0 then none else some (a.fst / b.fst, a.snd)

def shifted (op : Shift) (a b : D) : D :=
  match op with
  | .plus  => a + b
  | .minus => a + -b

mutual

def Operand.eval (levels : Nat) : Operand → Option (D × Bool)
  | .literal l => (l.kind view quantity).map fun k => (l.value view quantity, decide (k = .number))
  | .closed _ _ first factors terms _ =>
    match levels with
    | 0 => none
    | levels + 1 =>
      (((first.eval levels).bind fun s => factors.eval levels s).bind fun s => terms.eval levels s.snd s.fst).map
        fun v => (v, false)

def Factors.eval (levels : Nat) (s : D × Bool) : Factors → Option (D × Bool)
  | .nil => some s
  | .cons _ op _ operand rest =>
    (operand.eval levels).bind fun s' => (scaled op s s').bind fun s => rest.eval levels s

def Terms.eval (levels : Nat) (isNumber : Bool) (v : D) : Terms → Option D
  | .nil => some v
  | .cons _ op _ operand factors rest =>
    ((operand.eval levels).bind fun s => factors.eval levels s).bind fun s =>
      if s.snd ≠ isNumber then none else rest.eval levels isNumber (shifted op v s.fst)

end

end Evaluation

section Parsing

variable {D : Type} [Double D] {view : Viewport D} {quantity : Quantity} {after : CString}

open Double

variable {c : Char} {k r : CString} {prev : Char} {n fuel : Nat} {s : D × Bool} {v : D} {isNumber : Bool}

theorem length_eq_of_unitIs {u : CString} {name : String} (h : unitIs u name) : u.length = name.toList.length := by
  simpa [gAsciiStrdown] using congrArg List.length (strcaseEq_iff.mp h)

-- No unit has more than four letters, so that seven of them are enough to tell.
theorem unitFn_eq_none {u : CString} (hu : 5 ≤ u.length) : quantity.unitFn view v u = none := by
  have hne {name : String} (hn : name.toList.length < 5) : unitIs u name = false := by
    refine Bool.eq_false_iff.mpr fun h => ?_
    have := length_eq_of_unitIs h
    omega
  have hnil : u ≠ [] := by
    rintro rfl
    simp at hu
  cases quantity <;>
    simp [Quantity.unitFn, mqLengthUnitPx, mqResolutionUnitDppx, hnil, hne]

namespace Literal

variable (l : Literal)

theorem number_ne_nil : l.number ≠ [] := by
  obtain ⟨c, t, ht, -⟩ := l.starts
  simp [ht]

theorem exists_start : ∃ c t, l.number = c :: t ∧ strtollIsspace c = false ∧ mqIsWs c = false ∧ c ≠ '(' ∧
    gAsciiTolower c ≠ 'c' := by
  obtain ⟨c, t, ht, hc⟩ := l.starts
  refine ⟨c, t, ht, ?_⟩
  obtain hd | rfl | rfl | rfl := hc
  · have hne {x : Char} (hx : x.isDigit = false) : c ≠ x := by
      rintro rfl
      rw [hx] at hd
      cases hd
    have hup : c.isUpper = false := by
      have h₉ : c.val ≤ '9'.val := (Bool.and_eq_true_iff.mp hd).right |> of_decide_eq_true
      refine Bool.eq_false_iff.mpr fun hup => ?_
      have hA : 'A'.val ≤ c.val := (of_decide_eq_true hup).left
      exact absurd (UInt32.le_trans hA h₉) (by decide)
    refine ⟨?_, ?_, hne rfl, ?_⟩
    · simp [strtollIsspace, gAsciiIsspace, hne]
    · simp [mqIsWs, hne]
    · rw [gAsciiTolower, hup]
      exact hne rfl
  all_goals decide

theorem strtodSpan_text (hc : follows c) :
    strtodSpan (l.number ++ (l.unit ++ c :: r)) = l.number.length := by
  obtain ⟨hends, -⟩ := Bool.and_eq_true_iff.mp hc
  rw [← List.append_assoc, strtodSpan_stop hends, l.read]
  · rintro - name hsuf
    obtain hm | hm := List.mem_append.mp (hsuf.mem List.mem_cons_self)
    · exact absurd rfl (l.plain '(' hm)
    · exact absurd (l.units '(' hm) (by decide)
  · obtain ⟨d, t, ht, hd, -⟩ := l.exists_start
    exact ⟨d, by simp [ht], hd⟩

theorem takeWhile_unit (hc : follows c) : (l.unit ++ c :: r).takeWhile isUnitChar = l.unit := by
  have hu : isUnitChar c = false := by
    simpa using (Bool.and_eq_true_iff.mp hc).right
  rw [List.takeWhile_append_of_pos l.units, List.takeWhile_cons_of_neg (by simp [hu]), List.append_nil]

variable (view quantity after prev) in
theorem exists_mqCalcNumber (hc : follows c) :
    ∃ prev', mqCalcNumber view quantity after ⟨prev, l.number ++ (l.unit ++ c :: r)⟩ =
      (l.kind view quantity).map fun k =>
        ((l.value view quantity : D), decide (k = .number), ⟨prev', c :: r⟩) := by
  have hspan : strtodSpan (l.number ++ (l.unit ++ c :: r) ++ after) = l.number.length := by
    rw [List.append_assoc, List.append_assoc, List.cons_append, l.strtodSpan_text hc]
  have hpos : l.number.length ≠ 0 := fun h => l.number_ne_nil (List.length_eq_zero_iff.mp h)
  have hle : ¬(l.number.length = 0 ∨ (l.number ++ (l.unit ++ c :: r)).length < l.number.length) := by
    rw [List.length_append]
    omega
  have htake : (l.number ++ (l.unit ++ c :: r) ++ after).take l.number.length = l.number := by
    rw [List.append_assoc, List.take_left]
  obtain ⟨prev₁, hadv⟩ := Cursor.exists_advance_append prev l.number (l.unit ++ c :: r)
  rw [mqCalcNumber, hspan, if_neg hle, htake, hadv]
  dsimp only
  rw [l.takeWhile_unit hc, kind, value]
  by_cases hu : l.unit = []
  case pos =>
    refine ⟨prev₁, ?_⟩
    rw [hu]
    rfl
  case neg =>
    obtain ⟨prev₂, hunit⟩ := Cursor.exists_advance_append prev₁ l.unit (c :: r)
    refine ⟨prev₂, ?_⟩
    rw [if_neg hu, if_neg hu, Option.map_map]
    by_cases hlen : l.unit.length ≤ 7
    case pos =>
      rw [List.take_of_length_le hlen, if_neg hu, hunit, ← amount, ← measure]
      cases l.measure view quantity <;> rfl
    case neg =>
      have hshort : 5 ≤ (l.unit.take 7).length := by
        rw [List.length_take]
        omega
      have hne : l.unit.take 7 ≠ [] := by
        rw [← List.length_pos_iff]
        omega
      rw [if_neg hne, unitFn_eq_none hshort, measure, unitFn_eq_none (by omega)]
      rfl

end Literal

theorem opener_number (l : Literal) : (Cursor.mk prev (l.number ++ r)).opener after = none := by
  obtain ⟨d, t, ht, -, -, hparen, hlower⟩ := l.exists_start
  have hcalc : hasCasePrefix (d :: (t ++ r) ++ after) "calc(".toList = false := by
    rw [hasCasePrefix, beq_eq_false_iff_ne]
    intro he
    rw [List.cons_append, show "calc(".toList = 'c' :: "alc(".toList from rfl, List.length_cons,
      List.take_succ_cons, gAsciiStrdown, List.map_cons, gAsciiStrdown, List.map_cons] at he
    exact hlower (List.cons.inj he).left
  have hhead : ¬(d :: (t ++ r)).head? = some '(' := by simpa using hparen
  rw [ht, List.cons_append, Cursor.opener, if_neg hhead, if_neg]
  rw [hcalc]
  simp

namespace Opener

variable (o : Opener)

theorem name_cases :
    o.name = [] ∨ ∃ c t, o.name = c :: t ∧ gAsciiTolower c = 'c' ∧ strcaseEq o.name "calc".toList := by
  refine o.nest.imp id fun h => ?_
  have he := strcaseEq_iff.mp h
  cases hn : o.name
  case nil      => simp [hn, gAsciiStrdown] at he
  case cons c t =>
    rw [hn, show "calc".toList = 'c' :: "alc".toList from rfl, gAsciiStrdown, List.map_cons, gAsciiStrdown,
      List.map_cons] at he
    exact ⟨c, t, rfl, (List.cons.inj he).left, hn ▸ h⟩

theorem hasCasePrefix_name {name : CString} (h : strcaseEq name "calc".toList) :
    name.length = 4 ∧ hasCasePrefix (name ++ '(' :: r) "calc(".toList := by
  have hlen : name.length = 4 := by simpa [gAsciiStrdown] using congrArg List.length (strcaseEq_iff.mp h)
  refine ⟨hlen, ?_⟩
  rw [hasCasePrefix, beq_iff_eq, show "calc(".toList.length = name.length + 1 by rw [hlen]; rfl,
    List.take_length_add_append, gAsciiStrdown_append, strcaseEq_iff.mp h]
  rfl

theorem opener_text : (Cursor.mk prev (o.name ++ '(' :: r)).opener after = some (o.name.length + 1) := by
  obtain hn | ⟨c, t, hn, hc, hcalc⟩ := o.name_cases
  · rw [hn]
    rfl
  · obtain ⟨hlen, hpre⟩ := hasCasePrefix_name (r := r ++ after) hcalc
    have hhead : ¬(o.name ++ '(' :: r).head? = some '(' := by
      rw [hn, List.cons_append, List.head?_cons, Option.some.injEq]
      rintro rfl
      exact absurd hc (by decide)
    rw [Cursor.opener, if_neg hhead, if_pos, hlen]
    refine ⟨by simp, ?_⟩
    rw [List.append_assoc, List.cons_append]
    exact hpre

variable (prev) in
theorem exists_skipWs (b : Blanks) :
    ∃ prev', (Cursor.mk prev (b.text ++ (o.name ++ '(' :: r))).skipWs = ⟨prev', o.name ++ '(' :: r⟩ := by
  obtain hn | ⟨c, t, hn, hc, -⟩ := o.name_cases
  · rw [hn]
    exact Cursor.exists_skipWs prev b.blank (by decide)
  · have hws : mqIsWs c = false := by
      refine Bool.eq_false_iff.mpr fun hws => ?_
      simp only [mqIsWs, Bool.or_eq_true, beq_iff_eq] at hws
      obtain (((rfl | rfl) | rfl) | rfl) | rfl := hws <;> exact absurd hc (by decide)
    rw [hn, List.cons_append]
    exact Cursor.exists_skipWs prev b.blank hws

end Opener

variable (prev) in
theorem exists_skipWs_number (b : Blanks) (l : Literal) :
    ∃ prev', (Cursor.mk prev (b.text ++ (l.number ++ r))).skipWs = ⟨prev', l.number ++ r⟩ := by
  obtain ⟨d, t, ht, -, hws, -⟩ := l.exists_start
  rw [ht, List.cons_append]
  exact Cursor.exists_skipWs prev b.blank hws

variable (prev) in
theorem exists_close (b : Blanks) :
    ∃ prev', (Cursor.mk prev (b.text ++ ')' :: r)).close = ⟨prev', r⟩ := by
  obtain ⟨prev₁, hskip⟩ := Cursor.exists_skipWs prev (r := r) b.blank (show mqIsWs ')' = false by decide)
  refine ⟨')', ?_⟩
  rw [Cursor.close, hskip]
  rfl

theorem exists_mqCalcProduct {primary : Cursor → Option (D × Bool × Cursor)} {p : Cursor}
    (o : Operand) (fs : Factors)
    (ho : ∃ prev', primary p = (o.eval view quantity n).map fun s => (s.fst, s.snd, ⟨prev', fs.text ++ k⟩))
    (hf : ∀ prev s, ∃ prev',
      mqCalcProductLoop primary ((fs.text ++ k).length + 1) (s.fst, s.snd, ⟨prev, fs.text ++ k⟩) =
      (fs.eval view quantity n s).map fun s => (s.fst, s.snd, ⟨prev', k⟩)) :
    ∃ prev', mqCalcProduct primary p =
      ((o.eval view quantity n).bind fun s => fs.eval view quantity n s).map fun s =>
        (s.fst, s.snd, ⟨prev', k⟩) := by
  obtain ⟨prev₁, ho⟩ := ho
  rw [mqCalcProduct, ho]
  cases o.eval view quantity n
  case none   => exact ⟨prev₁, rfl⟩
  case some s => exact hf prev₁ s

variable (view quantity after) in
theorem exists_mqCalcSum {p : Cursor} {product : Option (D × Bool)} (ts : Terms)
    (hp : ∃ prev', mqCalcProduct (mqCalcPrimary view quantity after (mqCalcSum view quantity after n)) p =
      product.map fun s => (s.fst, s.snd, ⟨prev', ts.text ++ k⟩))
    (ht : ∀ prev (s : D × Bool), ∃ prev',
      mqCalcSumLoop (mqCalcProduct (mqCalcPrimary view quantity after (mqCalcSum view quantity after n))) s.snd
        ((ts.text ++ k).length + 1) (s.fst, ⟨prev, ts.text ++ k⟩) =
      (ts.eval view quantity n s.snd s.fst).map fun v => (v, ⟨prev', k⟩)) :
    ∃ prev', mqCalcSum view quantity after (n + 1) p =
      (product.bind fun s => ts.eval view quantity n s.snd s.fst).map fun v => (v, ⟨prev', k⟩) := by
  obtain ⟨prev₁, hp⟩ := hp
  rw [mqCalcSum, hp]
  cases product
  case none   => exact ⟨prev₁, rfl⟩
  case some s => exact ht prev₁ s

-- Where neither a product nor a sum goes on.
def Stops (ops : CString) (k : CString) : Prop :=
  ∃ b : Blanks, ∃ c t, k = b.text ++ c :: t ∧ mqIsWs c = false ∧ c ∉ ops

theorem Stops.of_blanks (b : Blanks) {ops : CString} (hc : mqIsWs c = false) (ho : c ∉ ops) :
    Stops ops (b.text ++ c :: r) :=
  ⟨b, c, r, rfl, hc, ho⟩

theorem Terms.stops (ts : Terms) (hk : Stops ['*', '/', '+', '-'] k) : Stops ['*', '/'] (ts.text ++ k) := by
  cases ts
  case nil =>
    obtain ⟨b, c, t, rfl, hc, ho⟩ := hk
    exact .of_blanks b hc (by simp_all)
  case cons before op lead operand factors rest =>
    rw [Terms.text, List.append_assoc]
    cases op <;> exact .of_blanks before.toBlanks (by decide) (by decide)

-- One turn of the loop of a product.
theorem mqCalcProductLoop_op {primary : Cursor → Option (D × Bool × Cursor)} {q : Cursor} (op : Scale)
    (hq : q.skipWs = ⟨prev, op.char :: r⟩) :
    mqCalcProductLoop primary (fuel + 1) (s.fst, s.snd, q) =
      (primary ⟨op.char, r⟩).bind fun x =>
        (scaled op s (x.fst, x.snd.fst)).bind fun s =>
          mqCalcProductLoop primary fuel (s.fst, s.snd, x.snd.snd) := by
  rw [mqCalcProductLoop, hq]
  cases op
  case times =>
    change (primary ⟨'*', r⟩).bind _ = (primary ⟨'*', r⟩).bind _
    congr
    funext x
    rw [scaled]
    dsimp only
    split <;> rfl
  case per =>
    change (primary ⟨'/', r⟩).bind _ = (primary ⟨'/', r⟩).bind _
    congr
    funext x
    rw [scaled]
    dsimp only
    split <;> rfl

mutual

theorem Operand.parse (o : Operand) (b : Blanks) {n : Nat} (prev : Char) {k : CString} (hk : Followed k) :
    ∃ prev', mqCalcPrimary view quantity after (mqCalcSum view quantity after n) ⟨prev, b.text ++ (o.text ++ k)⟩ =
      (o.eval view quantity n).map fun s => ((s.fst : D), s.snd, ⟨prev', k⟩) := by
  cases o
  case literal l =>
    obtain ⟨c, t, rfl, hc⟩ := hk
    obtain ⟨prev₁, hskip⟩ := exists_skipWs_number prev (r := l.unit ++ c :: t) b l
    obtain ⟨prev₂, hnum⟩ :=
      l.exists_mqCalcNumber view quantity after prev₁ (r := t) hc
    refine ⟨prev₂, ?_⟩
    rw [mqCalcPrimary, Operand.text, List.append_assoc, hskip]
    dsimp only
    rw [opener_number l, hnum, Operand.eval, Option.map_map]
    rfl
  case closed opener lead first factors terms trail =>
    have hend : Followed (trail.text ++ ')' :: k) := trail.followed ⟨_, _, rfl, follows_paren⟩
    have hstop : Stops ['*', '/', '+', '-'] (trail.text ++ ')' :: k) := .of_blanks trail (by decide) (by decide)
    have hterms : Followed (terms.text ++ (trail.text ++ ')' :: k)) := terms.followed hend
    have htext : (Operand.closed opener lead first factors terms trail).text ++ k = opener.name ++ '(' ::
        (lead.text ++ (first.text ++ (factors.text ++ (terms.text ++ (trail.text ++ ')' :: k))))) := by
      simp [Operand.text]
    obtain ⟨prev₁, hskip⟩ := opener.exists_skipWs prev
      (r := lead.text ++ (first.text ++ (factors.text ++ (terms.text ++ (trail.text ++ ')' :: k))))) b
    obtain ⟨prev₂, hadv⟩ := Cursor.exists_advance_append prev₁ (opener.name ++ ['('])
      (lead.text ++ (first.text ++ (factors.text ++ (terms.text ++ (trail.text ++ ')' :: k)))))
    have hlen : ¬(opener.name ++ '(' ::
        (lead.text ++ (first.text ++ (factors.text ++ (terms.text ++ (trail.text ++ ')' :: k)))))).length <
          opener.name.length + 1 := by
      simp only [List.length_append, List.length_cons]
      omega
    rw [List.append_assoc, List.cons_append, List.nil_append, List.length_append, List.length_singleton] at hadv
    rw [mqCalcPrimary, htext, hskip]
    dsimp only
    rw [opener.opener_text]
    dsimp only
    rw [if_neg hlen, hadv]
    cases n
    case zero => exact ⟨prev, by rw [Operand.eval, mqCalcSum]; rfl⟩
    case succ n =>
      obtain ⟨prev₃, hsum⟩ := exists_mqCalcSum view quantity after terms
        (exists_mqCalcProduct first factors (first.parse lead _ (factors.followed hterms))
          fun prev s => factors.parse hterms (terms.stops hstop) (Nat.lt_succ_self _))
        fun prev s => terms.parse _ _ hend hstop (Nat.lt_succ_self _)
      rw [hsum, Operand.eval]
      cases ((first.eval view quantity n).bind fun s => factors.eval view quantity n s).bind
        fun s => terms.eval view quantity n s.snd s.fst
      case none => exact ⟨prev, rfl⟩
      case some v =>
        obtain ⟨prev₄, hclose⟩ := exists_close prev₃ (r := k) trail
        refine ⟨prev₄, ?_⟩
        simp only [Option.map_some, hclose]

theorem Factors.parse (fs : Factors) {n fuel : Nat} {s : D × Bool} {prev : Char} {k : CString} (hk : Followed k)
    (hstop : Stops ['*', '/'] k) (hfuel : (fs.text ++ k).length < fuel) :
    ∃ prev', mqCalcProductLoop (mqCalcPrimary view quantity after (mqCalcSum view quantity after n)) fuel
        (s.fst, s.snd, ⟨prev, fs.text ++ k⟩) =
      (fs.eval view quantity n s).map fun s => ((s.fst : D), s.snd, ⟨prev', k⟩) := by
  obtain ⟨fuel, rfl⟩ : ∃ f, fuel = f + 1 := ⟨fuel - 1, by omega⟩
  cases fs
  case nil =>
    obtain ⟨b, c, t, rfl, hc, ho⟩ := hstop
    obtain ⟨prev₁, hskip⟩ := Cursor.exists_skipWs prev (r := t) b.blank hc
    refine ⟨prev, ?_⟩
    rw [mqCalcProductLoop, Factors.text, List.nil_append, hskip, Factors.eval]
    dsimp only
    split
    case h_1 he => simp_all
    case h_2 he => simp_all
    case h_3 => rfl
  case cons before op lead operand rest =>
    have hrest : Followed (rest.text ++ k) := rest.followed hk
    have htext : (Factors.cons before op lead operand rest).text ++ k =
        before.text ++ op.char :: (lead.text ++ (operand.text ++ (rest.text ++ k))) := by
      simp [Factors.text]
    rw [htext] at hfuel ⊢
    have hlen : (rest.text ++ k).length < fuel := by
      simp only [List.length_append, List.length_cons] at hfuel ⊢
      omega
    obtain ⟨prev₁, hskip⟩ := Cursor.exists_skipWs prev (c := op.char)
      (r := lead.text ++ (operand.text ++ (rest.text ++ k))) before.blank (by cases op <;> decide)
    obtain ⟨prev₂, hoperand⟩ := operand.parse (n := n) lead op.char hrest
    rw [mqCalcProductLoop_op op hskip, hoperand, Factors.eval]
    cases operand.eval view quantity n
    case none => exact ⟨prev, rfl⟩
    case some s' =>
      rw [Option.map_some, Option.bind_some, Option.bind_some]
      dsimp only
      cases scaled op s s'
      case none   => exact ⟨prev, rfl⟩
      case some t => exact rest.parse hk hstop hlen

theorem Terms.parse (ts : Terms) (isNumber : Bool) (prev : Char) {n fuel : Nat} {v : D} {k : CString}
    (hk : Followed k) (hstop : Stops ['*', '/', '+', '-'] k) (hfuel : (ts.text ++ k).length < fuel) :
    ∃ prev', mqCalcSumLoop (mqCalcProduct (mqCalcPrimary view quantity after (mqCalcSum view quantity after n)))
        isNumber fuel (v, ⟨prev, ts.text ++ k⟩) =
      (ts.eval view quantity n isNumber v).map fun v => ((v : D), ⟨prev', k⟩) := by
  obtain ⟨fuel, rfl⟩ : ∃ f, fuel = f + 1 := ⟨fuel - 1, by omega⟩
  cases ts
  case nil =>
    obtain ⟨b, c, t, rfl, hc, ho⟩ := hstop
    obtain ⟨prev₁, hskip⟩ := Cursor.exists_skipWs prev (r := t) b.blank hc
    have hne : c ≠ '+' ∧ c ≠ '-' := by simp_all
    refine ⟨prev, ?_⟩
    rw [mqCalcSumLoop, Terms.text, List.nil_append, hskip, Terms.eval]
    dsimp only
    rw [if_pos hne]
    rfl
  case cons before op lead operand factors rest =>
    have hrest : Followed (rest.text ++ k) := rest.followed hk
    have htext : (Terms.cons before op lead operand factors rest).text ++ k =
        before.text ++ op.char :: (lead.text ++ (operand.text ++ (factors.text ++ (rest.text ++ k)))) := by
      simp [Terms.text]
    rw [htext] at hfuel ⊢
    have hlen : (rest.text ++ k).length < fuel := by
      simp only [List.length_append, List.length_cons] at hfuel ⊢
      omega
    obtain ⟨prev₁, hskip, hblank⟩ := Cursor.exists_skipWs_gap prev (c := op.char)
      (r := lead.text ++ (operand.text ++ (factors.text ++ (rest.text ++ k)))) before.blank before.nonempty
      (by cases op <;> decide)
    obtain ⟨prev₂, hproduct⟩ := exists_mqCalcProduct operand factors
      (operand.parse (n := n) lead.toBlanks op.char (factors.followed hrest))
      fun prev s => factors.parse hrest (rest.stops hstop) (Nat.lt_succ_self _)
    have hadv :
        Cursor.advance ⟨prev₁, op.char :: (lead.text ++ (operand.text ++ (factors.text ++ (rest.text ++ k))))⟩ 1 =
        ⟨op.char, lead.text ++ (operand.text ++ (factors.text ++ (rest.text ++ k)))⟩ :=
      rfl
    have hop : ¬(op.char ≠ '+' ∧ op.char ≠ '-') := by cases op <;> decide
    have hlead : (lead.text ++ (operand.text ++ (factors.text ++ (rest.text ++ k)))).head?.any mqIsWs := by
      cases ht : lead.text
      case nil      => exact absurd ht lead.nonempty
      case cons d t => exact lead.blank d (ht ▸ List.mem_cons_self)
    rw [mqCalcSumLoop, hskip, Terms.eval]
    dsimp only
    rw [if_neg hop, hblank, hlead, hadv, hproduct]
    cases (operand.eval view quantity n).bind fun s => factors.eval view quantity n s
    case none => exact ⟨prev, rfl⟩
    case some s =>
      obtain ⟨prev₃, hgo⟩ := rest.parse isNumber prev₂ (n := n) (v := shifted op v s.fst) hk hstop hlen
      have hshift : v + (if op.char = '+' then s.fst else -s.fst) = shifted op v s.fst := by
        cases op
        case plus  => rfl
        case minus => rw [if_neg (by decide)]; rfl
      refine ⟨prev₃, ?_⟩
      rw [Option.map_some, Option.bind_some, Option.bind_some]
      simp only [hshift, hgo, Bool.not_true, Bool.or_self, Bool.false_eq_true, if_false]
      split <;> rfl

end

theorem Operand.eval_closed {opener : Opener} {lead trail : Blanks} {first : Operand} {factors : Factors}
    {terms : Terms} (n : Nat) : (Operand.closed opener lead first factors terms trail).eval view quantity (n + 1) =
      (((first.eval view quantity n).bind fun s => factors.eval view quantity n s).bind
        fun s => terms.eval view quantity n s.snd s.fst).map fun v => ((v : D), false) := by
  rw [Operand.eval]

-- The source computes what the syntax of a whole expression stands for.
theorem CalcExpr.mqParseCalc_text (e : CalcExpr) :
    mqParseCalc view quantity after e.text =
      (e.operand.eval view quantity (mqMaxDepth + 1)).map fun s => (s.fst : D) := by
  have hend : Followed (e.trail.text ++ [')']) := e.trail.followed ⟨_, _, rfl, follows_paren⟩
  have hstop : Stops ['*', '/', '+', '-'] (e.trail.text ++ [')']) := .of_blanks e.trail (by decide) (by decide)
  have hterms : Followed (e.terms.text ++ (e.trail.text ++ [')'])) := e.terms.followed hend
  obtain ⟨hlen, hpre⟩ := Opener.hasCasePrefix_name (r := e.lead.text ++ (e.first.text ++ (e.factors.text ++
    (e.terms.text ++ (e.trail.text ++ [')'])))) ++ after) e.isCalc
  have htext : e.text = e.name ++ '(' ::
      (e.lead.text ++ (e.first.text ++ (e.factors.text ++ (e.terms.text ++ (e.trail.text ++ [')']))))) := by
    rw [CalcExpr.text, CalcExpr.operand, Operand.text]
  have hguard : ¬(¬hasCasePrefix (e.text ++ after) "calc(".toList ∨ e.text.length < 5) := by
    rw [htext, List.append_assoc, List.cons_append, not_or, not_not, List.length_append, List.length_cons, hlen]
    exact ⟨hpre, by omega⟩
  have hdrop : e.text.drop 5 =
      e.lead.text ++ (e.first.text ++ (e.factors.text ++ (e.terms.text ++ (e.trail.text ++ [')'])))) := by
    rw [htext, show 5 = e.name.length + 1 by omega, List.drop_length_add_append]
    rfl
  obtain ⟨prev₁, hsum⟩ := exists_mqCalcSum view quantity after (n := mqMaxDepth) (p := ⟨'(', e.text.drop 5⟩)
    e.terms
    (exists_mqCalcProduct e.first e.factors (hdrop ▸ e.first.parse e.lead _ (e.factors.followed hterms))
      fun prev s => e.factors.parse hterms (e.terms.stops hstop) (Nat.lt_succ_self _))
    fun prev s => e.terms.parse _ _ hend hstop (Nat.lt_succ_self _)
  rw [mqParseCalc, if_neg hguard, hsum, CalcExpr.operand, Operand.eval_closed, Option.map_map]
  cases ((e.first.eval view quantity mqMaxDepth).bind fun s => e.factors.eval view quantity mqMaxDepth s).bind
    fun s => e.terms.eval view quantity mqMaxDepth s.snd s.fst
  case none   => rfl
  case some v =>
    obtain ⟨prev₂, hclose⟩ := exists_close prev₁ (r := []) e.trail
    simp only [Option.map_some, Option.bind_some, hclose]
    rfl

end Parsing

end Nordstjernen.Css.Media
