import Nordstjernen.Css.Media.Theorems.Conditions

open Nordstjernen.Glib

namespace Nordstjernen.Css.Media

-- How many parentheses and brackets are open behind a character. There is no answer where it closes one that is
-- not open, nor where it is a comma outside of them.
def itemStep (depth : Nat × Nat) (c : Char) : Option (Nat × Nat) :=
  if c = '(' then some (depth.1 + 1, depth.2)
  else if c = ')' then if depth.1 = 0 then none else some (depth.1 - 1, depth.2)
  else if c = '[' then some (depth.1, depth.2 + 1)
  else if c = ']' then if depth.2 = 0 then none else some (depth.1, depth.2 - 1)
  else if c = ',' ∧ depth = (0, 0) then none
  else some depth

def items (depth : Nat × Nat) (s : CString) : Option (Nat × Nat) :=
  s.foldlM itemStep depth

-- A query of a list of queries. All that is opened in it is closed, and it is not blank.
structure QueryText where
  text     : CString
  balanced : items (0, 0) text = some (0, 0)
  nonempty : ∃ c ∈ text, mqIsWs c = false

-- Queries with commas between them.
def joined (q : QueryText) (qs : List QueryText) : CString :=
  q.text ++ qs.flatMap fun q => ',' :: q.text

-- A feature in parentheses.
def parenthesised (s : CString) : CString :=
  '(' :: (s ++ [')'])

-- The operators of one direction, for a feature between two values.
inductive Direction
  | up
  | down

def Direction.op : Direction → Bool → Op
  | up,   true  => .lt
  | up,   false => .le
  | down, true  => .gt
  | down, false => .ge

-- `min-` or `max-`, with any letters in upper case.
structure BoundName where
  bound  : Bound
  text   : CString
  spells : gAsciiStrdown text = bound.text

section Parse

variable {D : Type} [Double D] {view : Viewport D} {s p after : CString}

variable (after) in
theorem parseTyped_congr (hp : Balanced p) : parseTyped view p after = parseTyped view p [] := by
  rw [parseTyped, parseTyped]
  cases h₁ : mqReadIdent 64 p
  case none => rw [Option.bind_none, Option.bind_none]
  case some x =>
    rw [Option.bind_some, Option.bind_some]
    dsimp only
    have hread : Reads p (skipWs (if x.1 == "not".toList || x.1 == "only".toList then x.2 else p)) := by
      split
      · exact (reads_mqReadIdent h₁).trans (reads_skipWs _)
      · exact reads_skipWs p
    generalize skipWs (if x.1 == "not".toList || x.1 == "only".toList then x.2 else p) = p₁ at hread ⊢
    cases h₂ : mqReadIdent 64 p₁
    case none => rw [Option.bind_none, Option.bind_none]
    case some y =>
      rw [Option.bind_some, Option.bind_some]
      by_cases hkw : mqKwAt (skipWs y.2) "and".toList
      case neg => simp only [hkw, Bool.not_false, if_true]
      case pos =>
        have hand : Reads p ((skipWs y.2).drop 3) :=
          (hread.trans (reads_mqReadIdent h₂)).trans
            ((reads_skipWs _).trans (reads_mqKwAt "and".toList (by decide +kernel) hkw))
        rw [mqParseCondition_congr after (hand.balanced hp)]

-- What comes behind a balanced query makes no difference to it.
theorem mqParseQuery_congr (hs : Balanced s) : mqParseQuery view s after = mqParseQuery view s [] := by
  rw [mqParseQuery, mqParseQuery]
  split
  case isTrue => rfl
  case isFalse =>
    have htrim : Balanced (trimWs s) := hs.trimWs
    rw [mqParseCondition_congr _ htrim, parseTyped_congr _ htrim,
      mqParseCondition_congr ((s.dropWhile mqIsWs).drop (trimWs s).length ++ []) htrim,
      parseTyped_congr ((s.dropWhile mqIsWs).drop (trimWs s).length ++ []) htrim]

theorem mqParseQuery_skipWs : mqParseQuery view (skipWs s) after = mqParseQuery view s after := by
  rw [mqParseQuery, mqParseQuery, skipWs, trimWs_dropWhile, List.dropWhile_idempotent]

end Parse

-- A mark stands in a text in no parentheses.
def Marked (s : CString) : Prop :=
  ∃ u m w, s = u ++ m :: w ∧ Plain u ∧ m ∈ marks

section Parenthesised

variable {D : Type} [Double D] {ctx : Context D} {s : CString}

theorem Marked.not_plain (h : Marked s) : ¬Plain s := by
  obtain ⟨u, m, w, rfl, hu, hm⟩ := h
  intro hp
  obtain ⟨k, hk, hk'⟩ := exists_clear_of_append hp
  obtain rfl := Option.some.inj (hu.symm.trans hk)
  obtain ⟨k', hstep, -⟩ := exists_clear_of_cons hk'
  have hnone : clearStep marks 0 m = none := by
    simp only [marks, List.mem_cons, List.not_mem_nil, or_false] at hm
    obtain rfl | rfl | rfl | rfl := hm <;> rfl
  rw [hnone] at hstep
  cases hstep

-- No condition reaches over a mark.
theorem Marked.mqParseCondition (h : Marked s) (hs : Balanced s) {levels : Nat} {allowOr : Bool}
    {after q : CString} {n : Node D} (hn : mqParseCondition ctx.toViewport levels allowOr s after = some (n, q)) :
    skipWs q ≠ [] := by
  intro hq
  obtain ⟨used, rfl, hused⟩ := (reads_mqParseCondition hs hn).trans (reads_skipWs q)
  rw [hq, List.append_nil] at h
  exact h.not_plain hused

theorem trimWs_parenthesised : trimWs (parenthesised s) = parenthesised s := by
  have hends : '(' :: (s ++ [')']) = '(' :: s ++ [')'] := rfl
  have h := trimWs_append (u := []) (w := []) (c := '(') (d := ')') (by decide) (by decide) hends
  simpa [parenthesised] using h

theorem mqParseInParens_parenthesised (hs : Balanced s)
    {condition : CString → CString → Option (Node D × CString)}
    (hcond : ∀ n q, condition s [')'] = some (n, q) → skipWs q ≠ []) :
    mqParseInParens ctx.toViewport condition (parenthesised s) [] = parseEnclosed ctx.toViewport s [')'] [] := by
  have hclose : mqCloseParen 1 (s ++ [')']) = (s, [')']) := by
    have h := mqCloseParen_append (r := [')']) hs
    rw [mqCloseParen_close, List.append_nil] at h
    exact h
  have hskip : skipWs (parenthesised s) = '(' :: (s ++ [')']) := List.dropWhile_cons_of_neg (by decide)
  rw [mqParseInParens, hskip]
  dsimp only
  rw [if_pos List.head?_cons, List.drop_succ_cons, List.drop_zero, hclose]
  dsimp only
  rw [List.append_nil]
  split
  case h_1 hn => rw [if_neg (hcond _ _ hn)]
  case h_2 => rfl

theorem mqParseCondition_parenthesised (hs : Balanced s) (hm : Marked s) {levels : Nat} :
    mqParseCondition ctx.toViewport (levels + 2) true (parenthesised s) [] =
      parseEnclosed ctx.toViewport s [')'] [] := by
  have hskip : skipWs (parenthesised s) = parenthesised s := List.dropWhile_cons_of_neg (by decide)
  have hnot : mqKwAt (parenthesised s) "not".toList = false := by
    have hpre : hasCasePrefix (parenthesised s) "not".toList = false := by
      rw [hasCasePrefix, parenthesised, show "not".toList = 'n' :: "ot".toList from rfl, List.length_cons,
        List.take_succ_cons, gAsciiStrdown, List.map_cons, gAsciiStrdown, List.map_cons]
      exact beq_eq_false_iff_ne.mpr fun he => absurd (List.cons.inj he).left (by decide)
    rw [mqKwAt, hpre, Bool.and_false, Bool.false_and]
  have hparens : mqParseInParens ctx.toViewport (mqParseCondition ctx.toViewport (levels + 1) true)
      (parenthesised s) [] = parseEnclosed ctx.toViewport s [')'] [] :=
    mqParseInParens_parenthesised hs fun n q hn => hm.mqParseCondition hs hn
  rw [mqParseCondition]
  dsimp only
  rw [hskip, hnot, if_neg Bool.false_ne_true, if_neg (Nat.succ_ne_zero _), hparens]
  cases he : parseEnclosed ctx.toViewport s [')'] []
  case none => rfl
  case some x =>
    have hx : x.2 = [] := parseEnclosed_some he
    rw [Option.bind_some]
    obtain ⟨n, q⟩ := x
    obtain rfl : q = [] := hx
    rfl

theorem parseTyped_parenthesised {after : CString} : parseTyped ctx.toViewport (parenthesised s) after = none := by
  have hread : mqReadIdent 64 (parenthesised s) = none := by
    rw [mqReadIdent, parenthesised, List.takeWhile_cons_of_neg (by decide)]
    exact if_pos (.inl rfl)
  rw [parseTyped, hread, Option.bind_none]

-- The query of some node.
def Query.ofNode (n : Option (Node D × CString)) : Query D :=
  (n.map fun n => { cond := some n.1, valid := true }).getD {}

theorem mqParseQuery_parenthesised (hs : Balanced s) (hm : Marked s) :
    mqParseQuery ctx.toViewport (parenthesised s) [] =
      .ofNode (parseEnclosed ctx.toViewport s [')'] []) := by
  have hdrop : (parenthesised s).dropWhile mqIsWs = parenthesised s := List.dropWhile_cons_of_neg (by decide)
  have hlevels : mqMaxDepth + 1 = 31 + 2 := rfl
  rw [mqParseQuery, trimWs_parenthesised, hdrop, List.drop_length, List.append_nil,
    if_neg (by simp [parenthesised]), hlevels, mqParseCondition_parenthesised hs hm]
  cases he : parseEnclosed ctx.toViewport s [')'] []
  case none =>
    dsimp only
    rw [parseTyped_parenthesised]
    rfl
  case some x =>
    obtain ⟨n, q⟩ := x
    obtain rfl : q = [] := parseEnclosed_some he
    rfl

theorem mqEvalQuery_node (n : Node D) :
    mqEvalQuery ctx { cond := some n, valid := true } = mqEvalNode ctx (mqMaxDepth + 1) n := by
  change Tri.and .yes (mqEvalNode ctx (mqMaxDepth + 1) n) = _
  cases mqEvalNode ctx (mqMaxDepth + 1) n <;> rfl

theorem mqEvalQuery_parseEnclosed : mqEvalQuery ctx (.ofNode (parseEnclosed ctx.toViewport s [')'] [])) = .yes ↔
    ∃ f, mqParseFeature ctx.toViewport s [')'] = some f ∧ mqEvalFeature ctx f = .yes := by
  rw [parseEnclosed, List.append_nil]
  cases mqParseFeature ctx.toViewport s [')']
  case some f =>
    change mqEvalQuery ctx { cond := some (.feature f), valid := true } = .yes ↔ _
    rw [mqEvalQuery_node]
    simp [mqEvalNode]
  case none =>
    dsimp only
    split
    case isTrue =>
      change mqEvalQuery ctx { cond := some .enclosed, valid := true } = .yes ↔ _
      rw [mqEvalQuery_node]
      simp [mqEvalNode]
    case isFalse => simp [Query.ofNode, mqEvalQuery]

theorem mqSplitNext_parenthesised (hs : Balanced s) :
    mqSplitNext 0 0 (parenthesised s) = (parenthesised s, []) := by
  obtain ⟨b', hsplit⟩ := exists_mqSplitNext_append (r := [')']) hs 0
  have hopen : mqSplitNext 0 0 (parenthesised s) =
      ('(' :: (mqSplitNext 1 0 (s ++ [')'])).1, (mqSplitNext 1 0 (s ++ [')'])).2) := rfl
  rw [hopen, hsplit]
  simp [mqSplitNext, parenthesised]

-- A feature in parentheses matches where the feature that it is read as does.
theorem mediaQueryMatches_parenthesised (hs : Balanced s) (hm : Marked s) :
    mediaQueryMatches ctx (parenthesised s) ↔
      ∃ f, mqParseFeature ctx.toViewport s [')'] = some f ∧ mqEvalFeature ctx f = .yes := by
  have hskip : skipWs (parenthesised s) = parenthesised s := List.dropWhile_cons_of_neg (by decide)
  have hne : parenthesised s ≠ [] := List.cons_ne_nil _ _
  rw [mediaQueryMatches, hskip, if_neg hne, matchLoop, if_neg hne, mqSplitNext_parenthesised hs]
  dsimp only
  rw [mqParseQuery_parenthesised hs hm, ← mqEvalQuery_parseEnclosed]
  have hrest (fuel : Nat) : matchLoop ctx fuel ([].drop 1) = false := by cases fuel <;> rfl
  rw [hrest]
  simp

end Parenthesised

section Laws

variable {D : Type} [Double D] (ctx : Context D) (f : FeatureName)

-- The current value of a feature with an order compares with a text as an operator says.
def Holds (op : Op) (v : CString) : Prop :=
  f.feature.ranged ∧ ∃ v1, valueOf ctx.toViewport f.feature v = some v1 ∧
    ∃ cur, mqFeatureCurrent ctx f.feature = some cur ∧ mqCompare cur.1 cur.2 op v1.num v1.denom = .yes

variable {ctx f} {op op1 op2 : Op} {u w : CString}

theorem Op.balanced_text (op : Op) : clear [] 0 op.text = some 0 := by
  cases op <;> rfl

theorem marked_op (hu : Plain u) : Marked (u ++ (op.text ++ w)) := by
  cases op
  case eq => exact ⟨u, '=', w, rfl, hu, by decide⟩
  case lt => exact ⟨u, '<', w, rfl, hu, by decide⟩
  case le => exact ⟨u, '<', '=' :: w, rfl, hu, by decide⟩
  case gt => exact ⟨u, '>', w, rfl, hu, by decide⟩
  case ge => exact ⟨u, '>', '=' :: w, rfl, hu, by decide⟩

theorem balanced_op (hu : Plain u) (hw : Balanced w) : Balanced (u ++ (op.text ++ w)) := by
  rw [Balanced, clear_append, hu.balanced, Option.bind_some, clear_append, op.balanced_text, Option.bind_some, hw]

theorem mqEvalFeature_compared {n : Feature D} (minmax : Nat) (hn : compared ctx.toViewport f op w = some n) :
    mqEvalFeature ctx { n with minmax } = mqEvalFeature ctx n := by
  rw [compared] at hn
  split at hn
  case isFalse => cases hn
  case isTrue =>
    obtain ⟨v1, -, rfl⟩ := Option.map_eq_some_iff.mp hn
    simp [mqEvalFeature, single]

theorem exists_compared :
    (∃ n, compared ctx.toViewport f op w = some n ∧ mqEvalFeature ctx n = .yes) ↔ Holds ctx f op w := by
  rw [compared, Holds]
  cases hr : f.feature.ranged
  case false => simp
  case true =>
    have htype : f.feature.type ≠ .discrete := type_ne_of_ranged hr
    cases valueOf ctx.toViewport f.feature w
    case none => simp
    case some v1 =>
      have heval : mqEvalFeature ctx (single f.feature op v1) = .yes ↔ ∃ cur,
          mqFeatureCurrent ctx f.feature = some cur ∧ mqCompare cur.1 cur.2 op v1.num v1.denom = .yes := by
        rw [mqEvalFeature, single, if_neg htype]
        cases mqFeatureCurrent ctx f.feature <;> simp
      simp [heval]

theorem exists_chain : (∃ n, (if f.feature.ranged then
      (valueOf ctx.toViewport f.feature u).bind fun v1 =>
        (valueOf ctx.toViewport f.feature w).map fun v2 => chain f.feature op1 op2 v1 v2
    else none) = some n ∧ mqEvalFeature ctx n = .yes) ↔ Holds ctx f op1.flip u ∧ Holds ctx f op2 w := by
  rw [Holds, Holds]
  cases hr : f.feature.ranged
  case false => simp
  case true =>
    have htype : f.feature.type ≠ .discrete := type_ne_of_ranged hr
    cases valueOf ctx.toViewport f.feature u
    case none => simp
    case some v1 =>
      cases valueOf ctx.toViewport f.feature w
      case none => simp
      case some v2 =>
        have heval : mqEvalFeature ctx (chain f.feature op1 op2 v1 v2) = .yes ↔
            (∃ cur, mqFeatureCurrent ctx f.feature = some cur ∧
              mqCompare cur.1 cur.2 op1.flip v1.num v1.denom = .yes) ∧
            ∃ cur, mqFeatureCurrent ctx f.feature = some cur ∧
              mqCompare cur.1 cur.2 op2 v2.num v2.denom = .yes := by
          have hand (a b : Tri) : a.and b = .yes ↔ a = .yes ∧ b = .yes := by
            cases a <;> cases b <;> decide
          rw [mqEvalFeature, chain, if_neg htype]
          cases mqFeatureCurrent ctx f.feature <;> simp [hand]
        simp [heval]

theorem matches_left (hw : Plain w) :
    mediaQueryMatches ctx (parenthesised (f.text ++ (op.text ++ w))) ↔ Holds ctx f op w := by
  rw [mediaQueryMatches_parenthesised (balanced_op f.plain hw.balanced) (marked_op f.plain),
    mqParseFeature_left f hw (by decide), exists_compared]

theorem matches_right (hu : Plain u) :
    mediaQueryMatches ctx (parenthesised (u ++ (op.text ++ f.text))) ↔ Holds ctx f op.flip u := by
  rw [mediaQueryMatches_parenthesised (balanced_op hu f.plain.balanced) (marked_op hu),
    mqParseFeature_right f hu (by decide), exists_compared]

theorem matches_chain (hu : Plain u) (hw : Plain w) (hop : op1.isLt && op2.isLt || op1.isGt && op2.isGt) :
    mediaQueryMatches ctx (parenthesised (u ++ (op1.text ++ (f.text ++ (op2.text ++ w))))) ↔
      Holds ctx f op1.flip u ∧ Holds ctx f op2 w := by
  rw [mediaQueryMatches_parenthesised (balanced_op hu (balanced_op f.plain hw.balanced)) (marked_op hu),
    mqParseFeature_chain f hu hw (by decide) hop, exists_chain]

theorem matches_bound {b : BoundName} (hw : Plain w) :
    mediaQueryMatches ctx (parenthesised (f.prefixed b.text ++ ':' :: w)) ↔ Holds ctx f b.bound.comparison w := by
  have hprefixed : Plain (f.prefixed b.text) := f.plain_prefixed b.spells
  have hbal : Balanced (f.prefixed b.text ++ ':' :: w) := by
    rw [Balanced, clear_append, hprefixed.balanced, Option.bind_some]
    exact hw.balanced
  obtain ⟨minmax, hparse⟩ := mqParseFeature_bound ctx.toViewport f b.spells hw (c := ')') (r := []) (by decide)
  rw [mediaQueryMatches_parenthesised hbal ⟨_, ':', w, rfl, hprefixed, by decide⟩, hparse, ← exists_compared]
  constructor
  case mp =>
    rintro ⟨n', hn', he⟩
    obtain ⟨n, hn, rfl⟩ := Option.map_eq_some_iff.mp hn'
    exact ⟨n, hn, (mqEvalFeature_compared minmax hn).symm.trans he⟩
  case mpr =>
    rintro ⟨n, hn, he⟩
    exact ⟨{ n with minmax }, by rw [hn, Option.map_some], (mqEvalFeature_compared minmax hn).trans he⟩

end Laws

section Lists

variable {s r : CString} {c : Char} {d e : Nat × Nat}

theorem exists_items_cons (h : items d (c :: s) = some e) : ∃ k, itemStep d c = some k ∧ items k s = some e := by
  change (itemStep d c).bind _ = _ at h
  exact Option.bind_eq_some_iff.mp h

theorem clear_of_items (h : items d s = some e) : clear [] d.1 s = some e.1 := by
  induction s generalizing d
  case nil =>
    obtain rfl := Option.some.inj h
    rfl
  case cons c s hi =>
    obtain ⟨k, hk, hs⟩ := exists_items_cons h
    have hc : clearStep [] d.1 c = some k.1 := by
      rw [itemStep] at hk
      rw [clearStep]
      split at hk
      case isTrue h₁ =>
        obtain rfl := Option.some.inj hk
        rw [if_pos h₁]
      case isFalse h₁ =>
        rw [if_neg h₁]
        split at hk
        case isTrue h₂ =>
          rw [if_pos h₂]
          split at hk
          case isTrue => cases hk
          case isFalse h₃ =>
            obtain rfl := Option.some.inj hk
            rw [if_neg h₃]
        case isFalse h₂ =>
          rw [if_neg h₂, if_neg (by simp)]
          split at hk
          · obtain rfl := Option.some.inj hk
            rfl
          · split at hk
            · split at hk
              · cases hk
              · obtain rfl := Option.some.inj hk
                rfl
            · split at hk
              · cases hk
              · obtain rfl := Option.some.inj hk
                rfl
    rw [clear_cons, hc, Option.bind_some, hi hs]

theorem mqSplitNext_append (h : items d s = some e) : mqSplitNext d.1 d.2 (s ++ r) =
    (s ++ (mqSplitNext e.1 e.2 r).1, (mqSplitNext e.1 e.2 r).2) := by
  induction s generalizing d
  case nil =>
    obtain rfl := Option.some.inj h
    rfl
  case cons c s hi =>
    obtain ⟨k, hk, hs⟩ := exists_items_cons h
    have hc : mqSplitNext d.1 d.2 (c :: (s ++ r)) =
        (c :: (mqSplitNext k.1 k.2 (s ++ r)).1, (mqSplitNext k.1 k.2 (s ++ r)).2) := by
      have hcomma : ¬(c = ',' ∧ d.1 = 0 ∧ d.2 = 0) := by
        rintro ⟨rfl, h₁, h₂⟩
        have hd : d = (0, 0) := Prod.ext h₁ h₂
        subst hd
        cases hk
      rw [mqSplitNext, if_neg hcomma]
      rw [itemStep] at hk
      split at hk
      case isTrue h₁ =>
        obtain rfl := Option.some.inj hk
        simp only [h₁, if_true]
      case isFalse h₁ =>
        split at hk
        case isTrue h₂ =>
          split at hk
          case isTrue => cases hk
          case isFalse =>
            obtain rfl := Option.some.inj hk
            rw [if_neg h₁, if_pos h₂]
        case isFalse h₂ =>
          rw [if_neg h₁, if_neg h₂]
          split at hk
          case isTrue h₃ =>
            obtain rfl := Option.some.inj hk
            rw [if_pos h₃]
          case isFalse h₃ =>
            rw [if_neg h₃]
            split at hk
            case isTrue h₄ =>
              split at hk
              case isTrue => cases hk
              case isFalse =>
                obtain rfl := Option.some.inj hk
                rw [if_pos h₄]
            case isFalse h₄ =>
              rw [if_neg h₄]
              split at hk
              case isTrue  => cases hk
              case isFalse =>
                obtain rfl := Option.some.inj hk
                rfl
    rw [List.cons_append, hc, hi hs]
    rfl

theorem items_skipWs (h : items d s = some e) : items d (skipWs s) = some e := by
  induction s
  case nil => exact h
  case cons c s hi =>
    by_cases hc : mqIsWs c
    case neg => rwa [skipWs, List.dropWhile_cons_of_neg hc]
    case pos =>
      have hstep : itemStep d c = some d := by
        simp only [mqIsWs, Bool.or_eq_true, beq_iff_eq] at hc
        obtain (((rfl | rfl) | rfl) | rfl) | rfl := hc <;> rfl
      obtain ⟨k, hk, hs⟩ := exists_items_cons h
      obtain rfl := Option.some.inj (hstep.symm.trans hk)
      rw [skipWs, List.dropWhile_cons_of_pos hc]
      exact hi hs

variable {D : Type} [Double D] {ctx : Context D} {qs : List QueryText}

-- Whether a text matches as a query.
def queryMatches (ctx : Context D) (s : CString) : Bool :=
  mqEvalQuery ctx (mqParseQuery ctx.toViewport s []) = .yes

theorem queryMatches_nil : queryMatches ctx [] = false := by
  rfl

theorem matchLoop_append (hs : items (0, 0) s = some (0, 0)) {fuel : Nat}
    (hfuel : (s ++ qs.flatMap fun q => ',' :: q.text).length < fuel) :
    matchLoop ctx fuel (s ++ qs.flatMap fun q => ',' :: q.text) =
      (queryMatches ctx s || qs.any fun q => queryMatches ctx q.text) := by
  have hone (s : CString) (b : Bool) :
      (if mqEvalQuery ctx (mqParseQuery ctx.toViewport s []) = .yes then true else b) =
        (queryMatches ctx s || b) := by
    rw [queryMatches]
    split
    case isTrue h  => rw [decide_eq_true h, Bool.true_or]
    case isFalse h => rw [decide_eq_false h, Bool.false_or]
  induction qs generalizing s fuel
  case nil =>
    obtain ⟨fuel, rfl⟩ : ∃ n, fuel = n + 1 := ⟨fuel - 1, by omega⟩
    rw [List.flatMap_nil, matchLoop, List.any_nil, Bool.or_false]
    split
    case isTrue hnil => rw [(List.append_eq_nil_iff.mp hnil).left, queryMatches_nil]
    case isFalse =>
      have hrest (fuel : Nat) : matchLoop ctx fuel ([].drop 1) = false := by cases fuel <;> rfl
      have hsplit : mqSplitNext 0 0 (s ++ []) = (s, []) := by
        rw [mqSplitNext_append hs]
        simp [mqSplitNext]
      rw [hsplit]
      dsimp only
      rw [hrest, hone, Bool.or_false]
  case cons q qs hi =>
    obtain ⟨fuel, rfl⟩ : ∃ n, fuel = n + 1 := ⟨fuel - 1, by omega⟩
    have hsplit : mqSplitNext 0 0 (s ++ ',' :: (q.text ++ qs.flatMap fun q => ',' :: q.text)) =
        (s, ',' :: (q.text ++ qs.flatMap fun q => ',' :: q.text)) := by
      rw [mqSplitNext_append hs]
      simp [mqSplitNext]
    have hlen : (q.text ++ qs.flatMap fun q => ',' :: q.text).length < fuel := by
      simp only [List.flatMap_cons, List.length_append, List.length_cons] at hfuel ⊢
      omega
    rw [List.flatMap_cons, List.cons_append, matchLoop, if_neg (by simp), hsplit, List.any_cons]
    dsimp only
    rw [mqParseQuery_congr (clear_of_items hs), List.drop_succ_cons, List.drop_zero, hi q.balanced hlen, hone]

theorem QueryText.skipWs_ne_nil (q : QueryText) : skipWs q.text ≠ [] := by
  obtain ⟨c, hm, hc⟩ := q.nonempty
  intro hnil
  rw [List.dropWhile_eq_nil_iff.mp hnil c hm] at hc
  cases hc

variable (ctx) in
theorem mediaQueryMatches_joined (q : QueryText) (qs : List QueryText) :
    mediaQueryMatches ctx (joined q qs) =
      (queryMatches ctx q.text || qs.any fun q => queryMatches ctx q.text) := by
  obtain ⟨c, hm, hc⟩ := q.nonempty
  obtain ⟨u, w, ht⟩ := List.append_of_mem hm
  have hskip : skipWs (joined q qs) = skipWs q.text ++ qs.flatMap fun q => ',' :: q.text := by
    rw [joined, ht, List.append_assoc, List.cons_append, skipWs, dropWhile_append_cons hc, skipWs,
      dropWhile_append_cons hc]
    simp
  have hne : skipWs q.text ++ (qs.flatMap fun q => ',' :: q.text) ≠ [] := by
    simp [q.skipWs_ne_nil]
  have hmatch : queryMatches ctx (skipWs q.text) = queryMatches ctx q.text := by
    rw [queryMatches, mqParseQuery_skipWs, queryMatches]
  rw [mediaQueryMatches, hskip, if_neg hne, matchLoop_append (items_skipWs q.balanced) (Nat.lt_succ_self _),
    hmatch]

end Lists

end Nordstjernen.Css.Media
