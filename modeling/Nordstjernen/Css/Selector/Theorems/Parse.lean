import Nordstjernen.Css.Selector.Theorems.Grammar
import Nordstjernen.Css.Selector.Theorems.Tokens

open Nordstjernen.Glib Nordstjernen.Css.Syntax
open Nordstjernen.Css.Gather (Comb)

namespace Nordstjernen.Css.Selector

variable {group : Context → CString → List Sel × Raised} {ctx : Context} {b : Building} {n : Nat}
  {p rest : CString} {c : Char} {cs : CString} {ts : List SimpleToken} {comb : Comb} {checked : Bool}

-- The equations of what is matched on most are derived here, once for all the proofs below.
section
attribute [local simp] tokAt selectorLoop
end

section Step

theorem comb?_ne_none (h : comb? c = some comb) : comb ≠ .none := by
  rintro rfl
  rw [comb?] at h
  repeat' split at h
  all_goals cases h

-- What token begins with a character, and when.
theorem tokAt_eq_comma_or_brace (h : (tokAt c cs).fst = .comma ∨ (tokAt c cs).fst = .brace) :
    (c == ',' || c == '{') = true := by
  by_contra hc
  obtain ⟨h₁, h₂⟩ := Bool.or_eq_false_iff.mp (Bool.of_not_eq_true hc)
  rw [tokAt, h₁, h₂] at h
  simp only [Bool.false_eq_true, if_false] at h
  split at h
  · obtain h | h := h <;> cases h
  · split at h <;> obtain h | h := h <;> cases h

theorem tokAt_eq_comb (h : tokAt c cs = (.comb comb, rest)) :
    (c == ',' || c == '{') = false ∧ comb? c = some comb ∧ rest = cs := by
  rw [tokAt] at h
  split at h
  case isTrue      => cases h
  case isFalse hc =>
    split at h
    case isTrue      => cases h
    case isFalse hb =>
      cases hk : comb? c
      case some k => rw [hk] at h; cases h; simp [hc, hb]
      case none   =>
        simp only [hk] at h
        split at h <;> cases h

theorem tokAt_eq_other {d : Char} (h : (tokAt c cs).fst = .other d) :
    (c == ',' || c == '{') = false ∧ comb? c = none ∧ readCompound (cs.length + 1) (c :: cs) = ([], c :: cs) := by
  rw [tokAt] at h
  split at h
  case isTrue      => cases h
  case isFalse hc =>
    split at h
    case isTrue      => cases h
    case isFalse hb =>
      cases hk : comb? c
      case some k => rw [hk] at h; cases h
      case none   =>
        refine ⟨by simp [hc, hb], rfl, ?_⟩
        cases hr : readSimple (c :: cs)
        case none   => exact readCompound_eq_of_none hr
        case some r => simp [hk, readCompound_succ hr] at h

theorem tokAt_eq_compound (h : tokAt c cs = (.compound ts, rest)) :
    (c == ',' || c == '{') = false ∧ comb? c = none ∧ readCompound (cs.length + 1) (c :: cs) = (ts, rest) ∧
      readSimple (c :: cs) ≠ none := by
  rw [tokAt] at h
  split at h
  case isTrue      => cases h
  case isFalse hc =>
    split at h
    case isTrue      => cases h
    case isFalse hb =>
      cases hk : comb? c
      case some k => rw [hk] at h; cases h
      case none   =>
        simp only [hk] at h
        split at h
        case isTrue      => cases h
        case isFalse hne =>
          cases h
          refine ⟨by simp [hc, hb], rfl, rfl, fun hr => ?_⟩
          rw [readCompound_eq_of_none hr] at hne
          exact hne rfl

theorem selectorLoop_nil (h : cssSkipWsComments p = []) (hn : p.length ≤ n) :
    selectorLoop group ctx n b p = (b, []) := by
  cases n
  case zero   =>
    rw [List.eq_nil_of_length_eq_zero (Nat.le_zero.mp hn)]
    rfl
  case succ n => simp only [selectorLoop, h]

-- The loop stops at a comma and at a brace.
theorem selectorLoop_stop (h : cssSkipWsComments p = c :: cs)
    (ht : (tokAt c cs).fst = .comma ∨ (tokAt c cs).fst = .brace) :
    selectorLoop group ctx (n + 1) b p = (b, c :: cs) := by
  simp only [selectorLoop, h, tokAt_eq_comma_or_brace ht, if_true]

theorem selectorLoop_comb (h : cssSkipWsComments p = c :: cs) (ht : tokAt c cs = (.comb comb, rest)) :
    selectorLoop group ctx (n + 1) b p = selectorLoop group ctx n (b.combinator ctx comb) rest := by
  obtain ⟨hc, hk, rfl⟩ := tokAt_eq_comb ht
  simp only [selectorLoop, h, hc, Bool.false_eq_true, if_false, hk]

theorem selectorLoop_other {d : Char} (h : cssSkipWsComments p = c :: cs) (ht : (tokAt c cs).fst = .other d) :
    selectorLoop group ctx (n + 1) b p = (b.space ((c :: cs).length < p.length), c :: cs) := by
  obtain ⟨hc, hk, hr⟩ := tokAt_eq_other ht
  have hd : compound group ctx [] = {} := rfl
  simp only [selectorLoop, h, hc, Bool.false_eq_true, if_false, hk, hr, hd, Raised.or_default]

theorem selectorLoop_compound (h : cssSkipWsComments p = c :: cs) (ht : tokAt c cs = (.compound ts, rest)) :
    selectorLoop group ctx (n + 1) b p =
      let b := b.space ((c :: cs).length < p.length)
      let d := compound group ctx ts
      if d.any then selectorLoop group ctx n (b.push d) rest else ({ b with raised := b.raised.or d.raised }, rest) := by
  obtain ⟨hc, hk, hr, -⟩ := tokAt_eq_compound ht
  simp only [selectorLoop, h, hc, Bool.false_eq_true, if_false, hk, hr]

end Step

section Flags

theorem flags_of_none (h : b.pending = .none) : b.flags = b.raised := by
  rw [Building.flags, h]

theorem flags_of_pending (h : b.pending ≠ .none) : b.flags.fails checked := by
  refine Raised.fails_of_error ?_
  rw [Building.flags]
  split
  case h_1 hn => exact absurd hn h
  case h_2    => simp

theorem flags_fails (h : b.raised.fails checked) : b.flags.fails checked := by
  rw [Building.flags]
  split
  · exact h
  · rw [Raised.fails_or, h, Bool.true_or]

theorem raised_space {hadWs : Bool} : (b.space hadWs).raised = b.raised := by
  rw [Building.space]
  split <;> rfl

theorem raised_combinator (h : b.raised.fails checked) : (b.combinator ctx comb).raised.fails checked := by
  rw [Building.combinator]
  dsimp only
  split
  · exact h
  · split
    · rw [Raised.fails_or, h, Bool.true_or]
    · exact h

-- A flag that has been raised stays.
theorem selectorLoop_fails (h : b.raised.fails checked) :
    (selectorLoop group ctx n b p).fst.raised.fails checked := by
  induction n generalizing b p
  case zero      => exact h
  case succ n hi =>
    cases hs : cssSkipWsComments p
    case nil       => simpa only [selectorLoop, hs] using h
    case cons c cs =>
      have hsp {hadWs} : (b.space hadWs).raised.fails checked := by rwa [raised_space]
      cases ht : tokAt c cs
      case mk t rest =>
      cases t
      case comma        => rwa [selectorLoop_stop hs (.inl (by rw [ht]))]
      case brace        => rwa [selectorLoop_stop hs (.inr (by rw [ht]))]
      case comb comb    => rw [selectorLoop_comb hs ht]; exact hi (raised_combinator h)
      case other d      => rw [selectorLoop_other hs (d := d) (by rw [ht])]; exact hsp
      case gap b        => exact absurd (congrArg Prod.fst ht) tokAt_ne_gap
      case compound ts =>
        rw [selectorLoop_compound hs ht]
        dsimp only
        split
        · exact hi (by rw [Building.push, Raised.fails_or, hsp, Bool.true_or])
        · rw [Raised.fails_or, hsp, Bool.true_or]

end Flags

section Selector

-- Where a selector stands that has a compound already.
structure AtCompound (b : Building) : Prop where
  some    : b.sel.compounds ≠ []
  pending : b.pending = .none
  expect  : b.expectCompound = false

structure AtComb (b : Building) : Prop where
  some    : b.sel.compounds ≠ []
  pending : b.pending ≠ .none
  expect  : b.expectCompound = true

def Building.At (b : Building) : Phase → Prop
  | .compound => AtCompound b
  | .comb     => AtComb b
  | _         => False

theorem atCompound_push {d : Compound} : AtCompound (b.push d) where
  some    := by simp [Building.push]
  pending := rfl
  expect  := rfl

theorem AtCompound.combinator (h : AtCompound b) (hr : ctx.relative = false) (hc : comb ≠ .none) :
    AtComb (b.combinator ctx comb) ∧ (b.combinator ctx comb).raised = b.raised := by
  have he : b.sel.compounds.isEmpty = false := by simpa using h.some
  rw [Building.combinator]
  simp only [hr, he, h.expect, Bool.false_and, Bool.false_eq_true, Bool.or_self, if_false]
  exact ⟨⟨h.some, hc, rfl⟩, trivial⟩

theorem AtComb.combinator (h : AtComb b) (hr : ctx.relative = false) :
    (b.combinator ctx comb).raised.error := by
  rw [Building.combinator]
  simp [hr, h.expect]

theorem AtComb.space {hadWs : Bool} (h : AtComb b) : b.space hadWs = b := by
  rw [Building.space, h.expect]
  simp

theorem AtCompound.pending_space (h : AtCompound b) : (b.space true).pending ≠ .none := by
  rw [Building.space, h.expect]
  simp

-- Whether a compound selector raises no flag that counts.
def allows (group : Context → CString → List Sel × Raised) (ctx : Context) (checked : Bool)
    (cs : List SimpleToken) : Bool :=
  !(compound group ctx cs).raised.fails checked

-- The rest of a list behind a selector. What stands there and is no comma is overlooked.
def resume (checked : Bool) (ok : List SimpleToken → Bool) : List Tok → Bool
  | .comma :: ts => overlooks checked ok true .item ts
  | _            => true

def isStop : Tok → Bool
  | .comma   => true
  | .brace   => true
  | .other _ => true
  | _        => false

-- What the loop leaves of a text that it has not failed on.
structure Left (p rest : CString) : Prop where
  noGap : NoGap rest
  stops : ∀ t ∈ (tokens rest).head?, isStop t
  le    : rest.length ≤ p.length

-- What the loop comes to. `goesOn` is whether the tokens, and those behind them, are a list.
structure Ends (group : Context → CString → List Sel × Raised) (ctx : Context) (checked : Bool) (p : CString)
    (goesOn : Bool) (r : Building × CString) : Prop where
  eq   : goesOn = (!r.fst.flags.fails checked && resume checked (allows group ctx checked) (tokens r.snd))
  left : r.fst.flags.fails checked = false → Left p r.snd ∧ r.fst.sel.compounds ≠ []

theorem Ends.of_fails {goesOn : Bool} {r : Building × CString} (hg : goesOn = false) (hf : r.fst.flags.fails checked) :
    Ends group ctx checked p goesOn r where
  eq     := by rw [hg, hf]; rfl
  left h := by rw [hf] at h; cases h

theorem Left.mono {q : CString} (h : Left q rest) (hl : q.length ≤ p.length) : Left p rest where
  noGap := h.noGap
  stops := h.stops
  le    := h.le.trans hl

theorem left_nil : Left p [] where
  noGap := rfl
  stops := by rintro _ ⟨⟩
  le    := Nat.zero_le _

theorem left_of_skip (h : cssSkipWsComments p = c :: cs) (ht : isStop (tokAt c cs).fst) : Left p (c :: cs) where
  noGap := h ▸ noGap_cssSkipWsComments
  stops := by
    rw [tokens_of_noGap (h ▸ noGap_cssSkipWsComments)]
    rintro t ⟨⟩
    exact ht
  le    := h ▸ cssSkipWsComments_suffix.length_le

-- The tokens of a text that is not blank, with the gap in front.
theorem tokens_of_skip (h : cssSkipWsComments p = c :: cs) :
    ((c :: cs).length < p.length → ∃ g, tokens p = .gap g :: (tokAt c cs).fst :: tokens (tokAt c cs).snd) ∧
      (¬(c :: cs).length < p.length → tokens p = (tokAt c cs).fst :: tokens (tokAt c cs).snd) := by
  have ht : tokens (c :: cs) = (tokAt c cs).fst :: tokens (tokAt c cs).snd :=
    tokens_of_noGap (h ▸ noGap_cssSkipWsComments)
  constructor
  · intro hl
    have hg := tokens_gap (p := p) (h ▸ hl)
    rw [h, ht] at hg
    exact ⟨_, hg⟩
  · intro hl
    have hp : p = c :: cs := by
      rw [← h] at hl ⊢
      exact (cssSkipWsComments_suffix.eq_of_length_le (Nat.le_of_not_lt hl)).symm
    rw [hp, ht]

variable {φ : Phase} {seen : Bool}

theorem overlooks_comb_stop {t : Tok} {ts : List Tok} {ok : List SimpleToken → Bool} (ht : isStop t) :
    overlooks checked ok seen .comb (t :: ts) = false := by
  cases t <;> simp_all [isStop, overlooks]

-- The loop stops with a combinator pending.
theorem ends_of_pending {goesOn : Bool} (hg : goesOn = false) (h : b.pending ≠ .none) :
    Ends group ctx checked p goesOn (b, rest) :=
  .of_fails hg (flags_of_pending h)

theorem overlooks_comb_of_skip {ok : List SimpleToken → Bool} (h : cssSkipWsComments p = c :: cs) :
    overlooks checked ok seen .comb (tokens p) =
      overlooks checked ok true .comb ((tokAt c cs).fst :: tokens (tokAt c cs).snd) := by
  have hs {ts} : overlooks checked ok seen .comb ts = overlooks checked ok true .comb ts := by
    cases ts
    case nil       => simp [overlooks]
    case cons t ts => cases t <;> simp [overlooks]
  obtain ⟨hgap, hno⟩ := tokens_of_skip h
  by_cases hl : (c :: cs).length < p.length
  case pos => obtain ⟨g, hg⟩ := hgap hl; rw [hg, overlooks]
  case neg => rw [hno hl, hs]

theorem ends_nil (h : cssSkipWsComments p = []) (hn : p.length ≤ n) (hb : b.At φ)
    (hf : b.raised.fails checked = false) :
    Ends group ctx checked p (overlooks checked (allows group ctx checked) seen φ (tokens p))
      (selectorLoop group ctx n b p) := by
  have ht : tokens p = [] ∨ ∃ g, tokens p = [.gap g] := by
    obtain hg | hg := noGap_or p
    case inl => rw [← hg, h]; exact .inl rfl
    case inr => rw [tokens_gap hg, h]; exact .inr ⟨_, rfl⟩
  rw [selectorLoop_nil h hn]
  cases φ
  case compound =>
    refine ⟨?_, fun _ => ⟨left_nil, hb.some⟩⟩
    simp only [flags_of_none hb.pending, hf, tokens_nil, resume]
    obtain ht | ⟨g, ht⟩ := ht <;> simp [ht, overlooks]
  case comb     =>
    refine ends_of_pending ?_ hb.pending
    obtain ht | ⟨g, ht⟩ := ht <;> simp [ht, overlooks]
  all_goals exact hb.elim

-- A compound selector behind a combinator.
theorem ends_push {goesOn : Bool} (hp : b.pending ≠ .none) (hf : b.raised.fails checked = false)
    (hg : goesOn = (allows group ctx checked ts && !ts.all SimpleToken.isNameless &&
      overlooks checked (allows group ctx checked) true .compound (tokens rest)))
    (hi : (b.push (compound group ctx ts)).raised.fails checked = false →
      Ends group ctx checked rest (overlooks checked (allows group ctx checked) true .compound (tokens rest))
        (selectorLoop group ctx n (b.push (compound group ctx ts)) rest))
    (hl : rest.length ≤ p.length) : Ends group ctx checked p goesOn
      (if (compound group ctx ts).any then selectorLoop group ctx n (b.push (compound group ctx ts)) rest
        else ({ b with raised := b.raised.or (compound group ctx ts).raised }, rest)) := by
  have hraised : (b.push (compound group ctx ts)).raised.fails checked = !allows group ctx checked ts := by
    rw [Building.push, Raised.fails_or, hf, Bool.false_or, allows, Bool.not_not]
  rw [compound_any]
  cases hall : ts.all SimpleToken.isNameless
  case true  => exact ends_of_pending (by simp [hg, hall]) hp
  case false =>
    simp only [Bool.not_false, if_true]
    cases ha : allows group ctx checked ts
    case true  =>
      have he := hi (by simp [hraised, ha])
      refine ⟨by rw [hg, ha, hall]; exact he.eq, fun h => ⟨(he.left h).1.mono hl, (he.left h).2⟩⟩
    case false =>
      exact .of_fails (by simp [hg, ha]) (flags_fails (selectorLoop_fails (by simp [hraised, ha])))

theorem selectorLoop_ends (hr : ctx.relative = false) (hn : p.length ≤ n) (hb : b.At φ)
    (hf : b.raised.fails checked = false) (hs : φ = .compound → readSimple p = none) :
    Ends group ctx checked p (overlooks checked (allows group ctx checked) seen φ (tokens p))
      (selectorLoop group ctx n b p) := by
  induction n generalizing p b φ seen
  case zero      =>
    obtain rfl := List.eq_nil_of_length_eq_zero (Nat.le_zero.mp hn)
    exact ends_nil rfl hn hb hf
  case succ n hi =>
    cases hq : cssSkipWsComments p
    case nil       => exact ends_nil hq hn hb hf
    case cons c cs =>
      have hcomb := @overlooks_comb_of_skip _ _ _ checked seen (allows group ctx checked) hq
      obtain ⟨hgap, hno⟩ := tokens_of_skip hq
      cases ht : tokAt c cs
      case mk t rest =>
      rw [ht] at hgap hno hcomb
      have hlc : (c :: cs).length ≤ p.length := hq ▸ cssSkipWsComments_suffix.length_le
      have hlr : rest.length ≤ cs.length := by
        have h₁ := @tokAt_length_le c cs
        rwa [ht] at h₁
      have hl : rest.length ≤ n := by
        simp only [List.length_cons] at hlc
        omega
      have hle : rest.length ≤ p.length := hlr.trans ((Nat.le_succ _).trans hlc)
      have hstop (h : isStop t) : Left p (c :: cs) := left_of_skip hq (by rwa [ht])
      have htok : tokens (c :: cs) = t :: tokens rest := by
        rw [tokens_of_noGap (hq ▸ noGap_cssSkipWsComments), ht]
      cases t
      case gap b       => exact absurd (congrArg Prod.fst ht) tokAt_ne_gap
      case comma       =>
        rw [selectorLoop_stop hq (.inl (by rw [ht]))]
        cases φ
        case compound =>
          refine ⟨?_, fun _ => ⟨hstop rfl, hb.some⟩⟩
          simp only [flags_of_none hb.pending, hf, htok, resume]
          by_cases hg : (c :: cs).length < p.length
          case pos => obtain ⟨g, he⟩ := hgap hg; rw [he]; simp [overlooks]
          case neg => rw [hno hg]; simp [overlooks]
        case comb     => exact ends_of_pending (by rw [hcomb, overlooks_comb_stop rfl]) hb.pending
        all_goals exact hb.elim
      case brace       =>
        rw [selectorLoop_stop hq (.inr (by rw [ht]))]
        cases φ
        case compound =>
          refine ⟨?_, fun _ => ⟨hstop rfl, hb.some⟩⟩
          simp only [flags_of_none hb.pending, hf, htok, resume]
          by_cases hg : (c :: cs).length < p.length
          case pos => obtain ⟨g, he⟩ := hgap hg; rw [he]; simp [overlooks]
          case neg => rw [hno hg]; simp [overlooks]
        case comb     => exact ends_of_pending (by rw [hcomb, overlooks_comb_stop rfl]) hb.pending
        all_goals exact hb.elim
      case other d     =>
        rw [selectorLoop_other hq (d := d) (by rw [ht])]
        cases φ
        case compound =>
          by_cases hg : (c :: cs).length < p.length
          case pos =>
            obtain ⟨g, he⟩ := hgap hg
            rw [decide_eq_true hg]
            exact ends_of_pending (by rw [he]; simp [overlooks]) (AtCompound.pending_space hb)
          case neg =>
            rw [decide_eq_false hg]
            refine ⟨?_, fun _ => ⟨hstop rfl, hb.some⟩⟩
            have hfl : (b.space false).flags = b.raised := flags_of_none hb.pending
            simp only [hfl, hf, htok, resume, hno hg]
            simp [overlooks]
        case comb     =>
          rw [AtComb.space hb]
          exact ends_of_pending (by rw [hcomb, overlooks_comb_stop rfl]) hb.pending
        all_goals exact hb.elim
      case comb comb   =>
        rw [selectorLoop_comb hq ht]
        have hc := comb?_ne_none (tokAt_eq_comb ht).2.1
        cases φ
        case compound =>
          obtain ⟨ha, hraised⟩ := AtCompound.combinator hb hr hc
          have he := @hi (b.combinator ctx comb) rest .comb true hl ha (by rw [hraised, hf]) (by rintro ⟨⟩)
          have ho : overlooks checked (allows group ctx checked) seen .compound (tokens p) =
              overlooks checked (allows group ctx checked) true .comb (tokens rest) := by
            by_cases hg : (c :: cs).length < p.length
            case pos => obtain ⟨g, he⟩ := hgap hg; rw [he]; simp [overlooks]
            case neg => rw [hno hg]; simp [overlooks]
          exact ⟨ho ▸ he.eq, fun h => ⟨(he.left h).1.mono hle, (he.left h).2⟩⟩
        case comb     =>
          refine .of_fails (by rw [hcomb]; simp [overlooks]) (flags_fails (selectorLoop_fails ?_))
          exact Raised.fails_of_error (AtComb.combinator hb hr)
        all_goals exact hb.elim
      case compound ts =>
        have hd := @readSimple_readCompound (c :: cs) (cs.length + 1) (Nat.le_refl _)
        rw [(tokAt_eq_compound ht).2.2.1] at hd
        have hi {b : Building} := @hi (b.push (compound group ctx ts)) rest .compound true hl atCompound_push
        rw [selectorLoop_compound hq ht]
        cases φ
        case compound =>
          by_cases hg : (c :: cs).length < p.length
          case pos =>
            obtain ⟨g, he⟩ := hgap hg
            rw [decide_eq_true hg]
            exact ends_push (AtCompound.pending_space hb) (by rw [raised_space, hf])
              (by rw [he]; simp [overlooks]) (fun h => hi h fun _ => hd) hle
          case neg =>
            have hp : p = c :: cs := by
              rw [← hq] at hg ⊢
              exact (cssSkipWsComments_suffix.eq_of_length_le (Nat.le_of_not_lt hg)).symm
            exact absurd (hp ▸ hs rfl) (tokAt_eq_compound ht).2.2.2
        case comb     =>
          rw [AtComb.space hb]
          exact ends_push hb.pending hf (by rw [hcomb]; simp [overlooks]) (fun h => hi h fun _ => hd) hle
        all_goals exact hb.elim

end Selector

section One

-- What `parse_one_selector` comes to.
inductive Outcome (group : Context → CString → List Sel × Raised) (ctx : Context) (checked : Bool) (p : CString) :
    Option Sel × CString × Raised → Prop
  | nothing (blank : cssSkipWsComments p = []) : Outcome group ctx checked p (none, [], {})
  | stop {c : Char} {cs : CString} (skip : cssSkipWsComments p = c :: cs) (stops : isStop (tokAt c cs).fst) :
    Outcome group ctx checked p (none, c :: cs, {})
  | comb {c : Char} {cs : CString} {comb : Comb} {r : Option Sel × CString × Raised}
    (skip : cssSkipWsComments p = c :: cs) (comb : (tokAt c cs).fst = .comb comb) (fails : r.2.2.fails checked) :
    Outcome group ctx checked p r
  | nameless {c : Char} {cs : CString} {ts : List SimpleToken} {rest : CString}
    (skip : cssSkipWsComments p = c :: cs) (tok : tokAt c cs = (.compound ts, rest))
    (nameless : ts.all SimpleToken.isNameless) :
    Outcome group ctx checked p (none, rest, (compound group ctx ts).raised)
  | selector {c : Char} {cs : CString} {ts : List SimpleToken} {rest : CString} {r : Option Sel × CString × Raised}
    (skip : cssSkipWsComments p = c :: cs) (tok : tokAt c cs = (.compound ts, rest))
    (named : ts.all SimpleToken.isNameless = false)
    (eq : (allows group ctx checked ts && overlooks checked (allows group ctx checked) true .compound (tokens rest)) =
      (!r.2.2.fails checked && resume checked (allows group ctx checked) (tokens r.2.1)))
    (left : r.2.2.fails checked = false → Left rest r.2.1 ∧ r.1.isSome) :
    Outcome group ctx checked p r

theorem space_default {hadWs : Bool} : ({} : Building).space hadWs = {} := by
  simp [Building.space]

theorem parseOneWith_stop (h : cssSkipWsComments p = c :: cs) (ht : isStop (tokAt c cs).fst) :
    parseOneWith group ctx p = (none, c :: cs, {}) := by
  obtain ⟨d, ds, rfl⟩ : ∃ d ds, p = d :: ds := List.exists_cons_of_ne_nil (by rintro rfl; cases h)
  rw [parseOneWith, List.length_cons]
  cases hk : (tokAt c cs).fst
  case comma   => rw [selectorLoop_stop h (.inl hk)]; rfl
  case brace   => rw [selectorLoop_stop h (.inr hk)]; rfl
  case other d => rw [selectorLoop_other h hk, space_default]; rfl
  all_goals rw [hk] at ht; cases ht

theorem parseOneWith_outcome (hr : ctx.relative = false) (hp : p ≠ []) :
    Outcome group ctx checked p (parseOneWith group ctx p) := by
  obtain ⟨d, ds, rfl⟩ := List.exists_cons_of_ne_nil hp
  cases hq : cssSkipWsComments (d :: ds)
  case nil       =>
    rw [parseOneWith, selectorLoop_nil hq (Nat.le_refl _)]
    exact .nothing hq
  case cons c cs =>
    by_cases hs : isStop (tokAt c cs).fst
    case pos => rw [parseOneWith_stop hq hs]; exact .stop hq hs
    case neg =>
    cases ht : tokAt c cs
    case mk t rest =>
    rw [ht] at hs
    rw [parseOneWith, List.length_cons]
    cases t
    case gap b                   => exact absurd (congrArg Prod.fst ht) tokAt_ne_gap
    case comma | brace | other d => exact absurd rfl hs
    case comb comb               =>
      rw [selectorLoop_comb hq ht]
      refine .comb hq (show (tokAt c cs).fst = .comb comb by rw [ht]) (flags_fails (selectorLoop_fails (Raised.fails_of_error ?_)))
      simp [Building.combinator, hr]
    case compound ts             =>
      have hle : rest.length ≤ ds.length := by
        have h₁ := @tokAt_length_le c cs
        have h₂ := (cssSkipWsComments_suffix (p := d :: ds)).length_le
        rw [ht] at h₁
        rw [hq] at h₂
        simp only [List.length_cons] at h₂
        exact h₁.trans (Nat.le_of_succ_le_succ h₂)
      have hraised : (({} : Building).push (compound group ctx ts)).raised = (compound group ctx ts).raised :=
        Raised.default_or
      have hd := @readSimple_readCompound (c :: cs) (cs.length + 1) (Nat.le_refl _)
      rw [(tokAt_eq_compound ht).2.2.1] at hd
      rw [selectorLoop_compound hq ht, space_default]
      simp only [compound_any]
      cases hall : ts.all SimpleToken.isNameless
      case true  =>
        simp only [Bool.not_true, Bool.false_eq_true, if_false, Raised.default_or]
        exact .nameless hq ht hall
      case false =>
        simp only [Bool.not_false, if_true]
        cases ha : allows group ctx checked ts
        case true  =>
          have he := @selectorLoop_ends group ctx _ ds.length rest checked .compound true hr hle
            atCompound_push (by rw [hraised]; simpa [allows] using ha) fun _ => hd
          refine .selector hq ht hall (by rw [ha]; exact he.eq) fun h => ⟨(he.left h).1, ?_⟩
          simp [(he.left h).2]
        case false =>
          have hf : (selectorLoop group ctx ds.length (({} : Building).push (compound group ctx ts)) rest).1.flags.fails
              checked := flags_fails (selectorLoop_fails (by rw [hraised]; simpa [allows] using ha))
          exact .selector hq ht hall (by simp [ha, hf]) fun h => by rw [hf] at h; cases h

end One

end Nordstjernen.Css.Selector
