import Nordstjernen.Css.Media.Query

open Nordstjernen.Glib

namespace Nordstjernen.Css.Media

-- How many parentheses are open behind a character, given how many are open before it. There is no answer where it
-- closes one that is not open, nor where it is one of the stops and in no parentheses.
def clearStep (stops : CString) (depth : Nat) (c : Char) : Option Nat :=
  if c = '(' then some (depth + 1)
  else if c = ')' then if depth = 0 then none else some (depth - 1)
  else if depth = 0 ∧ c ∈ stops then none
  else some depth

def clear (stops : CString) (depth : Nat) (s : CString) : Option Nat :=
  s.foldlM (clearStep stops) depth

def Balanced (s : CString) : Prop :=
  clear [] 0 s = some 0

-- What takes a feature apart.
def marks : CString :=
  ['<', '>', '=', ':']

-- A text that stands on one side of such a mark.
def Plain (s : CString) : Prop :=
  clear marks 0 s = some 0

section Clear

variable {stops s r : CString} {d e : Nat} {c : Char}

@[simp]
theorem clear_nil : clear stops d [] = some d :=
  rfl

theorem clear_cons : clear stops d (c :: s) = (clearStep stops d c).bind fun e => clear stops e s :=
  rfl

theorem clear_append : clear stops d (s ++ r) = (clear stops d s).bind fun e => clear stops e r :=
  List.foldlM_append

theorem exists_clear_of_append (h : clear stops d (s ++ r) = some e) :
    ∃ k, clear stops d s = some k ∧ clear stops k r = some e := by
  rw [clear_append, Option.bind_eq_some_iff] at h
  exact h

theorem exists_clear_of_cons (h : clear stops d (c :: s) = some e) :
    ∃ k, clearStep stops d c = some k ∧ clear stops k s = some e := by
  rw [clear_cons, Option.bind_eq_some_iff] at h
  exact h

theorem clear_of_append (hs : clear stops d s = some d) (h : clear stops d (s ++ r) = some e) :
    clear stops d r = some e := by
  rwa [clear_append, hs] at h

-- In more parentheses nothing is closed that was not closed before, and there is nothing to stop at.
theorem clearStep_succ (h : clearStep stops d c = some e) (k : Nat) (stops' : CString) :
    clearStep stops' (d + k + 1) c = some (e + k + 1) := by
  rw [clearStep] at h ⊢
  split at h
  case isTrue hc =>
    obtain rfl := Option.some.inj h
    rw [if_pos hc]
    congr 1
    omega
  case isFalse hc =>
    rw [if_neg hc]
    split at h
    case isTrue hc' =>
      split at h
      case isTrue => cases h
      case isFalse hd =>
        obtain rfl := Option.some.inj h
        rw [if_pos hc', if_neg (by omega)]
        congr 1
        omega
    case isFalse hc' =>
      split at h
      case isTrue => cases h
      case isFalse =>
        obtain rfl := Option.some.inj h
        rw [if_neg hc', if_neg (by omega)]

theorem clear_succ (h : clear stops d s = some e) (k : Nat) (stops' : CString) :
    clear stops' (d + k + 1) s = some (e + k + 1) := by
  induction s generalizing d
  case nil => rw [clear_nil, Option.some.inj h]
  case cons c s hi =>
    obtain ⟨d', hc, hs⟩ := exists_clear_of_cons h
    rw [clear_cons, clearStep_succ hc, Option.bind_some, hi hs]

theorem clearStep_flat (hs : c ≠ '(' ∧ c ≠ ')' ∧ c ∉ stops) : clearStep stops d c = some d := by
  rw [clearStep, if_neg hs.left, if_neg hs.right.left, if_neg fun h => hs.right.right h.right]

theorem clear_flat (hs : ∀ c ∈ s, c ≠ '(' ∧ c ≠ ')' ∧ c ∉ stops) : clear stops d s = some d := by
  induction s
  case nil => rfl
  case cons c s hi =>
    rw [clear_cons, clearStep_flat (hs c List.mem_cons_self), Option.bind_some]
    exact hi fun x hx => hs x (List.mem_cons_of_mem _ hx)

-- With fewer stops a text is read as far.
theorem clear_of_subset {stops' : CString} (hsub : stops' ⊆ stops) (h : clear stops d s = some e) :
    clear stops' d s = some e := by
  induction s generalizing d
  case nil => exact h
  case cons c s hi =>
    obtain ⟨d', hc, hs⟩ := exists_clear_of_cons h
    have hc' : clearStep stops' d c = some d' := by
      rw [clearStep] at hc ⊢
      split at hc
      case isTrue h₁ => rw [if_pos h₁, hc]
      case isFalse h₁ =>
        rw [if_neg h₁]
        split at hc
        case isTrue h₂ => rw [if_pos h₂, hc]
        case isFalse h₂ =>
          rw [if_neg h₂]
          split at hc
          case isTrue => cases hc
          case isFalse h₃ => rw [if_neg fun h => h₃ ⟨h.left, hsub h.right⟩, hc]
    rw [clear_cons, hc', Option.bind_some, hi hs]

theorem Plain.balanced (h : Plain s) : Balanced s :=
  clear_of_subset (List.nil_subset _) h

-- What is opened is closed.
theorem mem_close_of_clear (h : clear stops (d + 1) s = some 0) : ')' ∈ s := by
  induction s generalizing d
  case nil => cases h
  case cons c s hi =>
    obtain ⟨d', hc, hs⟩ := exists_clear_of_cons h
    by_cases hclose : c = ')'
    case pos => exact hclose ▸ List.mem_cons_self
    case neg =>
      refine List.mem_cons_of_mem _ ?_
      rw [clearStep] at hc
      split at hc
      case isTrue =>
        obtain rfl := Option.some.inj hc
        exact hi hs
      case isFalse =>
        rw [if_neg (by omega)] at hc
        obtain rfl := Option.some.inj hc
        exact hi hs

theorem exists_close_of_balanced (h : Balanced s) {t : CString} (ht : '(' :: t <:+ s) : ')' ∈ t := by
  obtain ⟨u, rfl⟩ := ht
  obtain ⟨k, -, hk⟩ := exists_clear_of_append h
  exact mem_close_of_clear (d := k) hk

end Clear

section Scans

variable {s r : CString} {d e : Nat} {c : Char}

theorem mqFindOp_cons (h : clearStep marks d c = some e) :
    mqFindOp d (c :: r) = (mqFindOp e r).map fun x => (c :: x.1, x.2) := by
  rw [clearStep] at h
  rw [mqFindOp]
  split at h
  case isTrue hc =>
    obtain rfl := Option.some.inj h
    rw [if_pos hc]
  case isFalse hc =>
    rw [if_neg hc]
    split at h
    case isTrue hc' =>
      split at h
      case isTrue => cases h
      case isFalse =>
        obtain rfl := Option.some.inj h
        rw [if_pos hc']
    case isFalse hc' =>
      split at h
      case isTrue => cases h
      case isFalse hstop =>
        obtain rfl := Option.some.inj h
        have hop : ¬(d = 0 ∧ (c = '<' ∨ c = '>' ∨ c = '=')) := by
          refine fun hop => hstop ⟨hop.left, ?_⟩
          obtain ⟨-, rfl | rfl | rfl⟩ := hop <;> decide
        rw [if_neg hc', if_neg hop]

theorem mqFindOp_append (h : clear marks d s = some e) :
    mqFindOp d (s ++ r) = (mqFindOp e r).map fun x => (s ++ x.1, x.2) := by
  induction s generalizing d
  case nil =>
    rw [Option.some.inj h]
    exact (congrFun Option.map_id _).symm
  case cons c s hi =>
    obtain ⟨d', hc, hs⟩ := exists_clear_of_cons h
    rw [List.cons_append, mqFindOp_cons hc, hi hs, Option.map_map]
    rfl

theorem findColon_cons (h : clearStep [':'] d c = some e) :
    findColon d (c :: r) = (findColon e r).map fun x => (c :: x.1, x.2) := by
  rw [clearStep] at h
  rw [findColon]
  split at h
  case isTrue hc =>
    obtain rfl := Option.some.inj h
    rw [if_pos hc]
  case isFalse hc =>
    rw [if_neg hc]
    split at h
    case isTrue hc' =>
      split at h
      case isTrue => cases h
      case isFalse =>
        obtain rfl := Option.some.inj h
        rw [if_pos hc']
    case isFalse hc' =>
      split at h
      case isTrue => cases h
      case isFalse hstop =>
        obtain rfl := Option.some.inj h
        have hcolon : ¬(c = ':' ∧ d = 0) := fun hcolon => hstop ⟨hcolon.right, by simp [hcolon.left]⟩
        rw [if_neg hc', if_neg hcolon]

theorem findColon_append (h : clear [':'] d s = some e) :
    findColon d (s ++ r) = (findColon e r).map fun x => (s ++ x.1, x.2) := by
  induction s generalizing d
  case nil =>
    rw [Option.some.inj h]
    exact (congrFun Option.map_id _).symm
  case cons c s hi =>
    obtain ⟨d', hc, hs⟩ := exists_clear_of_cons h
    rw [List.cons_append, findColon_cons hc, hi hs, Option.map_map]
    rfl

theorem findColon_eq_none (h : clear [':'] d s = some e) : findColon d s = none := by
  have hnone := findColon_append (r := []) h
  rwa [List.append_nil] at hnone

theorem mqFindOp_eq_none (h : clear marks d s = some e) : mqFindOp d s = none := by
  have hnone := mqFindOp_append (r := []) h
  rwa [List.append_nil] at hnone

theorem mqCloseParen_append (h : clear [] d s = some e) :
    mqCloseParen (d + 1) (s ++ r) = (s ++ (mqCloseParen (e + 1) r).1, (mqCloseParen (e + 1) r).2) := by
  induction s generalizing d
  case nil =>
    rw [Option.some.inj h]
    rfl
  case cons c s hi =>
    obtain ⟨d', hc, hs⟩ := exists_clear_of_cons h
    rw [List.cons_append, mqCloseParen]
    rw [clearStep] at hc
    split at hc
    case isTrue hopen =>
      obtain rfl := Option.some.inj hc
      rw [if_pos hopen, hi hs]
      rfl
    case isFalse hopen =>
      rw [if_neg hopen]
      split at hc
      case isTrue hclose =>
        split at hc
        case isTrue => cases hc
        case isFalse hd =>
          obtain rfl := Option.some.inj hc
          rw [if_pos hclose, if_neg (by omega), show d + 1 - 1 = d - 1 + 1 by omega, hi hs]
          rfl
      case isFalse hclose =>
        rw [if_neg (by simp)] at hc
        obtain rfl := Option.some.inj hc
        rw [if_neg hclose, hi hs]
        rfl

theorem mqCloseParen_close : mqCloseParen 1 (')' :: r) = ([], ')' :: r) := by
  rfl

-- Between parentheses that are closed there is no comma to split at.
theorem exists_mqSplitNext_append (h : clear [] d s = some e) (b : Nat) : ∃ b', mqSplitNext (d + 1) b (s ++ r) =
    (s ++ (mqSplitNext (e + 1) b' r).1, (mqSplitNext (e + 1) b' r).2) := by
  induction s generalizing d b
  case nil =>
    rw [Option.some.inj h]
    exact ⟨b, rfl⟩
  case cons c s hi =>
    obtain ⟨d', hc, hs⟩ := exists_clear_of_cons h
    obtain ⟨b', hb⟩ : ∃ b', mqSplitNext (d + 1) b (c :: (s ++ r)) =
        (c :: (mqSplitNext (d' + 1) b' (s ++ r)).1, (mqSplitNext (d' + 1) b' (s ++ r)).2) := by
      rw [mqSplitNext, if_neg (by omega)]
      rw [clearStep] at hc
      split at hc
      case isTrue hopen =>
        obtain rfl := Option.some.inj hc
        exact ⟨b, by rw [if_pos hopen]⟩
      case isFalse hopen =>
        rw [if_neg hopen]
        split at hc
        case isTrue hclose =>
          split at hc
          case isTrue => cases hc
          case isFalse hd =>
            obtain rfl := Option.some.inj hc
            exact ⟨b, by rw [if_pos hclose, show d + 1 - 1 = d - 1 + 1 by omega]⟩
        case isFalse hclose =>
          rw [if_neg (by simp)] at hc
          obtain rfl := Option.some.inj hc
          rw [if_neg hclose]
          split
          · exact ⟨b + 1, rfl⟩
          · split
            · exact ⟨b - 1, rfl⟩
            · exact ⟨b, rfl⟩
    obtain ⟨b'', hi⟩ := hi hs b'
    exact ⟨b'', by rw [List.cons_append, hb, hi]; rfl⟩

end Scans

section Trim

variable {s u w o o' : CString} {c : Char}

theorem trimWs_eq_nil_iff : trimWs s = [] ↔ ∀ c ∈ s, mqIsWs c := by
  rw [trimWs, List.rdropWhile_eq_nil_iff]
  constructor
  case mpr => exact fun h c hc => h c ((List.dropWhile_suffix _).mem hc)
  case mp =>
    intro h
    have hnil : s.dropWhile mqIsWs = [] := by
      rw [← List.dropWhile_idempotent, List.dropWhile_eq_nil_iff]
      exact h
    exact List.dropWhile_eq_nil_iff.mp hnil

theorem dropWhile_append_cons (hc : mqIsWs c = false) :
    (u ++ c :: w).dropWhile mqIsWs = u.dropWhile mqIsWs ++ c :: w := by
  rw [List.dropWhile_append]
  split
  case isTrue h =>
    rw [List.isEmpty_iff.mp h, List.nil_append, List.dropWhile_cons_of_neg (by simp [hc])]
  case isFalse => rfl

theorem rdropWhile_append_cons (hc : mqIsWs c = false) :
    (u ++ c :: w).rdropWhile mqIsWs = u ++ c :: w.rdropWhile mqIsWs := by
  have hrev : (u ++ c :: w).reverse = w.reverse ++ c :: u.reverse := by simp
  rw [List.rdropWhile, hrev, dropWhile_append_cons hc, List.reverse_append, List.reverse_cons,
    List.reverse_reverse, List.append_assoc]
  rfl

-- What is not blank at its ends stays when the text around it is trimmed.
theorem trimWs_append {d : Char} (hc : mqIsWs c = false) (hd : mqIsWs d = false) (ho : c :: o = o' ++ [d]) :
    trimWs (u ++ (c :: o ++ w)) = u.dropWhile mqIsWs ++ (c :: o ++ w.rdropWhile mqIsWs) := by
  rw [trimWs, List.cons_append, dropWhile_append_cons hc, ← List.cons_append, ho, List.append_assoc,
    ← List.append_assoc, List.singleton_append, rdropWhile_append_cons hd]
  simp

theorem exists_blank_trimWs (s : CString) :
    ∃ w, s.dropWhile mqIsWs = trimWs s ++ w ∧ ∀ c ∈ w, mqIsWs c :=
  ⟨_, List.rdropWhile_append_rtakeWhile.symm, fun _ hc => List.mem_rtakeWhile_imp hc⟩

theorem clear_blank {stops : CString} {d : Nat} (hstops : ∀ c ∈ stops, mqIsWs c = false) (hs : ∀ c ∈ s, mqIsWs c) :
    clear stops d s = some d := by
  refine clear_flat fun c hc => ?_
  have hne {x : Char} (hx : mqIsWs x = false) : c ≠ x := by
    rintro rfl
    rw [hs c hc] at hx
    cases hx
  exact ⟨hne (by decide), hne (by decide), fun hm => hne (hstops c hm) rfl⟩

-- Blanks around a text do not count.
theorem clear_dropWhile {stops : CString} {d e : Nat} (hstops : ∀ c ∈ stops, mqIsWs c = false)
    (h : clear stops d s = some e) : clear stops d (s.dropWhile mqIsWs) = some e := by
  rw [← List.takeWhile_append_dropWhile (p := mqIsWs) (l := s)] at h
  exact clear_of_append (clear_blank hstops fun c hc => List.mem_takeWhile_imp hc) h

theorem clear_rdropWhile {stops : CString} {d e : Nat} (hstops : ∀ c ∈ stops, mqIsWs c = false)
    (h : clear stops d s = some e) : clear stops d (s.rdropWhile mqIsWs) = some e := by
  rw [← List.rdropWhile_append_rtakeWhile (p := mqIsWs) (l := s)] at h
  obtain ⟨k, hk, he⟩ := exists_clear_of_append h
  rw [clear_blank hstops fun c hc => List.mem_rtakeWhile_imp hc] at he
  rw [hk, he]

theorem clear_trimWs {stops : CString} {d e : Nat} (hstops : ∀ c ∈ stops, mqIsWs c = false)
    (h : clear stops d s = some e) : clear stops d (trimWs s) = some e :=
  clear_rdropWhile hstops (clear_dropWhile hstops h)

theorem Balanced.trimWs (h : Balanced s) : Balanced (trimWs s) :=
  clear_trimWs (by simp) h

theorem Plain.dropWhile (h : Plain s) : Plain (s.dropWhile mqIsWs) :=
  clear_dropWhile (by decide) h

theorem Plain.rdropWhile (h : Plain s) : Plain (s.rdropWhile mqIsWs) :=
  clear_rdropWhile (by decide) h

theorem trimWs_dropWhile : trimWs (s.dropWhile mqIsWs) = trimWs s := by
  rw [trimWs, List.dropWhile_idempotent, trimWs]

theorem trimWs_rdropWhile : trimWs (s.rdropWhile mqIsWs) = trimWs s := by
  by_cases hs : ∀ c ∈ s, mqIsWs c
  case pos =>
    rw [List.rdropWhile_eq_nil_iff.mpr hs, trimWs_eq_nil_iff.mpr hs]
    rfl
  case neg =>
    simp only [not_forall, Bool.not_eq_true] at hs
    obtain ⟨c, hm, hc⟩ := hs
    obtain ⟨u, w, rfl⟩ := List.append_of_mem hm
    rw [rdropWhile_append_cons hc, trimWs, trimWs, dropWhile_append_cons hc, dropWhile_append_cons hc,
      rdropWhile_append_cons hc, rdropWhile_append_cons hc, List.rdropWhile_idempotent]

end Trim

end Nordstjernen.Css.Media
