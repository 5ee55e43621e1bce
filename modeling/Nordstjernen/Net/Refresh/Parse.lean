import Nordstjernen.Glib.Strings

open Nordstjernen.Glib

namespace Nordstjernen.Net.Refresh

def refreshIsSpace (c : Char) : Bool :=
  c == ' ' || c == '\t' || c == '\n' || c == '\x0c' || c == '\r'

def skipSpace (p : CString) : CString :=
  p.dropWhile refreshIsSpace

-- The values of `time_out` and `url_out`.
structure Target where
  time : Nat
  url  : Option CString
deriving DecidableEq

-- The loop over the digits, which leaves where the number gets too large.
def seconds : Nat → CString → Nat
  | n, []      => n
  | n, d :: ds =>
    let n := n * 10 + (d.toNat - '0'.toNat)
    if n > 2147483647 then 2147483647 else seconds n ds

-- What is behind the keyword `url` and the equals sign, if both are there.
def skipKeyword (p : CString) : CString :=
  match p with
  | u :: q =>
    if u == 'u' || u == 'U' then
      match q with
      | r :: q =>
        if r == 'r' || r == 'R' then
          match q with
          | l :: q =>
            if l == 'l' || l == 'L' then
              match skipSpace q with
              | '=' :: q => skipSpace q
              | _        => p
            else p
          | [] => p
        else p
      | [] => p
    else p
  | [] => p

def urlText (p : CString) : Option CString :=
  match p with
  | []     => none
  | c :: q => some (if c == '\'' || c == '"' then q.takeWhile (· != c) else gStrchomp p)

-- `ns_net_parse_refresh` for an input that is not `NULL`.
def nsNetParseRefresh (input : CString) : Option Target :=
  let p := skipSpace input
  let digits := p.takeWhile (·.isDigit)
  let p := p.dropWhile (·.isDigit)
  if digits = [] ∧ p.head? ≠ some '.' then none
  else
    let p := p.dropWhile fun c => c == '.' || c.isDigit
    let finish (p : CString) : Option Target :=
      some ⟨seconds 0 digits, (urlText (skipKeyword p)).filter (· ≠ [])⟩
    match p with
    | []     => finish []
    | c :: _ =>
      if c ≠ ';' ∧ c ≠ ',' ∧ !refreshIsSpace c then none
      else
        let p := skipSpace p
        let p := if p.head? = some ';' ∨ p.head? = some ',' then p.tail else p
        finish (skipSpace p)

end Nordstjernen.Net.Refresh

namespace Nordstjernen.Net.Refresh

-- The shared declarative refresh steps of the HTML Standard. A position is what the input has from there
-- on, and a step that another one jumps to is a function of it.

def asciiWhitespace : List Char :=
  ['\t', '\n', '\x0c', '\r', ' ']

def skipWhitespace (position : CString) : CString :=
  position.dropWhile (· ∈ asciiWhitespace)

-- The text that is parsed as a url, and whether a quote was taken off it.
structure UrlString where
  text   : CString
  quoted : Bool
deriving DecidableEq

-- The time in seconds, and the text to parse as a url if there is one.
structure StepsResult where
  time : Nat
  url  : Option UrlString
deriving DecidableEq

def parsingNonNegativeInteger (timeString : CString) : Nat :=
  timeString.foldl (fun n c => n * 10 + (c.toNat - '0'.toNat)) 0

-- The step labeled "skip quotes" and those up to the one labeled "parse".
def skipQuotes (position : CString) : UrlString :=
  match position with
  | quote :: urlString =>
    if quote = '\'' ∨ quote = '"' then ⟨urlString.takeWhile (· ≠ quote), true⟩
    else ⟨position, false⟩
  | [] => ⟨[], false⟩

-- The steps of the keyword, each of which jumps to "parse" where it does not find its code point. Then
-- the text is what it was before them.
def keywordSteps (position : CString) : UrlString :=
  match position with
  | u :: afterU =>
    if u = 'U' ∨ u = 'u' then
      match afterU with
      | r :: afterR =>
        if r = 'R' ∨ r = 'r' then
          match afterR with
          | l :: afterL =>
            if l = 'L' ∨ l = 'l' then
              match skipWhitespace afterL with
              | '=' :: afterEquals => skipQuotes (skipWhitespace afterEquals)
              | _                  => ⟨position, false⟩
            else ⟨position, false⟩
          | [] => ⟨position, false⟩
        else ⟨position, false⟩
      | [] => ⟨position, false⟩
    else skipQuotes position
  | [] => skipQuotes position

-- The steps from the one that looks for the end of the input a second time.
def urlSteps (time : Nat) (position : CString) : StepsResult :=
  if position = [] then ⟨time, none⟩ else ⟨time, some (keywordSteps position)⟩

def sharedDeclarativeRefreshSteps (input : CString) : Option StepsResult :=
  let position := skipWhitespace input
  let timeString := position.takeWhile (·.isDigit)
  let position := position.dropWhile (·.isDigit)
  if timeString = [] ∧ position.head? ≠ some '.' then none
  else
    let time := parsingNonNegativeInteger timeString
    let position := position.dropWhile fun c => c.isDigit ∨ c = '.'
    match position with
    | []     => some ⟨time, none⟩
    | c :: _ =>
      if c = ';' ∨ c = ',' ∨ c ∈ asciiWhitespace then
        let position := skipWhitespace position
        let position :=
          if position.head? = some ';' ∨ position.head? = some ',' then position.tail else position
        some (urlSteps time (skipWhitespace position))
      else none

-- What is left of the text of a url: without white space at the end if it was not quoted, and nothing if
-- it is empty.
def UrlString.kept (s : UrlString) : Option CString :=
  (some (if s.quoted then s.text else s.text.rdropWhile (· ∈ asciiWhitespace))).filter (· ≠ [])

-- The result of the steps as the code gives it, with a time that fits an `int`.
def StepsResult.target (s : StepsResult) : Target :=
  ⟨min s.time 2147483647, s.url.bind (·.kept)⟩

variable {p : CString} {n : Nat}

theorem mem_asciiWhitespace_iff {c : Char} : c ∈ asciiWhitespace ↔ refreshIsSpace c := by
  simp only [asciiWhitespace, refreshIsSpace, List.mem_cons, List.not_mem_nil, Bool.or_eq_true, beq_iff_eq,
    or_false]
  tauto

theorem skipWhitespace_eq (p : CString) : skipWhitespace p = skipSpace p := by
  rw [skipWhitespace, skipSpace]
  congr
  funext c
  exact Bool.eq_iff_iff.mpr (by simp [mem_asciiWhitespace_iff])

theorem rdropWhile_eq_gStrchomp (p : CString) : p.rdropWhile (· ∈ asciiWhitespace) = gStrchomp p := by
  rw [gStrchomp]
  congr
  funext c
  refine Bool.eq_iff_iff.mpr ?_
  rw [decide_eq_true_iff, mem_asciiWhitespace_iff, refreshIsSpace, gAsciiIsspace]

section Time

def digitStep (n : Nat) (c : Char) : Nat :=
  n * 10 + (c.toNat - '0'.toNat)

theorem le_foldl_digitStep (digits : CString) : n ≤ digits.foldl digitStep n := by
  induction digits generalizing n
  case nil            => exact le_rfl
  case cons d ds hind => exact le_trans (by simp only [digitStep]; omega) hind

-- Leaving the loop early changes nothing, since the number only grows.
theorem seconds_eq (digits : CString) (h : n ≤ 2147483647) :
    seconds n digits = min (digits.foldl digitStep n) 2147483647 := by
  induction digits generalizing n
  case nil            => exact (min_eq_left h).symm
  case cons d ds hind =>
    rw [seconds, List.foldl_cons]
    change (if digitStep n d > 2147483647 then _ else seconds (digitStep n d) ds) = _
    split
    case isFalse hn => exact hind (not_lt.mp hn)
    case isTrue hn  => exact (min_eq_right (hn.le.trans (le_foldl_digitStep ds))).symm

end Time

section Url

theorem urlText_eq_skipQuotes (p : CString) : (urlText p).filter (· ≠ []) = (skipQuotes p).kept := by
  cases p
  case nil      => rfl
  case cons c q =>
    by_cases hc : c = '\'' ∨ c = '"'
    case pos =>
      have hq : (fun d => !decide (d = c)) = fun d => d != c := rfl
      simp [urlText, skipQuotes, UrlString.kept, hc, hq]
    case neg =>
      simp [urlText, skipQuotes, UrlString.kept, hc, rdropWhile_eq_gStrchomp]

-- Without the whole keyword the text begins with its first letter, which is no quote.
theorem urlText_of_keyword {u : Char} {q : CString} (h : u = 'U' ∨ u = 'u') :
    (urlText (u :: q)).filter (· ≠ []) = (UrlString.mk (u :: q) false).kept := by
  rw [urlText_eq_skipQuotes, skipQuotes, if_neg]
  rcases h with rfl | rfl <;> decide

theorem keywordSteps_cases (p : CString) : keywordSteps p = skipQuotes (skipKeyword p) ∨
    skipKeyword p = p ∧ keywordSteps p = ⟨p, false⟩ ∧ ∃ u q, p = u :: q ∧ (u = 'U' ∨ u = 'u') := by
  cases p
  case nil      => exact .inl rfl
  case cons u q =>
    by_cases hu : u = 'U' ∨ u = 'u'
    case neg =>
      have hu' : ¬(u = 'u' ∨ u = 'U') := fun h => hu h.symm
      exact .inl (by simp [keywordSteps, skipKeyword, hu, hu'])
    case pos =>
      have hparse (hk : skipKeyword (u :: q) = u :: q) (hs : keywordSteps (u :: q) = ⟨u :: q, false⟩) :
          keywordSteps (u :: q) = skipQuotes (skipKeyword (u :: q)) ∨
          skipKeyword (u :: q) = u :: q ∧ keywordSteps (u :: q) = ⟨u :: q, false⟩ ∧
            ∃ u' q', u :: q = u' :: q' ∧ (u' = 'U' ∨ u' = 'u') :=
        .inr ⟨hk, hs, u, q, rfl, hu⟩
      have hu' : u = 'u' ∨ u = 'U' := hu.symm
      cases q
      case nil      => exact hparse (by simp [skipKeyword]) (by simp [keywordSteps, hu])
      case cons r q =>
        by_cases hr : r = 'R' ∨ r = 'r'
        case neg =>
          have hr' : ¬(r = 'r' ∨ r = 'R') := fun h => hr h.symm
          exact hparse (by simp [skipKeyword, hr']) (by simp [keywordSteps, hu, hr])
        case pos =>
          have hr' : r = 'r' ∨ r = 'R' := hr.symm
          cases q
          case nil      => exact hparse (by simp [skipKeyword]) (by simp [keywordSteps, hu, hr])
          case cons l q =>
            by_cases hl : l = 'L' ∨ l = 'l'
            case neg =>
              have hl' : ¬(l = 'l' ∨ l = 'L') := fun h => hl h.symm
              exact hparse (by simp [skipKeyword, hl']) (by simp [keywordSteps, hu, hr, hl])
            case pos =>
              have hl' : l = 'l' ∨ l = 'L' := hl.symm
              cases hs : skipSpace q
              case nil =>
                refine hparse ?_ ?_ <;>
                  simp only [keywordSteps, skipKeyword, hu, hu', hr, hr', hl, hl', if_true, Bool.or_eq_true,
                    beq_iff_eq, skipWhitespace_eq, hs]
              case cons e rest =>
                by_cases he : e = '='
                case pos =>
                  left
                  simp only [keywordSteps, skipKeyword, hu, hu', hr, hr', hl, hl', if_true, Bool.or_eq_true,
                    beq_iff_eq, skipWhitespace_eq, hs, he]
                case neg =>
                  refine hparse ?_ ?_ <;>
                    simp only [keywordSteps, skipKeyword, hu, hu', hr, hr', hl, hl', if_true,
                      Bool.or_eq_true, beq_iff_eq, skipWhitespace_eq, hs] <;>
                    split <;> simp_all

theorem urlText_skipKeyword (p : CString) :
    (urlText (skipKeyword p)).filter (· ≠ []) = (keywordSteps p).kept := by
  obtain hq | ⟨hk, hs, u, q, rfl, hu⟩ := keywordSteps_cases p
  · rw [hq, urlText_eq_skipQuotes]
  · rw [hk, hs, urlText_of_keyword hu]

theorem target_urlSteps {time : Nat} : (urlSteps time p).target =
    ⟨min time 2147483647, (urlText (skipKeyword p)).filter (· ≠ [])⟩ := by
  rw [urlSteps]
  split
  case isTrue hp => rw [hp]; rfl
  case isFalse   => rw [urlText_skipKeyword]; rfl

end Url

theorem nsNetParseRefresh_eq (input : CString) :
    nsNetParseRefresh input = (sharedDeclarativeRefreshSteps input).map (·.target) := by
  have hdot : (fun c : Char => decide (c.isDigit = true ∨ c = '.')) = fun c => c == '.' || c.isDigit := by
    funext c
    rw [Bool.decide_or, Bool.or_comm, Bool.decide_eq_true]
    rfl
  simp only [nsNetParseRefresh, sharedDeclarativeRefreshSteps, skipWhitespace_eq, hdot]
  generalize skipSpace input = p
  have htime : seconds 0 (p.takeWhile (·.isDigit)) =
      min (parsingNonNegativeInteger (p.takeWhile (·.isDigit))) 2147483647 := seconds_eq _ (by decide)
  split
  case isTrue  => rfl
  case isFalse =>
    rw [htime]
    generalize (p.dropWhile (·.isDigit)).dropWhile (fun c => c == '.' || c.isDigit) = p
    cases p
    case nil      => rfl
    case cons c q =>
      dsimp only
      by_cases hc : c = ';' ∨ c = ',' ∨ c ∈ asciiWhitespace
      case neg =>
        have hc' : c ≠ ';' ∧ c ≠ ',' ∧ !refreshIsSpace c := by
          simpa [mem_asciiWhitespace_iff] using hc
        rw [if_neg hc, if_pos hc', Option.map_none]
      case pos =>
        have hc' : ¬(c ≠ ';' ∧ c ≠ ',' ∧ !refreshIsSpace c) := by
          simpa [mem_asciiWhitespace_iff, or_iff_not_imp_left] using hc
        rw [if_pos hc, if_neg hc', Option.map_some]
        exact congrArg some target_urlSteps.symm

-- The text itself is not always that of the steps.
theorem not_exact_blankBehindUrl :
    ¬∀ input, nsNetParseRefresh input =
      (sharedDeclarativeRefreshSteps input).map fun s => ⟨min s.time 2147483647, s.url.map (·.text)⟩ := by
  intro h
  exact absurd (h "0; a ".toList) (by decide)

end Nordstjernen.Net.Refresh
