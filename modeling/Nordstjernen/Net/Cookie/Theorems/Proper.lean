import Nordstjernen.Net.Cookie.History
import Nordstjernen.Net.Cookie.Theorems.HttpOnly

open Nordstjernen.Glib

namespace Nordstjernen.Net.Cookie

namespace Line

variable {l : Line}

def fields (l : Line) : FileLine where
  domain := l.write.fileDomain
  tail   := boolField l.write.tail
  path   := l.write.path
  secure := boolField l.write.secure
  expiry := formatInt64 l.write.expiry
  name   := l.write.name
  value  := l.write.value

theorem gStrsplitAll_body (l : Line) : parseFields (gStrsplitAll l.body '\t') = some l.fields := by
  have hs := l.sound
  have ht : ('\t').toNat < 0x20 := by decide
  have hb : l.body = l.write.fileDomain ++ '\t' :: (boolField l.write.tail ++ '\t' ::
      (l.write.path ++ '\t' :: (boolField l.write.secure ++ '\t' :: (formatInt64 l.write.expiry ++
        '\t' :: (l.write.name ++ '\t' :: l.write.value))))) := by
    simp [body, stem, front]
  rw [hb, gStrsplitAll_append_cons (hs.domain_printable.not_mem ht),
    List.splitOn_append_cons_self_of_not_mem ((Printable.boolField _).not_mem ht),
    List.splitOn_append_cons_self_of_not_mem (hs.path_printable.not_mem ht),
    List.splitOn_append_cons_self_of_not_mem ((Printable.boolField _).not_mem ht),
    List.splitOn_append_cons_self_of_not_mem ((Printable.formatInt64 _).not_mem ht),
    List.splitOn_append_cons_self_of_not_mem (hs.name_printable.not_mem ht),
    List.splitOn_eq_singleton (hs.value_printable.not_mem ht)]
  rfl

theorem parseLine_text (l : Line) : parseLine l.text = some l.fields := by
  cases h : l.httpOnly
  case true =>
    have hp : gStrHasPrefix l.text httpOnlyPrefix := by simp [gStrHasPrefix, text_eq, marker, h]
    rw [parseLine, if_pos hp, l.drop_text h]
    exact l.gStrsplitAll_body
  case false =>
    have hp : ¬gStrHasPrefix l.text httpOnlyPrefix := by
      intro hp
      obtain ⟨t, ht⟩ := List.isPrefixOf_iff_prefix.mp hp
      have hh : l.text.head? = some '#' := by rw [← ht]; rfl
      exact absurd (l.head?_text.mp hh) (by simp [h])
    rw [parseLine, if_neg hp, l.text_of_not_httpOnly h]
    exact l.gStrsplitAll_body

@[simp]
theorem key_fields (l : Line) : l.fields.key = l.key :=
  rfl

theorem boolField_beq_true (b : Bool) : (boolField b == boolField true) = b := by
  cases b <;> decide

theorem isSecure_fields (l : Line) : l.fields.isSecure = l.write.secure :=
  boolField_beq_true _

theorem isDomainLine_fields (l : Line) : l.fields.isDomainLine = l.write.tail :=
  boolField_beq_true _

end Line

-- The character in front of the last `d.length` characters of the host is a dot.
theorem hostInDomain_iff {host d : CString} (h : hostInDomain host d) :
    gAsciiStrdown d = gAsciiStrdown host ∨ '.' :: gAsciiStrdown d <:+ gAsciiStrdown host := by
  simp only [hostInDomain, Bool.or_eq_true, Bool.and_eq_true, decide_eq_true_eq, beq_iff_eq,
    strcaseEq_iff] at h
  cases h
  case inl h => exact .inl h.symm
  case inr h =>
    obtain ⟨⟨hl, hdot⟩, hd⟩ := h
    right
    obtain ⟨n, hn⟩ : ∃ n, host.length - d.length = n + 1 := ⟨host.length - d.length - 1, by omega⟩
    rw [hn, Nat.add_sub_cancel] at hdot
    have hc : host.drop n = '.' :: host.drop (n + 1) := by
      obtain ⟨hlt, hget⟩ := List.getElem?_eq_some_iff.mp hdot
      rw [List.drop_eq_getElem_cons hlt, hget]
    have hdrop : '.' :: gAsciiStrdown d = gAsciiStrdown (host.drop n) := by
      rw [hc, ← hd, hn]
      rfl
    rw [hdrop, gAsciiStrdown_drop]
    exact List.drop_suffix _ _

theorem writeDomain_namesHost {P : Platform} {host : CString} {attr : Option CString} {f : FileLine}
    {tail : Bool} (h : writeDomain P host attr = some (f.domain, tail)) (ht : f.tail = boolField tail) :
    f.NamesHost P host := by
  have single : f.domain = host → tail = false → f.NamesHost P host := by
    rintro hd rfl
    have hn : f.isDomainLine = false := by rw [FileLine.isDomainLine, ht]; decide
    rw [FileLine.NamesHost, hn]
    exact ⟨hd, ht⟩
  unfold writeDomain at h
  split at h
  case h_1 => simp only [Option.some.injEq, Prod.mk.injEq] at h; exact single h.left.symm h.right.symm
  case h_2 => simp only [Option.some.injEq, Prod.mk.injEq] at h; exact single h.left.symm h.right.symm
  case h_3 c cs =>
    simp only [Option.ite_none_left_eq_some, Option.some.injEq, Prod.mk.injEq, Bool.or_eq_true,
      Bool.not_eq_true', decide_eq_true_eq, not_or, Bool.not_eq_true, Bool.not_eq_false] at h
    obtain ⟨⟨⟨hh, -⟩, hp⟩, hd, rfl⟩ := h
    have hn : f.isDomainLine := by rw [FileLine.isDomainLine, ht]; decide
    rw [FileLine.NamesHost, if_pos hn]
    exact ⟨_, hd.symm, hp, hostInDomain_iff hh⟩

-- The one place where the prefix check and the stored path differ: the check sees the attribute, the
-- path may be the default.
theorem Accepted.path_of_host {P : Platform} {c : Call} {w : Write}
    (h : Accepted P c.now c.route c.url c.cookie w) (hc : c.HostPathOk P) (he : w.expired = false)
    (hn : hasCasePrefix w.name "__Host-".toList) :
    w.secure ∧ w.tail = false ∧ w.path = ['/'] := by
  have hs := h.names
  simp only [secureNames, hn, Bool.not_true, Bool.false_or, Bool.and_eq_true, Bool.or_eq_true,
    List.isEmpty_iff, beq_iff_eq] at hs
  obtain ⟨-, ⟨⟨hsec, hhttps⟩, hdom⟩, hpath⟩ := hs
  refine ⟨h.secure ▸ hsec, ?_, ?_⟩
  · have hd := h.domain
    unfold writeDomain at hd
    split at hd
    case h_1 => simp only [Option.some.injEq, Prod.mk.injEq] at hd; exact hd.right.symm
    case h_2 => simp only [Option.some.injEq, Prod.mk.injEq] at hd; exact hd.right.symm
    case h_3 ha => simp [ha] at hdom
  · rw [h.path]
    cases hpath
    case inr hp => rw [hp]; rfl
    case inl hp =>
      have hdef := (hc h.parts h.hostParts _ h.nameValue hn hsec hhttps (h.expired ▸ he)).resolve_left
        (not_not_intro hp)
      unfold writePath
      split
      case h_1 heq => simp [heq] at hp
      case h_2     => exact hdef

theorem Accepted.proper {P : Platform} {c : Call} {l : Line}
    (h : Accepted P c.now c.route c.url c.cookie l.write) (hc : c.HostPathOk P)
    (he : l.write.expired = false) : l.fields.Proper P h.parts := by
  have hs := h.names
  simp only [secureNames, Bool.and_eq_true, Bool.or_eq_true, Bool.not_eq_true'] at hs
  obtain ⟨⟨hsec, hname⟩, -⟩ := hs
  exact {
    host hn := by
      obtain ⟨h₁, h₂, h₃⟩ := h.path_of_host hc he hn
      rw [Line.isSecure_fields, Line.isDomainLine_fields]
      exact ⟨h₁, by simp [h₂], h₃⟩
    secureName hn := by
      rw [Line.isSecure_fields, h.secure]
      have hn : hasCasePrefix l.write.name "__Secure-".toList = true := hn
      exact (hname.resolve_left (by rw [hn]; simp)).left
    https ht := by
      rw [Line.isSecure_fields, h.secure] at ht
      exact hsec.resolve_left (by simp [ht])
    domain := writeDomain_namesHost h.domain rfl
  }

namespace Shelf

-- What the two files hold after a list of accepted writes.
structure Written (s : Shelf) (log : Lines) : Prop extends s.Routed where
  mem  : ∀ r, ∀ l ∈ s.get r, l ∈ log
  keys : ∀ r, ((s.get r).map Line.key).Nodup

variable {s : Shelf} {log : Lines}

theorem written_default : ({} : Shelf).Written [] where
  toRouted := routed_default
  mem r    := by cases r <;> simp [get]
  keys r   := by cases r <;> simp [get]

-- A write drops the lines of its own key before it adds its own.
theorem Routed.keys_store (h : s.Routed) (w : Line) (hk : ((s.get w.write.route).map Line.key).Nodup) :
    (((s.get w.write.route).store w).map Line.key).Nodup := by
  have hr := h.route w.write.route
  rw [Lines.store, List.map_append, List.nodup_append']
  refine ⟨(List.filter_sublist.map _).nodup hk, ?_, ?_⟩
  · split <;> simp
  · rw [List.disjoint_left]
    intro k hk hw
    obtain ⟨l, hl, rfl⟩ := List.mem_map.mp hk
    obtain ⟨hl, hkept⟩ := List.mem_filter.mp hl
    have hne := ((Line.kept_iff (hr l hl)).mp hkept).left
    split at hw
    case isTrue  => exact hne (by simpa using hw)
    case isFalse => simp at hw

theorem Written.store (h : s.Written log) (w : Line) : (s.store w).Written (log ++ [w]) where
  toRouted := h.toRouted.store w
  mem r l hl := by
    by_cases hr : r = w.write.route
    case pos =>
      subst hr
      cases h.mem_store.mp hl
      case inl hw => simp [hw.left]
      case inr hs => simp [h.mem _ l hs.left]
    case neg =>
      rw [get_store_of_ne hr] at hl
      simp [h.mem r l hl]
  keys r := by
    by_cases hr : r = w.write.route
    case pos =>
      subst hr
      rw [get_store, if_pos rfl]
      exact h.keys_store w (h.keys _)
    case neg =>
      rw [get_store_of_ne hr]
      exact h.keys r

theorem Written.storeAll (h : s.Written log) (ws : Lines) :
    (s.storeAll ws).Written (log ++ ws) := by
  induction ws generalizing s log
  case nil => simpa [Shelf.storeAll] using h
  case cons w ws hi =>
    have hs := hi (h.store w)
    rwa [List.append_assoc] at hs

end Shelf

section

variable {P : Platform} {calls : List Call}

-- From any urls and cookies, as long as no `__Host-` cookie relies on a default path other than `/`.
theorem runCalls_proper (h : ∀ c ∈ calls, c.HostPathOk P) (site : CString) (route : Route) :
    ProperFile P calls ((runCalls P (fun _ => {}) calls site).get route) := by
  have hw := Shelf.written_default.storeAll (acceptedWrites P site calls)
  rw [List.nil_append] at hw
  rw [runCalls_empty, Shelf.contents_get]
  generalize ({} : Shelf).storeAll (acceptedWrites P site calls) = s at hw
  constructor <;> rw [Lines.fileLines_contents]
  case line =>
    intro line hline
    obtain ⟨l, hl, rfl⟩ := List.mem_map.mp hline
    obtain ⟨c, hc, ha⟩ := List.mem_filterMap.mp (List.mem_filter.mp (hw.mem route l hl)).left
    have ha := Call.accepted_eq_some.mp ha
    obtain ⟨acc⟩ := acceptCookie_accepted ha
    exact ⟨l.fields, l.parseLine_text, c, hc, ⟨l.write, ha, rfl⟩, acc.parts, acc.hostParts,
      acc.proper (h c hc) (hw.expired route l hl)⟩
  case keys =>
    have hk := List.Nodup.map (fun _ _ => Option.some.inj) (hw.keys route)
    simpa [Function.comp_def, Line.parseLine_text] using hk

end

section

def deepPage : UrlParts :=
  { Platform.frontPage with pathname := "/a/b".toList, pathname_printable := by simp }

-- One page below a directory of its site.
def ofDeepPage : Platform :=
  { Platform.ofFrontPage with
    urlParts url := if url = "https://example.org/a/b".toList then some deepPage else none }

def hostCall (cookie : String) : Call :=
  ⟨10, .http, "https://example.org/a/b".toList, cookie.toList⟩

theorem runCalls_proper_root :
    ProperFile ofDeepPage [hostCall "__Host-id=1; Secure; Path=/"]
      ((runCalls ofDeepPage (fun _ => {}) [hostCall "__Host-id=1; Secure; Path=/"]
        Platform.frontPageSite).get .http) := by
  refine runCalls_proper ?_ _ _
  intro c hc
  rw [List.mem_singleton.mp hc]
  have hp : (Attributes.readAll ofDeepPage 10 "__Host-id=1; Secure; Path=/".toList).path.getD [] ≠ [] := by
    decide +kernel
  exact fun _ _ _ _ _ _ _ _ => .inl hp

-- Without a `Path` attribute the cookie gets the directory of its url.
theorem not_properFile_of_default_path :
    ¬ProperFile ofDeepPage [hostCall "__Host-id=1; Secure"]
      ((runCalls ofDeepPage (fun _ => {}) [hostCall "__Host-id=1; Secure"]
        Platform.frontPageSite).get .http) := by
  intro h
  have hline : "example.org\tFALSE\t/a\tTRUE\t0\t__Host-id\t1".toList ∈ fileLines
      ((runCalls ofDeepPage (fun _ => {}) [hostCall "__Host-id=1; Secure"] Platform.frontPageSite).get .http) := by
    unfold hostCall ofDeepPage deepPage Platform.ofFrontPage Platform.frontPageSite Platform.frontPage
    repeat rw [String.toList_ofList]
    decide +kernel
  obtain ⟨f, hf, c, -, -, parts, -, hp⟩ := h.line _ hline
  have hf : some f = some _ := hf.symm.trans (by rfl)
  obtain rfl := Option.some.inj hf
  exact absurd (hp.host (by decide)).right.right (by decide)

end

end Nordstjernen.Net.Cookie
