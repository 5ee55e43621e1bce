import Nordstjernen.Net.Hsts.Format

open Nordstjernen.Glib

namespace Nordstjernen.Net.Hsts

section Line

variable {c : Char} {e : Entry}

theorem ne_of_isHostChar (h : isHostChar c) : gAsciiIsspace c = false ∧ c ≠ '\x00' := by
  simpa [isHostChar] using h

theorem ne_space_of_isHostChar (h : isHostChar c) : c ≠ ' ' ∧ c ≠ '\n' := by
  have hs := (ne_of_isHostChar h).left
  rw [gAsciiIsspace] at hs
  constructor <;> rintro rfl <;> cases hs

theorem Entry.host_spec (e : Entry) : e.host ≠ [] ∧ e.host.head? ≠ some '.' ∧
    e.host.head? ≠ some '#' ∧ ∀ c ∈ e.host, isHostChar c := by
  simpa [and_assoc] using e.host_ok

theorem mem_twoDigits {n : Nat} (h : c ∈ Stamp.twoDigits n) : c.isDigit := by
  have hd (hc : c ∈ Nat.toDigits 10 n) : c.isDigit :=
    Nat.isDigit_of_mem_toDigits (by omega) (by omega) hc
  rw [Stamp.twoDigits] at h
  split at h
  case isTrue =>
    rcases List.mem_cons.mp h with rfl | h
    · rfl
    · exact hd h
  case isFalse => exact hd h

theorem Entry.mem_expireText (h : c ∈ e.expireText) : c ≠ '\n' ∧ c ≠ '\x00' := by
  have hd {s : CString} (hs : ∀ d ∈ s, d.isDigit) (hc : c ∈ s) : c ≠ '\n' ∧ c ≠ '\x00' := by
    constructor <;> rintro rfl <;> cases hs _ hc
  rw [Entry.expireText] at h
  cases he : e.expire
  case none =>
    rw [he] at h
    constructor <;> rintro rfl <;> simp at h
  case some s =>
    rw [he, Option.elim_some, Stamp.text] at h
    have hy (c) (hc : c ∈ Nat.toDigits 10 s.year) : c.isDigit :=
      Nat.isDigit_of_mem_toDigits (by omega) (by omega) hc
    simp only [List.mem_append, List.mem_cons] at h
    rcases h with (((h | h) | h) | rfl | h | rfl | h | rfl | h)
    · exact hd hy h
    · exact hd (fun _ => mem_twoDigits) h
    · exact hd (fun _ => mem_twoDigits) h
    · decide
    · exact hd (fun _ => mem_twoDigits) h
    · decide
    · exact hd (fun _ => mem_twoDigits) h
    · decide
    · exact hd (fun _ => mem_twoDigits) h

theorem Line.mem_text {line : Line} (h : c ∈ line.text) : c ≠ '\n' ∧ c ≠ '\x00' := by
  cases line
  case comment s hs =>
    rcases List.mem_cons.mp h with rfl | h
    · decide
    · simpa using List.all_eq_true.mp hs c h
  case blank => cases h
  case entry e =>
    rw [Line.text, Entry.text] at h
    simp only [List.mem_append, List.mem_cons] at h
    rcases h with (h | h) | rfl | rfl | h | rfl | h
    · split at h
      case isTrue  => cases List.mem_singleton.mp h; decide
      case isFalse => cases h
    · have hc := e.host_spec.right.right.right c h
      exact ⟨(ne_space_of_isHostChar hc).right, (ne_of_isHostChar hc).right⟩
    · decide
    · decide
    · exact Entry.mem_expireText h
    · decide
    · cases h

def Entry.value (e : Entry) : Nat :=
  if e.subs then 2 else 1

-- What comes of an entry's line in front of the date.
theorem lineEntry_entry (e : Entry) : lineEntry e.text = some (e.key, e.value) := by
  obtain ⟨hne, hdot, hhash, hall⟩ := e.host_spec
  obtain ⟨c, cs, hc⟩ := List.exists_cons_of_ne_nil hne
  have hsp : ' ' ∉ (if e.subs then ['.'] else []) ++ e.host := by
    rw [List.mem_append, not_or]
    exact ⟨by split <;> simp, fun h => (ne_space_of_isHostChar (hall _ h)).left rfl⟩
  have hs : gStrstrip e.text = e.text := by
    refine gStrstrip_eq_self ?_ ?_ <;> intro d hd
    · have hch := (ne_of_isHostChar (hall c (by simp [hc]))).left
      rw [Entry.text, hc] at hd
      cases hb : e.subs <;> rw [hb] at hd <;> cases hd
      · exact hch
      · rfl
    · have hlast : e.text =
          ((if e.subs then ['.'] else []) ++ e.host ++ ' ' :: '"' :: e.expireText) ++ ['"'] := by
        simp [Entry.text]
      rw [hlast, List.getLast?_concat] at hd
      cases hd
      rfl
  have ht : e.text.takeWhile (· ≠ ' ') = (if e.subs then ['.'] else []) ++ e.host := by
    have hp : ∀ d ∈ (if e.subs then ['.'] else []) ++ e.host, decide (d ≠ ' ') = true := fun d hd =>
      decide_eq_true fun he => hsp (he ▸ hd)
    rw [Entry.text, List.takeWhile_append_of_pos hp]
    simp
  have hg : ¬(e.text = [] ∨ e.text.head? = some '#' ∨ ' ' ∉ e.text) := by
    rw [hc] at hhash
    cases hb : e.subs <;> simp_all [Entry.text]
  simp only [lineEntry, hs]
  rw [if_neg hg, ht]
  rw [hc] at hdot
  cases hb : e.subs <;> simp_all [Entry.key, Entry.value]

theorem lineEntry_text (line : Line) :
    lineEntry line.text = line.entry?.map fun e => (e.key, e.value) := by
  cases line
  case comment s h =>
    have hd : ('#' :: s).dropWhile gAsciiIsspace = '#' :: s := List.dropWhile_cons_of_neg (by decide)
    have hp : gStrstrip ('#' :: s) <+: '#' :: s := by
      rw [gStrstrip, hd]
      exact List.rdropWhile_prefix ..
    have hskip : gStrstrip ('#' :: s) = [] ∨ (gStrstrip ('#' :: s)).head? = some '#' := by
      rcases List.prefix_cons_iff.mp hp with he | ⟨t, he, -⟩
      · exact .inl he
      · exact .inr (he ▸ rfl)
    exact if_pos (hskip.imp_right .inl)
  case blank   => rfl
  case entry e => exact lineEntry_entry e

end Line

section Reload

variable {file : File} {table : Table} {es : List Entry} {e : Entry} {key : CString}

theorem splitOn_text (file : File) : file.text.splitOn '\n' = file.map Line.text ++ [[]] := by
  rw [File.text]
  induction file
  case nil => rfl
  case cons line file hi =>
    have hn : '\n' ∉ line.text := fun h => (Line.mem_text h).left rfl
    rw [List.flatMap_cons, List.append_assoc, List.singleton_append,
      List.splitOn_append_cons_self_of_not_mem hn, hi]
    rfl

theorem gStrndup_text (file : File) : gStrndup file.text = file.text := by
  refine gStrndup_eq_self fun hc => ?_
  obtain ⟨line, -, h⟩ := List.mem_flatMap.mp hc
  cases List.mem_append.mp h
  case inl h => exact (Line.mem_text h).right rfl
  case inr h => exact absurd h (by decide)

theorem filterMap_lineEntry (file : File) :
    (file.map Line.text).filterMap lineEntry = file.entries.map fun e => (e.key, e.value) := by
  induction file
  case nil => rfl
  case cons line file hi =>
    rw [List.map_cons, List.filterMap_cons, lineEntry_text, hi]
    cases line <;> rfl

def tableOf (es : List Entry) : Table :=
  es.foldl (fun table e => table.insert e.key e.value) ∅

theorem cacheReload_text (file : File) : cacheReload (some file.text) = tableOf file.entries := by
  have hs : (gStrsplitAll file.text '\n').filterMap lineEntry =
      file.entries.map fun e => (e.key, e.value) := by
    rw [gStrsplitAll]
    split
    case isTrue h =>
      cases file
      case nil       => rfl
      case cons line file => simp [File.text] at h
    case isFalse => rw [splitOn_text, List.filterMap_append, filterMap_lineEntry]; simp [lineEntry, gStrstrip, gStrchomp]
  rw [cacheReload, Option.map_some, Option.getD_some, gStrndup_text, hs, List.foldl_map, tableOf]

-- Each host has the value of its last line.
theorem lookup_tableOf {v : Nat} :
    (tableOf es).lookup key = some v ↔
      ∃ e ∈ Lib.lasts Entry.key es, e.key = key ∧ e.value = v := by
  induction es using List.reverseRecOn
  case nil => simp [tableOf]
  case append_singleton es e hi =>
    rw [tableOf, List.foldl_concat, ← tableOf]
    simp only [Lib.mem_lasts_concat]
    by_cases hk : e.key = key
    case pos =>
      rw [← hk, AList.lookup_insert]
      constructor
      case mp  => exact fun h => ⟨e, .inl rfl, rfl, Option.some.inj h⟩
      case mpr =>
        rintro ⟨e', rfl | h, he, hv⟩
        · rw [hv]
        · exact absurd he h.right
    case neg =>
      rw [AList.lookup_insert_ne (Ne.symm hk), hi]
      constructor
      case mp =>
        rintro ⟨e', h, he, hv⟩
        exact ⟨e', .inr ⟨h, fun hc => hk (hc.symm.trans he)⟩, he, hv⟩
      case mpr =>
        rintro ⟨e', rfl | h, he, hv⟩
        · exact absurd he hk
        · exact ⟨e', h.left, he, hv⟩

theorem lookupParents_iff {host : CString} :
    lookupParents table host ↔ ∃ p, '.' :: p <:+ host ∧ table.lookup p = some 2 := by
  induction host
  case nil => simp [lookupParents]
  case cons c cs hi =>
    rw [lookupParents, Bool.or_eq_true, Bool.and_eq_true, decide_eq_true_eq, decide_eq_true_eq, hi]
    simp only [List.suffix_cons_iff, List.cons.injEq]
    constructor
    case mp =>
      rintro (⟨rfl, h⟩ | ⟨p, hp, h⟩)
      · exact ⟨cs, .inl ⟨rfl, rfl⟩, h⟩
      · exact ⟨p, .inr hp, h⟩
    case mpr =>
      rintro ⟨p, ⟨rfl, rfl⟩ | hp, h⟩
      · exact .inl ⟨rfl, h⟩
      · exact .inr ⟨p, hp, h⟩

end Reload

section Lookup

variable {file : File} {host : CString} {now : Stamp} {e : Entry}

theorem rdropWhile_of_suffix {s t : CString} (hs : t <:+ s) (h : s.rdropWhile (· = '.') = s) :
    t.rdropWhile (· = '.') = t := by
  rw [List.rdropWhile_eq_self_iff] at h ⊢
  intro hn
  obtain ⟨r, rfl⟩ := hs
  have hl := h (List.append_ne_nil_of_right_ne_nil r hn)
  rwa [List.getLast_append_of_ne_nil _ hn] at hl

theorem rdropWhile_strippedHost (host : CString) :
    (strippedHost host).rdropWhile (· = '.') = strippedHost host :=
  List.rdropWhile_idempotent ..

theorem Entry.key_ne_nil (e : Entry) : e.key ≠ [] := fun h =>
  e.host_spec.left (List.map_eq_nil_iff.mp h)

-- A host does not begin with a dot, so that some of it stays.
theorem Entry.strippedHost_ne_nil (e : Entry) : strippedHost e.host ≠ [] := by
  obtain ⟨hne, hdot, -, -⟩ := e.host_spec
  obtain ⟨c, cs, hc⟩ := List.exists_cons_of_ne_nil hne
  intro h
  have hd := List.rdropWhile_eq_nil_iff.mp h (gAsciiTolower c) (by rw [hc]; exact List.mem_cons_self)
  have he : c = '.' := (gAsciiTolower_eq_iff rfl).mp (of_decide_eq_true hd)
  rw [hc, he] at hdot
  exact hdot rfl

theorem lookup_iff : lookup (tableOf file.entries) (strippedHost host) ↔
    ∃ e ∈ file.entries, e.Matches host ∧ e.Kept file host := by
  have hh := rdropWhile_strippedHost host
  rw [lookup, Bool.or_eq_true, Option.isSome_iff_exists, lookupParents_iff]
  constructor
  case mp =>
    rintro (⟨v, hv⟩ | ⟨p, hp, hv⟩) <;> obtain ⟨e, he, hk, hval⟩ := lookup_tableOf.mp hv
    · have hs : strippedHost e.host = e.key := by
        rw [strippedHost, ← Entry.key, hk, hh]
      exact ⟨e, Lib.mem_of_mem_lasts he, .inl (hs.trans hk), hs, .inl hk⟩
    · have hs : strippedHost e.host = e.key := by
        rw [strippedHost, ← Entry.key, hk]
        exact rdropWhile_of_suffix ((List.suffix_cons '.' p).trans hp) hh
      have hsubs : e.subs := by
        rw [Entry.value] at hval
        split at hval
        case isTrue h  => exact h
        case isFalse   => cases hval
      refine ⟨e, Lib.mem_of_mem_lasts he, .inr ⟨hsubs, hs ▸ hk ▸ hp⟩, hs, .inr fun l hl hkl => ?_⟩
      rw [Lib.eq_of_mem_lasts hl he hkl]
      exact hsubs
  case mpr =>
    rintro ⟨e, he, hm, hs, hk⟩
    obtain ⟨l, hl, hkl⟩ : ∃ l ∈ Lib.lasts Entry.key file.entries, l.key = e.key :=
      Lib.exists_mem_lasts he
    rw [Entry.Matches, hs] at hm
    rcases hm with hm | ⟨-, hp⟩
    · exact .inl ⟨l.value, lookup_tableOf.mpr ⟨l, hl, hkl.trans hm, rfl⟩⟩
    · rcases hk with hk | hk
      · exact .inl ⟨l.value, lookup_tableOf.mpr ⟨l, hl, hkl.trans hk, rfl⟩⟩
      · exact .inr ⟨e.key, hp, lookup_tableOf.mpr ⟨l, hl, hkl, if_pos (hk l hl hkl)⟩⟩

-- The answer for the file that is on the disk is right exactly as long as its entries are effective.
theorem lookup_iff_pinned : (lookup (tableOf file.entries) (strippedHost host) ↔ file.Pinned host now) ↔
    Effective file host now := by
  rw [lookup_iff, File.Pinned, Effective]
  constructor
  case mp =>
    intro h
    by_cases hp : ∃ e ∈ file.entries, e.Unexpired now ∧ e.Matches host
    case pos =>
      obtain ⟨e, he, hu, hm⟩ := hp
      exact .inl ⟨⟨e, he, hm, hu⟩, h.mpr ⟨e, he, hu, hm⟩⟩
    case neg =>
      exact .inr fun e he hm => ⟨fun hu => hp ⟨e, he, hu, hm⟩, fun hk => hp (h.mp ⟨e, he, hm, hk⟩)⟩
  case mpr =>
    rintro (⟨⟨e, he, hm, hu⟩, hk⟩ | h)
    · exact ⟨fun _ => ⟨e, he, hu, hm⟩, fun _ => hk⟩
    · constructor
      case mp  => exact fun ⟨e, he, hm, hk⟩ => absurd hk (h e he hm).right
      case mpr => exact fun ⟨e, he, hu, hm⟩ => absurd hu (h e he hm).left

end Lookup

namespace State

variable {s t : State} {e : Event} {es : List Event} {host : CString}

-- The table is that of the file, unless the next lookup sees that it is not.
def Fresh (s : State) : Prop :=
  s.cache.table.isSome → fileMtimeUs s.disk = s.cache.mtimeUs →
    s.cache.table = some (tableOf s.file.entries)

theorem fileMtimeUs_onDisk (s : State) : fileMtimeUs s.onDisk = fileMtimeUs s.disk := by
  rw [onDisk]
  cases s.disk <;> rfl

theorem cacheReload_onDisk (s : State) :
    cacheReload (s.onDisk.map Disk.content) = tableOf s.file.entries := by
  rw [onDisk, file]
  cases s.disk
  case none   => rfl
  case some d => exact cacheReload_text d.content

theorem refresh_of_fresh (h : s.Fresh) : refresh s.cache s.onDisk =
    { table := some (tableOf s.file.entries), mtimeUs := fileMtimeUs s.disk } := by
  rw [refresh, fileMtimeUs_onDisk, cacheReload_onDisk]
  split
  case isTrue  => rfl
  case isFalse hn =>
    rw [not_or, Option.isNone_iff_eq_none, ← ne_eq, Option.ne_none_iff_isSome, not_not] at hn
    rw [← h hn.left hn.right, hn.right]

theorem fresh_step (h : s.Fresh) (hn : s.Noticed e) (hs : s.step e = some t) : t.Fresh := by
  cases e <;> cases hs
  case rewrite disk =>
    intro hsome hm
    have ⟨hd, hc⟩ := hn hsome hm
    have hf : file { disk, cache := s.cache } = s.file := by rw [file, hc, file]
    rw [hf]
    exact h hsome hd
  case lookup host now =>
    rw [shouldUpgrade]
    split
    case isTrue  => exact h
    case isFalse => rw [refresh_of_fresh h]; exact fun _ _ => rfl

theorem answer_of_fresh (h : s.Fresh) :
    s.answer host = lookup (tableOf s.file.entries) (strippedHost host) := by
  rw [answer, shouldUpgrade]
  split
  case isTrue hn =>
    cases hl : lookup (tableOf s.file.entries) (strippedHost host)
    case false => rfl
    case true  =>
      obtain ⟨e, -, hm, -⟩ := lookup_iff.mp hl
      rw [hn] at hm
      rcases hm with hm | ⟨-, hm⟩
      · exact absurd hm e.strippedHost_ne_nil
      · cases List.suffix_nil.mp hm
  case isFalse => rw [refresh_of_fresh h]; rfl

theorem answers_iff_effective (h : s.Fresh) : s.Answers e ↔ s.Effective e := by
  cases e
  case rewrite => rfl
  case lookup host now =>
    rw [Answers, Effective, answer_of_fresh h]
    exact lookup_iff_pinned

def start (disk : Option (Disk File)) : State :=
  { disk }

-- As long as every rewrite is noticed, the answers are right exactly where the file's entries are
-- effective.
theorem stepsMeet_answers_iff (disk : Option (Disk File)) (hn : Lib.StepsMeet Noticed step (start disk) es) :
    Lib.StepsMeet Answers step (start disk) es ↔ Lib.StepsMeet Effective step (start disk) es :=
  Lib.stepsMeet_congr (fun _ _ _ => fresh_step) (fun _ _ h _ => answers_iff_effective h) hn
    fun h => absurd h Bool.false_ne_true

def pinned (host : CString) (expire : Option Stamp)
    (h : (host ≠ [] && host.head? ≠ some '.' && host.head? ≠ some '#' && host.all isHostChar) = true) :
    Line :=
  .entry { host, subs := true, expire, host_ok := h }

def today : Stamp :=
  { year := 2025, month := 6, day := 1, hour := 0, minute := 0, second := 0 }

def seenBefore : List Event :=
  [.lookup "www.example.org".toList today,
    .rewrite (some { content := [pinned "example.org".toList none rfl], modified := 5000000 }),
    .lookup "www.Example.org.".toList today]

theorem stepsMeet_answers_seenBefore : Lib.StepsMeet Noticed step (start none) seenBefore ∧
    Lib.StepsMeet Answers step (start none) seenBefore :=
  have hn : Lib.StepsMeet Noticed step (start none) seenBefore := by decide +kernel
  ⟨hn, (stepsMeet_answers_iff none hn).mpr (by decide +kernel)⟩

def lastYear : Disk File where
  content  := [pinned "example.org".toList (some { today with year := 2024 }) rfl]
  modified := 5000000

theorem not_answers_expired : ¬∀ disk es, Lib.StepsMeet Answers step (start disk) es := by
  intro h
  have hs := h (some lastYear) [.lookup "example.org".toList today]
  exact absurd hs (by decide +kernel)

end State

end Nordstjernen.Net.Hsts
