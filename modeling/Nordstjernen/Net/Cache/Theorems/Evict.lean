import Mathlib.Order.Lex
import Mathlib.Data.List.Lex
import Nordstjernen.Lib.Cutoff
import Nordstjernen.Net.Cache.Calls
import Nordstjernen.Net.Cache.Theorems.Calls

open Nordstjernen.Glib Nordstjernen.Net.Header

namespace Nordstjernen.Net.Cache

section Order

variable {a b c : Row}

theorem usedAfter_iff : usedAfter a b ↔ b.lastUsed < a.lastUsed ∨
    a.lastUsed = b.lastUsed ∧ b.key.map Char.toNat ≤ a.key.map Char.toNat := by
  simp [usedAfter]

theorem usedAfter_total : usedAfter a b ∨ usedAfter b a := by
  simp only [usedAfter_iff]
  obtain hl | he | hg := lt_trichotomy a.lastUsed b.lastUsed
  · exact .inr (.inl hl)
  · exact (le_total (b.key.map Char.toNat) (a.key.map Char.toNat)).imp (.inr ⟨he, ·⟩) (.inr ⟨he.symm, ·⟩)
  · exact .inl (.inl hg)

theorem usedAfter_trans (h : usedAfter a b) (h' : usedAfter b c) : usedAfter a c := by
  rw [usedAfter_iff] at *
  obtain h | ⟨he, hk⟩ := h
  · obtain h' | ⟨he', -⟩ := h'
    · exact .inl (h'.trans h)
    · exact .inl (he' ▸ h)
  · obtain h' | ⟨he', hk'⟩ := h'
    · exact .inl (he ▸ h')
    · exact .inr ⟨he.trans he', hk'.trans hk⟩

theorem usedAfter_antisymm (h : usedAfter a b) (h' : usedAfter b a) : a.key = b.key := by
  rw [usedAfter_iff] at h h'
  have hk : a.key.map Char.toNat = b.key.map Char.toNat := by
    obtain h | ⟨he, hk⟩ := h
    · obtain h' | ⟨he, -⟩ := h'
      · exact absurd (h.trans h') (lt_irrefl _)
      · exact absurd (he ▸ h) (lt_irrefl _)
    · obtain h' | ⟨-, hk'⟩ := h'
      · exact absurd (he ▸ h') (lt_irrefl _)
      · exact le_antisymm hk' hk
  exact List.map_injective_iff.mpr (fun _ _ => Char.toNat_inj.mp) hk

end Order

section Rows

variable {rs rs' : List Row}

variable (rs) in
theorem pairwise_usedAfter : (rs.insertionSort (usedAfter · ·)).Pairwise (usedAfter · ·) := by
  have : Std.Total (fun a b : Row => (usedAfter a b : Prop)) := ⟨fun _ _ => usedAfter_total⟩
  have : IsTrans Row (fun a b => (usedAfter a b : Prop)) := ⟨fun _ _ _ => usedAfter_trans⟩
  exact List.pairwise_insertionSort _ rs

theorem eq_of_key (hn : (rs.map (·.key)).Nodup) {a b : Row} (ha : a ∈ rs) (hb : b ∈ rs) (hk : a.key = b.key) :
    a = b :=
  List.inj_on_of_nodup_map hn ha hb hk

-- There is one way to put the rows of a table in that order.
theorem eq_of_perm_of_usedAfter (hn : (rs.map (·.key)).Nodup) (hp : rs.Perm rs')
    (h : rs.Pairwise (usedAfter · ·)) (h' : rs'.Pairwise (usedAfter · ·)) : rs = rs' := by
  refine hp.eq_of_pairwise (fun a b ha hb hab hba => ?_) h h'
  exact eq_of_key hn ha (hp.mem_iff.mpr hb) (usedAfter_antisymm hab hba)

theorem overCap_eq {cap : Nat} {running : Int} :
    overCap cap running rs = (Lib.beyond (·.bodySize) cap running rs).map (·.key) := by
  induction rs generalizing running
  case nil          => rfl
  case cons r rs hi =>
    rw [overCap, Lib.beyond, hi]
    split <;> rfl

-- Without the keys behind a first part, the rows are that part.
theorem filter_drop_eq_take (hn : (rs.map (·.key)).Nodup) (n : Nat) :
    rs.filter (·.key ∉ (rs.drop n).map (·.key)) = rs.take n := by
  have hsplit : (rs.take n).map (·.key) ++ (rs.drop n).map (·.key) = rs.map (·.key) := by
    rw [← List.map_append, List.take_append_drop]
  have hdis := (List.nodup_append.mp (hsplit ▸ hn)).2.2
  conv_lhs => arg 2; rw [← List.take_append_drop n rs]
  rw [List.filter_append, List.filter_eq_self.mpr, List.filter_eq_nil_iff.mpr, List.append_nil]
  · intro r hr
    have hk : r.key ∈ (rs.drop n).map (·.key) := List.mem_map_of_mem hr
    exact fun hd => of_decide_eq_true hd hk
  · intro r hr
    exact decide_eq_true fun hm => hdis _ (List.mem_map_of_mem hr) _ hm rfl

end Rows

namespace Disk

variable {env : Env} {d d' : Disk} {now : Int} {key : CString} {keys : List CString} {uses : List (CString × Int)}

theorem rows_deleteKeys : (d.deleteKeys keys).rows = d.rows.filter (·.key ∉ keys) := by
  induction keys generalizing d
  case nil              => simp [deleteKeys]
  case cons key keys hi =>
    rw [deleteKeys, List.foldl_cons, ← deleteKeys, hi, deleteKey, List.filter_filter]
    refine List.filter_congr fun r _ => ?_
    simp [Bool.and_comm]

variable (now) in
-- The rows that are too old come behind all the others.
theorem rows_evictAgedOut (hn : (d.rows.map (·.key)).Nodup) :
    ∃ n, (d.deleteKeys ((d.rows.filter (·.lastUsed < now - cacheMaxAgeSeconds)).map (·.key))).rows.Perm
      ((d.rows.insertionSort (usedAfter · ·)).take n) := by
  have hrows : (d.deleteKeys ((d.rows.filter (·.lastUsed < now - cacheMaxAgeSeconds)).map (·.key))).rows =
      d.rows.filter fun r => !decide (r.lastUsed < now - cacheMaxAgeSeconds) := by
    rw [rows_deleteKeys]
    refine List.filter_congr fun r hr => ?_
    rw [decide_not, Bool.not_inj_iff, decide_eq_decide]
    refine ⟨fun hm => ?_, fun ho => List.mem_map_of_mem (List.mem_filter.mpr ⟨hr, decide_eq_true ho⟩)⟩
    obtain ⟨e, he, hk⟩ := List.mem_map.mp hm
    obtain ⟨he, ho⟩ := List.mem_filter.mp he
    exact eq_of_key hn he hr hk ▸ of_decide_eq_true ho
  obtain ⟨n, hn⟩ := Lib.filter_eq_take_of_pairwise (p := fun r => !decide (r.lastUsed < now - cacheMaxAgeSeconds))
    (pairwise_usedAfter d.rows) fun a b hab hb => by
      have hle : b.lastUsed ≤ a.lastUsed := (usedAfter_iff.mp hab).elim le_of_lt fun h => h.1.ge
      simp only [Bool.not_eq_true', decide_eq_false_iff_not, not_lt] at hb ⊢
      exact hb.trans hle
  exact ⟨n, hrows ▸ hn ▸ ((List.perm_insertionSort _ _).symm.filter _)⟩

variable (env now) in
theorem rows_evictToCap (hn : (d.rows.map (·.key)).Nodup) (hs : ∀ r ∈ d.rows, 0 ≤ r.bodySize) :
    ∃ n, (d.evictToCap env now).rows.Perm ((d.rows.insertionSort (usedAfter · ·)).take n) ∧
      (d.evictToCap env now).total ≤ env.cacheCapBytes := by
  obtain ⟨n, hp⟩ := rows_evictAgedOut now hn
  rw [evictToCap]
  generalize d.deleteKeys ((d.rows.filter (·.lastUsed < now - cacheMaxAgeSeconds)).map (·.key)) = d' at hp ⊢
  have hsub : ((d.rows.insertionSort (usedAfter · ·)).take n).Sublist (d.rows.insertionSort (usedAfter · ·)) :=
    List.take_sublist ..
  -- What is left is in order already.
  have hsort : d'.rows.insertionSort (usedAfter · ·) = (d.rows.insertionSort (usedAfter · ·)).take n := by
    refine eq_of_perm_of_usedAfter ?_ ((List.perm_insertionSort _ _).trans hp) (pairwise_usedAfter _)
      ((pairwise_usedAfter _).sublist hsub)
    refine (((List.perm_insertionSort _ _).trans hp).map _).nodup_iff.mpr (List.Nodup.sublist (hsub.map _) ?_)
    exact ((List.perm_insertionSort _ _).map _).nodup_iff.mpr hn
  have hs' : ∀ r ∈ d'.rows.insertionSort (usedAfter · ·), 0 ≤ r.bodySize := fun r hr =>
    hs r ((List.mem_insertionSort _).mp (hsub.subset (hsort ▸ hr)))
  obtain ⟨m, hover, hcap⟩ := Lib.beyond_eq_drop Row.bodySize hs' (Int.natCast_nonneg env.cacheCapBytes)
  have hrows : (d'.deleteKeys (overCap env.cacheCapBytes 0 (d'.rows.insertionSort (usedAfter · ·)))).rows.Perm
      ((d'.rows.insertionSort (usedAfter · ·)).take m) := by
    rw [rows_deleteKeys, overCap_eq, hover]
    refine ((List.perm_insertionSort _ _).symm.filter _).trans (.of_eq (filter_drop_eq_take ?_ m))
    rw [hsort]
    exact List.Nodup.sublist (hsub.map _) (((List.perm_insertionSort _ _).map _).nodup_iff.mpr hn)
  refine ⟨min m n, ?_, ?_⟩
  · rw [hsort, List.take_take] at hrows
    rwa [hsort]
  · rw [total, (hrows.map _).sum_eq]
    simpa using hcap

end Disk

theorem map_map_eq {β : Type} {f : Row → Row} {g : Row → β} (h : ∀ r, g (f r) = g r) {rs : List Row} :
    (rs.map f).map g = rs.map g := by
  rw [List.map_map]
  exact List.map_congr_left fun r _ => h r

section LastUse

variable {uses : List (CString × Int)} {key key' : CString} {t : Int}

theorem lastUse_nil : lastUse [] key = none :=
  rfl

theorem lastUse_concat : lastUse (uses ++ [(key', t)]) key = if key' = key then some t else lastUse uses key := by
  rw [lastUse, List.reverse_append, List.reverse_singleton, List.singleton_append, List.find?_cons]
  by_cases hk : key' = key
  case pos => simp [hk]
  case neg => simp [hk, lastUse]

theorem usedLater_pair {t' : Int} (h : key' ≠ key) : UsedLater [(key', t'), (key, t)] key key' :=
  ⟨[(key', t')], [(key, t)], rfl, List.mem_cons_self, fun hm => h (List.mem_singleton.mp hm)⟩

end LastUse

namespace Disk

-- What holds of a cache: its keys are different, no size is negative, they are within the cap, and the
-- column `last_used` has the last use of each row.
structure Sound (env : Env) (uses : List (CString × Int)) (d : Disk) : Prop where
  nodup : (d.rows.map (·.key)).Nodup
  sizes : ∀ r ∈ d.rows, 0 ≤ r.bodySize
  cap   : d.total ≤ env.cacheCapBytes
  used  : ∀ r ∈ d.rows, lastUse uses r.key = some r.lastUsed

variable {env : Env} {d d' : Disk} {now : Int} {key : CString} {uses : List (CString × Int)} {a : PutArgs}
  {row : Row} {rows : List Row}

theorem Sound.empty : Sound env [] .empty where
  nodup      := List.nodup_nil
  sizes _ hr := absurd hr List.not_mem_nil
  cap        := Int.natCast_nonneg _
  used _ hr  := absurd hr List.not_mem_nil

theorem Sound.perm (h : d.Sound env uses) (hp : rows.Perm d.rows) : Sound env uses { d with rows } where
  nodup      := (hp.map _).nodup_iff.mpr h.nodup
  sizes r hr := h.sizes r (hp.mem_iff.mp hr)
  cap        := (hp.map _).sum_eq.trans_le h.cap
  used r hr  := h.used r (hp.mem_iff.mp hr)

-- Rows may go.
theorem Sound.sublist (h : d.Sound env uses) (hs : d'.rows.Sublist d.rows) : d'.Sound env uses where
  nodup      := h.nodup.sublist (hs.map _)
  sizes r hr := h.sizes r (hs.subset hr)
  cap        := (Lib.sum_le_of_sublist h.sizes hs).trans h.cap
  used r hr  := h.used r (hs.subset hr)

theorem Sound.deleteKey (h : d.Sound env uses) : (d.deleteKey key).Sound env uses :=
  h.sublist List.filter_sublist

-- One row may be used, and keeps its key and its size.
theorem Sound.use {f : Row → Row} (h : d.Sound env uses) (hk : ∀ r, (f r).key = r.key)
    (hb : ∀ r, (f r).bodySize = r.bodySize) (hu : ∀ r, (f r).lastUsed = if r.key = key then now else r.lastUsed) :
    Sound env (uses ++ [(key, now)]) { d with rows := d.rows.map f } where
  nodup        := by
    rw [map_map_eq hk]
    exact h.nodup
  sizes r' hr' := by
    obtain ⟨r, hr, rfl⟩ := List.mem_map.mp hr'
    exact (hb r).symm ▸ h.sizes r hr
  cap          := by
    rw [total, map_map_eq hb]
    exact h.cap
  used r' hr'  := by
    obtain ⟨r, hr, rfl⟩ := List.mem_map.mp hr'
    rw [lastUse_concat, hk, hu, h.used r hr]
    by_cases he : r.key = key
    case pos => rw [if_pos he.symm, if_pos he]
    case neg => rw [if_neg (he ·.symm), if_neg he]

theorem lastUsed_of_row (h : a.row env now = some row) : row.lastUsed = now := by
  simp only [PutArgs.row, Option.bind_eq_bind, Option.bind_eq_some_iff, Option.guard_eq_some'] at h
  obtain ⟨_, -, _, -, _, -, _, -, _, -, _, -, hrow⟩ := h
  cases hrow
  rfl

-- The table with the row of a put in it: all but the cap.
theorem Sound.store (h : d.Sound env uses) (ha : a.row env now = some row) :
    ((d.store row a.body).rows.map (·.key)).Nodup ∧ ∀ r ∈ (d.store row a.body).rows,
      0 ≤ r.bodySize ∧ lastUse (uses ++ [(row.key, now)]) r.key = some r.lastUsed := by
  refine ⟨nodup_upsert h.nodup, fun r hr => ?_⟩
  have hsize : 0 ≤ row.bodySize := a.stores ha |>.bodySize ▸ Int.natCast_nonneg _
  have hused : row.lastUsed = now := lastUsed_of_row ha
  rw [lastUse_concat]
  obtain ⟨hr, hk⟩ | rfl | ⟨r', hr', hk, rfl⟩ := mem_upsert_iff h.nodup hr
  · exact ⟨h.sizes r hr, (if_neg (hk ·.symm)).trans (h.used r hr)⟩
  · exact ⟨hsize, (if_pos rfl).trans (congrArg some hused.symm)⟩
  · exact ⟨hsize, (if_pos rfl).trans (congrArg some hused.symm)⟩

theorem filter_upsert {rs : List Row} :
    (upsert row rs).filter (·.key ≠ row.key) = rs.filter (·.key ≠ row.key) := by
  induction rs
  case nil          => simp [upsert]
  case cons r rs hi =>
    rw [upsert]
    split
    case isTrue hk  => simp [hk]
    case isFalse hk => rw [List.filter_cons, List.filter_cons, hi]

theorem Sound.putUnwritten (h : d.Sound env uses) : (d.putUnwritten env now a).Sound env uses := by
  rw [Disk.putUnwritten]
  split
  case h_1       => exact h
  case h_2 row _ =>
    have hs : (({ d with rows := upsert row d.rows } : Disk).deleteKey row.key).rows.Sublist d.rows := by
      rw [Disk.deleteKey, filter_upsert]
      exact List.filter_sublist
    exact h.sublist hs

variable (env d now key) in
-- What is put, returned or promoted is used, and where nothing is, rows can only go.
theorem getKey_cases : (d.getKey env now key).1.rows.Sublist d.rows ∧ (d.getKey env now key).2 = none ∨
    (d.getKey env now key).1 = d.touchKey now key ∧ (d.getKey env now key).2.map (·.1) = some key := by
  rw [getKey]
  split
  case h_1 => exact .inl ⟨.refl _, rfl⟩
  case h_2 =>
    split
    · exact .inl ⟨List.filter_sublist, rfl⟩
    · split
      · exact .inl ⟨.refl _, rfl⟩
      · split
        · exact .inl ⟨List.filter_sublist, rfl⟩
        · split
          · exact .inl ⟨List.filter_sublist, rfl⟩
          · exact .inr ⟨rfl, rfl⟩

theorem Sound.get {url : CString} {partition : Option CString} {headers : List CString} (h : d.Sound env uses) :
    (d.get env now url partition headers).1.Sound env
      (uses ++ ((d.get env now url partition headers).2.map (·.1, now)).toList) := by
  rw [Disk.get]
  split
  case h_1       => simpa using h
  case h_2 key _ =>
    obtain ⟨hs, hn⟩ | ⟨hd, hk⟩ := getKey_cases env d now key
    · rw [hn]
      simpa using h.sublist hs
    · have huse : (d.getKey env now key).2.map (·.1, now) = some (key, now) := by
        obtain ⟨p, hp, rfl⟩ := Option.map_eq_some_iff.mp hk
        rw [hp]
        rfl
      rw [hd, huse]
      refine h.use (fun r => ?_) (fun r => ?_) (fun r => ?_) <;> split <;> rfl

theorem Sound.promote304 {url : CString} {partition : Option CString} {headers : List CString}
    {cc expires : Option CString} (h : d.Sound env uses) :
    (d.promote304 env now url partition headers cc expires).1.Sound env
      (uses ++ ((d.promote304 env now url partition headers cc expires).2.map (·, now)).toList) := by
  have hsame : d.Sound env (uses ++ ((none : Option CString).map (·, now)).toList) := by simpa using h
  rw [Disk.promote304]
  split
  case isTrue  => exact hsame
  case isFalse =>
    split
    case h_1       => exact hsame
    case h_2 key _ =>
      split
      case h_1 => exact hsame
      case h_2 =>
        dsimp only
        generalize (if freshnessFromHeaders env now cc expires < 0 then 0
          else freshnessFromHeaders env now cc expires) = expiresAt
        split
        case isTrue  => exact hsame
        case isFalse => refine h.use (fun r => ?_) (fun r => ?_) (fun r => ?_) <;> split <;> rfl

theorem Sound.evictToCap (hn : (d.rows.map (·.key)).Nodup)
    (hr : ∀ r ∈ d.rows, 0 ≤ r.bodySize ∧ lastUse uses r.key = some r.lastUsed) :
    (d.evictToCap env now).Sound env uses := by
  obtain ⟨n, hp, hcap⟩ := rows_evictToCap env now hn fun r h => (hr r h).1
  have hsub : ∀ r ∈ (d.evictToCap env now).rows, r ∈ d.rows := fun r h =>
    (List.mem_insertionSort _).mp (List.mem_of_mem_take (hp.mem_iff.mp h))
  exact ⟨le_evictToCap.nodup hn, fun r h => (hr r (hsub r h)).1, hcap, fun r h => (hr r (hsub r h)).2⟩

theorem Sound.put (h : d.Sound env uses) :
    (d.put env now a).Sound env (uses ++ ((a.row env now).map (·.key, now)).toList) := by
  rw [Disk.put]
  cases ha : a.row env now
  case none     => simpa using h
  case some row =>
    obtain ⟨hn, hr⟩ := h.store ha
    exact .evictToCap hn hr

theorem Sound.access {x : Access} (h : d.Sound env uses) :
    (x.exec env d).Sound env (uses ++ (x.uses env d).toList) := by
  cases x
  case call c       =>
    cases c
    case put => exact h.put
    case get => exact h.get
  case putUnwritten => exact (List.append_nil uses).symm ▸ h.putUnwritten
  case promote304   => exact h.promote304
  case delete       => exact (List.append_nil uses).symm ▸ h.deleteKey
  case evict        =>
    exact (List.append_nil uses).symm ▸ .evictToCap h.nodup fun r hr => ⟨h.sizes r hr, h.used r hr⟩
  case clear        => exact (List.append_nil uses).symm ▸ h.sublist (List.nil_sublist _)

end Disk

namespace History

variable {env : Env} {d : Disk} {uses : List (CString × Int)} {rows : List Row}

theorem sound (h : History env uses d) : d.Sound env uses := by
  induction h
  case start             => exact .empty
  case access d rows a _ hp hi => exact (hi.perm hp).access

-- What is over the cap when a put returns is what has not been used for the longest time, and it has gone.
theorem evicts_put (h : History env uses d) (hp : rows.Perm d.rows) (now : Int) (a : PutArgs) :
    Disk.Evicts env (uses ++ ((Access.call (.put now a)).uses env { d with rows }).toList)
      (Disk.stored { d with rows } env now a) (Disk.put { d with rows } env now a) := by
  have hs := h.sound.perm hp
  rw [Access.uses, Disk.stored, Disk.put]
  cases ha : a.row env now
  case none     =>
    refine ⟨hs.cap, ⟨(rows.insertionSort (usedAfter · ·)).length, ?_⟩, fun _ _ e he hne => absurd he hne⟩
    rw [List.take_length]
    exact (List.perm_insertionSort _ _).symm
  case some row =>
    obtain ⟨hn, hr⟩ := hs.store ha
    obtain ⟨n, hp, hcap⟩ := Disk.rows_evictToCap env now hn fun r h => (hr r h).1
    refine ⟨hcap, ⟨n, hp⟩, fun r hr' e he hne => ?_⟩
    have hr' := hp.mem_iff.mp hr'
    have hused : usedAfter r e := Lib.rel_of_mem_take (pairwise_usedAfter _) hr'
      ((List.mem_insertionSort _).mpr he) (hne <| hp.mem_iff.mpr ·)
    have hle : e.lastUsed ≤ r.lastUsed := (usedAfter_iff.mp hused).elim le_of_lt fun h => h.1.ge
    exact ⟨_, (hr e he).2, _, (hr r ((List.mem_insertionSort _).mp (List.mem_of_mem_take hr'))).2, hle⟩

end History

-- A cache with room for one of two pages.
def twoPages : Env where
  sha256 s        :=
    if s = "http://a/".toList then "282a35d7a0da6ae48eee116ad6193fa861bd88958a4c38a8042f6712ed9474f7".toList
    else "bec77edc4d194853c92206b3310fd4a4c9d08f7cf80b6a627c1fbbe2a74e75c5".toList
  cacheCapBytes   := 1048576
  parseHttpDate _ := 0
  isHttpOrHttps s := gStrHasPrefix s "http://".toList || gStrHasPrefix s "https://".toList

def pagePut (url : CString) (body : Body) : PutArgs where
  url  := url
  body := body

def pageRow (url : CString) : Row where
  key             := twoPages.sha256 url
  baseKey         := twoPages.sha256 url
  url             := url
  finalUrl        := url
  status          := 200
  contentType     := none
  corsAllowOrigin := none
  etag            := none
  lastModified    := none
  vary            := none
  expiresAt       := 0
  fetchedAt       := 1000
  lastUsed        := 1000
  bodySize        := 600000

section TwoPages

variable {url : CString} {body : Body}

variable (url) in
theorem row_pagePut {now : Int} (hu : urlShouldCache twoPages url) (hb : body.length ≤ 1048576) :
    (pagePut url body).row twoPages now =
      some { pageRow url with fetchedAt := now, lastUsed := now, bodySize := body.length } := by
  have hnil (c : Char) (cs : CString) : strstr [] (c :: cs) = false := rfl
  have hlen : body.length ≤ 2147483647 := Nat.le_trans hb (by decide)
  have hcap : body.length ≤ twoPages.cacheCapBytes := hb
  have hfresh : freshnessFromHeaders twoPages now none none = 0 := rfl
  have hsel : varySelector [] [] = some [] := rfl
  simp [PutArgs.row, pagePut, hu, hnil, hlen, hcap, hfresh, hsel, isCacheableStatus, pageRow, rowKeyFor, baseKeyForUrl]

variable (url) in
theorem row_pagePut_large (hu : urlShouldCache twoPages url) (hb : body.length = 600000) :
    (pagePut url body).row twoPages 1000 = some (pageRow url) := by
  rw [row_pagePut url hu (by rw [hb]; decide), hb]
  rfl

variable (url) in
theorem history_pagePut {uses : List (CString × Int)} {d : Disk} (h : History twoPages uses d)
    (hu : urlShouldCache twoPages url) (hb : body.length = 600000) :
    History twoPages (uses ++ [(twoPages.sha256 url, 1000)])
      ((d.store (pageRow url) body).evictToCap twoPages 1000) := by
  have hc := h.access (.call (.put 1000 (pagePut url body))) (.refl _)
  simp only [Access.uses, Access.exec, Call.exec, Disk.put, row_pagePut_large url hu hb] at hc
  exact hc

-- Where two rows do not fit together, the one that was used first goes.
theorem rows_evictToCap_pair {env : Env} {r e : Row} {bodies : CString → Option Body} {now : Int}
    (hr : ¬r.lastUsed < now - cacheMaxAgeSeconds) (he : ¬e.lastUsed < now - cacheMaxAgeSeconds)
    (hu : usedAfter r e) (hk : r.key ≠ e.key) (hfits : ¬r.bodySize > env.cacheCapBytes)
    (hover : r.bodySize + e.bodySize > env.cacheCapBytes) :
    (Disk.evictToCap { rows := [r, e], bodies } env now).rows = [r] := by
  rw [Disk.evictToCap, List.filter_cons_of_neg (by simpa using hr), List.filter_cons_of_neg (by simpa using he)]
  have hsort : [r, e].insertionSort (usedAfter · ·) = [r, e] := by simp [List.insertionSort, hu]
  simp [Disk.deleteKeys, Disk.deleteKey, hsort, overCap, hfits, hover, hk]

end TwoPages

def firstPage : Disk :=
  Disk.empty.put twoPages 1000 (pagePut "http://b/".toList [1])

theorem urlShouldCache_twoPages :
    urlShouldCache twoPages "http://a/".toList ∧ urlShouldCache twoPages "http://b/".toList := by
  unfold urlShouldCache twoPages
  repeat rw [String.toList_ofList]
  decide

theorem history_firstPage : History twoPages [(twoPages.sha256 "http://b/".toList, 1000)] firstPage := by
  have h : History twoPages _ _ :=
    History.start.access (.call (.put 1000 (pagePut "http://b/".toList [1]))) (.refl _)
  rw [Access.uses, row_pagePut "http://b/".toList urlShouldCache_twoPages.right (by decide)] at h
  exact h

theorem evicts_firstPage : Disk.Evicts twoPages
    [(twoPages.sha256 "http://b/".toList, 1000), (twoPages.sha256 "http://a/".toList, 2000)]
    (firstPage.stored twoPages 2000 (pagePut "http://a/".toList [2]))
    (firstPage.put twoPages 2000 (pagePut "http://a/".toList [2])) := by
  have h := history_firstPage.evicts_put (.refl _) 2000 (pagePut "http://a/".toList [2])
  rw [Access.uses, row_pagePut "http://a/".toList urlShouldCache_twoPages.left (by decide)] at h
  exact h

-- Two pages that are put within one second: the later one goes.
theorem usedLater_of_sameSecond {body : Body} (hb : body.length = 600000) : ∃ uses d,
    History twoPages uses d ∧ ∃ r ∈ (d.put twoPages 1000 (pagePut "http://a/".toList body)).rows,
      ∃ e ∈ (d.stored twoPages 1000 (pagePut "http://a/".toList body)).rows,
        e ∉ (d.put twoPages 1000 (pagePut "http://a/".toList body)).rows ∧
          UsedLater (uses ++ ((Access.call (.put 1000 (pagePut "http://a/".toList body))).uses twoPages d).toList)
            e.key r.key := by
  have hfirst := history_pagePut "http://b/".toList .start urlShouldCache_twoPages.right hb
  obtain ⟨⟨rows, bodies⟩, hd, hrows⟩ : ∃ d, History twoPages [(twoPages.sha256 "http://b/".toList, 1000)] d ∧
      d.rows = [pageRow "http://b/".toList] :=
    ⟨_, hfirst, rfl⟩
  obtain rfl : rows = [pageRow "http://b/".toList] := hrows
  have hne : twoPages.sha256 "http://b/".toList ≠ twoPages.sha256 "http://a/".toList := by
    unfold twoPages
    repeat rw [String.toList_ofList]
    decide
  have hgone : pageRow "http://a/".toList ∉ [pageRow "http://b/".toList] := fun hm =>
    hne (congrArg Row.key (List.mem_singleton.mp hm)).symm
  have hrow := row_pagePut_large "http://a/".toList urlShouldCache_twoPages.left hb
  have hupsert : upsert (pageRow "http://a/".toList) [pageRow "http://b/".toList] =
      [pageRow "http://b/".toList, pageRow "http://a/".toList] :=
    if_neg hne
  have hstored : (Disk.stored ⟨[pageRow "http://b/".toList], bodies⟩ twoPages 1000
      (pagePut "http://a/".toList body)).rows = [pageRow "http://b/".toList, pageRow "http://a/".toList] := by
    rw [Disk.stored, hrow]
    exact hupsert
  have hput : (Disk.put ⟨[pageRow "http://b/".toList], bodies⟩ twoPages 1000
      (pagePut "http://a/".toList body)).rows = [pageRow "http://b/".toList] := by
    rw [Disk.put, hrow]
    dsimp only [Disk.store]
    rw [hupsert]
    have hused : usedAfter (pageRow "http://b/".toList) (pageRow "http://a/".toList) := by
      unfold pageRow twoPages
      repeat rw [String.toList_ofList]
      decide
    exact rows_evictToCap_pair (by decide) (by decide) hused hne (by decide) (by decide)
  refine ⟨_, _, hd, pageRow "http://b/".toList, ?_, pageRow "http://a/".toList, ?_, ?_, ?_⟩
  · rw [hput]
    exact List.mem_cons_self
  · rw [hstored]
    exact List.mem_cons_of_mem _ List.mem_cons_self
  · rw [hput]
    exact hgone
  · rw [Access.uses, hrow]
    exact usedLater_pair hne

theorem not_older_sameSecond : ¬∀ (env : Env) (uses : List (CString × Int)) (d : Disk) (now : Int) (a : PutArgs),
    History env uses d →
    ∀ r ∈ (d.put env now a).rows, ∀ e ∈ (d.stored env now a).rows, e ∉ (d.put env now a).rows →
      ¬UsedLater (uses ++ ((Access.call (.put now a)).uses env d).toList) e.key r.key := by
  intro h
  have hb : (List.replicate 600000 (0 : UInt8)).length = 600000 := List.length_replicate
  obtain ⟨uses, d, hd, r, hr, e, he, hgone, hlater⟩ := usedLater_of_sameSecond hb
  exact h twoPages uses d 1000 _ hd r hr e he hgone hlater

end Nordstjernen.Net.Cache
