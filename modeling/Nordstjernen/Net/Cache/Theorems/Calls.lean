import Nordstjernen.Net.Cache.Calls
import Nordstjernen.Net.Cache.Theorems.Store

open Nordstjernen.Glib Nordstjernen.Net.Header

namespace Nordstjernen.Net.Cache

variable {env : Env} {d d' : Disk} {now : Int} {key base : CString} {row r : Row} {rs : List Row} {body : Body}
  {a : PutArgs} {c : Call} {cs : List Call} {url : CString} {partition : Option CString}
  {requestHeaders : List CString}

namespace Disk

variable {rest : List Op} {got : List (CString × Entry)}

theorem Finishes.first (op : Op)
    (h : Finishes env now (d.exec env now op).disk ((d.exec env now op).next ++ rest) d' got) :
    Finishes env now d (op :: rest) d' ((d.exec env now op).got.toList ++ got) :=
  .cons h

theorem Finishes.deleteKey (h : Finishes env now (d.deleteKey key) rest d' got) :
    Finishes env now d (Cache.deleteKey key ++ rest) d' got :=
  .first (.unlinkBody key) (.first (.deleteRow key) h)

theorem Finishes.deleteKeys {keys : List CString} (h : Finishes env now (d.deleteKeys keys) rest d' got) :
    Finishes env now d (keys.flatMap Cache.deleteKey ++ rest) d' got := by
  induction keys generalizing d
  case nil              => exact h
  case cons key keys hi =>
    rw [List.flatMap_cons, List.append_assoc]
    exact (hi h).deleteKey

theorem Finishes.evictToCap : Finishes env now d Cache.evictToCap (d.evictToCap env now) [] := by
  refine .first .selectAged ?_
  simp only [exec, ← List.flatMap_map (f := Row.key)]
  refine Finishes.deleteKeys (.first .selectOverCap ?_)
  exact Finishes.deleteKeys .nil

-- The steps of a put, one after the other, are what `put` does at once.
theorem finishes_put (h : a.row env now = some row) :
    Finishes env now d [.upsertRow row a.body] (d.put env now a) [] := by
  rw [put, h]
  exact .first (.upsertRow row a.body) (.first (.writeBody row.key a.body) .evictToCap)

theorem Finishes.step {op : Op} {r : Done} (hr : d.exec env now op = r)
    (h : Finishes env now r.disk (r.next ++ rest) d' got) :
    Finishes env now d (op :: rest) d' (r.got.toList ++ got) :=
  hr ▸ .cons (hr ▸ h)

theorem finishes_getKey :
    Finishes env now d [.selectRow key] (d.getKey env now key).1 (d.getKey env now key).2.toList := by
  rw [getKey]
  cases hr : d.rows.find? (·.key = key)
  case none   => exact .step (r := { disk := d }) (by rw [exec, hr]) .nil
  case some r =>
    dsimp only
    split
    case isTrue hs =>
      exact .step (r := { disk := d, next := Cache.deleteKey key }) (by rw [exec, hr]; exact if_pos hs)
        (Finishes.deleteKey .nil)
    case isFalse hs =>
      split
      case isTrue hz => exact .step (r := { disk := d }) (by rw [exec, hr]; dsimp only; rw [if_neg hs, if_pos hz]) .nil
      case isFalse hz =>
        refine .step (r := { disk := d, next := [.statBody key (r.entry [])] })
          (by rw [exec, hr]; dsimp only; rw [if_neg hs, if_neg hz]) ?_
        cases hb : d.bodies key
        case none      =>
          exact .step (r := { disk := d, next := Cache.deleteKey key }) (by simp [exec, hb]) (Finishes.deleteKey .nil)
        case some body =>
          dsimp only
          by_cases hcap : body.length ≤ env.cacheCapBytes
          case neg =>
            rw [if_pos (.inr (Nat.lt_of_not_le hcap))]
            exact .step (r := { disk := d, next := Cache.deleteKey key }) (by simp [exec, hb, hcap])
              (Finishes.deleteKey .nil)
          case pos =>
            refine .step (r := { disk := d, next := [.readBody key (r.entry [])] }) (by simp [exec, hb, hcap]) ?_
            split
            case isTrue hl =>
              exact .step (r := { disk := d, next := Cache.deleteKey key }) (by rw [exec, hb]; exact if_pos hl)
                (Finishes.deleteKey .nil)
            case isFalse hl =>
              refine .step (r := { disk := d, next := [.touchKey key (r.entry body)] })
                (by rw [exec, hb]; exact if_neg hl) ?_
              exact .first (.touchKey key (r.entry body)) .nil

-- And so are those of a get.
theorem finishes_get : Finishes env now d [.selectKey (baseKeyForUrl env url partition) requestHeaders]
    (d.get env now url partition requestHeaders).1 (d.get env now url partition requestHeaders).2.toList := by
  rw [get]
  cases hk : findRowKey env d.rows (baseKeyForUrl env url partition) requestHeaders
  case none     => exact .step (r := { disk := d }) (by rw [exec, hk]; rfl) .nil
  case some key => exact .step (r := { disk := d, next := [.selectRow key] }) (by rw [exec, hk]; rfl) finishes_getKey

end Disk

section Rows

theorem keys_upsert : (upsert row rs).map (·.key) =
    if row.key ∈ rs.map (·.key) then rs.map (·.key) else rs.map (·.key) ++ [row.key] := by
  induction rs
  case nil            => simp [upsert]
  case cons r' rs hi =>
    rw [upsert]
    by_cases hk : r'.key = row.key
    case pos => simp [hk]
    case neg =>
      rw [if_neg hk, List.map_cons, hi]
      have hk' : row.key ≠ r'.key := (hk ·.symm)
      split
      case isTrue hm  => rw [if_pos (by simpa [hk'] using hm), List.map_cons]
      case isFalse hm => rw [if_neg (by simpa [hk'] using hm), List.map_cons, List.cons_append]

theorem nodup_upsert (h : (rs.map (·.key)).Nodup) : ((upsert row rs).map (·.key)).Nodup := by
  rw [keys_upsert]
  split
  case isTrue     => exact h
  case isFalse hm => exact List.nodup_append.mpr ⟨h, List.nodup_singleton _, by simpa using hm⟩

-- A row of the table behind an upsert is an old one with another key, or the new one, which keeps the
-- base key of an old one.
theorem mem_upsert_iff (h : (rs.map (·.key)).Nodup) (hr : r ∈ upsert row rs) :
    r ∈ rs ∧ r.key ≠ row.key ∨
      r = row ∨ ∃ r' ∈ rs, r'.key = row.key ∧ r = { row with baseKey := r'.baseKey } := by
  induction rs
  case nil            => exact .inr (.inl (List.mem_singleton.mp hr))
  case cons r' rs hi =>
    rw [upsert] at hr
    obtain ⟨hn, h⟩ := List.nodup_cons.mp (List.map_cons ▸ h)
    split at hr
    case isTrue hk  =>
      obtain rfl | hr := List.mem_cons.mp hr
      · exact .inr (.inr ⟨r', List.mem_cons_self, hk, rfl⟩)
      · exact .inl ⟨List.mem_cons_of_mem _ hr, fun he => hn (List.mem_map.mpr ⟨r, hr, he.trans hk.symm⟩)⟩
    case isFalse hk =>
      obtain rfl | hr := List.mem_cons.mp hr
      · exact .inl ⟨List.mem_cons_self, hk⟩
      · obtain ⟨hr, hne⟩ | hr | ⟨r', hr', he⟩ := hi h hr
        · exact .inl ⟨List.mem_cons_of_mem _ hr, hne⟩
        · exact .inr (.inl hr)
        · exact .inr (.inr ⟨r', List.mem_cons_of_mem _ hr', he⟩)

-- The row that is found is the first one that answers.
theorem findRowKey_eq : findRowKey env rs base requestHeaders =
    (rs.find? (·.Answers env base requestHeaders)).map (·.key) := by
  rw [findRowKey, List.find?_filter]
  congr 2
  funext r
  rw [decide_eq_decide, Row.Answers]
  refine and_congr (by rw [decide_eq_true_iff]) ?_
  cases varySelector (r.vary.getD []) requestHeaders <;> simp

theorem find?_of_nodup (hn : (rs.map (·.key)).Nodup) (hr : r ∈ rs) : rs.find? (·.key = r.key) = some r := by
  induction rs
  case nil            => cases hr
  case cons r' rs hi =>
    obtain ⟨hm, hn⟩ := List.nodup_cons.mp (List.map_cons ▸ hn)
    obtain rfl | hr := List.mem_cons.mp hr
    · simp
    · have hk : r'.key ≠ r.key := fun he => hm (List.mem_map.mpr ⟨r, hr, he.symm⟩)
      rw [List.find?_cons_of_neg (by simpa using hk)]
      exact hi hn hr

end Rows

namespace Disk

-- A row comes from a put, but for its base key and the time at which it was last used.
def PutBy (env : Env) (cs : List Call) (d : Disk) (r : Row) : Prop :=
  ∃ now a row, Call.put now a ∈ cs ∧ a.row env now = some row ∧
    r = { row with baseKey := r.baseKey, lastUsed := r.lastUsed } ∧ ∀ b ∈ d.bodies r.key, b = a.body

-- Its base key comes from a put with the same key.
def BasedBy (env : Env) (cs : List Call) (r : Row) : Prop :=
  ∃ now a row, Call.put now a ∈ cs ∧ a.row env now = some row ∧ r.key = row.key ∧ r.baseKey = row.baseKey

structure Inv (env : Env) (cs : List Call) (d : Disk) : Prop where
  nodup : (d.rows.map (·.key)).Nodup
  put   : ∀ r ∈ d.rows, d.PutBy env cs r
  based : ∀ r ∈ d.rows, BasedBy env cs r

-- Rows go, or are used, and bodies go.
structure Le (d' d : Disk) : Prop where
  nodup  : (d.rows.map (·.key)).Nodup → (d'.rows.map (·.key)).Nodup
  rows   : ∀ r' ∈ d'.rows, ∃ r ∈ d.rows, r' = { r with lastUsed := r'.lastUsed }
  bodies : ∀ k, ∀ b ∈ d'.bodies k, b ∈ d.bodies k

theorem Le.refl : d.Le d :=
  ⟨id, fun r hr => ⟨r, hr, rfl⟩, fun _ _ => id⟩

theorem Le.trans {d₁ d₂ d₃ : Disk} (h₁ : d₁.Le d₂) (h₂ : d₂.Le d₃) : d₁.Le d₃ := by
  refine ⟨h₁.nodup ∘ h₂.nodup, fun r hr => ?_, fun k b => h₂.bodies k b ∘ h₁.bodies k b⟩
  obtain ⟨r₂, hr₂, he₁⟩ := h₁.rows r hr
  obtain ⟨r₃, hr₃, he₂⟩ := h₂.rows r₂ hr₂
  exact ⟨r₃, hr₃, by rw [he₁, he₂]⟩

theorem Le.inv (h : d'.Le d) (hi : d.Inv env cs) : d'.Inv env cs := by
  refine ⟨h.nodup hi.nodup, fun r' hr' => ?_, fun r' hr' => ?_⟩
  · obtain ⟨r, hr, he⟩ := h.rows r' hr'
    obtain ⟨now, a, row, hc, ha, hrow, hb⟩ := hi.put r hr
    refine ⟨now, a, row, hc, ha, by rw [he, hrow], fun b hb' => hb b ?_⟩
    rw [he] at hb'
    exact h.bodies r.key b hb'
  · obtain ⟨r, hr, he⟩ := h.rows r' hr'
    obtain ⟨now, a, row, hc, ha, hk, hb⟩ := hi.based r hr
    exact ⟨now, a, row, hc, ha, by rw [he]; exact hk, by rw [he]; exact hb⟩

theorem le_deleteKey : (d.deleteKey key).Le d where
  nodup h        := h.sublist (List.filter_sublist.map _)
  rows r hr      := ⟨r, List.mem_of_mem_filter hr, rfl⟩
  bodies k b hb := by
    simp only [deleteKey] at hb
    split at hb
    case isTrue  => cases hb
    case isFalse => exact hb

theorem le_deleteKeys {keys : List CString} : (d.deleteKeys keys).Le d := by
  induction keys generalizing d
  case nil              => exact .refl
  case cons key keys hi => exact hi.trans le_deleteKey

theorem le_evictToCap : (d.evictToCap env now).Le d :=
  le_deleteKeys.trans le_deleteKeys

theorem le_touchKey : (d.touchKey now key).Le d where
  nodup h       := by
    have he : (d.touchKey now key).rows.map (·.key) = d.rows.map (·.key) := by
      rw [touchKey, List.map_map]
      refine List.map_congr_left fun r _ => ?_
      dsimp only [Function.comp]
      split <;> rfl
    exact he ▸ h
  rows r' hr'   := by
    obtain ⟨r, hr, rfl⟩ := List.mem_map.mp hr'
    refine ⟨r, hr, ?_⟩
    split <;> rfl
  bodies _ _ hb := hb

theorem le_of_perm {rows : List Row} (h : rows.Perm d.rows) : Le { d with rows } d where
  nodup          := (h.map _).nodup_iff.mpr
  rows r hr      := ⟨r, h.mem_iff.mp hr, rfl⟩
  bodies _ _ hb := hb

theorem le_getKey : (d.getKey env now key).1.Le d := by
  rw [getKey]
  split
  case h_1 => exact .refl
  case h_2 =>
    split
    · exact le_deleteKey
    · split
      · exact .refl
      · split
        · exact le_deleteKey
        · split
          · exact le_deleteKey
          · exact le_touchKey

theorem le_get : (d.get env now url partition requestHeaders).1.Le d := by
  rw [get]
  split
  case h_1 => exact .refl
  case h_2 => exact le_getKey

theorem Inv.mono {cs' : List Call} (h : d.Inv env cs) (hs : ∀ c ∈ cs, c ∈ cs') : d.Inv env cs' := by
  refine ⟨h.nodup, fun r hr => ?_, fun r hr => ?_⟩
  · obtain ⟨now, a, row, hc, h⟩ := h.put r hr
    exact ⟨now, a, row, hs _ hc, h⟩
  · obtain ⟨now, a, row, hc, h⟩ := h.based r hr
    exact ⟨now, a, row, hs _ hc, h⟩

theorem Inv.store (h : d.Inv env cs) (hc : Call.put now a ∈ cs) (ha : a.row env now = some row) :
    (d.store row a.body).Inv env cs := by
  refine ⟨nodup_upsert h.nodup, fun r hr => ?_, fun r hr => ?_⟩
  · have hnew {base} (hr : r = { row with baseKey := base }) : (d.store row a.body).PutBy env cs r := by
      subst hr
      refine ⟨now, a, row, hc, ha, rfl, fun b hb => ?_⟩
      simpa [Disk.store, eq_comm] using hb
    obtain ⟨hr, hne⟩ | hr | ⟨r', hr', -, hr⟩ := mem_upsert_iff h.nodup hr
    · obtain ⟨now, a, row, hc, ha, hrow, hb⟩ := h.put r hr
      refine ⟨now, a, row, hc, ha, hrow, fun b hb' => hb b ?_⟩
      simpa [Disk.store, hne] using hb'
    · exact hnew hr
    · exact hnew hr
  · obtain ⟨hr, -⟩ | rfl | ⟨r', hr', hk, rfl⟩ := mem_upsert_iff h.nodup hr
    · exact h.based r hr
    · exact ⟨now, a, r, hc, ha, rfl, rfl⟩
    · obtain ⟨now, a, row, hc, ha, hk', hb⟩ := h.based r' hr'
      exact ⟨now, a, row, hc, ha, hk.symm.trans hk', hb⟩

theorem inv_of_after (h : After env cs d) : d.Inv env cs := by
  induction h
  case start                            => exact ⟨by simp, by simp, by simp⟩
  case call cs d rows c _ hperm hi =>
    have hi : Inv env (cs ++ [c]) { d with rows } :=
      (le_of_perm hperm).inv (hi.mono fun _ => List.mem_append_left _)
    cases c
    case put now a =>
      simp only [Call.exec, Disk.put]
      split
      case h_1         => exact hi
      case h_2 row ha => exact le_evictToCap.inv (hi.store (List.mem_append_right _ List.mem_cons_self) ha)
    case get => exact le_get.inv hi

end Disk

-- What is known of the row that a put stores.
structure PutArgs.Stores (env : Env) (a : PutArgs) (row : Row) : Prop where
  cached    : urlShouldCache env a.url
  status    : isCacheableStatus row.status
  length    : a.body.length ≤ 2147483647 ∧ a.body.length ≤ env.cacheCapBytes
  bodySize  : row.bodySize = a.body.length
  vary      : row.vary = a.vary
  baseKey   : row.baseKey = baseKeyForUrl env a.url a.partition
  key       : ∃ s, varySelector (a.vary.getD []) a.requestHeaders = some s ∧
    row.key = rowKeyFor env row.baseKey s

theorem PutArgs.stores (h : a.row env now = some row) : a.Stores env row := by
  simp only [PutArgs.row, Option.bind_eq_bind, Option.bind_eq_some_iff, Option.guard_eq_some'] at h
  obtain ⟨_, hcached, _, -, _, hstatus, _, hlength, _, -, selector, hselector, hrow⟩ := h
  cases hrow
  exact ⟨hcached, hstatus, hlength, rfl, rfl, rfl, selector, hselector, rfl⟩

namespace Disk

-- What `ns_cache_get` returns for a row that a put has stored.
theorem getKey_of_put (h : d.Inv env cs) (hr : r ∈ d.rows) (hb : d.bodies r.key = some body) :
    (d.getKey env now r.key).2 = some (r.key, r.entry body) := by
  obtain ⟨now', a, row, -, ha, hrow, hbody⟩ := h.put r hr
  have hs := PutArgs.stores ha
  obtain rfl : body = a.body := hbody body hb
  have hstatus : r.status = row.status := by rw [hrow]
  have hsize : r.bodySize = a.body.length := by rw [hrow]; exact hs.bodySize
  rw [getKey, find?_of_nodup h.nodup hr]
  dsimp only
  rw [if_neg (by rw [hstatus, hs.status]; simp), if_neg (by have := hs.length; omega), hb]
  dsimp only
  rw [if_neg (by have := hs.length; omega)]

theorem getKey_spec {k : CString} {e : Entry} (h : (d.getKey env now key).2 = some (k, e)) :
    k = key ∧ ∃ r ∈ d.rows, r.key = key ∧ ∃ body, d.bodies key = some body ∧ e = r.entry body := by
  rw [getKey] at h
  cases hf : d.rows.find? (·.key = key)
  case none   => rw [hf] at h; cases h
  case some r =>
    rw [hf] at h
    dsimp only at h
    split at h
    · cases h
    · split at h
      · cases h
      · split at h
        case h_1           => cases h
        case h_2 body hb =>
          split at h
          · cases h
          · cases h
            exact ⟨rfl, r, List.mem_of_find?_eq_some hf, by simpa using List.find?_some hf, body, hb, rfl⟩

-- What is returned belongs to the row that is found.
theorem get_spec {e : Entry} (h : (d.get env now url partition requestHeaders).2 = some (key, e)) :
    findRowKey env d.rows (baseKeyForUrl env url partition) requestHeaders = some key ∧
      ∃ r ∈ d.rows, r.key = key ∧ ∃ body, d.bodies key = some body ∧ e = r.entry body := by
  rw [get] at h
  split at h
  case h_1      => cases h
  case h_2 k hk =>
    obtain ⟨rfl, h⟩ := getKey_spec h
    exact ⟨hk, h⟩

theorem Row.entry_inj {r r' : Row} {b b' : Body} (h : r.entry b = r'.entry b') : r.entry = r'.entry ∧ b = b' := by
  simp only [Row.entry, Entry.mk.injEq] at h
  obtain ⟨h₁, h₂, h₃, h₄, h₅, h₆, h₇, h₈, hb⟩ := h
  refine ⟨funext fun b => ?_, hb⟩
  simp only [Row.entry, h₁, h₂, h₃, h₄, h₅, h₆, h₇, h₈]

theorem serves_iff (h : After env cs d) : d.Serves env now a ↔ ∃ row ∈ a.row env now, d.Keeps env a row := by
  have hi := inv_of_after h
  refine exists_congr fun row => and_congr_right fun ha => ?_
  have hs := PutArgs.stores ha
  constructor
  case mp =>
    intro hg
    obtain ⟨hfind, r, hr, hkey, body, hbody, he⟩ := get_spec (hg d.rows now (.refl _))
    obtain ⟨hentry, rfl⟩ := Row.entry_inj he
    refine ⟨⟨r, hr, hkey, hentry.symm, ?_⟩, hbody, fun r' hr' hans => ?_⟩
    · rw [findRowKey_eq, Option.map_eq_some_iff] at hfind
      obtain ⟨r', hf, hkey'⟩ := hfind
      obtain rfl := List.inj_on_of_nodup_map hi.nodup hr (List.mem_of_find?_eq_some hf) (hkey.trans hkey'.symm)
      simpa [hs.baseKey] using List.find?_some hf
    · -- The scan may meet any row first.
      obtain ⟨s, t, hst⟩ := List.append_of_mem hr'
      have hfirst := (get_spec (hg (r' :: (s ++ t)) now (hst ▸ List.perm_middle.symm))).left
      rw [← hs.baseKey, findRowKey_eq, List.find?_cons_of_pos (by simpa using hans)] at hfirst
      exact Option.some.inj hfirst
  case mpr =>
    intro hk rows t hperm
    obtain ⟨r, hr, hkey, hentry, hans⟩ := hk.kept
    have hi : Inv env cs { d with rows } := (le_of_perm hperm).inv hi
    have hfind : findRowKey env rows row.baseKey a.requestHeaders = some row.key := by
      rw [findRowKey_eq]
      cases hf : rows.find? (·.Answers env row.baseKey a.requestHeaders)
      case none    => exact absurd hans (by simpa using List.find?_eq_none.mp hf r (hperm.mem_iff.mpr hr))
      case some r' =>
        exact congrArg some (hk.only r' (hperm.mem_iff.mp (List.mem_of_find?_eq_some hf))
          (by simpa using List.find?_some hf))
    rw [get, ← hs.baseKey, hfind]
    dsimp only
    rw [← hkey, ← hentry]
    exact getKey_of_put hi (hperm.mem_iff.mpr hr) (hkey ▸ hk.body)

-- Nothing else answers when all rows of the base key have the `Vary` of the put.
theorem Keeps.of_vary (ha : a.row env now = some row) (hb : d.bodies row.key = some a.body)
    (hr : r ∈ d.rows) (hkey : r.key = row.key) (hbase : r.baseKey = row.baseKey) (he : r.entry = row.entry)
    (hv : ∀ r ∈ d.rows, r.baseKey = row.baseKey → varyNames (r.vary.getD []) = varyNames (a.vary.getD [])) :
    d.Keeps env a row := by
  obtain ⟨s, hs, hk⟩ := (PutArgs.stores ha).key
  have hsel {r} (hr : r ∈ d.rows) (hbase : r.baseKey = row.baseKey) :
      varySelector (r.vary.getD []) a.requestHeaders = some s := by
    rw [varySelector, hv r hr hbase]
    exact hs
  refine ⟨⟨r, hr, hkey, he, hbase, s, hsel hr hbase, hkey.trans hk⟩, hb, fun r' hr' hans => ?_⟩
  obtain ⟨hbase', s', hs', hk'⟩ := hans
  obtain rfl := Option.some.inj ((hsel hr' hbase').symm.trans hs')
  exact hk'.trans hk.symm

end Disk

-- A server that begins to send `Vary`.
def varyBegins : Env where
  sha256 s        :=
    if s = "http://a/".toList then "282a35d7a0da6ae48eee116ad6193fa861bd88958a4c38a8042f6712ed9474f7".toList
    else "6d0d9c2d224f95d34d9d0967f2244e62021e96eae68c05ff6347be17be37732f".toList
  cacheCapBytes   := 268435456
  parseHttpDate _ := 0
  isHttpOrHttps s := gStrHasPrefix s "http://".toList || gStrHasPrefix s "https://".toList

def plainPut : PutArgs where
  url            := "http://a/".toList
  etag           := some "1".toList
  requestHeaders := ["Accept: */*".toList]
  body           := [1]

def varyPut : PutArgs where
  url            := "http://a/".toList
  etag           := some "2".toList
  vary           := some "Accept".toList
  requestHeaders := ["Accept: */*".toList]
  body           := [2]

def plainDisk : Disk :=
  Disk.put { rows := [], bodies := fun _ => none } varyBegins 1000 plainPut

def varyDisk : Disk :=
  plainDisk.put varyBegins 2000 varyPut

theorem after_plainDisk : After varyBegins [.put 1000 plainPut] plainDisk :=
  .call (.put 1000 plainPut) .start (.refl _)

theorem after_varyDisk : After varyBegins [.put 1000 plainPut, .put 2000 varyPut] varyDisk :=
  .call (.put 2000 varyPut) after_plainDisk (.refl _)

theorem Disk.finishes_put_plainPut : ∃ row, plainPut.row varyBegins 1000 = some row ∧
    Disk.Finishes varyBegins 1000 { rows := [], bodies := fun _ => none } [.upsertRow row plainPut.body] plainDisk [] := by
  have hrow : (plainPut.row varyBegins 1000).isSome := by
    unfold PutArgs.row plainPut varyBegins
    repeat rw [String.toList_ofList]
    decide +kernel
  obtain ⟨row, hr⟩ := Option.isSome_iff_exists.mp hrow
  exact ⟨row, hr, Disk.finishes_put hr⟩

theorem serves_plainDisk : plainDisk.Serves varyBegins 1000 plainPut := by
  refine (Disk.serves_iff after_plainDisk).mpr ?_
  unfold plainDisk plainPut varyBegins
  repeat rw [String.toList_ofList]
  exact ⟨_, rfl, ⟨_, List.mem_singleton.mpr rfl, rfl, rfl, by decide⟩, rfl, by decide⟩

theorem Disk.Serves.etag {env : Env} {now : Int} {a : PutArgs} {d : Disk} (h : d.Serves env now a) (t : Int) :
    (d.get env t a.url a.partition a.requestHeaders).2.map (·.2.etag) = (a.row env now).map (·.etag) := by
  obtain ⟨row, hrow, hs⟩ := h
  have hget : (d.get env t a.url a.partition a.requestHeaders).2 = some (row.key, row.entry a.body) :=
    hs d.rows t (.refl _)
  rw [hget, Option.mem_def.mp hrow]
  rfl

-- The row of the first put still answers, and it is the first one that the scan meets.
theorem not_serves_varyDisk : ¬∀ (env : Env) (before later : List Call) (now : Int) (a : PutArgs) (d : Disk),
    After env (before ++ .put now a :: later) d → (∀ c ∈ later, ¬c.PutsTo a.url a.partition) →
    (a.row env now).isSome → d.Serves env now a := by
  intro h
  have hrow : (varyPut.row varyBegins 2000).isSome := by
    unfold PutArgs.row varyPut varyBegins
    repeat rw [String.toList_ofList]
    decide +kernel
  have hs := h varyBegins [.put 1000 plainPut] [] 2000 varyPut varyDisk after_varyDisk (by simp) hrow
  have hold : (varyDisk.get varyBegins 3000 varyPut.url varyPut.partition varyPut.requestHeaders).2.map (·.2.etag) =
      some (some "1".toList) := by
    unfold varyDisk plainDisk plainPut varyPut varyBegins
    repeat rw [String.toList_ofList]
    decide +kernel
  have hnew : (varyPut.row varyBegins 2000).map (·.etag) = some (some "2".toList) := by
    unfold PutArgs.row varyPut varyBegins
    repeat rw [String.toList_ofList]
    decide +kernel
  exact absurd (hold.symm.trans ((hs.etag 3000).trans hnew)) (by decide)

end Nordstjernen.Net.Cache
