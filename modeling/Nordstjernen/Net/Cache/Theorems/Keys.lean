import Nordstjernen.Net.Cache.Theorems.Calls

open Nordstjernen.Glib Nordstjernen.Net.Header

namespace Nordstjernen.Net.Cache

-- What is assumed of the platform: the digests are hexadecimal, and no two texts have the same one.
structure Env.Sound (env : Env) : Prop where
  injective : Function.Injective env.sha256
  hex       : ∀ s, ∀ c ∈ env.sha256 s, c.isDigit ∨ 'a' ≤ c ∧ c ≤ 'f'
  http      : ∀ url, env.isHttpOrHttps url = (gStrHasPrefix url "http://".toList || gStrHasPrefix url "https://".toList)

-- Whether the values that a put stores for its `Vary` are single lines.
def Call.OneLine : Call → Prop
  | .put _ a => ∀ name ∈ varyNames (a.vary.getD []), ∀ v ∈ requestHeaderValue a.requestHeaders name, '\n' ∉ v
  | .get ..  => True

-- An entry is returned for the request of a put: for its URL and partition, with its values of the
-- headers that `Vary` lists.
def StoredFor (env : Env) (cs : List Call) (url : CString) (partition : Option CString)
    (requestHeaders : List CString) (key : CString) (e : Entry) : Prop :=
  ∃ now a row, Call.put now a ∈ cs ∧ a.row env now = some row ∧ key = row.key ∧ e = row.entry a.body ∧
    a.url = url ∧ a.partition.getD [] = partition.getD [] ∧
    ∀ name ∈ varyNames (a.vary.getD []),
      requestHeaderValue a.requestHeaders name = requestHeaderValue requestHeaders name

section Selector

-- The lines of a selector.
def selectorLines (headers : List CString) : List CString → Option CString
  | []            => some []
  | name :: names => do
    guard (varySupported.contains name)
    let value ← requestHeaderValue headers name
    let lines ← selectorLines headers names
    return name ++ ':' :: value ++ '\n' :: lines

variable {headers headers' : List CString} {name v v' s s' vary : CString} {names : List CString}

theorem selectorLines_cons : selectorLines headers (name :: names) = some s ↔
    varySupported.contains name ∧ ∃ v, requestHeaderValue headers name = some v ∧
      ∃ t, selectorLines headers names = some t ∧ name ++ ':' :: v ++ '\n' :: t = s := by
  simp [selectorLines, Option.bind_eq_some_iff, Option.guard_eq_some']

-- The step of the loop of `vary_selector`.
def selectorStep (headers : List CString) (selector name : CString) : Option CString := do
  guard (varySupported.contains name)
  let value ← requestHeaderValue headers name
  return selector ++ name ++ ':' :: value ++ ['\n']

theorem foldlM_selectorStep : names.foldlM (selectorStep headers) s = (selectorLines headers names).map (s ++ ·) := by
  induction names generalizing s
  case nil                => simp [selectorLines]
  case cons name names hi =>
    rw [List.foldlM_cons, selectorLines]
    by_cases hs : varySupported.contains name
    case neg =>
      have hstep : selectorStep headers s name = none := by
        rw [selectorStep, guard, if_neg hs]
        rfl
      rw [hstep, guard, if_neg hs]
      rfl
    case pos =>
      rw [selectorStep, guard, if_pos hs]
      cases requestHeaderValue headers name
      case none   => rfl
      case some v =>
        refine hi.trans ?_
        cases selectorLines headers names
        case none   => rfl
        case some t => exact congrArg some (by simp)

theorem varySelector_eq : varySelector vary headers = selectorLines headers (varyNames vary) := by
  refine (foldlM_selectorStep (s := [])).trans ?_
  cases selectorLines headers (varyNames vary) <;> rfl

theorem eq_of_line {α : Type} {a : α} {u u' t t' : List α} (hu : a ∉ u) (hu' : a ∉ u')
    (h : u ++ a :: t = u' ++ a :: t') : u = u' ∧ t = t' := by
  induction u generalizing u'
  case nil =>
    cases u'
    case nil       => exact ⟨rfl, (List.cons.inj h).right⟩
    case cons c u' => exact absurd (List.cons.inj h).left (fun he => hu' (he ▸ List.mem_cons_self))
  case cons c u hi =>
    cases u'
    case nil => exact absurd (List.cons.inj h).left (fun he => hu (he ▸ List.mem_cons_self))
    case cons c' u' =>
      obtain ⟨hc, h⟩ := List.cons.inj h
      obtain ⟨he, ht⟩ := hi (hu <| List.mem_cons_of_mem _ ·) (hu' <| List.mem_cons_of_mem _ ·) h
      exact ⟨by rw [hc, he], ht⟩

theorem count_of_supported (h : varySupported.contains name) : name.count '\n' = 0 := by
  have hall : ∀ name ∈ varySupported, name.count '\n' = 0 := by
    unfold varySupported
    repeat rw [String.toList_ofList]
    decide
  exact hall name (List.contains_iff_mem.mp h)

theorem count_line (h : varySupported.contains name) :
    (name ++ ':' :: v ++ '\n' :: s).count '\n' = v.count '\n' + (s.count '\n' + 1) := by
  simp [List.count_append, count_of_supported h]

theorem length_le_count (h : selectorLines headers names = some s) : names.length ≤ s.count '\n' := by
  induction names generalizing s
  case nil                => exact Nat.zero_le _
  case cons name names hi =>
    obtain ⟨hs, v, -, t, ht, rfl⟩ := selectorLines_cons.mp h
    have := hi ht
    rw [count_line hs, List.length_cons]
    omega

theorem count_eq_length (h : selectorLines headers names = some s)
    (hv : ∀ name ∈ names, ∀ v ∈ requestHeaderValue headers name, '\n' ∉ v) : s.count '\n' = names.length := by
  induction names generalizing s
  case nil                => cases h; rfl
  case cons name names hi =>
    obtain ⟨hs, v, hval, t, ht, rfl⟩ := selectorLines_cons.mp h
    have hline : v.count '\n' = 0 := List.count_eq_zero.mpr (hv name List.mem_cons_self v hval)
    have hrest := hi ht fun name hn => hv name (List.mem_cons_of_mem _ hn)
    rw [count_line hs, List.length_cons]
    omega

-- Where one side has no line break in its values, equal selectors of the same names have equal values.
theorem value_eq_of_selectorLines (h : selectorLines headers names = some s)
    (h' : selectorLines headers' names = some s)
    (hv : ∀ name ∈ names, ∀ v ∈ requestHeaderValue headers name, '\n' ∉ v) :
    ∀ name ∈ names, requestHeaderValue headers name = requestHeaderValue headers' name := by
  induction names generalizing s
  case nil                => simp
  case cons name names hi =>
    have hv' : ∀ name ∈ names, ∀ v ∈ requestHeaderValue headers name, '\n' ∉ v :=
      fun name hn => hv name (List.mem_cons_of_mem _ hn)
    obtain ⟨hs, v, hval, t, ht, rfl⟩ := selectorLines_cons.mp h
    obtain ⟨-, v', hval', t', ht', he⟩ := selectorLines_cons.mp h'
    have hline : v.count '\n' = 0 := List.count_eq_zero.mpr (hv name List.mem_cons_self v hval)
    -- The other side has as many lines, and so no more line breaks either.
    have hline' : v'.count '\n' = 0 := by
      have hcount := congrArg (List.count '\n') he
      rw [count_line hs, count_line hs, count_eq_length ht hv'] at hcount
      have := length_le_count ht'
      omega
    have hno {u : CString} (hu : u.count '\n' = 0) : '\n' ∉ name ++ ':' :: u :=
      List.count_eq_zero.mp (by simp [List.count_append, count_of_supported hs, hu])
    obtain ⟨hw, rfl⟩ := eq_of_line (hno hline') (hno hline) he
    obtain rfl := (List.cons.inj (List.append_cancel_left hw)).right
    intro n hn
    obtain rfl | hn := List.mem_cons.mp hn
    · exact hval.trans hval'.symm
    · exact hi ht ht' hv' n hn

end Selector

section Keys

variable {env : Env} {base base' selector selector' url url' : CString} {partition partition' : Option CString}

-- The text of which the base key is the digest.
def baseText (url : CString) (partition : Option CString) : CString :=
  if partition.getD [] = [] then url else url ++ '\x1f' :: partition.getD []

theorem baseKeyForUrl_eq : baseKeyForUrl env url partition = env.sha256 (baseText url partition) := by
  cases partition
  case none   => simp [baseKeyForUrl, baseText]
  case some p => cases p <;> simp [baseKeyForUrl, baseText]

theorem not_mem_of_cached (h : urlShouldCache env url) : '\x1f' ∉ url := by
  intro hm
  have hall := List.all_eq_true.mp (Bool.and_eq_true_iff.mp h).right '\x1f' hm
  exact absurd hall nofun

theorem Env.Sound.not_mem (he : env.Sound) (s : CString) : '\x1f' ∉ env.sha256 s :=
  fun hm => absurd (he.hex s _ hm) nofun

theorem baseText_inj (hu : '\x1f' ∉ url) (hu' : '\x1f' ∉ url') (h : baseText url partition = baseText url' partition') :
    url = url' ∧ partition.getD [] = partition'.getD [] := by
  unfold baseText at h
  split at h
  case isTrue hp =>
    split at h
    case isTrue hp' => exact ⟨h, hp.trans hp'.symm⟩
    case isFalse    => exact absurd (h ▸ List.mem_append_right _ List.mem_cons_self) hu
  case isFalse hp =>
    split at h
    case isTrue  => exact absurd (h ▸ List.mem_append_right _ List.mem_cons_self) hu'
    case isFalse => exact eq_of_line hu hu' h

theorem Env.Sound.head (he : env.Sound) (hu : urlShouldCache env url) : ∃ t, url = 'h' :: t := by
  have hh := (Bool.and_eq_true_iff.mp hu).left
  rw [he.http] at hh
  cases url
  case nil      => exact absurd hh nofun
  case cons c t =>
    have hc : c = 'h' := by
      by_contra hne
      simp [gStrHasPrefix, Ne.symm hne] at hh
    exact ⟨t, by rw [hc]⟩

-- No text of a base key is one of a row key.
theorem Env.Sound.baseText_ne (he : env.Sound) (hu : urlShouldCache env url) {s t : CString} :
    baseText url partition ≠ env.sha256 s ++ '\x1f' :: t := by
  obtain ⟨u, rfl⟩ := he.head hu
  intro h
  have hhead : (env.sha256 s ++ '\x1f' :: t).head? = some 'h' := by
    rw [← h, baseText]
    split <;> rfl
  cases hs : env.sha256 s
  case nil       => rw [hs] at hhead; exact absurd hhead (by simp)
  case cons c cs =>
    rw [hs] at hhead
    obtain rfl : c = 'h' := by simpa using hhead
    exact absurd (he.hex s 'h' (hs ▸ List.mem_cons_self)) nofun

-- The key of a row tells its base key and its selector.
theorem Env.Sound.rowKeyFor_inj (he : env.Sound) (hu : urlShouldCache env url) (hu' : urlShouldCache env url')
    (h : rowKeyFor env (baseKeyForUrl env url partition) selector =
      rowKeyFor env (baseKeyForUrl env url' partition') selector') :
    baseKeyForUrl env url partition = baseKeyForUrl env url' partition' ∧ selector = selector' := by
  rw [baseKeyForUrl_eq, baseKeyForUrl_eq] at h ⊢
  unfold rowKeyFor at h
  split at h
  case isTrue hs =>
    split at h
    case isTrue hs' => exact ⟨h, hs.trans hs'.symm⟩
    case isFalse    => exact absurd (he.injective h) (he.baseText_ne hu)
  case isFalse hs =>
    split at h
    case isTrue  => exact absurd (he.injective h).symm (he.baseText_ne hu')
    case isFalse => exact eq_of_line (he.not_mem _) (he.not_mem _) (he.injective h)

end Keys

section Stored

variable {env : Env} {cs : List Call} {d : Disk} {rows : List Row} {now : Int} {url key : CString}
  {partition : Option CString} {requestHeaders : List CString} {e : Entry}

theorem storedFor_of_get (he : env.Sound) (h : After env cs d) (hv : ∀ c ∈ cs, c.OneLine)
    (hu : urlShouldCache env url) (hperm : rows.Perm d.rows)
    (hg : (Disk.get { d with rows } env now url partition requestHeaders).2 = some (key, e)) :
    StoredFor env cs url partition requestHeaders key e := by
  have hi : Disk.Inv env cs { d with rows } := (Disk.le_of_perm hperm).inv (Disk.inv_of_after h)
  obtain ⟨hfind, r, hr, hkey, body, hbody, rfl⟩ := Disk.get_spec hg
  rw [findRowKey_eq, Option.map_eq_some_iff] at hfind
  obtain ⟨r', hf, hkey'⟩ := hfind
  obtain rfl := List.inj_on_of_nodup_map hi.nodup hr (List.mem_of_find?_eq_some hf) (hkey.trans hkey'.symm)
  obtain ⟨hbase, s, hs, hrk⟩ : r.Answers env (baseKeyForUrl env url partition) requestHeaders := by
    simpa using List.find?_some hf
  obtain ⟨t, a, row, hc, ha, hrow, hb⟩ := hi.put r hr
  obtain ⟨t', a', row', -, ha', hk', hb'⟩ := hi.based r hr
  have hst := PutArgs.stores ha
  have hst' := PutArgs.stores ha'
  obtain ⟨s₀, hs₀, hk₀⟩ := hst.key
  obtain ⟨s₁, hs₁, hk₁⟩ := hst'.key
  have hrkey : r.key = row.key := by rw [hrow]
  have hrvary : r.vary = a.vary := by rw [hrow]; exact hst.vary
  obtain rfl : body = a.body := hb body (hkey ▸ hbody)
  have hbk : baseKeyForUrl env a.url a.partition = baseKeyForUrl env url partition := by
    have hkeys : row.key = row'.key := hrkey.symm.trans hk'
    rw [hk₀, hk₁, hst.baseKey, hst'.baseKey] at hkeys
    rw [(he.rowKeyFor_inj hst.cached hst'.cached hkeys).left, ← hst'.baseKey, ← hb', hbase]
  have htext := hbk
  rw [baseKeyForUrl_eq, baseKeyForUrl_eq] at htext
  obtain ⟨hurl, hpart⟩ :=
    baseText_inj (not_mem_of_cached hst.cached) (not_mem_of_cached hu) (he.injective htext)
  obtain rfl : s = s₀ := by
    have hkeys : rowKeyFor env (baseKeyForUrl env url partition) s = rowKeyFor env row.baseKey s₀ :=
      hrk.symm.trans (hrkey.trans hk₀)
    rw [hst.baseKey] at hkeys
    exact (he.rowKeyFor_inj hu hst.cached hkeys).right
  refine ⟨t, a, row, hc, ha, hkey.symm.trans hrkey, by rw [hrow]; rfl, hurl, hpart, ?_⟩
  rw [hrvary, varySelector_eq] at hs
  rw [varySelector_eq] at hs₀
  exact value_eq_of_selectorLines hs₀ hs (hv _ hc)

end Stored

-- Every character of a text in unary.
def unary (s : CString) : CString :=
  s.flatMap fun c => List.replicate c.toNat '1' ++ ['0']

theorem unary_injective : Function.Injective unary := by
  intro s t h
  induction s generalizing t
  case nil =>
    cases t
    case nil    => rfl
    case cons c t => exact absurd (congrArg List.length h) (by simp [unary])
  case cons c s hi =>
    cases t
    case nil    => exact absurd (congrArg List.length h) (by simp [unary])
    case cons c' t =>
      have hc : '0' ∉ List.replicate c.toNat '1' := by simp [List.mem_replicate]
      have hc' : '0' ∉ List.replicate c'.toNat '1' := by simp [List.mem_replicate]
      simp only [unary, List.flatMap_cons, List.append_assoc, List.singleton_append] at h
      obtain ⟨hrep, h⟩ := eq_of_line hc hc' h
      have hc : c.toNat = c'.toNat := by simpa using congrArg List.length hrep
      rw [hi h, Char.toNat_inj.mp hc]

theorem mem_unary {c : Char} {s : CString} (h : c ∈ unary s) : c = '0' ∨ c = '1' := by
  obtain ⟨c', -, h⟩ := List.mem_flatMap.mp h
  obtain h | h := List.mem_append.mp h
  · exact .inr (List.eq_of_mem_replicate h)
  · exact .inl (List.mem_singleton.mp h)

-- The digests of the texts that the examples are about, and some for all the others.
def digest (s : CString) : CString :=
  if s = "http://a/\x1fp".toList then "df1b0f703a9225762fe55844851dc388741858a51caa7038798b311283df6719".toList
  else if s = "df1b0f703a9225762fe55844851dc388741858a51caa7038798b311283df6719\x1faccept:*/*\n".toList then
    "849ac5e24701945f494184fa86cc92ba962ed54ea7d31d01bef7f14a74711c56".toList
  else unary s

theorem digest_injective : Function.Injective digest := by
  have hne {s : CString} {c : Char} {t : CString} (hc : c ∈ t) (hb : c ≠ '0' ∧ c ≠ '1') : unary s ≠ t := by
    rintro rfl
    obtain rfl | rfl := mem_unary hc
    · exact hb.left rfl
    · exact hb.right rfl
  intro s t h
  unfold digest at h
  repeat rw [String.toList_ofList] at h
  split_ifs at h with hs ht ht' hs' ht ht' ht ht'
  · exact hs.trans ht.symm
  · exact absurd h (by decide)
  · exact absurd h.symm (hne (c := 'd') (by decide) (by decide))
  · exact absurd h (by decide)
  · exact hs'.trans ht'.symm
  · exact absurd h.symm (hne (c := '8') (by decide) (by decide))
  · exact absurd h (hne (c := 'd') (by decide) (by decide))
  · exact absurd h (hne (c := '8') (by decide) (by decide))
  · exact unary_injective h

def partitioned : Env where
  sha256          := digest
  cacheCapBytes   := 268435456
  parseHttpDate _ := 0
  isHttpOrHttps s := gStrHasPrefix s "http://".toList || gStrHasPrefix s "https://".toList

theorem sound_partitioned : partitioned.Sound where
  injective := digest_injective
  hex s c hc := by
    have hall : ∀ t : CString, (t.all fun c => c.isDigit || 'a' ≤ c && c ≤ 'f') = true →
        c ∈ t → c.isDigit ∨ 'a' ≤ c ∧ c ≤ 'f' := fun t ht hc => by
      simpa using List.all_eq_true.mp ht c hc
    simp only [partitioned, digest] at hc
    repeat rw [String.toList_ofList] at hc
    split at hc
    · exact hall _ (by decide) hc
    · split at hc
      · exact hall _ (by decide) hc
      · obtain rfl | rfl := mem_unary hc
        · exact .inl rfl
        · exact .inl rfl
  http _    := rfl

def partitionedPut : PutArgs where
  url            := "http://a/".toList
  partition      := some "p".toList
  vary           := some "Accept".toList
  requestHeaders := ["Accept: */*".toList]
  body           := [1]

def partitionedDisk : Disk :=
  Disk.put { rows := [], bodies := fun _ => none } partitioned 1000 partitionedPut

example : partitionedDisk.rows.length = 1 := by decide +kernel

theorem after_partitionedDisk : After partitioned [.put 1000 partitionedPut] partitionedDisk :=
  .call (.put 1000 partitionedPut) .start (.refl _)

-- What is got for the URL and the partition of the put, and for the URL with the partition at its end.
theorem isSome_partitionedDisk :
    (partitionedDisk.get partitioned 2000 partitionedPut.url partitionedPut.partition
      partitionedPut.requestHeaders).2.isSome ∧
    (partitionedDisk.get partitioned 2000 "http://a/\x1fp".toList none partitionedPut.requestHeaders).2.isSome := by
  unfold partitionedDisk partitioned partitionedPut digest
  repeat rw [String.toList_ofList]
  decide +kernel

theorem storedFor_partitionedPut : ∃ key e,
    (partitionedDisk.get partitioned 2000 partitionedPut.url partitionedPut.partition partitionedPut.requestHeaders).2 =
      some (key, e) ∧
    StoredFor partitioned [.put 1000 partitionedPut] partitionedPut.url partitionedPut.partition
      partitionedPut.requestHeaders key e := by
  obtain ⟨⟨key, e⟩, hg⟩ := Option.isSome_iff_exists.mp isSome_partitionedDisk.left
  have hline : ∀ c ∈ [Call.put 1000 partitionedPut], c.OneLine := by
    intro c hc
    cases List.mem_singleton.mp hc
    have hnames : ∀ name ∈ varyNames (partitionedPut.vary.getD []),
        ∀ v ∈ requestHeaderValue partitionedPut.requestHeaders name, '\n' ∉ v := by decide
    exact hnames
  exact ⟨key, e, hg, storedFor_of_get sound_partitioned after_partitionedDisk hline (by decide) (.refl _) hg⟩

-- The separator in a URL that is only looked for makes its end a partition.
theorem not_storedFor_separator : ¬∀ (env : Env) (cs : List Call) (d : Disk) (rows : List Row) (now : Int)
    (url : CString) (partition : Option CString) (requestHeaders : List CString) (key : CString) (e : Entry),
    Function.Injective env.sha256 → After env cs d → rows.Perm d.rows →
    (Disk.get { d with rows } env now url partition requestHeaders).2 = some (key, e) →
    StoredFor env cs url partition requestHeaders key e := by
  intro h
  obtain ⟨⟨key, e⟩, hg⟩ := Option.isSome_iff_exists.mp isSome_partitionedDisk.right
  obtain ⟨now, a, row, hc, -, -, -, hurl, -⟩ := h partitioned [.put 1000 partitionedPut] partitionedDisk _ 2000
    "http://a/\x1fp".toList none partitionedPut.requestHeaders key e digest_injective after_partitionedDisk (.refl _) hg
  cases List.mem_singleton.mp hc
  exact absurd hurl (by decide)

end Nordstjernen.Net.Cache
