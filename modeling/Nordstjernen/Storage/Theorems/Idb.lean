import Nordstjernen.Storage.Idb

open Nordstjernen.Glib Nordstjernen.Lib

namespace Nordstjernen.Storage

namespace Idb

variable {B : Type} {cfg : Config} {s : Idb B} {key key' : CString} {db db' : Db}

section Names

theorem cacheKey_eq_some (h : cacheKey db = some key) :
    db.site.text ≠ [] ∧ db.name ≠ [] ∧ db.site.text ++ '\x1f' :: db.name = key := by
  rw [cacheKey] at h
  split at h
  case isTrue      => cases h
  case isFalse hne =>
    rw [not_or] at hne
    exact ⟨hne.left, hne.right, Option.some.inj h⟩

-- A site has no separator, so that the first one of a key is behind the site.
theorem cacheKey_injective (h : cacheKey db = some key) (h' : cacheKey db' = some key) : db = db' := by
  have h := (cacheKey_eq_some h).right.right
  have h' := (cacheKey_eq_some h').right.right
  have hs := congrArg (List.span (· != '\x1f')) (h.trans h'.symm)
  rw [span_ne_append_cons db.site.no_separator, span_ne_append_cons db'.site.no_separator] at hs
  rcases db with ⟨⟨_, _⟩, _⟩
  rcases db' with ⟨⟨_, _⟩, _⟩
  cases hs
  rfl

theorem pathForName_eq_file {d n : CString} (h : pathForName cfg db = some (.file d n)) :
    cfg.hash db.site.text = d ∧ cfg.hash db.name = n := by
  rw [pathForName] at h
  split at h
  case isTrue => cases h
  case isFalse =>
    split at h
    case isTrue => cases h
    case isFalse =>
      split at h
      case isTrue  => cases h
      case isFalse => cases h; exact ⟨rfl, rfl⟩

theorem exists_cacheKey_of_file {d n : CString} (h : pathForName cfg db = some (.file d n)) :
    ∃ key, cacheKey db = some key := by
  rw [pathForName] at h
  split at h
  case isTrue => cases h
  case isFalse hn =>
    split at h
    case isTrue => cases h
    case isFalse =>
      split at h
      case isTrue     => cases h
      case isFalse hs => exact ⟨_, if_neg (not_or.mpr ⟨hs, hn⟩)⟩

theorem file_injective {d n : CString} (h : pathForName cfg db = some (.file d n))
    (h' : pathForName cfg db' = some (.file d n)) : db = db' := by
  obtain ⟨h₁, h₂⟩ := pathForName_eq_file h
  obtain ⟨h₁', h₂'⟩ := pathForName_eq_file h'
  have hs := cfg.injective _ _ (h₁.trans h₁'.symm)
  have hn := cfg.injective _ _ (h₂.trans h₂'.symm)
  rcases db with ⟨⟨_, _⟩, _⟩
  rcases db' with ⟨⟨_, _⟩, _⟩
  cases hs
  cases hn
  rfl

end Names

section Handles

theorem lookup_modifyHandle (s : Idb B) (key key' : CString) (f : Handle B → Handle B) :
    (s.modifyHandle key f).lookup key' = if key' = key then (s.lookup key').map f else s.lookup key' := by
  simp only [lookup, modifyHandle]
  rw [List.find?_map, Option.map_map]
  have hp : (fun e : CString × Handle B => decide (e.fst = key')) ∘
      (fun e => if e.fst = key then (e.fst, f e.snd) else e) = fun e => decide (e.fst = key') := by
    funext e
    dsimp only [Function.comp_apply]
    split <;> rfl
  rw [hp]
  cases he : s.handles.find? fun e => decide (e.fst = key')
  case none => split <;> rfl
  case some e =>
    have hk : e.fst = key' := by simpa using List.find?_some he
    simp only [Option.map_some, Function.comp_apply, hk]
    split <;> rfl

theorem lookup_remove (h : key' ≠ key) : (s.remove key).lookup key' = s.lookup key' := by
  rw [lookup, lookup, remove, List.find?_filter]
  congr 2
  funext e
  by_cases he : e.fst = key' <;> simp [he, h]

theorem lookup_append (h : Handle B) (clock : Nat) (hk : s.lookup key = none) (key' : CString) :
    lookup { s with handles := s.handles ++ [(key, h)], clock := clock } key' =
      if key' = key then some h else s.lookup key' := by
  rw [lookup, List.find?_append]
  by_cases hk' : key' = key
  case pos =>
    subst hk'
    rw [Option.map_eq_none_iff.mp hk, List.find?_cons_of_pos (by simp), if_pos rfl]
    rfl
  case neg =>
    rw [List.find?_cons_of_neg (by simpa using Ne.symm hk'), List.find?_nil, Option.or_none, if_neg hk']
    rfl

theorem mem_of_lookup {h : Handle B} (hl : s.lookup key = some h) : (key, h) ∈ s.handles := by
  obtain ⟨e, he, rfl⟩ := Option.map_eq_some_iff.mp hl
  have hk : e.fst = key := by simpa using List.find?_some he
  exact hk ▸ List.mem_of_find?_eq_some he

theorem notMem_of_lookup (hl : s.lookup key = none) : ∀ e ∈ s.handles, e.fst ≠ key := by
  intro e he
  have h := List.find?_eq_none.mp (Option.map_eq_none_iff.mp hl) e he
  simpa using h

end Handles

section Trim

variable {handles : List (CString × Handle B)} {e b : CString × Handle B}

theorem leastUsed_concat (handles : List (CString × Handle B)) (e : CString × Handle B) :
    leastUsed (handles ++ [e]) =
      match leastUsed handles with
      | none   => some e
      | some b => if e.snd.lastUsed < b.snd.lastUsed then some e else some b := by
  rw [leastUsed, List.foldl_append]
  rfl

theorem mem_of_leastUsed (h : leastUsed handles = some b) : b ∈ handles := by
  induction handles using List.reverseRecOn
  case nil => cases h
  case append_singleton l e ih =>
    rw [leastUsed_concat] at h
    split at h
    case h_1 => 
      cases h
      exact List.mem_concat_self
    case h_2 hl =>
      split at h
      case isTrue =>
        cases h
        exact List.mem_concat_self
      case isFalse => exact List.mem_append_left _ (ih (hl.trans h))

theorem leastUsed_ne_none (h : handles ≠ []) : leastUsed handles ≠ none := by
  rcases List.eq_nil_or_concat' handles with rfl | ⟨l, e, rfl⟩
  case inl => exact absurd rfl h
  case inr =>
    rw [leastUsed_concat]
    split
    case h_1 => exact Option.some_ne_none _
    case h_2 => split <;> exact Option.some_ne_none _

-- The connection used last is not the one used least, if there is another one.
theorem exists_leastUsed (hn : handles ≠ []) (hl : ∀ b ∈ handles, b.snd.lastUsed < e.snd.lastUsed) :
    ∃ b ∈ handles, leastUsed (handles ++ [e]) = some b := by
  obtain ⟨b, hb⟩ := Option.ne_none_iff_exists'.mp (leastUsed_ne_none hn)
  have hm := mem_of_leastUsed hb
  refine ⟨b, hm, ?_⟩
  rw [leastUsed_concat, hb]
  exact if_neg (Nat.not_lt.mpr (Nat.le_of_lt (hl b hm)))

end Trim

theorem pathForName_eq_memory_iff {path : Path} (h : pathForName cfg db = some path) :
    path = .memory ↔ cfg.privateMode = true := by
  rw [pathForName] at h
  split at h
  case isTrue => cases h
  case isFalse =>
    split at h
    case isTrue hp => cases h; exact iff_of_true rfl hp
    case isFalse hp =>
      split at h
      case isTrue  => cases h
      case isFalse => cases h; exact iff_of_false Path.noConfusion hp

-- What every reachable backend has.
structure Inv (cfg : Config) (s : Idb B) : Prop where
  nodup : (s.handles.map (·.fst)).Nodup
  kept  : ∀ e ∈ s.handles, ∃ db, cacheKey db = some e.fst ∧ pathForName cfg db = some e.snd.path
  clock : ∀ e ∈ s.handles, e.snd.lastUsed ≤ s.clock

-- What a database holds, whether it is open or not.
def view (cfg : Config) (s : Idb B) (db : Db) : Content B :=
  match pathForName cfg db with
  | some (.file d n) => (s.files d n).getD .empty
  | _                => (((cacheKey db).bind s.lookup).map (·.memory)).getD .empty

section Open

theorem Inv.path (hs : Inv cfg s) {h : Handle B} (hl : s.lookup key = some h)
    (hk : cacheKey db = some key) : pathForName cfg db = some h.path := by
  obtain ⟨db', hk', hp⟩ := hs.kept _ (mem_of_lookup hl)
  rwa [cacheKey_injective hk hk']

theorem Inv.remove (hs : Inv cfg s) : Inv cfg (s.remove key) where
  nodup   := hs.nodup.sublist (List.Sublist.map _ List.filter_sublist)
  kept  e he := hs.kept e (List.mem_of_mem_filter he)
  clock e he := hs.clock e (List.mem_of_mem_filter he)

theorem map_fst_modifyHandle (s : Idb B) (key : CString) (f : Handle B → Handle B) :
    (s.modifyHandle key f).handles.map (·.fst) = s.handles.map (·.fst) := by
  rw [modifyHandle, List.map_map]
  refine List.map_congr_left fun e _ => ?_
  dsimp only [Function.comp_apply]
  split <;> rfl

theorem Inv.modifyHandle (hs : Inv cfg s) (f : Handle B → Handle B) (hp : ∀ h, (f h).path = h.path)
    {clock : Nat} (hc : s.clock ≤ clock)
    (hu : ∀ h, h.lastUsed ≤ s.clock → (f h).lastUsed ≤ clock) :
    Inv cfg { s.modifyHandle key f with clock := clock } where
  nodup := by
    have h := hs.nodup
    rwa [← map_fst_modifyHandle s key f] at h
  kept e he := by
    obtain ⟨e, hm, rfl⟩ := List.mem_map.mp he
    split
    case isTrue  => rw [hp]; exact hs.kept e hm
    case isFalse => exact hs.kept e hm
  clock e he := by
    obtain ⟨e, hm, rfl⟩ := List.mem_map.mp he
    split
    case isTrue  => exact hu _ (hs.clock e hm)
    case isFalse => exact Nat.le_trans (hs.clock e hm) hc

theorem Inv.createFile (hs : Inv cfg s) (path : Path) : Inv cfg (s.createFile path) := by
  cases path
  case memory => exact hs
  case file   => exact ⟨hs.nodup, hs.kept, hs.clock⟩

theorem handles_createFile (path : Path) : (s.createFile path).handles = s.handles := by
  cases path <;> rfl

theorem clock_createFile (path : Path) : (s.createFile path).clock = s.clock := by
  cases path <;> rfl

theorem view_createFile (path : Path) : (s.createFile path).view cfg db = s.view cfg db := by
  cases path
  case memory => rfl
  case file d n =>
    rw [view, view]
    split
    case h_1 d' n' _ =>
      rw [Idb.createFile]
      dsimp only
      split <;> rfl
    case h_2 => rfl

theorem Inv.append (hs : Inv cfg s) {h : Handle B} (hl : s.lookup key = none)
    (hk : cacheKey db = some key) (hp : pathForName cfg db = some h.path) (hu : s.clock < h.lastUsed) :
    Inv cfg { s with handles := s.handles ++ [(key, h)], clock := h.lastUsed } where
  nodup := by
    rw [List.map_append, List.nodup_append]
    refine ⟨hs.nodup, List.pairwise_singleton _ _, ?_⟩
    rintro _ hm _ hm' rfl
    obtain ⟨e, he, rfl⟩ := List.mem_map.mp hm
    exact notMem_of_lookup hl e he (List.mem_singleton.mp hm')
  kept e he := by
    rcases List.mem_append.mp he with he | he
    · exact hs.kept e he
    · rw [List.mem_singleton.mp he]
      exact ⟨db, hk, hp⟩
  clock e he := by
    rcases List.mem_append.mp he with he | he
    · exact Nat.le_trans (hs.clock e he) (Nat.le_of_lt hu)
    · rw [List.mem_singleton.mp he]

theorem Inv.sameKind (hs : Inv cfg s) :
    (∀ e ∈ s.handles, e.snd.path ≠ .memory) ∨ ∀ e ∈ s.handles, e.snd.path = .memory := by
  by_cases hp : cfg.privateMode = true
  case pos =>
    refine .inr fun e he => ?_
    obtain ⟨db, -, h⟩ := hs.kept e he
    exact (pathForName_eq_memory_iff h).mpr hp
  case neg =>
    refine .inl fun e he hm => ?_
    obtain ⟨db, -, h⟩ := hs.kept e he
    exact hp ((pathForName_eq_memory_iff h).mp hm)

-- Among connections of one kind, the one that has just been opened stays.
theorem cacheTrim_spec {l : List (CString × Handle B)} {e : CString × Handle B}
    (hs : s.handles = l ++ [e]) (hk : ∀ b ∈ l, b.fst ≠ e.fst)
    (hu : ∀ b ∈ l, b.snd.lastUsed < e.snd.lastUsed)
    (hm : (∀ e ∈ s.handles, e.snd.path ≠ .memory) ∨ ∀ e ∈ s.handles, e.snd.path = .memory) :
    s.cacheTrim = s ∨ ∃ k ≠ e.fst, s.cacheTrim = s.remove k := by
  rw [cacheTrim]
  split
  case isTrue => exact .inl rfl
  case isFalse hlen =>
    right
    have hn : l ≠ [] := by
      rintro rfl
      rw [hs] at hlen
      have hone : 1 ≤ maxOpen := by decide
      exact hlen hone
    obtain ⟨b, hb, hl⟩ := exists_leastUsed hn hu
    refine ⟨b.fst, hk b hb, ?_⟩
    rcases hm with hm | hm
    · have hd : s.handles.filter (·.snd.path ≠ .memory) = l ++ [e] := by
        rw [← hs]
        exact List.filter_eq_self.mpr fun e he => decide_eq_true (hm e he)
      rw [hd, hl]
      rfl
    · have hd : s.handles.filter (·.snd.path ≠ .memory) = [] :=
        List.filter_eq_nil_iff.mpr fun e he => by simpa using hm e he
      have hd' : s.handles.filter (·.snd.path = .memory) = l ++ [e] := by
        rw [← hs]
        exact List.filter_eq_self.mpr fun e he => decide_eq_true (hm e he)
      rw [hd, hd', hl]
      rfl

theorem view_congr {s' : Idb B} (hf : s'.files = s.files)
    (hm : ∀ key, cacheKey db = some key →
      ((s'.lookup key).map (·.memory)).getD .empty = ((s.lookup key).map (·.memory)).getD .empty) :
    s'.view cfg db = s.view cfg db := by
  rw [view, view, hf]
  split
  case h_1 => rfl
  case h_2 =>
    cases hk : cacheKey db
    case none     => rfl
    case some key => exact hm key hk

-- What is in files does not depend on the cache.
theorem view_remove (hp : cfg.privateMode ≠ true) : (s.remove key).view cfg db = s.view cfg db := by
  rw [view, view]
  split
  case h_1 => rfl
  case h_2 hn =>
    have hk : cacheKey db = none := by
      rw [cacheKey]
      split
      case isTrue => rfl
      case isFalse h =>
        rw [not_or] at h
        refine absurd ?_ (hn (cfg.hash db.site.text) (cfg.hash db.name))
        rw [pathForName, if_neg h.right, if_neg hp, if_neg h.left]
    rw [hk]
    rfl

theorem view_modifyHandle (f : Handle B → Handle B) (hf : ∀ h, (f h).memory = h.memory) (n : Nat) :
    view cfg { s.modifyHandle key f with clock := n } db = s.view cfg db := by
  refine view_congr rfl fun key' _ => congrArg (Option.getD · Content.empty) ?_
  have h := lookup_modifyHandle s key key' f
  have hm := congrArg (Option.map (·.memory)) h
  refine Eq.trans hm ?_
  split
  case isTrue =>
    cases s.lookup key'
    case none   => rfl
    case some h => exact congrArg some (hf h)
  case isFalse => rfl

-- A new connection is to a database that is not open, and it holds nothing of its own.
theorem view_append (cfg : Config) (db : Db) (path : Path) (n : Nat) (hl : s.lookup key = none) :
    view cfg { s with handles := s.handles ++ [(key, ⟨path, .empty, n⟩)], clock := n } db =
      s.view cfg db := by
  refine view_congr rfl fun key' _ => ?_
  rw [lookup_append ⟨path, .empty, n⟩ n hl key']
  split
  case isTrue hk => rw [hk, hl]; rfl
  case isFalse   => rfl

-- What opening a database does.
structure Opened (cfg : Config) (s s' : Idb B) (db : Db) (key : CString) : Prop where
  keyed : cacheKey db = some key
  inv   : Inv cfg s'
  held  : (s'.lookup key).isSome
  view  : (cfg.privateMode = true → s.misses db = true → s.handles.length < maxOpen) →
    ∀ db', s'.view cfg db' = s.view cfg db'

theorem Inv.openDb (hs : Inv cfg s) {opens : Bool} {s' : Idb B}
    (h : s.openDb cfg opens db = some (key, s')) : Opened cfg s s' db key := by
  obtain ⟨k, hk, h⟩ := Option.bind_eq_some_iff.mp h
  by_cases hl : (s.lookup k).isSome = true
  case pos =>
    rw [if_pos hl] at h
    cases h
    refine ⟨hk, hs.modifyHandle (fun h => { h with lastUsed := s.clock + 1 }) (fun _ => rfl)
      (Nat.le_succ _) (fun _ _ => Nat.le_refl _), ?_, fun _ db' =>
        view_modifyHandle (fun h => { h with lastUsed := s.clock + 1 }) (fun _ => rfl) _⟩
    have hh := congrArg Option.isSome
      (lookup_modifyHandle s key key fun h => { h with lastUsed := s.clock + 1 })
    rw [if_pos rfl, Option.isSome_map] at hh
    exact hh.trans hl
  case neg =>
    rw [if_neg hl] at h
    obtain ⟨path, hp, h⟩ := Option.bind_eq_some_iff.mp h
    obtain ⟨-, -, h⟩ := Option.bind_eq_some_iff.mp h
    cases h
    have hl : s.lookup key = none := Option.not_isSome_iff_eq_none.mp hl
    have hl₁ : (s.createFile path).lookup key = none := by
      rw [lookup, handles_createFile]
      exact hl
    have hs₁ := hs.createFile path
    have hs₂ := hs₁.append (h := ⟨path, .empty, (s.createFile path).clock + 1⟩) hl₁ hk hp
      (Nat.lt_succ_self _)
    have hv (db' : Db) := (view_append cfg db' path ((s.createFile path).clock + 1)
      hl₁).trans (view_createFile path)
    have hheld := congrArg Option.isSome (lookup_append ⟨path, .empty, (s.createFile path).clock + 1⟩
      ((s.createFile path).clock + 1) hl₁ key)
    rw [if_pos rfl] at hheld
    rcases cacheTrim_spec rfl (notMem_of_lookup hl₁) (fun b hb => Nat.lt_succ_of_le (hs₁.clock b hb))
      hs₂.sameKind with ht | ⟨k, hk', ht⟩
    case inl =>
      rw [ht]
      exact ⟨hk, hs₂, hheld, fun _ => hv⟩
    case inr =>
      refine ⟨hk, ht ▸ hs₂.remove, ?_, fun hf db' => ?_⟩
      · rw [ht, lookup_remove hk'.symm]
        exact hheld
      · by_cases hpriv : cfg.privateMode = true
        case neg =>
          rw [ht, view_remove hpriv]
          exact hv db'
        case pos =>
          -- The cache is not full, so that nothing is removed.
          have hm : s.misses db = true := by
            rw [misses, hk, Option.any_some, hl]
            rfl
          rw [cacheTrim, if_pos]
          · exact hv db'
          · have hlen := hf hpriv hm
            simp only [handles_createFile, List.length_append, List.length_singleton]
            exact hlen

end Open

section Contents

theorem content_eq (hs : Inv cfg s) (hk : cacheKey db = some key) (hl : (s.lookup key).isSome) :
    s.content key = some (s.view cfg db) := by
  obtain ⟨h, hl⟩ := Option.isSome_iff_exists.mp hl
  have hp := hs.path hl hk
  rw [content, view, hp, hl, Option.map_some]
  cases h.path
  case file   => rfl
  case memory =>
    dsimp only
    rw [hk, Option.bind_some, hl]
    rfl

variable {c : Content B}

theorem Inv.setContent (hs : Inv cfg s) : Inv cfg (s.setContent key c) := by
  rw [Idb.setContent]
  split
  case h_1 => exact hs
  case h_2 =>
    split
    case h_1 => exact hs.modifyHandle (fun h => { h with memory := c }) (fun _ => rfl) (Nat.le_refl _) (fun _ h => h)
    case h_2 => exact ⟨hs.nodup, hs.kept, hs.clock⟩

-- The file of a database is no other database's.
theorem view_setFile {d n : CString} {x : Option (Content B)} (hp : pathForName cfg db = some (.file d n))
    (hd : db' ≠ db) : view cfg { s with files := fun d' n' => if d' = d ∧ n' = n then x else s.files d' n' }
      db' = s.view cfg db' := by
  rw [view, view]
  split
  case h_1 hp' =>
    dsimp only
    rw [if_neg]
    rintro ⟨rfl, rfl⟩
    exact hd (file_injective hp' hp)
  case h_2 => rfl

theorem view_setContent (hs : Inv cfg s) (hk : cacheKey db = some key) (hl : (s.lookup key).isSome) :
    (s.setContent key c).view cfg db' = if db' = db then c else s.view cfg db' := by
  obtain ⟨h, hl⟩ := Option.isSome_iff_exists.mp hl
  have hp := hs.path hl hk
  rw [setContent, hl]
  dsimp only
  split
  case h_1 hm =>
    rw [hm] at hp
    have hu (key' : CString) := lookup_modifyHandle s key key' fun h => { h with memory := c }
    split
    case isTrue hd =>
      subst hd
      rw [view, hp, hk]
      dsimp only [Option.bind_some]
      rw [hu key, if_pos rfl, hl]
      rfl
    case isFalse hd =>
      refine view_congr rfl fun key' hk' => ?_
      have hne : key' ≠ key := fun e => hd (cacheKey_injective (e ▸ hk') hk)
      rw [hu key', if_neg hne]
  case h_2 d n hm =>
    rw [hm] at hp
    split
    case isTrue hd =>
      subst hd
      rw [view, hp]
      dsimp only
      rw [if_pos ⟨rfl, rfl⟩]
      rfl
    case isFalse hd => exact view_setFile hp hd

theorem deleteDatabase_spec {V : Type} (hs : Inv cfg s) {r : Idb B × Answer V}
    (h : s.deleteDatabase cfg db = r) : r = (s, .thrown) ∨
      r.snd = .done ∧ Inv cfg r.fst ∧ ∀ db' ≠ db, r.fst.view cfg db' = s.view cfg db' := by
  rw [deleteDatabase] at h
  split at h
  case h_1 => exact .inl h.symm
  case h_2 path hp =>
    cases h
    have hr : Inv cfg ((cacheKey db).elim s s.remove) ∧
        ∀ db' ≠ db, ((cacheKey db).elim s s.remove).view cfg db' = s.view cfg db' := by
      cases hk : cacheKey db
      case none     => exact ⟨hs, fun _ _ => rfl⟩
      case some key =>
        refine ⟨hs.remove, fun db' hd => view_congr rfl fun key' hk' => ?_⟩
        have hne : key' ≠ key := fun e => hd (cacheKey_injective (e ▸ hk') hk)
        have hl : (s.remove key).lookup key' = s.lookup key' := lookup_remove hne
        dsimp only [Option.elim_some]
        rw [hl]
    refine .inr ⟨rfl, ?_⟩
    cases path
    case memory => exact hr
    case file d n =>
      exact ⟨⟨hr.left.nodup, hr.left.kept, hr.left.clock⟩,
        fun db' hd => (view_setFile hp hd).trans (hr.right db' hd)⟩

theorem exists_pathForName (cfg : Config) (hk : cacheKey db = some key) :
    ∃ path, pathForName cfg db = some path := by
  obtain ⟨hs, hn, -⟩ := cacheKey_eq_some hk
  rw [pathForName, if_neg hn]
  split
  case isTrue  => exact ⟨_, rfl⟩
  case isFalse => exact ⟨_, rfl⟩

theorem exists_openDb (cfg : Config) (s : Idb B) (hk : cacheKey db = some key) :
    ∃ s', s.openDb cfg true db = some (key, s') := by
  obtain ⟨path, hp⟩ := exists_pathForName cfg hk
  by_cases hl : (s.lookup key).isSome = true
  case pos => exact ⟨_, Option.bind_eq_some_iff.mpr ⟨key, hk, if_pos hl⟩⟩
  case neg =>
    exact ⟨_, Option.bind_eq_some_iff.mpr ⟨key, hk,
      (if_neg hl).trans (Option.bind_eq_some_iff.mpr ⟨path, hp, rfl⟩)⟩⟩

-- What is held is held by an open connection or by a file.
theorem exists_cacheKey {store k : CString} {b : B} (h : (s.view cfg db).records store k = some b) :
    ∃ key, cacheKey db = some key ∧ (cfg.privateMode = true → s.misses db = false) := by
  cases hk : cacheKey db
  case none =>
    rw [view] at h
    split at h
    case h_1 hp =>
      obtain ⟨key, h⟩ := exists_cacheKey_of_file hp
      rw [hk] at h
      cases h
    case h_2 =>
      rw [hk] at h
      cases h
  case some key =>
    refine ⟨key, rfl, fun hp => ?_⟩
    obtain ⟨path, hn⟩ := exists_pathForName cfg hk
    have hm := (pathForName_eq_memory_iff hn).mpr hp
    rw [view, hn, hm] at h
    dsimp only at h
    rw [hk, Option.bind_some] at h
    rw [misses, hk, Option.any_some]
    cases hl : s.lookup key
    case none =>
      rw [hl] at h
      cases h
    case some => rfl

end Contents

end Idb

section Session

variable {V B : Type} {codec : Codec V B} {cfg : Config} {s : Session V B}

-- What a database holds of what has been put into it.
def Holds (codec : Codec V B) (last : Option V) (blob : Option B) : Prop :=
  ∀ v, last = some v → ∃ b, blob = some b ∧ codec.read b = some v

theorem holds_after {op : Op V} {c c' : Content B} {store key : CString} {last : Option V}
    (h : op.write? codec c = some c') (hl : Holds codec last (c.records store key)) :
    Holds codec (op.after store key last) (c'.records store key) := by
  cases op
  case info => cases h; exact hl
  case get  => cases h; exact hl
  case deleteDatabase => rintro _ ⟨⟩
  case createStore store' =>
    rw [Op.write?, Content.createStore] at h
    split at h
    case isTrue  => cases h
    case isFalse => cases h; exact hl
  case deleteStore store' =>
    cases h
    intro v hv
    rw [Op.after] at hv
    split at hv
    case isTrue     => cases hv
    case isFalse hs =>
      obtain ⟨b, hb, hr⟩ := hl v hv
      exact ⟨b, (if_neg (Ne.symm hs)).trans hb, hr⟩
  case clear store' =>
    cases h
    intro v hv
    rw [Op.after] at hv
    split at hv
    case isTrue     => cases hv
    case isFalse hs =>
      obtain ⟨b, hb, hr⟩ := hl v hv
      exact ⟨b, (if_neg (Ne.symm hs)).trans hb, hr⟩
  case deleteRecord store' key' =>
    cases h
    intro v hv
    rw [Op.after] at hv
    split at hv
    case isTrue     => cases hv
    case isFalse hs =>
      obtain ⟨b, hb, hr⟩ := hl v hv
      refine ⟨b, (if_neg ?_).trans hb, hr⟩
      exact fun ⟨h₁, h₂⟩ => hs ⟨h₁.symm, h₂.symm⟩
  case put store' key' value addOnly =>
    obtain ⟨b, hb, h⟩ := Option.bind_eq_some_iff.mp h
    rw [Content.put] at h
    split at h
    case isTrue => cases h
    case isFalse =>
      split at h
      case isTrue => cases h
      case isFalse =>
        cases h
        intro v hv
        rw [Op.after] at hv
        split at hv
        case isTrue hs =>
          cases hv
          exact ⟨b, if_pos ⟨hs.left.symm, hs.right.symm⟩, codec.read_write _ _ hb⟩
        case isFalse hs =>
          obtain ⟨b', hb', hr⟩ := hl v hv
          refine ⟨b', (if_neg ?_).trans hb', hr⟩
          exact fun ⟨h₁, h₂⟩ => hs ⟨h₁.symm, h₂.symm⟩

theorem lastPut_concat (db : Db) (store key : CString) (history : List (Call V × Answer V))
    (call : Call V) (answer : Answer V) : lastPut db store key (history ++ [(call, answer)]) =
      match answer with
      | .done => if call.db = db then call.op.after store key (lastPut db store key history)
                 else lastPut db store key history
      | _     => lastPut db store key history := by
  rw [lastPut, List.foldl_append]
  rfl

structure Inv (codec : Codec V B) (cfg : Config) (s : Session V B) : Prop where
  idb  : s.idb.Inv cfg
  puts : ∀ db store key, Holds codec (lastPut db store key s.history) ((s.idb.view cfg db).records store key)

theorem Inv.answered {idb : Idb B} {call : Call V} {answer : Answer V}
    {history : List (Call V × Answer V)} (hs : idb.Inv cfg)
    (hp : ∀ db store key, Holds codec (lastPut db store key history) ((idb.view cfg db).records store key))
    (ha : answer ≠ .done ∨ ∀ store key last, call.op.after store key last = last) :
    Inv codec cfg ⟨idb, history ++ [(call, answer)]⟩ := by
  refine ⟨hs, fun db store key => ?_⟩
  have hl : lastPut db store key (history ++ [(call, answer)]) = lastPut db store key history := by
    rw [lastPut_concat]
    split
    case h_1 =>
      rw [(ha.resolve_left (not_not.mpr rfl)) store key, ite_self]
    case h_2 => rfl
  rw [hl]
  exact hp db store key

theorem Inv.perform {idb : Idb B} {key : CString} {call : Call V} (hs : idb.Inv cfg)
    (hk : Idb.cacheKey call.db = some key) (hl : (idb.lookup key).isSome)
    {history : List (Call V × Answer V)}
    (hp : ∀ db store key, Holds codec (lastPut db store key history) ((idb.view cfg db).records store key)) :
    Inv codec cfg ⟨(idb.perform codec key call).fst, history ++ [(call, (idb.perform codec key call).snd)]⟩ := by
  rw [Idb.perform, Idb.content_eq hs hk hl]
  dsimp only
  split
  case h_1 ho => exact .answered hs hp (.inr fun _ _ _ => by rw [ho]; rfl)
  case h_2    => exact .answered hs hp (.inl (by rintro ⟨⟩))
  case h_3 =>
    split
    case h_1 => exact .answered hs hp (.inl (by rintro ⟨⟩))
    case h_2 c hw =>
      split at hw
      case isTrue  => cases hw
      case isFalse =>
        refine ⟨hs.setContent, fun db store k => ?_⟩
        rw [lastPut_concat, Idb.view_setContent hs hk hl]
        dsimp only
        by_cases hd : db = call.db
        case pos =>
          rw [if_pos hd, if_pos hd.symm]
          exact holds_after hw (hd ▸ hp db store k)
        case neg =>
          rw [if_neg hd, if_neg (Ne.symm hd)]
          exact hp db store k

theorem step_eq (s : Session V B) (call : Call V) : s.step codec cfg call =
    some ⟨(s.idb.backend codec cfg call).fst, s.history ++ [(call, (s.idb.backend codec cfg call).snd)]⟩ :=
  rfl

theorem Inv.step (h : Inv codec cfg s) {call : Call V} (hf : s.Fits cfg call) {s' : Session V B}
    (hs : s.step codec cfg call = some s') : Inv codec cfg s' := by
  rw [step_eq] at hs
  cases hs
  by_cases ho : call.op = .deleteDatabase
  case pos =>
    have hb : s.idb.backend codec cfg call = s.idb.deleteDatabase cfg call.db := by
      rw [Idb.backend, ho]
    rw [hb]
    generalize hr : s.idb.deleteDatabase cfg call.db = r
    rcases Idb.deleteDatabase_spec h.idb hr with rfl | ⟨ha, hi, hv⟩
    case inl => exact .answered h.idb h.puts (.inl (by rintro ⟨⟩))
    case inr =>
      refine ⟨hi, fun db store key => ?_⟩
      rw [lastPut_concat, ha]
      dsimp only
      split
      case isTrue =>
        rw [ho]
        rintro _ ⟨⟩
      case isFalse hd =>
        rw [hv db (Ne.symm hd)]
        exact h.puts db store key
  case neg =>
    have hop : call.op.opensDb = true := by
      cases hc : call.op <;> first | rfl | exact absurd hc ho
    cases hopen : s.idb.openDb cfg call.opens call.db
    case none =>
      have hb : s.idb.backend codec cfg call = (s.idb, .thrown) := by
        rw [Idb.backend, hopen]
        split
        case h_1 hc => exact absurd hc ho
        case h_2    => rfl
      rw [hb]
      exact .answered h.idb h.puts (.inl (by rintro ⟨⟩))
    case some r =>
      obtain ⟨key, idb⟩ := r
      have hb : s.idb.backend codec cfg call = idb.perform codec key call := by
        rw [Idb.backend, hopen]
        split
        case h_1 hc => exact absurd hc ho
        case h_2    => rfl
      have hopened := h.idb.openDb hopen
      have hv := hopened.view fun hp hm => hf hp hop hm
      rw [hb]
      exact .perform hopened.inv hopened.keyed hopened.held fun db store key => by
        rw [hv]
        exact h.puts db store key

theorem inv_start (files : CString → CString → Option (Content B)) :
    Inv codec cfg (.start files) where
  idb  := ⟨.nil, by rintro _ ⟨⟩, by rintro _ ⟨⟩⟩
  puts := by rintro _ _ _ _ ⟨⟩

theorem Inv.sound (h : Inv codec cfg s) : s.Sound codec cfg where
  held opens db key idb ho := (h.idb.openDb ho).held
  get_put call store key v ho hopens hv := by
    obtain ⟨b, hb, hr⟩ := h.puts call.db store key v hv
    obtain ⟨k, hk, hm⟩ := Idb.exists_cacheKey hb
    obtain ⟨idb, hopen⟩ := Idb.exists_openDb cfg s.idb hk
    have hopened := h.idb.openDb hopen
    have hview := hopened.view (fun hp hmiss => by rw [hm hp] at hmiss; cases hmiss) call.db
    rw [Idb.backend, ho, hopens, hopen]
    dsimp only
    rw [Idb.perform, Idb.content_eq hopened.inv hopened.keyed hopened.held, ho, hview]
    dsimp only
    rw [hb, Option.bind_some, hr]

-- In a run in which no private database is opened while the cache is full, nothing that has been
-- committed is lost, and a connection that is opened is in the cache.
theorem kept_and_held_of_run (files : CString → CString → Option (Content B)) {calls : List (Call V)}
    (hrun : run (Session.step codec cfg) (.start files) calls = some s)
    (hc : StepsMeet (Session.Fits cfg) (Session.step codec cfg) (.start files) calls) :
    s.Sound codec cfg :=
  (run_preserves (fun _ _ _ h hf hs => Inv.step h hf hs) hrun hc (inv_start files)).sound

def plainCodec : Codec Nat Nat where
  write          := some
  read           := some
  read_write _ _ := Eq.symm

def privateConfig : Config where
  privateMode   := true
  hash          := id
  injective _ _ := id

def numberedDb (n : Nat) : Db where
  site := ⟨['s'], by decide⟩
  name := List.replicate (n + 1) 'd'

-- Two private databases, the first of which is written and read.
def twoDatabases : List (Call Nat) := [
  { db := numberedDb 0, op := .createStore [] },
  { db := numberedDb 0, op := .put [] ['k'] 7 false },
  { db := numberedDb 1, op := .info },
  { db := numberedDb 0, op := .get [] ['k'] }
]

theorem sound_twoDatabases :
    ∃ s, run (Session.step plainCodec privateConfig) (.start fun _ _ => none) twoDatabases = some s ∧
      s.Sound plainCodec privateConfig :=
  ⟨_, rfl, kept_and_held_of_run _ (rfl : run _ _ twoDatabases = some _) (by decide +kernel)⟩

-- One private database is written, and then sixteen others are opened.
def seventeenDatabases : List (Call Nat) :=
  twoDatabases ++ (List.range 16).map fun n => { db := numberedDb (n + 1), op := .info }

-- The first database was the one used least, and with its connection its data are gone.
theorem not_sound_seventeenDatabases : ¬ ∀ s,
    run (Session.step plainCodec privateConfig) (.start fun _ _ => none) seventeenDatabases = some s →
      s.Sound plainCodec privateConfig := by
  intro h
  have hg : (run (Session.step plainCodec privateConfig) (.start fun _ _ => none) seventeenDatabases).map
      (fun s => (lastPut (numberedDb 0) [] ['k'] s.history,
        (s.idb.backend plainCodec privateConfig ⟨numberedDb 0, .get [] ['k'], true, false⟩).snd)) =
      some (some 7, .value none) := by decide +kernel
  obtain ⟨s, hr, hs⟩ := Option.map_eq_some_iff.mp hg
  obtain ⟨hp, ha⟩ := Prod.mk.inj hs
  have hv := (h s hr).get_put ⟨numberedDb 0, .get [] ['k'], true, false⟩ [] ['k'] 7 rfl rfl hp
  rw [ha] at hv
  cases hv

end Session

end Nordstjernen.Storage
