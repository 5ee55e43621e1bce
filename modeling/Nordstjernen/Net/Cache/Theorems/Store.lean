import Nordstjernen.Lib.Run
import Nordstjernen.Net.Cache.Store

open Nordstjernen.Glib Nordstjernen.Lib

namespace Nordstjernen.Net.Cache

-- The entry that an operation is about to complete, or to return.
def Op.pending : Op → Option (CString × Entry)
  | .statBody key e => some (key, e)
  | .readBody key e => some (key, e)
  | _               => none

def Op.returning : Op → Option (CString × Entry)
  | .touchKey key e => some (key, e)
  | _               => none

-- Whether one put has stored the row and the body of an entry.
def Stored (puts : List (Row × Body)) (key : CString) (e : Entry) : Prop :=
  ∃ p ∈ puts, p.1.key = key ∧ p.1.entry p.2 = e

instance {puts : List (Row × Body)} {key : CString} {e : Entry} : Decidable (Stored puts key e) :=
  inferInstanceAs (Decidable (∃ p ∈ puts, _ ∧ _))

section Exec

variable {env : Env} {now : Int} {d : Disk} {puts : List (Row × Body)} {op op' : Op} {row r : Row}
  {rs : List Row} {key : CString} {body : Body} {e : Entry}

theorem mem_upsert (h : r ∈ upsert row rs) : r ∈ rs ∨ r.key = row.key ∧ r.entry = row.entry := by
  induction rs
  case nil            => exact .inr (by rw [List.mem_singleton.mp h]; exact ⟨rfl, rfl⟩)
  case cons r' rs hi =>
    rw [upsert] at h
    split at h
    case isTrue hk =>
      obtain rfl | h := List.mem_cons.mp h
      · exact .inr ⟨hk ▸ hk, rfl⟩
      · exact .inl (List.mem_cons_of_mem _ h)
    case isFalse   =>
      obtain rfl | h := List.mem_cons.mp h
      · exact .inl List.mem_cons_self
      · exact (hi h).imp_left (List.mem_cons_of_mem _)

-- Whatever rows and bodies are on the disk for a key have been stored together.
def Disk.Together (d : Disk) (puts : List (Row × Body)) : Prop :=
  ∀ r ∈ d.rows, ∀ b ∈ d.bodies r.key, Stored puts r.key (r.entry b)

-- An entry of which only the body is to be read goes with the body that is there.
def Disk.Fits (d : Disk) (puts : List (Row × Body)) (p : CString × Entry) : Prop :=
  ∀ body ∈ d.bodies p.1, Stored puts p.1 { p.2 with body }

-- What is known of an operation before it is done.
structure Op.Ready (d : Disk) (puts : List (Row × Body)) (op : Op) : Prop where
  pending   : ∀ p ∈ op.pending, d.Fits puts p
  returning : ∀ p ∈ op.returning, Stored puts p.1 p.2

theorem Op.Ready.of_none (hp : op.pending = none) (hr : op.returning = none) : op.Ready d puts where
  pending   := by simp [hp]
  returning := by simp [hr]

theorem ready_of_mem_deleteKey (h : op ∈ deleteKey key) : op.Ready d puts := by
  obtain rfl | rfl : op = .unlinkBody key ∨ op = .deleteRow key := by simpa [deleteKey] using h
  · exact .of_none rfl rfl
  · exact .of_none rfl rfl

theorem ready_of_mem_evictToCap (h : op ∈ evictToCap) : op.Ready d puts := by
  obtain rfl | rfl : op = .selectAged ∨ op = .selectOverCap := by simpa [evictToCap] using h
  · exact .of_none rfl rfl
  · exact .of_none rfl rfl

-- What a step has to keep, for the entries that still fit.
structure Done.Keeps (puts : List (Row × Body)) (fits : CString × Entry → Prop) (r : Done) : Prop where
  together : r.disk.Together puts
  fits     : ∀ p, fits p → r.disk.Fits puts p
  next     : ∀ op ∈ r.next, op.Ready r.disk puts
  got      : ∀ p ∈ r.got, Stored puts p.1 p.2

-- A step that only reads the disk.
theorem keeps_of_ready {next : List Op} {fits : CString × Entry → Prop} (h : d.Together puts)
    (hf : ∀ p, fits p → d.Fits puts p) (hn : ∀ op ∈ next, op.Ready d puts) :
    Done.Keeps puts fits { disk := d, next } :=
  ⟨h, hf, hn, by simp⟩

theorem fail_keeps (h : d.Together puts) (ho : op.Ready d puts) :
    (d.fail op).Keeps puts (d.Fits puts) := by
  cases op
  case writeBody key body => exact keeps_of_ready h (fun _ => id) fun _ => ready_of_mem_deleteKey
  case statBody key e     => exact keeps_of_ready h (fun _ => id) fun _ => ready_of_mem_deleteKey
  case readBody key e     => exact keeps_of_ready h (fun _ => id) fun _ => ready_of_mem_deleteKey
  case touchKey key e     => exact ⟨h, fun _ => id, by simp [Disk.fail], ho.returning⟩
  all_goals exact keeps_of_ready h (fun _ => id) (by simp)

-- The row or the body that an operation puts on the disk.
def Op.newRow : Op → Option Row
  | .upsertRow row _ => some row
  | _                => none

def Op.newBody : Op → Option (CString × Body)
  | .writeBody key body => some (key, body)
  | _                   => none

-- Whether a row comes to a body, or a body to a row, with which it has been stored.
def Op.KeepsTogether (d : Disk) (puts : List (Row × Body)) (op : Op) : Prop :=
  (∀ row ∈ op.newRow, ∀ b ∈ d.bodies row.key, Stored puts row.key (row.entry b)) ∧
    ∀ w ∈ op.newBody, ∀ r ∈ d.rows, r.key = w.1 → Stored puts w.1 (r.entry w.2)

-- Whether an entry of which only the body is to be read goes with a body that is being written.
def Op.Spares (puts : List (Row × Body)) (p : CString × Entry) (op : Op) : Prop :=
  ∀ w ∈ op.newBody, p.1 = w.1 → Stored puts w.1 { p.2 with body := w.2 }

instance : Decidable (op.KeepsTogether d puts) :=
  inferInstanceAs (Decidable ((∀ _ ∈ _, ∀ _ ∈ _, _) ∧ ∀ _ ∈ _, ∀ _ ∈ _, _ → _))

instance {p : CString × Entry} : Decidable (op.Spares puts p) :=
  inferInstanceAs (Decidable (∀ _ ∈ _, _ → _))

theorem exec_keeps (h : d.Together puts) (ho : op.Ready d puts) (hk : op.KeepsTogether d puts) :
    (d.exec env now op).Keeps puts fun p => d.Fits puts p ∧ op.Spares puts p := by
  have hsame {p : CString × Entry} (hp : d.Fits puts p ∧ op.Spares puts p) : d.Fits puts p := hp.left
  cases op
  case upsertRow row body =>
    refine ⟨fun r hr b hb => ?_, fun _ => hsame, ?_, by simp [Disk.exec]⟩
    · obtain hr | ⟨hkey, hentry⟩ := mem_upsert hr
      · exact h r hr b hb
      · rw [hkey, hentry]
        exact hk.left row rfl b (hkey ▸ hb)
    · rintro op hop
      obtain rfl := List.mem_singleton.mp hop
      exact .of_none rfl rfl
  case writeBody key body =>
    refine ⟨fun r hr b hb => ?_, fun p hp b hb => ?_, fun _ => ready_of_mem_evictToCap, by simp [Disk.exec]⟩
    · simp only [Disk.exec] at hb
      split at hb
      case isTrue hkey => cases hb; exact hkey ▸ hk.right (key, body) rfl r hr hkey
      case isFalse     => exact h r hr b hb
    · simp only [Disk.exec] at hb
      split at hb
      case isTrue hkey => cases hb; exact hkey ▸ hp.right (key, body) rfl hkey
      case isFalse     => exact hp.left b hb
  case unlinkBody key =>
    have hsub {k b} (hb : b ∈ (d.exec env now (.unlinkBody key)).disk.bodies k) : b ∈ d.bodies k := by
      simp only [Disk.exec] at hb
      split at hb
      case isTrue  => cases hb
      case isFalse => exact hb
    exact ⟨fun r hr b hb => h r hr b (hsub hb), fun p hp b hb => hp.left b (hsub hb), by simp [Disk.exec],
      by simp [Disk.exec]⟩
  case deleteRow key =>
    exact ⟨fun r hr b hb => h r (List.mem_of_mem_filter hr) b hb, fun _ => hsame, by simp [Disk.exec],
      by simp [Disk.exec]⟩
  case selectAged =>
    refine keeps_of_ready h (fun _ => hsame) fun op hop => ?_
    obtain ⟨r, -, hr⟩ := List.mem_flatMap.mp hop
    exact ready_of_mem_deleteKey hr
  case selectOverCap =>
    refine keeps_of_ready h (fun _ => hsame) fun op hop => ?_
    obtain ⟨k, -, hk⟩ := List.mem_flatMap.mp hop
    exact ready_of_mem_deleteKey hk
  case selectKey base requestHeaders =>
    refine keeps_of_ready h (fun _ => hsame) fun op hop => ?_
    obtain ⟨k, -, rfl⟩ := Option.mem_map.mp (Option.mem_toList.mp hop)
    exact .of_none rfl rfl
  case selectRow key =>
    rw [Disk.exec]
    split
    case h_1        => exact keeps_of_ready h (fun _ => hsame) (by simp)
    case h_2 r hfind =>
      split
      · exact keeps_of_ready h (fun _ => hsame) fun _ => ready_of_mem_deleteKey
      · split
        · exact keeps_of_ready h (fun _ => hsame) (by simp)
        · refine keeps_of_ready h (fun _ => hsame) fun op hop => ?_
          obtain rfl := List.mem_singleton.mp hop
          -- The row is one that goes with whatever body is there.
          have hkey : r.key = key := by simpa using List.find?_some hfind
          refine ⟨?_, by rintro _ ⟨⟩⟩
          rintro _ ⟨⟩ body hbody
          exact hkey ▸ h r (List.mem_of_find?_eq_some hfind) body (hkey ▸ hbody)
  case statBody key e =>
    rw [Disk.exec]
    split
    · refine keeps_of_ready h (fun _ => hsame) fun op hop => ?_
      obtain rfl := List.mem_singleton.mp hop
      exact ⟨ho.pending, by rintro _ ⟨⟩⟩
    · exact keeps_of_ready h (fun _ => hsame) fun _ => ready_of_mem_deleteKey
  case readBody key e =>
    rw [Disk.exec]
    split
    case h_1            => exact keeps_of_ready h (fun _ => hsame) fun _ => ready_of_mem_deleteKey
    case h_2 body hbody =>
      split
      · exact keeps_of_ready h (fun _ => hsame) fun _ => ready_of_mem_deleteKey
      · refine keeps_of_ready h (fun _ => hsame) fun op hop => ?_
        obtain rfl := List.mem_singleton.mp hop
        refine ⟨by rintro _ ⟨⟩, ?_⟩
        rintro _ ⟨⟩
        exact ho.pending (key, e) rfl body hbody
  case touchKey key e =>
    refine ⟨fun r hr b hb => ?_, fun _ => hsame, by simp [Disk.exec], ho.returning⟩
    obtain ⟨r', hr', rfl⟩ := List.mem_map.mp hr
    by_cases hkey : r'.key = key
    case pos => rw [if_pos hkey] at hb ⊢; exact h r' hr' b hb
    case neg => rw [if_neg hkey] at hb ⊢; exact h r' hr' b hb

end Exec

namespace System

variable {ι : Type} [DecidableEq ι] {env : Env} {s s' : System ι} {e : Event ι}

def Event.execs : Event ι → Option ι
  | .exec i _ => some i
  | _         => none

-- Whether what a step writes comes together only with what it has been put together with: the row with
-- the body file that is there, and the body with the row that is there or that a call has just read.
def KeepsTogether (s : System ι) (e : Event ι) : Prop :=
  ∀ i ∈ e.execs, ∀ op ∈ (s.todo i).head?, op.KeepsTogether s.disk s.puts ∧
    ∀ j, ∀ op' ∈ s.todo j, ∀ p ∈ op'.pending, op.Spares s.puts p

instance {k : Nat} {s : System (Fin k)} {e : Event (Fin k)} : Decidable (s.KeepsTogether e) :=
  inferInstanceAs (Decidable (∀ _ ∈ _, ∀ _ ∈ _, _ ∧ ∀ _, ∀ _ ∈ _, ∀ _ ∈ _, _))

structure Inv (s : System ι) : Prop where
  together : s.disk.Together s.puts
  ready    : ∀ j, ∀ op ∈ s.todo j, op.Ready s.disk s.puts
  got      : ∀ p ∈ s.got, Stored s.puts p.1 p.2

omit [DecidableEq ι] in
theorem Inv.start : (start : System ι).Inv where
  together := by simp [System.start, Disk.Together]
  ready    := by simp [System.start]
  got      := by simp [System.start]

theorem mem_update {todo : ι → List Op} {i j : ι} {ops : List Op} {op : Op}
    (h : op ∈ Function.update todo i ops j) : op ∈ ops ∨ op ∈ todo j := by
  by_cases hj : j = i
  case pos => subst hj; rw [Function.update_self] at h; exact .inl h
  case neg => rw [Function.update_of_ne hj] at h; exact .inr h

theorem Inv.begin {i : ι} {ops : List Op} (h : s.Inv) (hb : s.begin i ops = some s')
    (ho : ∀ op ∈ ops, op.pending = none ∧ op.returning = none) : s'.Inv := by
  rw [System.begin] at hb
  split at hb
  case isFalse => cases hb
  case isTrue  =>
    cases hb
    refine ⟨h.together, fun j op hop => ?_, h.got⟩
    obtain hop | hop := mem_update hop
    · exact .of_none (ho op hop).left (ho op hop).right
    · exact h.ready j op hop

omit [DecidableEq ι] in
-- More puts leave everything stored that was.
theorem Inv.put {puts : List (Row × Body)} (h : s.Inv) : Inv { s with puts := s.puts ++ puts } := by
  have hmono {key e} (hs : Stored s.puts key e) : Stored (s.puts ++ puts) key e := by
    obtain ⟨p, hp, he⟩ := hs
    exact ⟨p, List.mem_append_left _ hp, he⟩
  refine ⟨fun r hr b hb => hmono (h.together r hr b hb), fun j op hop => ⟨?_, ?_⟩, fun p hp => hmono (h.got p hp)⟩
  · exact fun p hp body hb => hmono ((h.ready j op hop).pending p hp body hb)
  · exact fun p hp => hmono ((h.ready j op hop).returning p hp)

theorem Inv.done {i : ι} {op : Op} {rest : List Op} {r : Done} {fits : CString × Entry → Prop} (h : s.Inv)
    (hi : s.todo i = op :: rest) (hr : r.Keeps s.puts fits)
    (hf : ∀ j, ∀ op' ∈ s.todo j, ∀ p ∈ op'.pending, fits p) : (s.done i rest r).Inv := by
  refine ⟨hr.together, fun j op' hop => ?_, fun p hp => ?_⟩
  · have hold {j} (hop : op' ∈ s.todo j) : op'.Ready r.disk s.puts :=
      ⟨fun p hp => hr.fits p (hf j op' hop p hp), (h.ready j op' hop).returning⟩
    obtain hop | hop := mem_update hop
    · obtain hop | hop := List.mem_append.mp hop
      · exact hr.next op' hop
      · exact @hold i (hi ▸ List.mem_cons_of_mem op hop)
    · exact hold hop
  · obtain hp | hp := List.mem_append.mp hp
    · exact h.got p hp
    · exact hr.got p (Option.mem_toList.mp hp)

theorem Inv.step (h : s.Inv) (hk : s.KeepsTogether e) (hs : s.step env e = some s') : s'.Inv := by
  cases e
  case put i now args =>
    simp only [System.step] at hs
    split at hs
    case h_1     => exact h.begin hs (by simp)
    case h_2 row =>
      obtain ⟨s'', hb, rfl⟩ := Option.map_eq_some_iff.mp hs
      exact (h.begin hb (by simp [Op.pending, Op.returning])).put
  case get i url partition requestHeaders => exact h.begin hs (by simp [Op.pending, Op.returning])
  case delete i key => exact h.begin hs (by simp [deleteKey, Op.pending, Op.returning])
  case evict i => exact h.begin hs (by simp [evictToCap, Op.pending, Op.returning])
  case exec i now =>
    simp only [System.step] at hs
    split at hs
    case h_1         => cases hs
    case h_2 op rest hi =>
      cases hs
      have ho : op ∈ s.todo i := hi ▸ List.mem_cons_self
      obtain ⟨hop, hspares⟩ := hk i rfl op (by simp [hi])
      refine h.done hi (exec_keeps h.together (h.ready i op ho) hop) fun j op' hop' p hp => ?_
      exact ⟨(h.ready j op' hop').pending p hp, hspares j op' hop' p hp⟩
  case fail i =>
    simp only [System.step] at hs
    split at hs
    case h_1         => cases hs
    case h_2 op rest hi =>
      cases hs
      have ho : op ∈ s.todo i := hi ▸ List.mem_cons_self
      exact h.done hi (fail_keeps h.together (h.ready i op ho)) fun j op' hop' => (h.ready j op' hop').pending
  case stop i =>
    cases hs
    refine ⟨h.together, fun j op hop => ?_, h.got⟩
    exact h.ready j op ((mem_update hop).resolve_left List.not_mem_nil)

-- As long as what a step writes only comes together with what it was put with, everything returned has
-- been stored by one put.
theorem stored_of_run {es : List (Event ι)} (hr : run (step env) start es = some s)
    (hc : StepsMeet KeepsTogether (step env) start es) : ∀ p ∈ s.got, Stored s.puts p.1 p.2 :=
  (run_preserves (I := Inv) (fun _ _ _ h hk hs => h.step hk hs) hr hc .start).got

-- A cache that is asked for one page.
def onePage : Env where
  sha256 s        :=
    if s = "http://a/".toList then "282a35d7a0da6ae48eee116ad6193fa861bd88958a4c38a8042f6712ed9474f7".toList
    else []
  cacheCapBytes   := 268435456
  parseHttpDate _ := 0
  isHttpOrHttps s := gStrHasPrefix s "http://".toList || gStrHasPrefix s "https://".toList

def firstPut : PutArgs where
  url  := "http://a/".toList
  etag := some "1".toList
  body := [1]

def secondPut : PutArgs where
  url  := "http://a/".toList
  etag := some "2".toList
  body := [2]

-- One process puts the page, then the other one gets it.
def putThenGet : List (Event (Fin 2)) :=
  [.put 0 1000 firstPut, .exec 0 1000, .exec 0 1000, .exec 0 1000, .exec 0 1000,
    .get 1 "http://a/".toList none [], .exec 1 1000, .exec 1 1000, .exec 1 1000, .exec 1 1000, .exec 1 1000]

theorem stored_putThenGet : ∃ s, run (step onePage) start putThenGet = some s ∧
    s.got.length = 1 ∧ ∀ p ∈ s.got, Stored s.puts p.1 p.2 := by
  have hl : (run (step onePage) start putThenGet).map (·.got.length) = some 1 := by
    unfold putThenGet firstPut onePage
    repeat rw [String.toList_ofList]
    decide +kernel
  obtain ⟨s, hr, hl⟩ := Option.map_eq_some_iff.mp hl
  have hm : StepsMeet KeepsTogether (step onePage) start putThenGet := by
    unfold putThenGet firstPut onePage
    repeat rw [String.toList_ofList]
    decide +kernel
  exact ⟨s, hr, hl, stored_of_run hr hm⟩

-- One process stops between the row and the body of its second put, then the other one gets the page.
theorem not_stored_halfPut : ¬∀ (env : Env) (es : List (Event (Fin 2))) (s : System (Fin 2)),
    run (step env) start es = some s → ∀ p ∈ s.got, Stored s.puts p.1 p.2 := by
  intro h
  have hf : (run (step onePage) start
      [.put (0 : Fin 2) 1000 firstPut, .exec 0 1000, .exec 0 1000, .exec 0 1000, .exec 0 1000,
        .put 0 1000 secondPut, .exec 0 1000, .stop 0,
        .get 1 "http://a/".toList none [], .exec 1 1000, .exec 1 1000, .exec 1 1000, .exec 1 1000,
        .exec 1 1000]).map (fun s => decide (∀ p ∈ s.got, Stored s.puts p.1 p.2)) = some false := by
    unfold firstPut secondPut onePage
    repeat rw [String.toList_ofList]
    decide +kernel
  obtain ⟨s, hr, hd⟩ := Option.map_eq_some_iff.mp hf
  exact of_decide_eq_false hd (h onePage _ s hr)

end System

end Nordstjernen.Net.Cache
