import Mathlib.Data.List.Nodup
import Nordstjernen.Net.Coalesce.Requests

namespace Nordstjernen.Net.Coalesce

namespace State

variable {κ ι : Type} {s : State κ ι} {c l t : ι} {k : κ} {g : Group ι} {out : Outcome} {ts : List ι}
  {phase : Phase κ ι} {p p' : Place} {key : Option κ}

-- How the phases of the callers and the table of the groups fit together.
structure Tables (s : State κ ι) : Prop where
  leader  : ∀ k g, s.groups k = some g → s.InFlight g.leader k
  group   : ∀ c p k, s.phases c = .lead p (some k) → ∃ g, s.groups k = some g ∧ g.leader = c
  tasks   : ∀ k g, s.groups k = some g → g.tasks.Nodup ∧ ∀ t ∈ g.tasks, s.phases t = .joined k g.leader
  syncs   : ∀ k g, s.groups k = some g → g.syncs.Nodup ∧ ∀ t ∈ g.syncs, s.phases t = .waiting k g.leader
  joined  : ∀ t k l, s.phases t = .joined k l →
    (∃ g, s.groups k = some g ∧ g.leader = l ∧ t ∈ g.tasks) ∨
    ∃ out ts, s.phases l = .handing out ts ∧ t ∈ ts
  waiting : ∀ t k l, s.phases t = .waiting k l → ∃ g, s.groups k = some g ∧ g.leader = l ∧ t ∈ g.syncs
  handing : ∀ l out ts, s.phases l = .handing out ts → ts.Nodup ∧ ∀ t ∈ ts, ∃ k, s.phases t = .joined k l

theorem tables_default : ({} : State κ ι).Tables := by
  constructor <;> simp

-- Only the phases and the groups matter.
theorem Tables.congr {s' : State κ ι} (h : s.Tables) (hp : s'.phases = s.phases)
    (hg : s'.groups = s.groups) : s'.Tables := by
  obtain ⟨h₁, h₂, h₃, h₄, h₅, h₆, h₇⟩ := h
  constructor <;> simpa only [InFlight, hp, hg]

theorem Tables.drain (h : s.Tables) : s.drain.Tables := by
  obtain ⟨h₁, h₂, h₃, h₄, h₅, h₆, h₇⟩ := h
  constructor <;> simp only [InFlight, State.drain] at * <;> grind

section Phases

variable [DecidableEq ι]

theorem Tables.unshared (h : s.Tables) (hc : s.phases c = .fresh) :
    (s.setPhase c (.lead p none)).Tables := by
  obtain ⟨h₁, h₂, h₃, h₄, h₅, h₆, h₇⟩ := h
  constructor <;> simp only [InFlight, setPhase, Function.update_apply] at * <;> grind

theorem Tables.returning (h : s.Tables) (hc : s.phases c = .fresh) :
    (s.setPhase c (.returning out)).Tables := by
  obtain ⟨h₁, h₂, h₃, h₄, h₅, h₆, h₇⟩ := h
  constructor <;> simp only [InFlight, setPhase, Function.update_apply] at * <;> grind

theorem Tables.move (h : s.Tables) (hc : s.phases c = .lead p key) :
    (s.setPhase c (.lead p' key)).Tables := by
  obtain ⟨h₁, h₂, h₃, h₄, h₅, h₆, h₇⟩ := h
  constructor <;> simp only [InFlight, setPhase, Function.update_apply] at * <;> grind

theorem Tables.complete (h : s.Tables)
    (hc : s.phases c = .returning out ∨ s.phases c = .handing out []) :
    (s.setPhase c .done).Tables := by
  obtain ⟨h₁, h₂, h₃, h₄, h₅, h₆, h₇⟩ := h
  constructor <;> simp only [InFlight, setPhase, Function.update_apply] at * <;> grind

theorem Tables.handOver (h : s.Tables) (hc : s.phases c = .handing out (t :: ts)) :
    ((s.setPhase t .done).setPhase c (.handing out ts)).Tables := by
  have hh := h.handing c out (t :: ts) hc
  obtain ⟨k, ht⟩ := hh.right t List.mem_cons_self
  obtain ⟨h₁, h₂, h₃, h₄, h₅, h₆, h₇⟩ := h
  constructor <;> simp only [InFlight, setPhase, Function.update_apply] at *
  all_goals grind

theorem Tables.deliver_unshared (h : s.Tables) (hc : s.phases c = .lead p none) :
    (s.setPhase c (.handing out [])).Tables := by
  obtain ⟨h₁, h₂, h₃, h₄, h₅, h₆, h₇⟩ := h
  constructor <;> simp only [InFlight, setPhase, Function.update_apply] at * <;> grind

end Phases

section Groups

variable [DecidableEq κ] [DecidableEq ι]

theorem Tables.lead (h : s.Tables) (hc : s.phases c = .fresh) (hg : s.groups k = none) :
    ((s.setGroup k (some { leader := c })).setPhase c (.lead p (some k))).Tables := by
  obtain ⟨h₁, h₂, h₃, h₄, h₅, h₆, h₇⟩ := h
  constructor <;> simp only [InFlight, setPhase, setGroup, Function.update_apply] at *
  case leader =>
    intro k' g hg'
    by_cases hk : k' = k
    case pos => exact ⟨p, by grind⟩
    case neg => grind
  case group =>
    intro c' p' k' hc'
    by_cases hk : k' = k
    case pos => exact ⟨{ leader := c }, by grind⟩
    case neg => grind
  all_goals grind

theorem Tables.joinTasks (h : s.Tables) (hc : s.phases c = .fresh) (hg : s.groups k = some g) :
    ((s.setGroup k (some { g with tasks := g.tasks ++ [c] })).setPhase c
      (.joined k g.leader)).Tables := by
  obtain ⟨h₁, h₂, h₃, h₄, h₅, h₆, h₇⟩ := h
  constructor <;> simp only [InFlight, setPhase, setGroup, Function.update_apply] at *
  all_goals grind

theorem Tables.joinSyncs (h : s.Tables) (hc : s.phases c = .fresh) (hg : s.groups k = some g) :
    ((s.setGroup k (some { g with syncs := g.syncs ++ [c] })).setPhase c
      (.waiting k g.leader)).Tables := by
  obtain ⟨h₁, h₂, h₃, h₄, h₅, h₆, h₇⟩ := h
  constructor <;> simp only [InFlight, setPhase, setGroup, Function.update_apply] at *
  all_goals grind

theorem Tables.deliver (h : s.Tables) (hc : s.phases c = .lead p (some k))
    (hg : s.groups k = some g) :
    (((s.setGroup k none).wake g.syncs out.copy).setPhase c (.handing out g.tasks)).Tables := by
  obtain ⟨h₁, h₂, h₃, h₄, h₅, h₆, h₇⟩ := h
  constructor <;> simp only [InFlight, setPhase, setGroup, wake, Function.update_apply] at *
  case joined =>
    -- An earlier leader of the same key may still be completing its own tasks.
    intro t k' l ht
    by_cases hm : t ∈ g.tasks
    case pos => exact .inr ⟨out, g.tasks, by grind⟩
    case neg => grind
  all_goals grind

theorem Tables.giveUp (h : s.Tables) (hc : s.phases c = .waiting k l) :
    ((s.leaveGroup k c).setPhase c .done).Tables := by
  obtain ⟨h₁, h₂, h₃, h₄, h₅, h₆, h₇⟩ := h
  constructor <;> simp only [InFlight, setPhase, setGroup, leaveGroup, Function.update_apply] at *
  all_goals grind

end Groups

end State

end Nordstjernen.Net.Coalesce

namespace Nordstjernen.Net.Coalesce

variable {κ ι : Type}

@[simp]
theorem Response.bodyLen_copy (r : Response) : r.copy.bodyLen = r.bodyLen := by
  simp [Response.copy, Response.bodyLen]

namespace Preload

variable {p p' : Preload κ ι} {e : Stored κ ι} {key : κ} {source : ι} {r : Response}

-- What the store guarantees of its entries and of the counter beside it.
structure Sound (p : Preload κ ι) : Prop where
  keys    : (p.store.map (·.key)).Nodup
  sources : (p.store.map (·.source)).Nodup
  bytes   : p.bytes = size p.store
  cap     : p.bytes ≤ preloadMaxBytes

theorem sound_default : ({} : Preload κ ι).Sound where
  keys    := .nil
  sources := .nil
  bytes   := rfl
  cap     := Nat.zero_le _

theorem Sound.clear (p : Preload κ ι) : p.clear.Sound :=
  { sound_default with }

variable [DecidableEq κ]

theorem Sound.forget (h : p.Sound) (key : κ) : (p.forget key).Sound :=
  { h with }

theorem expect_store (p : Preload κ ι) (key : κ) : (p.expect key).store = p.store := by
  rw [expect]
  split <;> rfl

theorem Sound.expect (h : p.Sound) (key : κ) : (p.expect key).Sound := by
  rw [Preload.expect]
  split
  · exact { h with }
  · exact h

-- Without the entry of a key, the store is smaller by the body of that entry.
theorem size_filter_key {store : List (Stored κ ι)} (hn : (store.map (·.key)).Nodup)
    (he : e ∈ store) : size (store.filter (·.key ≠ e.key)) + e.response.bodyLen = size store := by
  induction store
  case nil => simp at he
  case cons f store hi =>
    rw [List.map_cons, List.nodup_cons] at hn
    cases List.mem_cons.mp he
    case inl hf =>
      subst hf
      have hs : store.filter (·.key ≠ e.key) = store := by
        rw [List.filter_eq_self]
        intro f hf
        simpa using fun hk : f.key = e.key => hn.left (hk ▸ List.mem_map_of_mem hf)
      simp only [List.filter_cons, ne_eq, not_true_eq_false, decide_false, Bool.false_eq_true,
        ↓reduceIte, size, List.map_cons, List.sum_cons]
      rw [hs, Nat.add_comm]
    case inr hf =>
      have hk : f.key ≠ e.key := fun hk => hn.left (hk ▸ List.mem_map_of_mem hf)
      have hi := hi hn.right hf
      simp only [size] at hi
      simp only [List.filter_cons, hk, ne_eq, not_false_eq_true, decide_true, ↓reduceIte, size,
        List.map_cons, List.sum_cons, Nat.add_assoc, hi]

theorem take_eq_some (h : p.take key = some (e, p')) :
    e ∈ p.store ∧ e.key = key ∧ p' = { p with
      store := p.store.filter (·.key ≠ key)
      bytes := p.bytes - e.response.bodyLen } := by
  rw [take, Option.map_eq_some_iff] at h
  obtain ⟨f, hf, h⟩ := h
  obtain ⟨rfl, rfl⟩ := Prod.mk.inj h
  exact ⟨List.mem_of_find?_eq_some hf, by simpa using List.find?_some hf, rfl⟩

theorem Sound.take (h : p.Sound) (ht : p.take key = some (e, p')) : p'.Sound := by
  obtain ⟨he, rfl, rfl⟩ := take_eq_some ht
  have hs := size_filter_key h.keys he
  exact {
    keys    := (List.filter_sublist.map _).nodup h.keys
    sources := (List.filter_sublist.map _).nodup h.sources
    bytes   := by rw [h.bytes, ← hs]; exact Nat.add_sub_cancel ..
    cap     := Nat.le_trans (Nat.sub_le _ _) h.cap
  }

-- What is left in the store comes from other callers than what was taken.
theorem Sound.source_ne (h : p.Sound) (ht : p.take key = some (e, p')) {f : Stored κ ι}
    (hf : f ∈ p'.store) : f ∈ p.store ∧ f.source ≠ e.source := by
  obtain ⟨he, rfl, rfl⟩ := take_eq_some ht
  obtain ⟨hf, hk⟩ := List.mem_filter.mp hf
  refine ⟨hf, fun hs => ?_⟩
  rw [List.inj_on_of_nodup_map h.sources hf he hs] at hk
  simp at hk

-- A response is either left out or added as a copy that fits and whose key is new.
theorem storeLocked_cases (p : Preload κ ι) (key : κ) (source : ι) (r : Response) :
    ((p.storeLocked key source r).store = p.store ∧
      (p.storeLocked key source r).bytes = p.bytes) ∨
    ((p.storeLocked key source r).store = p.store ++ [⟨key, source, r.copy⟩] ∧
      (p.storeLocked key source r).bytes = p.bytes + r.bodyLen ∧
      p.bytes + r.bodyLen ≤ preloadMaxBytes ∧ key ∉ p.store.map (·.key)) := by
  rw [storeLocked]
  split
  case isTrue => exact .inl ⟨rfl, rfl⟩
  case isFalse =>
    dsimp only
    split <;> [exact .inl ⟨rfl, rfl⟩; skip]
    split <;> [exact .inl ⟨rfl, rfl⟩; skip]
    split <;> [exact .inl ⟨rfl, rfl⟩; skip]
    split <;> [exact .inl ⟨rfl, rfl⟩; skip]
    split <;> [exact .inl ⟨rfl, rfl⟩; skip]
    case isFalse hb _ hk =>
      refine .inr ⟨rfl, rfl, Nat.le_of_not_lt hb, ?_⟩
      simpa [forget] using hk

theorem Sound.storeLocked (h : p.Sound) (hs : source ∉ p.store.map (·.source)) (key : κ)
    (r : Response) : (p.storeLocked key source r).Sound := by
  have hadd {α : Type} {xs : List α} {x : α} (hx : x ∉ xs) (hn : xs.Nodup) : (xs ++ [x]).Nodup := by
    simpa [List.nodup_append] using ⟨hn, fun a ha he => hx (he ▸ ha)⟩
  cases storeLocked_cases p key source r
  case inl hc =>
    obtain ⟨hst, hb⟩ := hc
    exact ⟨hst ▸ h.keys, hst ▸ h.sources, hb ▸ hst ▸ h.bytes, hb ▸ h.cap⟩
  case inr hc =>
    obtain ⟨hst, hb, hcap, hk⟩ := hc
    exact {
      keys    := by rw [hst, List.map_append]; exact hadd hk h.keys
      sources := by rw [hst, List.map_append]; exact hadd hs h.sources
      bytes   := by rw [hb, hst, h.bytes]; simp [size]
      cap     := hb ▸ hcap
    }

theorem mem_storeLocked (he : e ∈ (p.storeLocked key source r).store) :
    e ∈ p.store ∨ e.source = source := by
  cases storeLocked_cases p key source r
  case inl hc => exact .inl (hc.left ▸ he)
  case inr hc =>
    rw [hc.left, List.mem_append] at he
    exact he.imp id fun he => by rw [List.mem_singleton.mp he]

end Preload

end Nordstjernen.Net.Coalesce
