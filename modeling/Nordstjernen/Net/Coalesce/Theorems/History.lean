import Nordstjernen.Net.Coalesce.Requests
import Nordstjernen.Net.Coalesce.Theorems.Tables

namespace Nordstjernen.Net.Coalesce

-- The equations of what is matched on most are derived here, once for all the proofs below.
section
attribute [local simp] Entry.takenFrom Entry.completedBy
end

namespace State

variable {κ ι : Type} {s s' : State κ ι} {c l : ι} {k : κ} {b : Bool} {out : Outcome}
  {entry : Entry κ ι} {e : Stored κ ι} {preload : Preload κ ι}

-- Entries that say nothing about joins, handed out responses and completions.
def IsPlain (entry : Entry κ ι) : Prop :=
  (∀ c l k b, entry ≠ .joined c l k b) ∧ entry.takenFrom = none ∧ entry.completedBy = none

theorem isPlain_led (c : ι) (k : κ) : IsPlain (.led c k) := by
  simp [IsPlain, Entry.takenFrom, Entry.completedBy]

theorem isPlain_delivered (c : ι) (out : Outcome) : IsPlain (.delivered c out : Entry κ ι) := by
  simp [IsPlain, Entry.takenFrom, Entry.completedBy]

theorem isPlain_gaveUp (c : ι) : IsPlain (.gaveUp c : Entry κ ι) := by
  simp [IsPlain, Entry.takenFrom, Entry.completedBy]

-- What the history and the store say by themselves, whatever the callers do.
structure Ledger (s : State κ ι) : Prop where
  once     : s.completed.Nodup
  inFlight : s.JoinsInFlight
  preload  : s.preload.Sound
  sources  : ∀ e ∈ s.preload.store, ∃ out, .delivered e.source out ∈ s.log
  taken    : ∀ l ∈ s.taken, (∃ out, .delivered l out ∈ s.log) ∧ ∀ e ∈ s.preload.store, e.source ≠ l
  handOut  : s.taken.Nodup

theorem ledger_default : ({} : State κ ι).Ledger where
  once     := .nil
  inFlight := by simp [JoinsInFlight]
  preload  := Preload.sound_default
  sources  := by simp
  taken    := by simp [State.taken]
  handOut  := .nil

theorem Ledger.congr (h : s.Ledger) (hl : s'.log = s.log) (hp : s'.preload = s.preload) :
    s'.Ledger := by
  obtain ⟨h₁, h₂, h₃, h₄, h₅, h₆⟩ := h
  constructor <;> simpa only [completed, JoinsInFlight, State.taken, hl, hp]

-- A store that is sound and has lost some entries.
theorem Ledger.shrink (h : s.Ledger) (hp : preload.Sound)
    (hs : ∀ e ∈ preload.store, e ∈ s.preload.store) : ({ s with preload }).Ledger where
  once        := h.once
  inFlight    := h.inFlight
  preload     := hp
  sources e he := h.sources e (hs e he)
  taken l hl  := ⟨(h.taken l hl).left, fun e he => (h.taken l hl).right e (hs e he)⟩
  handOut     := h.handOut

theorem joinsInFlight_record (h : s.JoinsInFlight)
    (hj : ∀ c l k b, entry = .joined c l k b → .led l k ∈ s.log ∧ ∀ out, .delivered l out ∉ s.log) :
    (s.record entry).JoinsInFlight := by
  intro c l k b past hp
  cases List.suffix_cons_iff.mp hp
  case inl he =>
    obtain ⟨rfl, rfl⟩ := List.cons.inj he
    exact hj c l k b rfl
  case inr hs => exact h c l k b past hs

-- Entries are only ever added, so what the store refers to stays in the history.
theorem Ledger.record (h : s.Ledger) (ht : entry.takenFrom = none) (ho : (s.record entry).completed.Nodup)
    (hj : (s.record entry).JoinsInFlight) : (s.record entry).Ledger := by
  have htaken : (s.record entry).taken = s.taken := by
    simp [State.taken, State.record, ht]
  exact {
    once     := ho
    inFlight := hj
    preload  := h.preload
    sources e he := (h.sources e he).imp fun _ hm => List.mem_cons_of_mem _ hm
    taken l hl   := by
      rw [htaken] at hl
      exact ⟨(h.taken l hl).left.imp fun _ hm => List.mem_cons_of_mem _ hm, (h.taken l hl).right⟩
    handOut  := htaken ▸ h.handOut
  }

theorem Ledger.plain (h : s.Ledger) (he : IsPlain entry) : (s.record entry).Ledger := by
  refine h.record he.right.left ?_ (joinsInFlight_record h.inFlight fun c l k b hj => ?_)
  · simpa [completed, State.record, List.filterMap_cons, he.right.right] using h.once
  · exact absurd hj (he.left c l k b)

theorem Ledger.join (h : s.Ledger) (hl : .led l k ∈ s.log) (hd : ∀ out, .delivered l out ∉ s.log) :
    (s.record (.joined c l k b)).Ledger := by
  refine h.record rfl h.once (joinsInFlight_record h.inFlight ?_)
  intro c' l' k' b' he
  cases he
  exact ⟨hl, hd⟩

theorem Ledger.complete (h : s.Ledger) (hc : c ∉ s.completed) :
    (s.record (.completed c out)).Ledger :=
  h.record rfl (List.nodup_cons.mpr ⟨hc, h.once⟩)
    (joinsInFlight_record h.inFlight fun _ _ _ _ he => by cases he)

section Store

variable [DecidableEq κ]

-- The entry that is handed out leaves the store.
theorem Ledger.take (h : s.Ledger) (ht : s.preload.take k = some (e, preload)) :
    ({ s with preload }.record (.took c e.source)).Ledger := by
  have hm : e ∈ s.preload.store := (Preload.take_eq_some ht).left
  have hs (f : Stored κ ι) (hf : f ∈ preload.store) := h.preload.source_ne ht hf
  exact {
    once     := h.once
    inFlight := joinsInFlight_record h.inFlight fun _ _ _ _ he => by cases he
    preload  := h.preload.take ht
    sources f hf := (h.sources f (hs f hf).left).imp fun _ hm => List.mem_cons_of_mem _ hm
    taken l hl := by
      cases List.mem_cons.mp hl
      case inl hl =>
        rw [hl]
        exact ⟨(h.sources e hm).imp fun _ hm => List.mem_cons_of_mem _ hm, fun f hf => (hs f hf).right⟩
      case inr hl =>
        have ht := h.taken l hl
        exact ⟨ht.left.imp fun _ hm => List.mem_cons_of_mem _ hm, fun f hf => ht.right f (hs f hf).left⟩
    handOut := List.nodup_cons.mpr ⟨fun hl => (h.taken _ hl).right e hm rfl, h.handOut⟩
  }

-- A leader that has not delivered before is new to the store.
theorem Ledger.storeLocked (h : s.Ledger) (hd : ∀ out, .delivered l out ∉ s.log) (r : Response) :
    ({ s with preload := s.preload.storeLocked k l r }.record (.delivered l out)).Ledger := by
  have hl : l ∉ s.preload.store.map (·.source) := by
    intro hm
    obtain ⟨e, he, rfl⟩ := List.mem_map.mp hm
    obtain ⟨out, ho⟩ := h.sources e he
    exact hd out ho
  exact {
    once     := h.once
    inFlight := joinsInFlight_record h.inFlight fun _ _ _ _ he => by cases he
    preload  := h.preload.storeLocked hl k r
    sources e he := by
      cases Preload.mem_storeLocked he
      case inl he => exact (h.sources e he).imp fun _ hm => List.mem_cons_of_mem _ hm
      case inr he => exact ⟨out, he ▸ List.mem_cons_self⟩
    taken l' hl' := by
      have ht := h.taken l' hl'
      refine ⟨ht.left.imp fun _ hm => List.mem_cons_of_mem _ hm, fun e he => ?_⟩
      cases Preload.mem_storeLocked he
      case inl he => exact ht.right e he
      case inr he =>
        rintro rfl
        obtain ⟨out, ho⟩ := ht.left
        exact hd out (he ▸ ho)
    handOut  := h.handOut
  }

end Store

end State

end Nordstjernen.Net.Coalesce

namespace Nordstjernen.Net.Coalesce

namespace State

variable {κ ι : Type} {s : State κ ι} {c l t : ι} {k : κ} {g : Group ι} {out : Outcome} {ts : List ι}
  {phase : Phase κ ι} {p p' : Place} {key : Option κ} {entry : Entry κ ι}

theorem mem_completed : c ∈ s.completed ↔ ∃ out, .completed c out ∈ s.log := by
  simp only [completed, List.mem_filterMap]
  constructor
  case mp =>
    rintro ⟨e, he, hc⟩
    cases e <;> simp only [Entry.completedBy, Option.some.injEq, reduceCtorEq] at hc
    subst hc
    exact ⟨_, he⟩
  case mpr => exact fun ⟨out, h⟩ => ⟨_, h, rfl⟩

-- What becomes of a caller that has joined a leader.
def JoinerState (s : State κ ι) (c l : ι) (k : κ) : Prop :=
  s.phases c = .joined k l ∨ s.phases c = .waiting k l ∨
  (∃ out, s.phases c = .returning out ∧ s.IsCopyFrom l out) ∨
  (s.phases c = .done ∧ ∀ out, .completed c out ∈ s.log → JoinerGetsCopyOrGivesUp s c l out)

-- How the history fits to the phases.
structure History (s : State κ ι) : Prop where
  issued    : ∀ c, c ∈ s.issued ↔ s.phases c ≠ .fresh
  done      : ∀ c, (∃ out, .completed c out ∈ s.log) ↔ s.phases c = .done
  led       : ∀ k g, s.groups k = some g → .led g.leader k ∈ s.log
  delivered : ∀ c out, .delivered c out ∈ s.log →
    s.phases c = .done ∨ ∃ out ts, s.phases c = .handing out ts
  handing   : ∀ c out ts, s.phases c = .handing out ts → .delivered c out ∈ s.log
  joiner    : ∀ c l k b, .joined c l k b ∈ s.log → s.JoinerState c l k

theorem history_default : ({} : State κ ι).History := by
  constructor <;> simp

-- The store does not matter.
theorem History.congr {s' : State κ ι} (h : s.History) (hp : s'.phases = s.phases)
    (hg : s'.groups = s.groups) (hi : s'.issued = s.issued) (hl : s'.log = s.log) : s'.History := by
  obtain ⟨h₁, h₂, h₃, h₄, h₅, h₆⟩ := h
  constructor <;>
    simpa only [JoinerState, JoinerGetsCopyOrGivesUp, IsCopyFrom, GaveUp, hp, hg, hi, hl]

theorem History.drain (h : s.History) : s.drain.History := by
  obtain ⟨h₁, h₂, h₃, h₄, h₅, h₆⟩ := h
  constructor <;> simp only [JoinerState, JoinerGetsCopyOrGivesUp, IsCopyFrom, GaveUp, State.drain] at *
  all_goals grind

section Phases

variable [DecidableEq ι]

theorem History.unshared (h : s.History) (hc : s.phases c = .fresh) :
    ({ s with issued := c :: s.issued }.setPhase c (.lead p none)).History := by
  obtain ⟨h₁, h₂, h₃, h₄, h₅, h₆⟩ := h
  constructor <;> simp only [JoinerState, JoinerGetsCopyOrGivesUp, IsCopyFrom, GaveUp, setPhase,
    Function.update_apply] at *
  all_goals grind

theorem History.returning (h : s.History) (hc : s.phases c = .fresh) :
    (({ s with issued := c :: s.issued }.setPhase c (.returning out)).record (.took c l)).History := by
  obtain ⟨h₁, h₂, h₃, h₄, h₅, h₆⟩ := h
  constructor <;> simp only [JoinerState, JoinerGetsCopyOrGivesUp, IsCopyFrom, GaveUp, record,
    setPhase, Function.update_apply] at *
  all_goals grind

theorem History.move (h : s.History) (hc : s.phases c = .lead p key) :
    (s.setPhase c (.lead p' key)).History := by
  obtain ⟨h₁, h₂, h₃, h₄, h₅, h₆⟩ := h
  constructor <;> simp only [JoinerState, JoinerGetsCopyOrGivesUp, IsCopyFrom, GaveUp, setPhase,
    Function.update_apply] at *
  all_goals grind

theorem History.complete (h : s.History)
    (hc : s.phases c = .returning out ∨ s.phases c = .handing out []) :
    (s.finish c out).History := by
  obtain ⟨h₁, h₂, h₃, h₄, h₅, h₆⟩ := h
  constructor <;> simp only [JoinerState, JoinerGetsCopyOrGivesUp, IsCopyFrom, GaveUp, finish,
    record, setPhase, Function.update_apply] at *
  all_goals grind

theorem History.handOver (h : s.History) (hc : s.phases c = .handing out (t :: ts))
    (ht : s.phases t = .joined k c) :
    ((s.finish t out.copy).setPhase c (.handing out ts)).History := by
  obtain ⟨h₁, h₂, h₃, h₄, h₅, h₆⟩ := h
  constructor <;> simp only [JoinerState, JoinerGetsCopyOrGivesUp, IsCopyFrom, GaveUp, finish,
    record, setPhase, Function.update_apply] at *
  all_goals grind

theorem History.deliver_unshared (h : s.History) (hc : s.phases c = .lead p none) :
    ((s.setPhase c (.handing out [])).record (.delivered c out)).History := by
  obtain ⟨h₁, h₂, h₃, h₄, h₅, h₆⟩ := h
  constructor <;> simp only [JoinerState, JoinerGetsCopyOrGivesUp, IsCopyFrom, GaveUp,
    record, setPhase, Function.update_apply] at *
  all_goals grind

end Phases

section Groups

variable [DecidableEq κ] [DecidableEq ι]

theorem History.lead (h : s.History) (hc : s.phases c = .fresh) :
    ((({ s with issued := c :: s.issued }.setGroup k (some { leader := c })).setPhase c
      (.lead p (some k))).record (.led c k)).History := by
  obtain ⟨h₁, h₂, h₃, h₄, h₅, h₆⟩ := h
  constructor <;> simp only [JoinerState, JoinerGetsCopyOrGivesUp, IsCopyFrom, GaveUp,
    record, setPhase, setGroup, Function.update_apply] at *
  all_goals grind

theorem History.joinGroup (h : s.History) (hc : s.phases c = .fresh) (hg : s.groups k = some g)
    (blocking : Bool) :
    ({ s with issued := c :: s.issued }.joinGroup k g c blocking).History := by
  obtain ⟨h₁, h₂, h₃, h₄, h₅, h₆⟩ := h
  cases blocking <;> constructor <;> simp only [JoinerState, JoinerGetsCopyOrGivesUp, IsCopyFrom,
    GaveUp, State.joinGroup, record, setPhase, setGroup] at *
  all_goals grind

theorem History.deliver (h : s.History) (ht : s.Tables) (hc : s.phases c = .lead p (some k))
    (hg : s.groups k = some g) (hl : g.leader = c) :
    ((((s.setGroup k none).wake g.syncs out.copy).setPhase c (.handing out g.tasks)).record
      (.delivered c out)).History := by
  have hs := (ht.syncs k g hg).right
  obtain ⟨h₁, h₂, h₃, h₄, h₅, h₆⟩ := h
  constructor <;> simp only [JoinerState, JoinerGetsCopyOrGivesUp, IsCopyFrom, GaveUp,
    record, setPhase, wake, setGroup, Function.update_apply] at *
  all_goals grind

theorem History.giveUp (h : s.History) (hc : s.phases c = .waiting k l) (hg : s.groups k = some g) :
    (((s.leaveGroup k c).record (.gaveUp c)).finish c Outcome.abandoned).History := by
  obtain ⟨h₁, h₂, h₃, h₄, h₅, h₆⟩ := h
  constructor <;> simp only [JoinerState, JoinerGetsCopyOrGivesUp, IsCopyFrom, GaveUp, finish,
    record, leaveGroup, setPhase, setGroup, Function.update_apply] at *
  all_goals grind

end Groups

end State

end Nordstjernen.Net.Coalesce
