import Mathlib.Algebra.Order.BigOperators.Group.List
import Mathlib.Algebra.Order.Ring.Nat
import Nordstjernen.Net.Coalesce.Theorems.History

namespace Nordstjernen.Net.Coalesce

variable {κ ι : Type}

namespace State

variable {s t : State κ ι} {c l : ι} {k : κ} {g : Group ι} {out : Outcome} {p : Place}
  {key : Option κ} {e : Event κ ι}

-- What every reachable state has.
structure Inv (s : State κ ι) : Prop where
  tables  : s.Tables
  history : s.History
  ledger  : s.Ledger

theorem inv_default : ({} : State κ ι).Inv where
  tables  := tables_default
  history := history_default
  ledger  := ledger_default

-- A caller that has not delivered anything yet has not delivered anything to the store either.
theorem History.not_delivered (h : s.History) (hc : s.phases c = .lead p key) :
    ∀ out, .delivered c out ∉ s.log := by
  intro out ho
  have hd := h.delivered c out ho
  simp [hc] at hd

theorem History.not_completed (h : s.History) (hc : s.phases c ≠ .done) : c ∉ s.completed := by
  rw [mem_completed, h.done]
  exact hc

section

variable [DecidableEq κ] [DecidableEq ι]

theorem Inv.request (h : s.Inv) (hc : s.phases c = .fresh) (key : Option κ) (b : Bool) :
    (s.request c key b).Inv := by
  cases key <;> rw [State.request]
  case none =>
    exact ⟨(h.tables.unshared hc).congr rfl rfl, h.history.unshared hc, h.ledger.congr rfl rfl⟩
  case some k =>
    rw [claim]
    split
    case h_1 e preload ht =>
      exact {
        tables  := (h.tables.returning hc).congr rfl rfl
        history := (h.history.returning hc).congr rfl rfl rfl rfl
        ledger  := (h.ledger.take ht).congr rfl rfl
      }
    case h_2 =>
      split
      case h_1 g hg =>
        have hg : s.groups k = some g := hg
        have hl := h.history.led k g hg
        obtain ⟨p, hp⟩ := h.tables.leader k g hg
        have hd := h.history.not_delivered hp
        refine ⟨?_, h.history.joinGroup hc hg b, ?_⟩ <;> rw [joinGroup] <;> split
        · exact (h.tables.joinSyncs hc hg).congr rfl rfl
        · exact (h.tables.joinTasks hc hg).congr rfl rfl
        · exact (h.ledger.join hl hd).congr rfl rfl
        · exact (h.ledger.join hl hd).congr rfl rfl
      case h_2 hg =>
        exact {
          tables  := (h.tables.lead hc hg).congr rfl rfl
          history := h.history.lead hc
          ledger  := (h.ledger.plain (isPlain_led c k)).congr rfl rfl
        }

theorem Inv.deliver (h : s.Inv) (hc : s.phases c = .lead p key) (out : Outcome) :
    (s.deliver c key out).Inv := by
  have hd := h.history.not_delivered hc
  cases key <;> simp only [State.deliver]
  case none =>
    exact {
      tables  := (h.tables.deliver_unshared hc).congr rfl rfl
      history := h.history.deliver_unshared hc
      ledger  := (h.ledger.plain (isPlain_delivered c out)).congr rfl rfl
    }
  case some k =>
    obtain ⟨g, hg, hl⟩ := h.tables.group c p k hc
    simp only [hg, Option.getD_some]
    refine ⟨(h.tables.deliver hc hg).congr rfl rfl,
      (h.history.deliver h.tables hc hg hl).congr rfl rfl rfl rfl, ?_⟩
    cases out
    case ok r      => exact (h.ledger.storeLocked hd r).congr rfl rfl
    case error msg =>
      have hs := h.ledger.shrink (h.ledger.preload.forget k) fun _ he => he
      exact (hs.plain (isPlain_delivered c _)).congr rfl rfl

omit [DecidableEq κ] in
theorem Inv.finish (h : s.Inv) (hc : s.phases c = .returning out ∨ s.phases c = .handing out []) :
    (s.finish c out).Inv where
  tables  := (h.tables.complete hc).congr rfl rfl
  history := h.history.complete hc
  ledger  :=
    (h.ledger.complete (h.history.not_completed (by rcases hc with hc | hc <;> simp [hc]))).congr
      rfl rfl

omit [DecidableEq κ] in
theorem Inv.handOver {t : ι} {ts : List ι} (h : s.Inv) (hc : s.phases c = .handing out (t :: ts)) :
    ((s.finish t out.copy).setPhase c (.handing out ts)).Inv := by
  obtain ⟨k, ht⟩ := (h.tables.handing c out _ hc).right t List.mem_cons_self
  exact {
    tables  := (h.tables.handOver hc).congr rfl rfl
    history := h.history.handOver hc ht
    ledger  := (h.ledger.complete (h.history.not_completed (by simp [ht]))).congr rfl rfl
  }

theorem Inv.giveUp (h : s.Inv) (hc : s.phases c = .waiting k l) :
    (((s.leaveGroup k c).record (.gaveUp c)).finish c Outcome.abandoned).Inv := by
  obtain ⟨g, hg, -, -⟩ := h.tables.waiting c k l hc
  have hl := h.ledger.plain (isPlain_gaveUp c)
  exact {
    tables  := (h.tables.giveUp hc).congr rfl rfl
    history := h.history.giveUp hc hg
    ledger  := (hl.complete (h.history.not_completed (by simp [hc]))).congr rfl rfl
  }

theorem Inv.step (h : s.Inv) (hs : s.step e = some t) : t.Inv := by
  cases e <;> simp only [State.step] at hs
  case request c key b =>
    split at hs <;> cases hs
    case h_1 hc => exact h.request hc key b
  case submit c =>
    split at hs <;> cases hs
    case h_1 hc => exact ⟨h.tables.move hc, h.history.move hc, h.ledger.congr rfl rfl⟩
  case start c =>
    split at hs <;> cases hs
    case h_1 hc => exact ⟨h.tables.move hc, h.history.move hc, h.ledger.congr rfl rfl⟩
  case deliver c out =>
    split at hs <;> cases hs
    case h_1 hc => exact h.deliver hc out
  case handOver c =>
    split at hs <;> cases hs
    case h_1 hc => exact h.handOver hc
  case complete c =>
    split at hs <;> cases hs
    case h_1 hc => exact h.finish (.inl hc)
    case h_2 hc => exact h.finish (.inr hc)
  case giveUp c =>
    split at hs <;> cases hs
    case h_1 hc => exact h.giveUp hc
  case expect k =>
    cases hs
    exact ⟨h.tables.congr rfl rfl, h.history.congr rfl rfl rfl rfl,
      h.ledger.shrink (h.ledger.preload.expect k) fun e he => by rwa [Preload.expect_store] at he⟩
  case clear =>
    cases hs
    exact ⟨h.tables.congr rfl rfl, h.history.congr rfl rfl rfl rfl,
      h.ledger.shrink (.clear _) fun e he => by simp [Preload.clear] at he⟩
  case drain =>
    cases hs
    exact ⟨h.tables.drain, h.history.drain, h.ledger.congr rfl rfl⟩
  case abandon c =>
    split at hs <;> cases hs
    case h_1 hc => exact h.deliver hc _

end

section Progress

-- An event that takes one caller further and none back.
theorem sum_rank_lt (hc : c ∈ s.issued) (hi : t.issued = s.issued)
    (hle : ∀ c, (t.phases c).rank ≤ (s.phases c).rank) (hlt : (t.phases c).rank < (s.phases c).rank) :
    (t.issued.map (t.phases · |>.rank)).sum < (s.issued.map (s.phases · |>.rank)).sum := by
  rw [hi]
  exact List.sum_lt_sum _ _ (fun c _ => hle c) ⟨c, hc, hlt⟩

variable [DecidableEq κ] [DecidableEq ι]

omit [DecidableEq κ] in
theorem Inv.sum_rank_setPhase {phase : Phase κ ι} (h : s.Inv) (hi : t.issued = s.issued)
    (ht : t.phases = (s.setPhase c phase).phases) (hlt : phase.rank < (s.phases c).rank) :
    (t.issued.map (t.phases · |>.rank)).sum < (s.issued.map (s.phases · |>.rank)).sum := by
  have hc : c ∈ s.issued := by
    rw [h.history.issued]
    intro hf
    simp [hf, Phase.rank] at hlt
  refine sum_rank_lt hc hi (fun c' => ?_) (by simpa [ht, setPhase] using hlt)
  by_cases he : c' = c
  case pos => subst he; simpa [ht, setPhase] using hlt.le
  case neg => simp [ht, setPhase, he]

theorem Inv.progress_deliver (h : s.Inv) (hc : s.phases c = .lead p key) (hp : 3 ≤ (s.phases c).rank)
    (out : Outcome) :
    ((s.deliver c key out).issued.map ((s.deliver c key out).phases · |>.rank)).sum <
      (s.issued.map (s.phases · |>.rank)).sum := by
  cases key
  case none => exact h.sum_rank_setPhase (c := c) rfl rfl (Nat.lt_of_lt_of_le (by simp [Phase.rank]) hp)
  case some k =>
    obtain ⟨g, hg, hl⟩ := h.tables.group c p k hc
    have hsync := (h.tables.syncs k g hg).right
    refine sum_rank_lt (c := c) ((h.history.issued c).mpr (by simp [hc])) rfl ?_ ?_
    · intro c'
      simp only [State.deliver, hg, Option.getD_some, record, setPhase, setGroup, wake,
        Function.update_apply]
      split
      case isTrue he => subst he; exact Nat.le_trans (by simp [Phase.rank]) hp
      case isFalse =>
        split
        case isTrue hm => rw [hsync c' hm]; simp [Phase.rank]
        case isFalse   => exact Nat.le_refl _
    · simp only [State.deliver, record, setPhase, Function.update_self]
      exact Nat.lt_of_lt_of_le (by simp [Phase.rank]) hp

theorem Inv.progress (h : s.Inv) (he : e.isInternal) (hs : s.step e = some t) :
    (t.issued.map (t.phases · |>.rank)).sum < (s.issued.map (s.phases · |>.rank)).sum := by
  cases e <;> simp only [State.step] at hs <;> simp only [Event.isInternal, Bool.false_eq_true] at he
  case submit c =>
    split at hs <;> cases hs
    case h_1 hc => exact h.sum_rank_setPhase (c := c) rfl rfl (by simp [hc, Phase.rank])
  case start c =>
    split at hs <;> cases hs
    case h_1 hc => exact h.sum_rank_setPhase (c := c) rfl rfl (by simp [hc, Phase.rank])
  case deliver c out =>
    split at hs <;> cases hs
    case h_1 hc => exact h.progress_deliver hc (by simp [hc, Phase.rank]) out
  case handOver c =>
    split at hs <;> cases hs
    case h_1 out t ts hc =>
      obtain ⟨k, ht⟩ := (h.tables.handing c out _ hc).right t List.mem_cons_self
      have hne : t ≠ c := by rintro rfl; simp [hc] at ht
      refine sum_rank_lt (c := t) ((h.history.issued t).mpr (by simp [ht])) rfl ?_ ?_
      · intro c'
        simp only [State.finish, record, setPhase, Function.update_apply]
        split
        case isTrue he => subst he; simp [hc, Phase.rank]
        case isFalse => split <;> simp [Phase.rank]
      · simp [State.finish, record, setPhase, hne, ht, Phase.rank]
  case complete c =>
    split at hs <;> cases hs
    case h_1 hc => exact h.sum_rank_setPhase (c := c) rfl rfl (by simp [hc, Phase.rank])
    case h_2 hc => exact h.sum_rank_setPhase (c := c) rfl rfl (by simp [hc, Phase.rank])
  case giveUp c =>
    split at hs <;> cases hs
    case h_1 hc => exact h.sum_rank_setPhase (c := c) rfl rfl (by simp [hc, Phase.rank])
  case abandon c =>
    split at hs <;> cases hs
    case h_1 hc => exact h.progress_deliver hc (by simp [hc, Phase.rank]) _

-- Whether a caller can go on without any wait being cut short.
def CanGoOn (s : State κ ι) : Prop :=
  ∃ e, e.isInternal ∧ (∀ c, e ≠ .giveUp c) ∧ s.step e ≠ none

-- A caller that performs its fetch itself can always go on.
theorem canGoOn_of_lead (hc : s.phases c = .lead p key) : s.CanGoOn := by
  cases p
  case starting => exact ⟨.submit c, rfl, by simp, by simp [State.step, hc]⟩
  case queued   => exact ⟨.start c, rfl, by simp, by simp [State.step, hc]⟩
  case running  => exact ⟨.deliver c Outcome.abandoned, rfl, by simp, by simp [State.step, hc]⟩
  case dropped  => exact ⟨.abandon c, rfl, by simp, by simp [State.step, hc]⟩

theorem canGoOn_of_handing {ts : List ι} (hc : s.phases c = .handing out ts) : s.CanGoOn := by
  cases ts
  case nil  => exact ⟨.complete c, rfl, by simp, by simp [State.step, hc]⟩
  case cons => exact ⟨.handOver c, rfl, by simp, by simp [State.step, hc]⟩

theorem Inv.canGoOn_of_group (h : s.Inv) (hg : s.groups k = some g) : s.CanGoOn := by
  obtain ⟨p, hl⟩ := h.tables.leader k g hg
  exact canGoOn_of_lead hl

-- No caller is left behind: as long as one is not done, it or its leader can go on.
theorem Inv.canGoOn (h : s.Inv) (hc : c ∈ s.issued) (hd : s.phases c ≠ .done) : s.CanGoOn := by
  have hf := (h.history.issued c).mp hc
  cases hp : s.phases c
  case fresh         => exact absurd hp hf
  case done          => exact absurd hp hd
  case lead          => exact canGoOn_of_lead hp
  case handing       => exact canGoOn_of_handing hp
  case returning out => exact ⟨.complete c, rfl, by simp, by simp [State.step, hp]⟩
  case waiting k l =>
    obtain ⟨g, hg, -⟩ := h.tables.waiting c k l hp
    exact h.canGoOn_of_group hg
  case joined k l =>
    rcases h.tables.joined c k l hp with ⟨g, hg, -⟩ | ⟨out, ts, hl, -⟩
    · exact h.canGoOn_of_group hg
    · exact canGoOn_of_handing hl

end Progress

theorem Inv.serves [DecidableEq κ] [DecidableEq ι] (h : s.Inv) :
    s.Serves JoinerGetsCopyOrGivesUp where
  once := h.ledger.once
  finished hstuck c hc := by
    by_contra hn
    have hd : s.phases c ≠ .done := by
      rw [mem_completed, h.history.done] at hn
      exact hn
    obtain ⟨e, he, hg, hs⟩ := h.canGoOn hc hd
    exact hs (hstuck e he hg)
  progress e t he hs := h.progress he hs
  inFlight := h.ledger.inFlight
  result c l k b out hj hc := by
    have hd := (h.history.done c).mp ⟨out, hc⟩
    rcases h.history.joiner c l k b hj with hp | hp | ⟨o, hp, -⟩ | ⟨-, hr⟩
    · simp [hd] at hp
    · simp [hd] at hp
    · simp [hd] at hp
    · exact hr out hc
  group    := h.tables.leader
  handOut  := h.ledger.handOut
  bytes    := h.ledger.preload.bytes
  cap      := h.ledger.preload.cap

end State

open State

section

variable [DecidableEq κ] [DecidableEq ι] {es : List (Event κ ι)} {s : State κ ι}

-- In every interleaving of the events.
theorem serves_of_run (h : Lib.run State.step {} es = some s) : s.Serves JoinerGetsCopyOrGivesUp := by
  have hi : s.Inv := Lib.run_preserves (C := fun _ _ => True)
    (fun _ _ _ hi _ hs => hi.step hs) h (Lib.stepsMeet_of_forall fun _ _ _ => trivial) inv_default
  exact hi.serves

end

def sharedRun : List (Event Nat Nat) := [
  .request 0 (some 7) false, .request 1 (some 7) true, .request 2 (some 7) false, .submit 0, .start 0,
  .deliver 0 (.ok ⟨200, none, some ['x'], none⟩), .complete 1, .handOver 0, .complete 0
]

theorem serves_sharedRun : ∃ s, Lib.run State.step {} sharedRun = some s ∧
    s.Serves JoinerGetsCopyOrGivesUp := by
  have h : (Lib.run State.step {} sharedRun).isSome := by decide
  obtain ⟨s, hs⟩ := Option.isSome_iff_exists.mp h
  exact ⟨s, hs, serves_of_run hs⟩

def abandonedRun : List (Event Nat Nat) :=
  [.request 0 (some 7) false, .request 1 (some 7) true, .giveUp 1]

-- A blocking joiner that has waited for too long does not get what its leader gets.
theorem not_serves_abandonedRun : ∃ s, Lib.run State.step {} abandonedRun = some s ∧
    ¬s.Serves JoinerGetsCopy := by
  refine ⟨_, rfl, fun h => ?_⟩
  obtain ⟨own, ho, -⟩ := h.result 1 0 7 true Outcome.abandoned (by decide) (by decide)
  have hlog : Entry.delivered 0 own ∈
      [.completed 1 Outcome.abandoned, .gaveUp 1, .joined 1 0 7 true, .led 0 7] := ho
  simp at hlog

end Nordstjernen.Net.Coalesce
