import Mathlib.Data.List.Nodup
import Nordstjernen.Net.Throttle.Dispatch

namespace Nordstjernen.Net.Throttle

variable {ι η : Type} [DecidableEq η]

section Table

variable {table : η → Nat} {host : Option η} {h : η}

theorem hostAdjust_one : hostAdjust table host 1 h = table h + if host = some h then 1 else 0 := by
  cases host
  case none => simp [hostAdjust]
  case some g =>
    simp only [hostAdjust, Function.update_apply, Option.some.injEq]
    by_cases hg : h = g
    case pos => subst hg; simp
    case neg => simp [hg, Ne.symm hg]

theorem hostAdjust_neg_one :
    hostAdjust table host (-1) h = table h - if host = some h then 1 else 0 := by
  cases host
  case none => simp [hostAdjust]
  case some g =>
    simp only [hostAdjust, Function.update_apply, Option.some.injEq]
    by_cases hg : h = g
    case pos => subst hg; simp; omega
    case neg => simp [hg, Ne.symm hg]

end Table

namespace State

section OfHost

variable {host : ι → Option η} {h : Option η} {tasks : List ι} {task : ι}

theorem mem_ofHost : task ∈ ofHost host h tasks ↔ task ∈ tasks ∧ host task = h := by
  simp [ofHost]

theorem ofHost_append (tasks' : List ι) :
    ofHost host h (tasks ++ tasks') = ofHost host h tasks ++ ofHost host h tasks' := by
  simp [ofHost]

theorem ofHost_singleton : ofHost host h [task] = if host task = h then [task] else [] := by
  by_cases ht : host task = h <;> simp [ofHost, ht]

theorem length_ofHost_erase [DecidableEq ι] (hn : tasks.Nodup) (ht : task ∈ tasks) :
    (ofHost host h (tasks.erase task)).length =
      (ofHost host h tasks).length - if host task = h then 1 else 0 := by
  have he : ofHost host h (tasks.erase task) = (ofHost host h tasks).erase task := by
    rw [ofHost, ofHost, hn.erase_eq_filter, (hn.filter _).erase_eq_filter, List.filter_comm]
  rw [he, List.length_erase]
  by_cases hh : host task = h <;> simp [mem_ofHost, hh, ht]

end OfHost

variable [DecidableEq ι] {host : ι → Option η} {s t : State ι η} {task : ι} {e : Event ι}

-- What every reachable state has.
structure Inv (host : ι → Option η) (s : State ι η) : Prop where
  queue      : s.queue.Nodup ∧ ∀ task, task ∈ s.queue ↔ s.phases task = .queued
  chosen     : s.chosen.Nodup ∧
    ∀ task, task ∈ s.chosen ↔ s.phases task ≠ .fresh ∧ s.phases task ≠ .queued
  active     : s.active = s.running.length
  atMost     : s.active ≤ maxConcurrentFetches
  hostActive : ∀ h, s.hostActive h = (ofHost host (some h) s.running).length
  hostAtMost : ∀ h, s.hostActive h ≤ maxFetchesPerHost
  order      : ∀ h, ofHost host (some h) s.submitted =
    ofHost host (some h) s.chosen ++ ofHost host (some h) s.queue
  pending    : ∀ task ∈ s.queue, s.mayRun host task → s.active < maxConcurrentFetches →
    0 < s.dispatching ∨ ∃ task, s.phases task = .chosen

omit [DecidableEq ι] in
theorem inv_default : ({} : State ι η).Inv host where
  queue      := by simp
  chosen     := by simp
  active     := rfl
  atMost     := Nat.zero_le _
  hostActive := by simp [running, ofHost]
  hostAtMost := by simp
  order      := by simp [ofHost]
  pending    := by simp

omit [DecidableEq η] [DecidableEq ι] in
theorem running_congr {s' : State ι η} (hc : s'.chosen = s.chosen)
    (hp : ∀ task, s'.phases task = .finished ↔ s.phases task = .finished) :
    s'.running = s.running := by
  rw [running, running, hc]
  exact List.filter_congr fun task _ => by simp [hp]

theorem Inv.submit (hi : s.Inv host) (hf : s.phases task = .fresh) : (s.submit task).Inv host := by
  have hq : task ∉ s.queue := by simp [hi.queue.right, hf]
  have hc : task ∉ s.chosen := by simp [hi.chosen.right, hf]
  have hr : (s.submit task).running = s.running := by
    refine List.filter_congr fun other ho => ?_
    have hne : other ≠ task := by rintro rfl; exact hc ho
    simp [State.submit, hne]
  exact {
    queue := by
      refine ⟨by simpa [State.submit, List.nodup_append] using ⟨hi.queue.left, fun a ha he => hq (he ▸ ha)⟩, ?_⟩
      intro other
      by_cases ho : other = task <;> simp [State.submit, ho, hi.queue.right]
    chosen := by
      refine ⟨hi.chosen.left, fun other => ?_⟩
      by_cases ho : other = task
      case pos => subst ho; simp [State.submit, hc]
      case neg => simp [State.submit, ho, hi.chosen.right]
    active     := by rw [hr]; exact hi.active
    atMost     := hi.atMost
    hostActive := by rw [hr]; exact hi.hostActive
    hostAtMost := hi.hostAtMost
    order h    := by simp [State.submit, ofHost_append, hi.order h]
    pending _ _ _ _ := .inl (Nat.succ_pos _)
  }

-- Either no task may run, or the first one that may run is taken off the queue.
theorem dispatch_cases (host : ι → Option η) (s : State ι η) :
    (s.dispatch host = { s with dispatching := s.dispatching - 1 } ∧
      ∀ task ∈ s.queue, s.mayRun host task → maxConcurrentFetches ≤ s.active) ∨
    ∃ task before after, s.queue = before ++ task :: after ∧ s.mayRun host task ∧
      (∀ other ∈ before, ¬s.mayRun host other) ∧ s.active < maxConcurrentFetches ∧
      s.dispatch host = { s with dispatching := s.dispatching - 1 }.choose host task := by
  rw [dispatch]
  dsimp only
  split
  case isTrue h =>
    refine .inl ⟨rfl, fun task ht _ => h.resolve_right ?_⟩
    rintro hn
    simp [hn] at ht
  case isFalse h =>
    have ha : s.active < maxConcurrentFetches := by
      rw [not_or, Nat.not_le] at h
      exact h.left
    split
    case h_1 hn =>
      exact .inl ⟨rfl, fun task ht hm => absurd hm (List.find?_eq_none.mp hn task ht)⟩
    case h_2 task ht =>
      obtain ⟨hm, before, after, hq, hb⟩ := List.find?_eq_some_iff_append.mp ht
      refine .inr ⟨task, before, after, hq, hm, fun other ho => ?_, ha, rfl⟩
      have hf := hb other ho
      rw [Bool.not_eq_true'] at hf
      exact Bool.eq_false_iff.mp hf

theorem Inv.choose {before after : List ι} (hi : s.Inv host) (hq : s.queue = before ++ task :: after)
    (hm : s.mayRun host task) (hb : ∀ other ∈ before, ¬s.mayRun host other)
    (ha : s.active < maxConcurrentFetches) : (s.choose host task).Inv host := by
  have ht : task ∈ s.queue := by simp [hq]
  have hp := (hi.queue.right task).mp ht
  have hc : task ∉ s.chosen := by simp [hi.chosen.right, hp]
  have hnb : task ∉ before := fun h => hb task h hm
  have he : s.queue.erase task = before ++ after := by
    rw [hq, List.erase_append_right _ hnb, List.erase_cons_head]
  have hr : (s.choose host task).running = s.running ++ [task] := by
    have hs : s.chosen.filter (fun other => (s.choose host task).phases other ≠ .finished) =
        s.running := by
      refine List.filter_congr fun other ho => ?_
      have hne : other ≠ task := by rintro rfl; exact hc ho
      simp [State.choose, hne]
    rw [running, State.choose, List.filter_append]
    exact congrArg₂ (· ++ ·) hs (by simp)
  exact {
    queue := by
      refine ⟨hi.queue.left.erase task, fun other => ?_⟩
      simp only [State.choose, hi.queue.left.mem_erase_iff, Function.update_apply, hi.queue.right]
      by_cases ho : other = task <;> simp [ho]
    chosen := by
      refine ⟨?_, fun other => ?_⟩
      · simpa [State.choose, List.nodup_append] using ⟨hi.chosen.left, fun a ha he => hc (he ▸ ha)⟩
      · by_cases ho : other = task <;> simp [State.choose, ho, hi.chosen.right]
    active     := by rw [hr, List.length_append, ← hi.active]; rfl
    atMost     := ha
    hostActive h := by
      rw [hr, ofHost_append, List.length_append, ← hi.hostActive h, ofHost_singleton]
      simp only [State.choose, hostAdjust_one]
      split <;> rfl
    hostAtMost h := by
      simp only [State.choose, hostAdjust_one]
      split
      case isTrue hh =>
        have hm : s.hostActive h < maxFetchesPerHost := by simpa [mayRun, hh] using hm
        exact hm
      case isFalse   => exact hi.hostAtMost h
    -- The tasks in front of the chosen one are of other hosts, since its own host has a free slot.
    order h := by
      have ho : ofHost host (some h) (s.choose host task).queue =
          ofHost host (some h) before ++ ofHost host (some h) after := by
        rw [State.choose, he, ofHost_append]
      have hcons : ofHost host (some h) (task :: after) =
          ofHost host (some h) [task] ++ ofHost host (some h) after :=
        @ofHost_append ι η _ host (some h) [task] after
      have hs : (s.choose host task).submitted = s.submitted := rfl
      have hcs : (s.choose host task).chosen = s.chosen ++ [task] := rfl
      rw [ho, hs, hcs, hi.order h, hq, ofHost_append, ofHost_append, hcons, ofHost_singleton]
      split
      case isTrue hh =>
        have hn : ofHost host (some h) before = [] := by
          rw [List.eq_nil_iff_forall_not_mem]
          intro other ho
          obtain ⟨ho, hho⟩ := mem_ofHost.mp ho
          exact hb other ho (by simpa [mayRun, hho, hh] using hm)
        simp [hn]
      case isFalse => simp
    pending _ _ _ _ := .inr ⟨task, by simp [State.choose]⟩
  }

theorem Inv.dispatch (hi : s.Inv host) : (s.dispatch host).Inv host := by
  cases dispatch_cases host s
  case inl h =>
    obtain ⟨hd, hn⟩ := h
    rw [hd]
    exact { hi with pending := fun task ht hm ha => absurd (hn task ht hm) (Nat.not_le.mpr ha) }
  case inr h =>
    obtain ⟨task, before, after, hq, hm, hb, ha, hd⟩ := h
    rw [hd]
    -- The count of dispatches plays no role for the choice.
    have hc := hi.choose hq hm hb ha
    exact { hc with pending := fun _ _ _ _ => .inr ⟨task, by simp [State.choose]⟩ }

theorem Inv.start (hi : s.Inv host) (hc : s.phases task = .chosen) : (s.start task).Inv host := by
  have hr : (s.start task).running = s.running := by
    refine running_congr rfl fun other => ?_
    by_cases ho : other = task <;> simp [State.start, ho, hc]
  exact {
    queue := by
      refine ⟨hi.queue.left, fun other => ?_⟩
      by_cases ho : other = task <;> simp [State.start, ho, hi.queue.right, hc]
    chosen := by
      refine ⟨hi.chosen.left, fun other => ?_⟩
      by_cases ho : other = task <;> simp [State.start, ho, hi.chosen.right, hc]
    active     := by rw [hr]; exact hi.active
    atMost     := hi.atMost
    hostActive := by rw [hr]; exact hi.hostActive
    hostAtMost := hi.hostAtMost
    order      := hi.order
    pending _ _ _ _ := .inl (Nat.succ_pos _)
  }

theorem Inv.finish (hi : s.Inv host) (hp : s.phases task = .started) :
    (s.finish host task).Inv host := by
  have hc : task ∈ s.chosen := by simp [hi.chosen.right, hp]
  have hrun : task ∈ s.running := by simp [running, hc, hp]
  have hn : s.running.Nodup := hi.chosen.left.filter _
  have hr : (s.finish host task).running = s.running.erase task := by
    rw [hn.erase_eq_filter, running, running, List.filter_filter]
    refine List.filter_congr fun other _ => ?_
    by_cases ho : other = task <;> simp [State.finish, ho]
  exact {
    queue := by
      refine ⟨hi.queue.left, fun other => ?_⟩
      by_cases ho : other = task <;> simp [State.finish, ho, hi.queue.right, hp]
    chosen := by
      refine ⟨hi.chosen.left, fun other => ?_⟩
      by_cases ho : other = task <;> simp [State.finish, ho, hi.chosen.right, hp]
    active     := by rw [hr, List.length_erase_of_mem hrun, ← hi.active]; rfl
    atMost     := Nat.le_trans (Nat.sub_le _ _) hi.atMost
    hostActive h := by
      rw [hr, length_ofHost_erase hn hrun, ← hi.hostActive h]
      exact hostAdjust_neg_one
    hostAtMost h := by
      simp only [State.finish, hostAdjust_neg_one]
      exact Nat.le_trans (Nat.sub_le _ _) (hi.hostAtMost h)
    order      := hi.order
    pending _ _ _ _ := .inl (Nat.succ_pos _)
  }

theorem Inv.step (hi : s.Inv host) (hs : s.step host e = some t) : t.Inv host := by
  cases e <;> simp only [State.step, Option.ite_none_right_eq_some, Option.some.injEq] at hs <;>
    obtain ⟨hp, rfl⟩ := hs
  case submit task => exact hi.submit hp
  case dispatch    => exact hi.dispatch
  case start task  => exact hi.start hp
  case finish task => exact hi.finish hp

omit [DecidableEq ι] in
theorem Inv.throttled (hi : s.Inv host) : s.Throttled host s.chosen where
  active     := hi.active
  atMost     := hi.atMost
  hostActive := hi.hostActive
  hostAtMost := hi.hostAtMost
  inOrder h  := hi.order h ▸ List.prefix_append _ _
  noneLeft hq task ht hm := by
    by_contra ha
    cases hi.pending task ht hm (Nat.not_le.mp ha)
    case inl hd => exact absurd hd (by simp [hq.left])
    case inr hd => exact hd.elim hq.right

end State

variable [DecidableEq ι] {host : ι → Option η} {s : State ι η} {events : List (Event ι)}

-- In every interleaving, where a task counts as running as soon as it is off the queue.
theorem throttled_of_run (h : Lib.run (State.step host) {} events = some s) :
    s.Throttled host s.chosen := by
  have hi : s.Inv host := Lib.run_preserves (C := fun _ _ => True)
    (fun _ _ _ hi _ hs => hi.step hs) h (Lib.stepsMeet_of_forall fun _ _ _ => trivial)
    State.inv_default
  exact hi.throttled

def overtaking : List (Event Nat) :=
  [.submit 0, .submit 1, .dispatch, .dispatch, .start 1, .start 0]

theorem throttled_overtaking : ∃ s, Lib.run (State.step (η := Nat) fun _ => some 7) {} overtaking = some s ∧
    s.Throttled (fun _ => some 7) s.chosen := by
  have h : (Lib.run (State.step (η := Nat) fun _ => some 7) {} overtaking).isSome := rfl
  obtain ⟨s, hs⟩ := Option.isSome_iff_exists.mp h
  exact ⟨s, hs, throttled_of_run hs⟩

-- Between the unlock and the start of a task, another dispatch can start a later task of the host.
theorem not_throttled_overtaking :
    ∃ s, Lib.run (State.step (η := Nat) fun _ => some 7) {} overtaking = some s ∧
      ¬s.Throttled (fun _ => some 7) s.started := by
  refine ⟨_, rfl, fun h => ?_⟩
  exact absurd (h.inOrder 7) (by decide)

end Nordstjernen.Net.Throttle
