import Mathlib.Logic.Function.Basic
import Nordstjernen.Lib.Run

namespace Nordstjernen.Lib.SharedCell

-- Writers that share one cell. Each of them reads the whole cell once and later replaces it by an
-- update of what it has read, and the steps of different writers may interleave in any way.

variable {ι σ : Type*} [DecidableEq ι]

inductive Phase (σ : Type*)
  | idle
  | holding (snapshot : σ)
  | done

structure State (ι σ : Type*) where
  cell  : σ
  phase : ι → Phase σ

inductive Event (ι : Type*)
  | read (i : ι)
  | replace (i : ι)

def start (cell : σ) : State ι σ where
  cell    := cell
  phase _ := .idle

def step (update : ι → σ → σ) (s : State ι σ) : Event ι → Option (State ι σ)
  | .read i =>
    match s.phase i with
    | .idle => some { s with phase := Function.update s.phase i (.holding s.cell) }
    | _     => none
  | .replace i =>
    match s.phase i with
    | .holding snapshot => some ⟨update i snapshot, Function.update s.phase i .done⟩
    | _                 => none

-- A step is fresh unless it replaces the cell after another writer has changed it.
def Fresh (s : State ι σ) : Event ι → Prop
  | .read _    => True
  | .replace i => s.phase i = .holding s.cell

def FreshRun (update : ι → σ → σ) : State ι σ → List (Event ι) → Prop :=
  StepsMeet Fresh (step update)

-- The writers that replaced the cell, in the order in which they did so.
def replacers : List (Event ι) → List ι
  | []               => []
  | .read _ :: es    => replacers es
  | .replace i :: es => i :: replacers es

variable {update : ι → σ → σ} {s t : State ι σ} {e : Event ι} {es : List (Event ι)} {i : ι}

theorem step_read (h : step update s (.read i) = some t) :
    s.phase i = .idle ∧ t = ⟨s.cell, Function.update s.phase i (.holding s.cell)⟩ := by
  rw [step] at h
  split at h
  case h_1 hi => exact ⟨hi, by simpa using h.symm⟩
  case h_2    => cases h

theorem step_replace (h : step update s (.replace i) = some t) :
    ∃ snapshot, s.phase i = .holding snapshot ∧
      t = ⟨update i snapshot, Function.update s.phase i .done⟩ := by
  rw [step] at h
  split at h
  case h_1 snapshot hi => exact ⟨snapshot, hi, by simpa using h.symm⟩
  case h_2             => cases h

-- As long as every step is fresh, the writers might as well have taken turns.
theorem run_fresh (h : run (step update) s es = some t) (hf : FreshRun update s es) :
    t.cell = (replacers es).foldl (fun c i => update i c) s.cell := by
  induction es generalizing s
  case nil => cases h; rfl
  case cons e es hi =>
    obtain ⟨s', hs, hr⟩ := run_cons.mp h
    have ht := hi hr (hf.right s' hs)
    cases e
    case read j =>
      have ⟨_, he⟩ := step_read hs
      rw [ht, he, replacers]
    case replace j =>
      have ⟨snapshot, hj, he⟩ := step_replace hs
      have hc : snapshot = s.cell := by simpa [Fresh, hj] using hf.left
      rw [ht, he, hc, replacers, List.foldl_cons]

-- A writer that is done has replaced the cell.
theorem mem_replacers (h : run (step update) s es = some t) (hs : s.phase i ≠ .done)
    (ht : t.phase i = .done) : i ∈ replacers es := by
  induction es generalizing s
  case nil => cases h; exact absurd ht hs
  case cons e es hi =>
    obtain ⟨s', hs', hr⟩ := run_cons.mp h
    cases e
    case read j =>
      obtain ⟨_, rfl⟩ := step_read hs'
      refine hi hr ?_
      by_cases hij : i = j
      case pos => simp [hij]
      case neg => simpa [hij] using hs
    case replace j =>
      obtain ⟨_, _, rfl⟩ := step_replace hs'
      by_cases hij : i = j
      case pos => simp [replacers, hij]
      case neg => exact List.mem_cons_of_mem _ (hi hr (by simpa [hij] using hs))

end Nordstjernen.Lib.SharedCell
