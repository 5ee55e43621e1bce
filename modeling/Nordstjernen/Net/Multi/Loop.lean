import Mathlib.Data.Fintype.Basic
import Mathlib.Logic.Function.Basic
import Mathlib.Data.List.Nodup
import Nordstjernen.Lib.Run

namespace Nordstjernen.Net.Multi

-- Where a call of `ns_net_multi_perform` is.
inductive Phase
  | fresh
  -- `ns_net_multi_start` has returned.
  | started
  -- The unlocked test has seen that `g_multi` is there.
  | found
  -- In one of the two queues, or done and about to see it.
  | waiting
  -- In `curl_easy_perform`, without the loop.
  | alone
  | returned
deriving DecidableEq

-- How far `ns_net_shutdown` has come, up to its last use of the share.
inductive Shutdown
  | idle
  | joining (thread : Nat)
  | joined
  | threadCleared
  | multiCleaned
  | tableDestroyed
  | returned
  | tornDown
deriving DecidableEq

structure State (ι : Type) where
  -- Whether `g_multi` is not `NULL`, and the handle in `g_multi_thread`.
  multi    : Bool := false
  thread   : Option Nat := none
  quit     : Bool := false
  incoming : List ι := []
  -- The keys of `g_multi_active`, which is like an empty table where it is `NULL`.
  active   : List ι := []
  -- The loop threads that have not left `ns_net_multi_loop`, and the number of those so far.
  live     : List Nat := []
  created  : Nat := 0
  phases   : ι → Phase := fun _ => .fresh
  shutdown : Shutdown := .idle
  -- The transfers whose `done` was set, once for each call of `ns_net_multi_finish_locked`.
  marked   : List ι := []

-- Locked sections, and unlocked reads and writes, of any thread.
inductive Event (ι : Type)
  -- `ns_net_multi_start`, with the outcome of `curl_multi_init`.
  | start (x : ι) (initOk : Bool)
  | look (x : ι)
  -- The locked section of `ns_net_multi_perform`, up to its wait.
  | push (x : ι)
  | wake (x : ι)
  -- The locked section at the top of an iteration, with the transfers that `curl_multi_add_handle` takes.
  | top (thread : Nat) (taken : ι → Bool)
  -- The locked section behind a message that a transfer is done.
  | message (thread : Nat) (x : ι)
  | requestQuit
  | join
  | clearThread
  | cleanMulti
  | destroyTable
  | clearQuit
  -- `ns_net_backend_shutdown` and what follows it in `ns_net_shutdown`.
  | tearDown

namespace State

variable {ι : Type} [DecidableEq ι] (s : State ι)

def setPhase (x : ι) (phase : Phase) : State ι :=
  { s with phases := Function.update s.phases x phase }

-- `ns_net_multi_start`
def start (initOk : Bool) : State ι :=
  if s.thread = none then
    if initOk then
      { s with
        multi   := true
        active  := []
        thread  := some s.created
        live    := s.live ++ [s.created]
        created := s.created + 1 }
    else
      { s with multi := false }
  else
    s

-- A loop that quits finishes everything that it finds and leaves.
def top (thread : Nat) (taken : ι → Bool) : State ι :=
  if s.quit then
    { s with
      marked   := s.marked ++ s.active ++ s.incoming
      active   := []
      incoming := []
      live     := s.live.erase thread }
  else
    { s with
      marked   := s.marked ++ s.incoming.filter (!taken ·)
      active   := s.active ++ s.incoming.filter taken
      incoming := [] }

def message (x : ι) : State ι :=
  if x ∈ s.active then { s with active := s.active.erase x, marked := s.marked ++ [x] } else s

def push (x : ι) : State ι :=
  if s.quit then s.setPhase x .alone
  else { s with incoming := s.incoming ++ [x] }.setPhase x .waiting

-- Without a thread there is nothing to join.
def requestQuit : State ι :=
  match s.thread with
  | some t => { s with quit := true, shutdown := .joining t }
  | none   => { s with shutdown := .threadCleared }

-- An event that does not fit is refused.
def step (s : State ι) : Event ι → Option (State ι)
  | .start x initOk =>
    if s.phases x = .fresh then some ((s.start initOk).setPhase x .started) else none
  | .look x =>
    if s.phases x = .started then some (s.setPhase x (if s.multi then .found else .alone)) else none
  | .push x      => if s.phases x = .found then some (s.push x) else none
  | .wake x      =>
    if s.phases x = .waiting ∧ x ∈ s.marked then some (s.setPhase x .returned) else none
  | .top t taken => if t ∈ s.live then some (s.top t taken) else none
  | .message t x => if t ∈ s.live then some (s.message x) else none
  | .requestQuit => if s.shutdown = .idle then some s.requestQuit else none
  | .join        =>
    match s.shutdown with
    | .joining t => if t ∈ s.live then none else some { s with shutdown := .joined }
    | _          => none
  | .clearThread =>
    if s.shutdown = .joined then some { s with thread := none, shutdown := .threadCleared } else none
  | .cleanMulti =>
    if s.shutdown = .threadCleared then some { s with multi := false, shutdown := .multiCleaned }
    else none
  | .destroyTable =>
    if s.shutdown = .multiCleaned then some { s with active := [], shutdown := .tableDestroyed }
    else none
  | .clearQuit =>
    if s.shutdown = .tableDestroyed then some { s with quit := false, shutdown := .returned } else none
  | .tearDown =>
    if s.shutdown = .returned then some { s with shutdown := .tornDown } else none

-- What callers and the shutdown can rely on.
structure Sound : Prop where
  served  : s.incoming ++ s.active ≠ [] → s.live ≠ []
  once    : s.marked.Nodup
  pending : ∀ x, s.phases x = .waiting → x ∈ s.incoming ++ s.active ++ s.marked
  done    : ∀ x, s.phases x = .returned → x ∈ s.marked
  stopped : s.shutdown = .tornDown → s.live = []

-- The steps that keep the shutdown apart from the transfers: no loop is created once it has begun, and
-- the flag is not taken back while a call is on its way to the queue.
def Apart (s : State ι) : Event ι → Prop
  | .start _ _ => s.thread = none → s.shutdown = .idle
  | .clearQuit => ∀ x, s.phases x ≠ .started ∧ s.phases x ≠ .found
  | _          => True

instance [Fintype ι] (s : State ι) : (e : Event ι) → Decidable (Apart s e)
  | .start _ _ => inferInstanceAs (Decidable (s.thread = none → s.shutdown = .idle))
  | .clearQuit =>
    inferInstanceAs (Decidable (∀ x, s.phases x ≠ .started ∧ s.phases x ≠ .found))
  | .look _ | .push _ | .wake _ | .top _ _ | .message _ _ | .requestQuit | .join | .clearThread
  | .cleanMulti | .destroyTable | .tearDown => .isTrue trivial

end State

def Shutdown.rank : Shutdown → Nat
  | idle           => 0
  | joining _      => 1
  | joined         => 2
  | threadCleared  => 3
  | multiCleaned   => 4
  | tableDestroyed => 5
  | returned       => 6
  | tornDown       => 7

namespace State

variable {ι : Type} {s t : State ι} {x : ι} {e : Event ι}

-- The transfers that are queued or done are those whose callers wait or have waited.
structure Queued (s : State ι) : Prop where
  nodup    : (s.incoming ++ s.active ++ s.marked).Nodup
  mem      : ∀ x, x ∈ s.incoming ++ s.active ++ s.marked ↔
    s.phases x = .waiting ∨ s.phases x = .returned
  returned : ∀ x, s.phases x = .returned → x ∈ s.marked

-- Which loop there is at each point of the shutdown, and who may still reach its queue.
structure Staged (s : State ι) : Prop where
  idle    : s.shutdown.rank = 0 → s.quit = false ∧
    ((s.thread = none ∧ s.live = [] ∧ s.multi = false ∧ s.incoming = [] ∧ s.active = [] ∧
      ∀ x, s.phases x ≠ .found) ∨
    ∃ t, s.thread = some t ∧ s.live = [t])
  joining : ∀ t, s.shutdown = .joining t → s.thread = some t ∧ s.quit ∧
    (s.live = [t] ∨ s.live = [] ∧ s.incoming = [] ∧ s.active = [])
  joined  : s.shutdown.rank = 2 → s.thread ≠ none
  cleared : 3 ≤ s.shutdown.rank → s.thread = none
  stopped : 2 ≤ s.shutdown.rank → s.live = [] ∧ s.incoming = [] ∧ s.active = []
  guarded : 2 ≤ s.shutdown.rank → s.shutdown.rank ≤ 5 →
    s.quit ∨ (s.multi = false ∧ ∀ x, s.phases x ≠ .found)
  calm    : 6 ≤ s.shutdown.rank → ∀ x, s.phases x ≠ .started ∧ s.phases x ≠ .found

structure Inv (s : State ι) : Prop where
  queued : s.Queued
  staged : s.Staged

theorem inv_default : ({} : State ι).Inv where
  queued := by constructor <;> simp
  staged := by constructor <;> simp [Shutdown.rank]

section

variable [DecidableEq ι]

theorem Inv.start {initOk : Bool} (h : s.Inv) (hx : s.phases x = .fresh)
    (ha : s.thread = none → s.shutdown = .idle) : ((s.start initOk).setPhase x .started).Inv := by
  obtain ⟨⟨h₁, h₂, h₃⟩, ⟨h₄, h₅, h₆, h₇, h₈, h₉, h₁₀⟩⟩ := h
  rw [State.start]
  split
  case isFalse ht =>
    constructor <;> constructor <;> simp only [setPhase, Function.update_apply] <;>
      grind [Shutdown.rank]
  case isTrue ht =>
    have hs := ha ht
    have hi := h₄ (by rw [hs]; rfl)
    split <;> constructor <;> constructor <;> simp only [setPhase, Function.update_apply] <;>
      grind [Shutdown.rank]

theorem Inv.look (h : s.Inv) (hx : s.phases x = .started) :
    (s.setPhase x (if s.multi then .found else .alone)).Inv := by
  obtain ⟨⟨h₁, h₂, h₃⟩, ⟨h₄, h₅, h₆, h₇, h₈, h₉, h₁₀⟩⟩ := h
  constructor <;> constructor <;> simp only [setPhase, Function.update_apply] <;>
      grind

theorem Inv.push (h : s.Inv) (hx : s.phases x = .found) : (s.push x).Inv := by
  obtain ⟨⟨h₁, h₂, h₃⟩, ⟨h₄, h₅, h₆, h₇, h₈, h₉, h₁₀⟩⟩ := h
  rw [State.push]
  split <;> constructor <;> constructor <;> simp only [setPhase, Function.update_apply] <;>
      grind

theorem Inv.wake (h : s.Inv) (hx : s.phases x = .waiting) (hm : x ∈ s.marked) :
    (s.setPhase x .returned).Inv := by
  obtain ⟨⟨h₁, h₂, h₃⟩, ⟨h₄, h₅, h₆, h₇, h₈, h₉, h₁₀⟩⟩ := h
  constructor <;> constructor <;> simp only [setPhase, Function.update_apply] <;>
      grind

theorem Inv.top {i : Nat} {taken : ι → Bool} (h : s.Inv) (hi : i ∈ s.live) : (s.top i taken).Inv := by
  obtain ⟨⟨h₁, h₂, h₃⟩, ⟨h₄, h₅, h₆, h₇, h₈, h₉, h₁₀⟩⟩ := h
  rw [State.top]
  split <;> constructor <;> constructor <;> dsimp only <;>
      grind

theorem Inv.message (h : s.Inv) : (s.message x).Inv := by
  rw [State.message]
  split
  case isFalse => exact h
  case isTrue hx =>
    obtain ⟨⟨h₁, h₂, h₃⟩, ⟨h₄, h₅, h₆, h₇, h₈, h₉, h₁₀⟩⟩ := h
    constructor <;> constructor <;> dsimp only <;> grind

omit [DecidableEq ι] in
theorem Inv.requestQuit (h : s.Inv) (hs : s.shutdown = .idle) : s.requestQuit.Inv := by
  obtain ⟨hq, ⟨h₄, h₅, h₆, h₇, h₈, h₉, h₁₀⟩⟩ := h
  have hi := h₄ (by rw [hs]; rfl)
  rw [State.requestQuit]
  split
  case h_1 t ht => exact ⟨{ hq with }, by constructor <;> grind [Shutdown.rank]⟩
  case h_2 ht   => exact ⟨{ hq with }, by constructor <;> grind [Shutdown.rank]⟩

-- The shutdown goes on once the loop has left, when nothing is queued any more.
theorem Inv.step (h : s.Inv) (ha : s.Apart e) (hs : s.step e = some t) : t.Inv := by
  cases e <;> simp only [State.step] at hs
  case start x initOk => split at hs <;> cases hs; exact h.start ‹_› ha
  case look x         => split at hs <;> cases hs; exact h.look ‹_›
  case push x         => split at hs <;> cases hs; exact h.push ‹_›
  case wake x =>
    split at hs <;> cases hs
    case isTrue hx => exact h.wake hx.left hx.right
  case top i taken   => split at hs <;> cases hs; exact h.top ‹_›
  case message i x   => split at hs <;> cases hs; exact h.message
  case requestQuit   => split at hs <;> cases hs; exact h.requestQuit ‹_›
  all_goals obtain ⟨hq, ⟨h₄, h₅, h₆, h₇, h₈, h₉, h₁₀⟩⟩ := h
  case join =>
    split at hs <;> [split at hs; skip] <;> cases hs
    case h_1.isFalse t hd hl =>
      exact ⟨{ hq with }, by constructor <;> grind [Shutdown.rank]⟩
  case clearThread =>
    split at hs <;> cases hs
    case isTrue hd => exact ⟨{ hq with }, by constructor <;> grind [Shutdown.rank]⟩
  case cleanMulti =>
    split at hs <;> cases hs
    case isTrue hd => exact ⟨{ hq with }, by constructor <;> grind [Shutdown.rank]⟩
  case destroyTable =>
    split at hs <;> cases hs
    case isTrue hd =>
      have he : s.active = [] := (h₈ (by rw [hd]; decide)).right.right
      have hq : ({ s with active := [], shutdown := .tableDestroyed } : State ι).Queued := {
        nodup    := by simpa only [he] using hq.nodup
        mem      := by simpa only [he] using hq.mem
        returned := hq.returned
      }
      exact ⟨hq, by constructor <;> grind [Shutdown.rank]⟩
  case clearQuit =>
    split at hs <;> cases hs
    case isTrue hd =>
      have hc : ∀ x, s.phases x ≠ .started ∧ s.phases x ≠ .found := ha
      exact ⟨{ hq with }, by constructor <;> grind [Shutdown.rank]⟩
  case tearDown =>
    split at hs <;> cases hs
    case isTrue hd => exact ⟨{ hq with }, by constructor <;> grind [Shutdown.rank]⟩

end

theorem Inv.served (h : s.Inv) (hq : s.incoming ++ s.active ≠ []) : s.live ≠ [] := by
  have hempty : ¬(s.incoming = [] ∧ s.active = []) := fun hn => hq (by rw [hn.left, hn.right]; rfl)
  cases hs : s.shutdown
  case idle =>
    rcases (h.staged.idle (by rw [hs]; rfl)).right with hn | ⟨t, -, hl⟩
    · exact absurd ⟨hn.right.right.right.left, hn.right.right.right.right.left⟩ hempty
    · simp [hl]
  case joining t =>
    rcases (h.staged.joining t hs).right.right with hl | hn
    · simp [hl]
    · exact absurd hn.right hempty
  all_goals exact absurd (h.staged.stopped (by rw [hs]; decide)).right hempty

theorem Inv.sound (h : s.Inv) : s.Sound where
  served      := h.served
  once        := h.queued.nodup.of_append_right
  pending x w := (h.queued.mem x).mpr (.inl w)
  done        := h.queued.returned
  stopped hs  := (h.staged.stopped (by rw [hs]; decide)).left

end State

variable {ι : Type} [DecidableEq ι] {s : State ι} {events : List (Event ι)}

-- In every run whose shutdown stays apart from the transfers.
theorem sound_of_run (h : Lib.run State.step {} events = some s)
    (ha : Lib.StepsMeet State.Apart State.step {} events) : s.Sound := by
  have hi : s.Inv := Lib.run_preserves (fun _ _ _ hi ha hs => hi.step ha hs) h ha State.inv_default
  exact hi.sound

-- One transfer, and then the shutdown.
def orderlyRun : List (Event Unit) := [
  .start () true, .look (), .push (), .top 0 fun _ => true, .message 0 (), .wake (), .requestQuit,
  .top 0 fun _ => true, .join, .clearThread, .cleanMulti, .destroyTable, .clearQuit, .tearDown
]

theorem sound_orderlyRun : ∃ s, Lib.run State.step {} orderlyRun = some s ∧ s.Sound :=
  have h : Lib.run State.step {} orderlyRun = some _ := rfl
  ⟨_, h, sound_of_run h (by decide)⟩

-- The shutdown runs between the tests of a call and its locked section.
def overlappingRun : List (Event Nat) := [
  .start 0 true, .look 0, .requestQuit, .top 0 fun _ => true, .join, .clearThread, .cleanMulti,
  .destroyTable, .clearQuit, .push 0
]

-- The transfer stays in the queue, and there is no loop.
theorem not_sound_overlappingRun :
    ∃ s, Lib.run State.step {} overlappingRun = some s ∧ ¬s.Sound := by
  refine ⟨_, rfl, fun h => ?_⟩
  exact absurd (h.served (by decide)) (by decide)

end Nordstjernen.Net.Multi
