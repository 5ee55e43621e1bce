import Nordstjernen.Net.Http2.Theorems.Io
import Nordstjernen.Net.Http2.Theorems.Known

namespace Nordstjernen.Net.Http2

namespace State

variable {ρ κ ο : Type} {s t : State ρ κ ο} {k : κ} {r : ρ}

section

variable [DecidableEq ρ] [DecidableEq κ] [DecidableEq ο]

omit [DecidableEq ρ] [DecidableEq κ] in
theorem Inv.modifyEntry {o : ο} {f : Entry κ → Entry κ} (h : s.Inv) : (s.modifyEntry o f).Inv :=
  { h with }

omit [DecidableEq ρ] [DecidableEq κ] in
theorem Inv.openEntry {o : ο} (h : s.Inv) : (s.openEntry o).Inv :=
  { h with }

omit [DecidableEq κ] in
theorem Inv.enter (h : s.Inv) (hq : (s.requests r).phase.queuedOn = none)
    (hb : (s.requests r).phase.beforePush) : (s.enter r).Inv :=
  h.openEntry.setPhase hq.symm fun _ => hb

theorem Inv.sweep {now : Int} {kept : Nat} {todo : List (ο × List κ)} (h : s.Inv)
    (hr : (s.requests r).phase = .sweeping todo kept) : (s.sweep r now kept todo).Inv := by
  have hq : (s.requests r).phase.queuedOn = none := by rw [hr]; rfl
  have hb : (s.requests r).phase.beforePush := by rw [hr]; rfl
  match todo with
  | []                      => exact h.enter hq hb
  | (_, []) :: todo         => exact h.setPhase hq.symm fun _ => hb
  | (o, k :: conns) :: todo =>
    have h' : (s.modifyConn k (·.retire (decide (poolMaxPerOrigin ≤ kept)) now)).Inv :=
      h.modifyConn ((h.conns k).stopping _) rfl rfl (List.Subset.refl _)
    simp only [State.sweep]
    split
    · exact h'.modifyEntry.setPhase hq.symm fun _ => hb
    · exact h'.setPhase hq.symm fun _ => hb

omit [DecidableEq ο] in
-- A request that goes to the queue of a connection whose I/O thread is still there.
theorem Inv.push {conn : Conn ρ} {c : Request κ ο} (h : s.Inv) (hb : (s.requests r).phase.beforePush)
    (hq : (s.requests r).phase.queuedOn = none) (hc : conn.Ok)
    (hp : conn.pending = (s.conns k).pending ++ [r]) (hs : conn.session = (s.conns k).session)
    (hphase : c.phase.queuedOn = some k) (hsubmitted : c.submitted = (s.requests r).submitted)
    (hdone : c.done = (s.requests r).done) (hrefused : c.refused = (s.requests r).refused)
    (hsends : c.sends = (s.requests r).sends) : (s.update k conn r c).Inv := by
  apply h.update hc
  case hr => exact (h.requests r).push hb hq (by simp [hp]) hs hphase hsubmitted hdone hrefused hsends
  case hf => exact hs ▸ List.Subset.refl _
  all_goals grind

omit [DecidableEq ρ] [DecidableEq κ] [DecidableEq ο] in
theorem Inv.pending_of_queuedOn (h : s.Inv) (hq : (s.requests r).phase.queuedOn = none) :
    r ∉ (s.conns k).pending := by
  intro hp
  simpa [hq] using ((h.requests r).pending k hp).left

theorem Inv.find {now : Int} {conns : List κ} (h : s.Inv) (hr : (s.requests r).phase = .finding conns) :
    (s.find r now conns).Inv := by
  have hq : (s.requests r).phase.queuedOn = none := by rw [hr]; rfl
  have hb : (s.requests r).phase.beforePush := by rw [hr]; rfl
  have hl : ({ s with poolLock := none } : State ρ κ ο).Inv := { h with }
  cases conns
  case nil =>
    simp only [State.find]
    split
    · exact hl.setPhase hq.symm fun _ => hb
    · exact hl.modifyEntry.setPhase hq.symm fun _ => hb
  case cons k conns =>
    have hw : (s.modifyConn k (·.wear)).Inv :=
      h.modifyConn ((h.conns k).stopping _) rfl rfl (List.Subset.refl _)
    simp only [State.find]
    split
    case isTrue => exact hw.modifyEntry.setPhase hq.symm fun _ => hb
    split
    case isTrue => exact hw.setPhase hq.symm fun _ => hb
    case isFalse hd _ =>
      have hd' : (s.conns k).wear.dead = false := by
        simpa [State.modifyConn] using hd
      have he : ({ s.modifyConn k (·.wear) with poolLock := none }.modifyConn k
          (·.reuse r now) |>.modifyRequest r
            ({ · with phase := .waiting k, reused := true, conn := some k })) =
          ({ s with poolLock := none } : State ρ κ ο).update k ((s.conns k).wear.reuse r now) r
            { s.requests r with phase := .waiting k, reused := true, conn := some k } := by
        simp [State.modifyConn, State.modifyRequest, State.update]
      rw [he]
      refine hl.push hb hq ?_ rfl rfl rfl rfl rfl rfl rfl
      exact ((h.conns k).stopping _).reuse (h.pending_of_queuedOn hq) hd'

omit [DecidableEq ο] in
theorem Inv.firstPush (h : s.Inv) (hr : (s.requests r).phase = .opened k)
    (hio : (s.conns k).io ≠ .exited) : (s.firstPush r k).Inv := by
  have hq : (s.requests r).phase.queuedOn = none := by rw [hr]; rfl
  have hb : (s.requests r).phase.beforePush := by rw [hr]; rfl
  refine h.push hb hq ?_ rfl rfl rfl rfl rfl rfl rfl
  exact (h.conns k).push (h.pending_of_queuedOn hq) hio

omit [DecidableEq ρ] in
theorem Inv.connectDone {conn : Option κ} (h : s.Inv) : (s.connectDone r conn).Inv := by
  have h' := (h.openEntry (o := s.origin r)).modifyEntry (o := s.origin r) (f := fun e =>
    { e with connecting := false, conns := conn.toList ++ e.conns })
  cases conn
  case none   => exact h'
  case some k =>
    rw [State.connectDone]
    exact h'.modifyConn { h'.conns k with } rfl rfl (List.Subset.refl _)

omit [DecidableEq ρ] in
theorem connectDone_requests {conn : Option κ} : (s.connectDone r conn).requests = s.requests := by
  cases conn <;> rfl

theorem Inv.connected {conn : Option κ} {phase : Phase κ ο} (h : s.Inv)
    (hq : phase.queuedOn = (s.requests r).phase.queuedOn)
    (hb : phase.beforePush → (s.requests r).phase.beforePush) :
    ((s.connectDone r conn).setPhase r phase).Inv :=
  h.connectDone.setPhase (by rwa [connectDone_requests]) (by rwa [connectDone_requests])

omit [DecidableEq κ] [DecidableEq ο] in
theorem Inv.runHttp1 (h : s.Inv) (hr : (s.requests r).phase = .plain k) :
    (s.modifyRequest r fun c =>
      { c with phase := .unref k .returned, sends := c.sends ++ [.http1 k] }).Inv := by
  have hq : (s.requests r).phase.queuedOn = none := by rw [hr]; rfl
  have hb : (s.requests r).phase.beforePush := by rw [hr]; rfl
  obtain ⟨h₁, h₂, h₃, h₄, h₅, h₆, h₇⟩ := h.requests r
  have hs := h₆ (.inl hb) (absurd · (h₄ hb).left)
  apply h.modifyRequest
  constructor
  case once =>
    exact List.pairwise_append.mpr ⟨h₇, List.pairwise_singleton _ _, fun sent hm _ _ => hs sent hm⟩
  all_goals grind [Phase.queuedOn, Phase.beforePush]

omit [DecidableEq κ] [DecidableEq ο] in
theorem Inv.wake (h : s.Inv) (hr : (s.requests r).phase = .waiting k) (hd : (s.requests r).done) :
    (s.wake r k).Inv := by
  have hq : (s.requests r).phase.queuedOn = some k := by rw [hr]; rfl
  obtain ⟨h₁, h₂, h₃, h₄, h₅, h₆, h₇⟩ := h.requests r
  rw [State.wake]
  split
  case isTrue ht =>
    simp only [Request.retries, Bool.and_eq_true, Bool.or_eq_true, Bool.not_eq_true'] at ht
    have hs := h₆ (by simp [hq]) (by grind)
    apply h.modifyRequest
    constructor
    case once => exact h₇
    all_goals grind [Request.reset, Phase.queuedOn, Phase.beforePush]
  case isFalse =>
    apply h.modifyRequest
    constructor
    case once => exact h₇
    all_goals grind [Phase.queuedOn, Phase.beforePush]

omit [DecidableEq ο] in
theorem Inv.unref {next : Phase κ ο} (h : s.Inv) (hr : (s.requests r).phase = .unref k next) :
    (s.unref r k next).Inv := by
  have hq : (s.requests r).phase.queuedOn = next.queuedOn := by rw [hr]; rfl
  have hb : (s.requests r).phase.beforePush = next.beforePush := by rw [hr]; rfl
  have h' : (s.modifyConn k fun conn => { conn with refs := conn.refs - 1 }).Inv :=
    h.modifyConn { h.conns k with } rfl rfl (List.Subset.refl _)
  rw [State.unref]
  split
  case isTrue => exact h'.setPhase hq.symm fun hn => hb.trans hn
  case isFalse =>
    have h' := h'.modifyConn (f := ({ · with stopping := true })) (k := k)
      { h'.conns k with dead := fun _ => by simp [Conn.dead] } rfl rfl (List.Subset.refl _)
    exact h'.setPhase hq.symm fun hn => hb.trans hn

omit [DecidableEq ο] in
theorem Inv.connOpen {isHttp2 insecure overridden : Bool} {now : Int} (h : s.Inv)
    (hk : s.conns k = {}) (hr : (s.requests r).phase = .connecting) :
    (s.connOpen r k isHttp2 insecure overridden now).Inv := by
  have hl : ({ s with created := s.created ++ [k] } : State ρ κ ο).Inv := { h with }
  have hc : (({ s with created := s.created ++ [k] } : State ρ κ ο).modifyConn k fun _ =>
      { isHttp2, insecure, refs := 1, lastUsed := now, io := if isHttp2 then .top else .none }).Inv := by
    refine hl.modifyConn ?_ (by rw [hk]) (by rw [hk]) (by rw [hk]; exact List.Subset.refl _)
    exact { Conn.ok_default with dead := by grind, exited := by grind }
  refine hc.modifyRequest ((hc.requests r).stay ?_ ?_ rfl rfl rfl rfl rfl)
  · exact (congrArg Phase.queuedOn hr).symm
  · exact fun _ => congrArg Phase.beforePush hr

theorem Inv.step {e : Event ρ κ ο} (h : s.Inv) (hk : s.Known) (ha : s.Alive e) (hs : s.step e = some t) :
    t.Inv := by
  cases e <;> simp only [State.step] at hs
  case call r =>
    split at hs <;> cases hs
    case isTrue hr => exact h.setPhase (by rw [hr]; rfl) fun _ => by rw [hr]; rfl
  case lockPool r order =>
    have hl : ({ s with poolLock := some r } : State ρ κ ο).Inv := { h with }
    split at hs <;> cases hs
    case isTrue hr => exact hl.setPhase (by rw [hr.left]; rfl) fun _ => by rw [hr.left]; rfl
  case sweep r now => split at hs <;> cases hs; exact h.sweep ‹_›
  case find r now  => split at hs <;> cases hs; exact h.find ‹_›
  case resume r timedOut aborting =>
    have hl : ({ s with poolLock := some r } : State ρ κ ο).Inv := { h with }
    split at hs <;> [split at hs; skip] <;> cases hs
    case isTrue.isTrue hr _  => exact h.setPhase (by rw [hr.left]; rfl) (by rintro ⟨⟩)
    case isTrue.isFalse hr _ => exact hl.enter (by rw [hr.left]; rfl) (by rw [hr.left]; rfl)
  case openFailed r tls =>
    split at hs <;> cases hs
    case isTrue hr =>
      have hd : (s.connectDone r none).Inv := h.connectDone
      refine hd.modifyRequest ((hd.requests r).stay ?_ (by rintro ⟨⟩) rfl rfl rfl rfl rfl)
      exact (congrArg Phase.queuedOn hr.left).symm
  case connOpen r k tls now =>
    split at hs <;> [split at hs; skip] <;> cases hs
    case h_1.isTrue hr => exact h.connOpen (hk.fresh k hr.right) hr.left
  case firstPush r =>
    split at hs <;> [split at hs; skip] <;> cases hs
    case h_1.isTrue k hr _ => exact h.firstPush hr (ha k (by rw [hr]; rfl))
  case connectDone r =>
    split at hs
    case isTrue => cases hs
    split at hs <;> [skip; split at hs; skip] <;> cases hs
    case h_1 k hr           => exact h.connected (by rw [hr]; rfl) (by rintro ⟨⟩)
    case h_2.isFalse k hr _ => exact h.connected (by rw [hr]; rfl) fun _ => by rw [hr]; rfl
  case runHttp1 r => split at hs <;> cases hs; exact h.runHttp1 ‹_›
  case wake r =>
    split at hs <;> [split at hs; skip] <;> cases hs
    case h_1.isTrue k hr hd => exact h.wake hr hd
  case unref r => split at hs <;> cases hs; exact h.unref ‹_›
  case joined r =>
    split at hs <;> [split at hs; skip] <;> cases hs
    case h_1.isTrue k next hr _ => exact h.setPhase (by rw [hr]; rfl) fun hb => by rw [hr]; exact hb
  case iterate k rejected sent sendFailed aborting now =>
    split at hs <;> cases hs; exact h.iterate ‹_›
  case ioFailed k =>
    split at hs <;> cases hs
    exact h.modifyConn { h.conns k with dead := by simp, exited := by simp } rfl rfl (List.Subset.refl _)
  case recv k callbacks failed => split at hs <;> cases hs; exact h.recv
  case quiet k =>
    split at hs <;> cases hs
    exact h.modifyConn { h.conns k with dead := by simp, exited := by simp } rfl rfl (List.Subset.refl _)
  case leave k => split at hs <;> cases hs; exact h.leave ‹_›

end

theorem Inv.sound (h : s.Inv) : s.Sound where
  queued k r hr hio      := by simp [((h.conns k).exited hio).left] at hr
  answered k r hp hio    := by
    by_contra hd
    have hq : (s.requests r).phase.queuedOn = some k := by
      rcases hp with hp | hp <;> rw [hp] <;> rfl
    rcases (h.requests r).queued k hq hd with hp | ⟨id, hu⟩
    · simp [((h.conns k).exited hio).left] at hp
    · simp [((h.conns k).exited hio).right] at hu
  counted k              := (h.conns k).counted
  once r                 := (h.requests r).once

end State

variable {ρ κ ο : Type} [DecidableEq ρ] [DecidableEq κ] [DecidableEq ο] {origin : ρ → ο}
  {s : State ρ κ ο} {events : List (Event ρ κ ο)}

-- In every run in which each connection's I/O thread outlives the push of the thread that opened it.
theorem served_of_run
    (h : Lib.run State.step { requests := fun r => { origin := origin r } } events = some s)
    (ha : Lib.StepsMeet State.Alive State.step { requests := fun r => { origin := origin r } } events) :
    s.Sound := by
  have hi : s.Inv ∧ s.Known := by
    refine Lib.run_preserves (I := fun s => s.Inv ∧ s.Known) (fun s e t hi ha hs => ?_) h ha
      ⟨State.inv_init, State.known_init⟩
    exact ⟨hi.left.step hi.right ha hs, hi.right.step hs⟩
  exact hi.left.sound

-- A server with a certificate that passes.
def trusted : Tls where
  https      := true
  optIn      := false
  pinned     := false
  handshake  := .completed true
  unverified := .failed

-- A request opens a connection; on its second stream the server refuses another one, which is tried again.
def refusedRun : List (Event Nat Nat Unit) := [
  .call 0, .lockPool 0 [], .sweep 0 0, .find 0 0, .connOpen 0 0 trusted 0, .firstPush 0, .connectDone 0,
  .iterate 0 [] [] false [] 0, .call 1, .lockPool 1 [()], .sweep 1 1, .sweep 1 1, .sweep 1 1, .find 1 1,
  .recv 0 [.data 1 5, .close 1 noError 2] false, .wake 0, .unref 0, .quiet 0, .iterate 0 [] [] false [] 2,
  .recv 0 [.close 3 refusedStream 3] false, .wake 1, .unref 1, .lockPool 1 [()], .sweep 1 3, .sweep 1 3,
  .sweep 1 3, .find 1 3, .quiet 0, .iterate 0 [] [] false [] 3, .recv 0 [.close 5 noError 4] false, .wake 1,
  .unref 1
]

theorem sound_refusedRun :
    ∃ s, Lib.run State.step { requests := fun _ => { origin := () } } refusedRun = some s ∧ s.Sound := by
  have h : Lib.run State.step { requests := fun _ => { origin := () } } refusedRun = some _ := rfl
  exact ⟨_, h, served_of_run h (by decide)⟩

-- The server closes a new connection before the first request is pushed.
def closedRun : List (Event Nat Nat Unit) := [
  .call 0, .lockPool 0 [], .sweep 0 0, .find 0 0, .connOpen 0 0 trusted 0, .iterate 0 [] [] false [] 0,
  .ioFailed 0, .iterate 0 [] [] false [] 0, .leave 0, .firstPush 0
]

-- The request stays in the queue, and there is no I/O thread to take it.
theorem not_sound_closedRun :
    ∃ s, Lib.run State.step { requests := fun _ => { origin := () } } closedRun = some s ∧ ¬s.Sound := by
  refine ⟨_, rfl, fun h => ?_⟩
  exact absurd (h.queued 0 0 (by decide) (by decide)) (by decide)

end Nordstjernen.Net.Http2
