import Nordstjernen.Net.Http2.Pool

namespace Nordstjernen.Net.Http2

namespace Phase

variable {κ ο : Type}

-- The connections that a thread has at hand.
def conns : Phase κ ο → List κ
  | sweeping todo _                       => (todo.map Prod.snd).flatten
  | finding conns                         => conns
  | opened k | plain k | pushed k | waiting k => [k]
  | unref k next | joining k next         => k :: next.conns
  | _                                     => []

end Phase

namespace State

variable {ρ κ ο : Type} {s t u : State ρ κ ο} {k : κ} {r : ρ}

-- What the I/O thread of a connection leaves alone.
structure AtConn (k : κ) (s t : State ρ κ ο) : Prop where
  created    : t.created = s.created
  entries    : t.entries = s.entries
  conns      : ∀ k' ≠ k, t.conns k' = s.conns k'
  insecure   : (t.conns k).insecure = (s.conns k).insecure
  phase      : ∀ r, (t.requests r).phase = (s.requests r).phase
  conn       : ∀ r, (t.requests r).conn = (s.requests r).conn
  tlsWarning : ∀ r, (t.requests r).tlsWarning = (s.requests r).tlsWarning

theorem AtConn.refl : s.AtConn k s := by
  constructor <;> simp

theorem AtConn.trans (h : s.AtConn k t) (h' : t.AtConn k u) : s.AtConn k u where
  created       := h'.created.trans h.created
  entries       := h'.entries.trans h.entries
  conns k' hk   := (h'.conns k' hk).trans (h.conns k' hk)
  insecure      := h'.insecure.trans h.insecure
  phase r       := (h'.phase r).trans (h.phase r)
  conn r        := (h'.conn r).trans (h.conn r)
  tlsWarning r  := (h'.tlsWarning r).trans (h.tlsWarning r)

theorem AtConn.foldl {α : Type} {f : State ρ κ ο → α → State ρ κ ο} {as : List α}
    (h : ∀ (s : State ρ κ ο) (a : α), s.AtConn k (f s a)) : s.AtConn k (as.foldl f s) := by
  induction as generalizing s
  case nil            => exact .refl
  case cons a as hi => exact (h s a).trans hi

section

variable [DecidableEq ρ] [DecidableEq κ]

omit [DecidableEq ρ] in
theorem atConn_modifyConn {f : Conn ρ → Conn ρ} (h : (f (s.conns k)).insecure = (s.conns k).insecure) :
    s.AtConn k (s.modifyConn k f) := by
  constructor <;> simp [modifyConn, h]
  intro k' hk
  simp [hk]

omit [DecidableEq κ] in
theorem atConn_modifyRequest {f : Request κ ο → Request κ ο}
    (hp : (f (s.requests r)).phase = (s.requests r).phase)
    (hc : (f (s.requests r)).conn = (s.requests r).conn)
    (ht : (f (s.requests r)).tlsWarning = (s.requests r).tlsWarning) :
    s.AtConn k (s.modifyRequest r f) := by
  constructor <;> simp only [modifyRequest, Function.update_apply] <;> grind

theorem atConn_submit {rejected : List ρ} : s.AtConn k (s.submit k rejected r) := by
  rw [submit]
  split
  all_goals exact (atConn_modifyConn rfl).trans (atConn_modifyRequest rfl rfl rfl)

theorem atConn_submitPending {rejected rs : List ρ} : s.AtConn k (s.submitPending k rejected rs) := by
  induction rs generalizing s
  case nil          => exact .refl
  case cons r rs hi =>
    exact ((atConn_modifyConn rfl).trans atConn_submit).trans hi

theorem atConn_callback {callback : Callback} : s.AtConn k (s.callback k callback) := by
  cases callback <;> simp only [State.callback, closeStream]
  case writeFailed | goaway => exact atConn_modifyConn rfl
  case data =>
    split
    · exact .refl
    · exact atConn_modifyRequest rfl rfl rfl
  case close =>
    split
    · exact atConn_modifyConn rfl
    · exact (atConn_modifyConn rfl).trans (atConn_modifyRequest rfl rfl rfl)

theorem atConn_detach : s.AtConn k (s.detach k r) := by
  rw [detach]
  split
  · exact (atConn_modifyConn rfl).trans (atConn_modifyRequest rfl rfl rfl)
  · exact atConn_modifyRequest rfl rfl rfl

theorem atConn_timeOut : s.AtConn k (s.timeOut k r) := by
  rw [timeOut]
  exact ((atConn_modifyRequest rfl rfl rfl).trans atConn_detach).trans (atConn_modifyConn rfl)

theorem atConn_scanTimeouts {aborting : List ρ} : s.AtConn k (s.scanTimeouts k aborting) := by
  rw [scanTimeouts]
  split
  · exact .refl
  · exact .foldl fun _ _ => atConn_timeOut

theorem atConn_iterate {rejected aborting : List ρ} {sent : List Callback} {sendFailed : Bool} {now : Int} :
    s.AtConn k (s.iterate k rejected sent sendFailed aborting now) := by
  rw [iterate]
  exact ((atConn_submitPending.trans (.foldl fun _ _ => atConn_callback)).trans
    ((atConn_modifyConn rfl).trans atConn_scanTimeouts)).trans (atConn_modifyConn rfl)

theorem atConn_recv {callbacks : List Callback} {failed : Bool} :
    s.AtConn k (s.recv k callbacks failed) := by
  rw [recv]
  exact (AtConn.foldl fun _ _ => atConn_callback).trans (atConn_modifyConn rfl)

theorem atConn_failAll : s.AtConn k (s.failAll k) := by
  rw [failAll]
  exact ((AtConn.foldl fun _ _ => atConn_modifyRequest rfl rfl rfl).trans
    (.foldl fun _ _ => (atConn_modifyRequest rfl rfl rfl).trans atConn_detach)).trans
      (atConn_modifyConn rfl)

end

-- A connection that was not created yet is not known to any thread.
structure Known (s : State ρ κ ο) : Prop where
  fresh   : ∀ k, k ∉ s.created → s.conns k = {}
  entries : ∀ o, ∀ k ∈ (s.entries o).conns, k ∈ s.created
  phases  : ∀ r, ∀ k ∈ (s.requests r).phase.conns, k ∈ s.created

theorem known_init {origin : ρ → ο} :
    ({ requests := fun r => { origin := origin r } } : State ρ κ ο).Known := by
  constructor <;> simp [Phase.conns]

theorem Known.atConn (h : s.Known) (ht : s.AtConn k t) (hk : k ∈ s.created) : t.Known where
  fresh k' hk' := by
    rw [ht.created] at hk'
    rw [ht.conns k' (by grind), h.fresh k' hk']
  entries := by
    rw [ht.created, ht.entries]
    exact h.entries
  phases r := by
    rw [ht.created, ht.phase]
    exact h.phases r

theorem Known.mem_of_io (h : s.Known) (hio : (s.conns k).io ≠ .none) : k ∈ s.created := by
  by_contra hk
  exact hio (by rw [h.fresh k hk])

section

variable [DecidableEq ρ] [DecidableEq κ] [DecidableEq ο]

omit [DecidableEq κ] [DecidableEq ο] in
theorem Known.modifyRequest {f : Request κ ο → Request κ ο} (h : s.Known)
    (hf : ∀ k ∈ (f (s.requests r)).phase.conns, k ∈ s.created) : (s.modifyRequest r f).Known where
  fresh    := h.fresh
  entries  := h.entries
  phases r' := by
    simp only [State.modifyRequest, Function.update_apply]
    split
    case isTrue  => exact hf
    case isFalse => exact h.phases r'

omit [DecidableEq κ] [DecidableEq ο] in
theorem Known.setPhase {phase : Phase κ ο} (h : s.Known) (hp : ∀ k ∈ phase.conns, k ∈ s.created) :
    (s.setPhase r phase).Known :=
  h.modifyRequest hp

omit [DecidableEq ρ] [DecidableEq κ] in
theorem Known.modifyEntry {o : ο} {f : Entry κ → Entry κ} (h : s.Known)
    (hf : ∀ k ∈ (f (s.entries o)).conns, k ∈ s.created) : (s.modifyEntry o f).Known where
  fresh  := h.fresh
  entries o' := by
    simp only [State.modifyEntry, Function.update_apply]
    split
    case isTrue  => exact hf
    case isFalse => exact h.entries o'
  phases := h.phases

omit [DecidableEq ρ] [DecidableEq ο] in
theorem Known.modifyConn {f : Conn ρ → Conn ρ} (h : s.Known) (hk : k ∈ s.created) :
    (s.modifyConn k f).Known where
  fresh k' hk' := by
    have hne : k' ≠ k := fun he => hk' (he ▸ hk)
    simpa [State.modifyConn, hne] using h.fresh k' hk'
  entries := h.entries
  phases  := h.phases

omit [DecidableEq κ] in
theorem Known.enter (h : s.Known) : (s.enter r).Known :=
  have h' : (s.openEntry (s.origin r)).Known := { h with }
  h'.setPhase (h.entries (s.origin r))

theorem Known.sweep {now : Int} {kept : Nat} {todo : List (ο × List κ)} (h : s.Known)
    (hr : (s.requests r).phase = .sweeping todo kept) : (s.sweep r now kept todo).Known := by
  have hp := h.phases r
  rw [hr] at hp
  match todo with
  | []                      => exact h.enter
  | (_, []) :: todo         => exact h.setPhase hp
  | (o, k :: conns) :: todo =>
    have hk : ∀ k' ∈ k :: (Phase.sweeping ((o, conns) :: todo) kept).conns, k' ∈ s.created :=
      fun k' hk' => hp k' (by simpa [Phase.conns] using hk')
    have h' := h.modifyConn (f := (·.retire (decide (poolMaxPerOrigin ≤ kept)) now)) (hk k (by simp))
    simp only [State.sweep]
    split
    · exact (h'.modifyEntry fun k hk => h.entries o k (List.mem_of_mem_erase hk)).setPhase hk
    · exact h'.setPhase fun k' hk' => hk k' (List.mem_cons_of_mem k hk')

theorem Known.find {now : Int} {conns : List κ} (h : s.Known) (hr : (s.requests r).phase = .finding conns) :
    (s.find r now conns).Known := by
  have hp := h.phases r
  rw [hr] at hp
  have hl : ({ s with poolLock := none } : State ρ κ ο).Known := { h with }
  cases conns
  case nil =>
    simp only [State.find]
    split
    · exact hl.setPhase nofun
    · exact (hl.modifyEntry (h.entries (s.origin r))).setPhase nofun
  case cons k conns =>
    have hk : k ∈ s.created := hp k (by simp [Phase.conns])
    have hw := h.modifyConn (f := (·.wear)) hk
    simp only [State.find]
    split
    case isTrue => exact (hw.modifyEntry fun k hk => h.entries _ k (List.mem_of_mem_erase hk)).setPhase hp
    split
    case isTrue => exact hw.setPhase fun k' hk' => hp k' (List.mem_cons_of_mem k hk')
    case isFalse =>
      have hl : ({ s.modifyConn k (·.wear) with poolLock := none } : State ρ κ ο).Known := { hw with }
      exact (hl.modifyConn hk).modifyRequest fun k' hk' => List.mem_singleton.mp hk' ▸ hk

omit [DecidableEq ρ] in
theorem Known.connectDone {conn : Option κ} (h : s.Known) (hc : ∀ k ∈ conn, k ∈ s.created) :
    (s.connectDone r conn).Known := by
  have h' : (s.openEntry (s.origin r)).Known := { h with }
  have h' := h'.modifyEntry (o := s.origin r) (f := fun e =>
    { e with connecting := false, conns := conn.toList ++ e.conns }) (by
      have := h.entries (s.origin r)
      simp only [List.mem_append, Option.mem_toList]
      grind [State.openEntry])
  cases conn
  case none   => exact h'
  case some k =>
    rw [State.connectDone]
    exact h'.modifyConn (hc k rfl)

omit [DecidableEq ο] in
theorem Known.connOpen {isHttp2 insecure overridden : Bool} {now : Int} (h : s.Known) :
    (s.connOpen r k isHttp2 insecure overridden now).Known := by
  have h' : ({ s with created := s.created ++ [k] } : State ρ κ ο).Known := {
    fresh   := fun k hk => h.fresh k (by simp_all)
    entries := fun o k hk => by simp [h.entries o k hk]
    phases  := fun r k hk => by simp [h.phases r k hk] }
  apply (h'.modifyConn (by simp)).modifyRequest
  simp [Phase.conns, State.modifyConn]

theorem Known.step {e : Event ρ κ ο} (h : s.Known) (hs : s.step e = some t) : t.Known := by
  cases e <;> simp only [State.step] at hs
  case call r => split at hs <;> cases hs; exact h.modifyRequest nofun
  case lockPool r order =>
    split at hs <;> cases hs
    have hl : ({ s with poolLock := some r } : State ρ κ ο).Known := { h with }
    apply hl.modifyRequest
    simp only [Phase.conns, List.map_map, List.mem_flatten, List.mem_map, Function.comp]
    rintro k ⟨_, ⟨o, -, rfl⟩, hk⟩
    exact h.entries o k hk
  case sweep r now => split at hs <;> cases hs; exact h.sweep ‹_›
  case find r now  => split at hs <;> cases hs; exact h.find ‹_›
  case resume r timedOut aborting =>
    have hl : ({ s with poolLock := some r } : State ρ κ ο).Known := { h with }
    split at hs <;> [split at hs; skip] <;> cases hs
    · exact h.setPhase nofun
    · exact hl.enter
  case openFailed r tls =>
    split at hs <;> cases hs
    exact (h.connectDone (by simp)).modifyRequest nofun
  case connOpen r k tls now =>
    split at hs <;> [split at hs; skip] <;> cases hs
    exact h.connOpen
  case firstPush r =>
    split at hs <;> [split at hs; skip] <;> cases hs
    case h_1.isTrue k hr _ =>
      have hk := h.phases r k (by simp [hr, Phase.conns])
      exact (h.modifyConn hk).setPhase fun k' hk' => List.mem_singleton.mp hk' ▸ hk
  case connectDone r =>
    split at hs
    case isTrue => cases hs
    split at hs <;> [skip; split at hs; skip] <;> cases hs
    case h_1 k hr =>
      have hp := h.phases r
      rw [hr] at hp
      exact (h.connectDone (by simpa [Phase.conns] using hp)).setPhase hp
    case h_2.isFalse k hr _ =>
      have hp := h.phases r
      rw [hr] at hp
      exact (h.connectDone (by simp)).setPhase hp
  case runHttp1 r =>
    split at hs <;> cases hs
    case h_1 k hr =>
      exact h.modifyRequest fun k' hk' => h.phases r k' (by rw [hr]; exact hk')
  case wake r =>
    split at hs <;> [split at hs; skip] <;> cases hs
    case h_1.isTrue k hr _ =>
      rw [State.wake]
      split
      all_goals exact h.modifyRequest fun k' hk' => h.phases r k' (by rw [hr]; exact hk')
  case unref r =>
    split at hs <;> cases hs
    case h_1 k next hr =>
      have hp := h.phases r
      rw [hr] at hp
      rw [State.unref]
      have hk := hp k (by simp [Phase.conns])
      split
      · exact (h.modifyConn hk).setPhase fun k' hk' => hp k' (List.mem_cons_of_mem k hk')
      · exact ((h.modifyConn hk).modifyConn hk).setPhase hp
  case joined r =>
    split at hs <;> [split at hs; skip] <;> cases hs
    case h_1.isTrue k next hr _ =>
      have hp := h.phases r
      rw [hr] at hp
      exact h.setPhase fun k' hk' => hp k' (List.mem_cons_of_mem k hk')
  case iterate k rejected sent sendFailed aborting now =>
    split at hs <;> cases hs
    case isTrue hio => exact h.atConn atConn_iterate (h.mem_of_io (by simp [hio]))
  case ioFailed k =>
    split at hs <;> cases hs
    case isTrue hio => exact h.modifyConn (h.mem_of_io (by grind))
  case recv k callbacks failed =>
    split at hs <;> cases hs
    case isTrue hio => exact h.atConn atConn_recv (h.mem_of_io (by grind))
  case quiet k =>
    split at hs <;> cases hs
    case isTrue hio => exact h.modifyConn (h.mem_of_io (by grind))
  case leave k =>
    split at hs <;> cases hs
    case isTrue hio =>
      exact h.atConn (atConn_failAll.trans (atConn_modifyConn rfl)) (h.mem_of_io (by simp [hio]))

end

end State

end Nordstjernen.Net.Http2
