import Nordstjernen.Lib.Run
import Nordstjernen.Net.Socket.Theorems.Frames
import Nordstjernen.Net.Socket.WebSocket

open Nordstjernen.Glib Nordstjernen.Lib

namespace Nordstjernen.Net.Socket

variable {callback : WsCallback} {result : Performed} {received : Received} {msg : Option OutMsg}

def WsCallback.isClosed : WsCallback → Bool
  | closed .. => true
  | _         => false

-- Operations behind which the worker goes on, and those that neither end it nor go on.
def WorkerOp.goesOn : WorkerOp → Bool
  | perform | drain | recv => true
  | _                      => false

def WorkerOp.plain : WorkerOp → Bool
  | setState s => s == .opened || s == .closing
  | post c _   => !c.isClosed
  | _          => false

-- What the worker has to do while it has not yet set the last state: it goes on, or it is ending.
inductive Unended : List WorkerOp → Prop
  | goesOn {op} : op.goesOn → Unended [op]
  | ending {code reason clean} : Unended (dispatchClose code reason clean)
  | plain {op ops} : op.plain → Unended ops → Unended (op :: ops)

theorem unended_performed : Unended result.next := by
  cases result
  case initFailed => exact .plain rfl .ending
  case failed     => exact .plain rfl .ending
  case refused    => exact .plain rfl .ending
  case connected  => exact .plain rfl (.plain rfl (.goesOn rfl))

theorem unended_drained : Unended (drained msg) := by
  cases msg
  case none     => exact .goesOn rfl
  case some msg =>
    cases msg
    case text   => exact .goesOn rfl
    case binary => exact .goesOn rfl
    case close  => exact .plain rfl .ending

theorem unended_received : Unended received.next := by
  cases received
  case again      => exact .goesOn rfl
  case failed     => exact .plain rfl .ending
  case nothing    => exact .goesOn rfl
  case message    => exact .plain rfl (.goesOn rfl)
  case tooBig     => exact .plain rfl .ending
  case badUtf8    => exact .plain rfl .ending
  case peerClosed => exact .plain rfl .ending

namespace Conn

variable {c c' : Conn} {e : Event} {l : Dispatcher.Event WsCallback}

-- The close events that have been dispatched to the main loop, delivered or not.
def closes (c : Conn) : Nat :=
  (c.dispatcher.delivered ++ c.dispatcher.waiting).countP (·.isClosed)

-- How far the worker is.
inductive Phase (c : Conn) : Prop
  | unended : Unended c.worker → c.closes = 0 → c.state ≠ .closed → Phase c
  | posting {code reason clean} :
    c.worker = [.post (.closed code reason clean) false] → c.closes = 0 → c.state = .closed → Phase c
  | ended : c.worker = [] → c.closes = 1 → c.state = .closed → Phase c

theorem Phase.of_eq (h : c.Phase) (hw : c'.worker = c.worker) (hc : c'.closes = c.closes)
    (hs : c'.state = c.state) : c'.Phase := by
  cases h
  case unended hu hc' hs'  => exact .unended (hw ▸ hu) (hc.trans hc') (hs ▸ hs')
  case posting hw' hc' hs' => exact .posting (hw.trans hw') (hc.trans hc') (hs.trans hs')
  case ended hw' hc' hs'   => exact .ended (hw.trans hw') (hc.trans hc') (hs.trans hs')

structure Inv (c : Conn) : Prop where
  phase    : c.Phase
  detached : c.dispatcher.detached = false
  pending  : c.dispatcher.pending = c.dispatcher.waiting.length
  ready    : c.readyState = .closed → c.state = .closed
  page     : .setReady ∈ c.page → c.readyState ≠ .closed

-- The states that the page sees only move forward.
structure Forward (c c' : Conn) : Prop where
  readyState : c.readyState.rank ≤ c'.readyState.rank
  state      : c.state.rank ≤ c'.state.rank

theorem Forward.refl : c.Forward c :=
  ⟨Nat.le_refl _, Nat.le_refl _⟩

theorem Forward.of_eq (hr : c'.readyState = c.readyState) (hs : c'.state = c.state) : c.Forward c' :=
  ⟨hr ▸ Nat.le_refl _, hs ▸ Nat.le_refl _⟩

theorem Forward.trans {c₁ c₂ c₃ : Conn} (h₁ : c₁.Forward c₂) (h₂ : c₂.Forward c₃) : c₁.Forward c₃ :=
  ⟨h₁.readyState.trans h₂.readyState, h₁.state.trans h₂.state⟩

theorem inv_start : ({} : Conn).Inv where
  phase    := .unended (.goesOn rfl) rfl (by decide)
  detached := rfl
  pending  := rfl
  ready    := by decide
  page     := by decide

theorem WsState.rank_le_closing {s : WsState} (h : s ≠ .closed) : s.rank ≤ WsState.closing.rank := by
  cases s
  case closed => exact absurd rfl h
  all_goals decide

theorem WsState.rank_le_closed {s : WsState} : s.rank ≤ WsState.closed.rank := by
  cases s <;> decide

section Worker

variable {op : WorkerOp} {rest worker : List WorkerOp} {input : WorkerInput} {callback : WsCallback}
  {droppable : Bool}

-- The end of the connection is not droppable.
theorem closes_post (h : c.dispatcher.detached = false) (hd : droppable = true → callback.isClosed = false) :
    closes { c with dispatcher := c.dispatcher.post callback droppable, worker } =
      c.closes + if callback.isClosed then 1 else 0 := by
  simp only [closes, Dispatcher.post]
  split
  case isTrue hr =>
    have hdrop : droppable = true := by
      simp only [Dispatcher.refuses, h, Bool.false_or, Bool.and_eq_true] at hr
      exact hr.left
    simp [hd hdrop]
  case isFalse =>
    simp only [Dispatcher.waiting, ← List.append_assoc]
    rw [List.countP_append, List.countP_singleton]

theorem pending_post (h : c.Inv) :
    (c.dispatcher.post callback droppable).pending = (c.dispatcher.post callback droppable).waiting.length ∧
      (c.dispatcher.post callback droppable).detached = false := by
  have hi : c.dispatcher.Inv _ := ⟨.refl _, h.pending⟩
  have hp : (c.dispatcher.post callback droppable).Inv _ := hi.post
  refine ⟨hp.pending, ?_⟩
  rw [Dispatcher.post]
  split <;> exact h.detached

-- What a post changes, beside the worker's place.
theorem Inv.post (h : c.Inv)
    (hp : Phase { c with dispatcher := c.dispatcher.post callback droppable, worker }) :
    Inv { c with dispatcher := c.dispatcher.post callback droppable, worker } where
  phase    := hp
  detached := (pending_post h).right
  pending  := (pending_post h).left
  ready    := h.ready
  page     := h.page

theorem Inv.goOn (h : c.Inv) (hc : c.closes = 0) (hs : c.state ≠ .closed) (hw : Unended worker)
    {outQueue : List OutMsg} : Inv { c with outQueue, worker } :=
  ⟨.unended hw hc hs, h.detached, h.pending, h.ready, h.page⟩

theorem workerStep_spec (h : c.Inv) (hw : c.worker = op :: rest)
    (hp : op = .setState .opened → c.state = .connecting) (hs : c.workerStep rest op input = some c') :
    c'.Inv ∧ c.Forward c' := by
  cases h.phase
  case unended hu hc hstate =>
    rw [hw] at hu
    cases hu
    case goesOn hop =>
      cases op <;> cases input <;> simp only [workerStep, Option.some.injEq, reduceCtorEq] at hs
      case perform.performed result =>
        obtain rfl := hs
        exact ⟨h.goOn hc hstate ((List.append_nil _).symm ▸ unended_performed), ⟨Nat.le_refl _, Nat.le_refl _⟩⟩
      case drain.none =>
        obtain rfl := hs
        exact ⟨h.goOn hc hstate ((List.append_nil _).symm ▸ unended_drained), ⟨Nat.le_refl _, Nat.le_refl _⟩⟩
      case recv.received result =>
        obtain rfl := hs
        exact ⟨h.goOn hc hstate ((List.append_nil _).symm ▸ unended_received), ⟨Nat.le_refl _, Nat.le_refl _⟩⟩
      case setState.none => cases hop
      case post.none     => cases hop
    case ending code reason clean =>
      cases input <;> simp only [workerStep, Option.some.injEq, reduceCtorEq] at hs
      obtain rfl := hs
      exact ⟨⟨.posting rfl hc rfl, h.detached, h.pending, fun _ => rfl, h.page⟩, ⟨Nat.le_refl _, WsState.rank_le_closed⟩⟩
    case plain hop hrest =>
      cases op <;> cases input <;> simp only [workerStep, Option.some.injEq, reduceCtorEq] at hs
      case perform.performed => cases hop
      case drain.none        => cases hop
      case recv.received     => cases hop
      case setState.none state =>
        obtain rfl := hs
        have hready : c.readyState ≠ .closed := hstate ∘ h.ready
        obtain rfl | rfl : state = .opened ∨ state = .closing := by simpa [WorkerOp.plain] using hop
        · refine ⟨⟨.unended hrest hc (by simp), h.detached, h.pending, (absurd · hready), h.page⟩,
            ⟨Nat.le_refl _, ?_⟩⟩
          rw [hp rfl]
          exact Nat.zero_le _
        · exact ⟨⟨.unended hrest hc (by simp), h.detached, h.pending, (absurd · hready), h.page⟩,
            ⟨Nat.le_refl _, WsState.rank_le_closing hstate⟩⟩
      case post.none callback droppable =>
        obtain rfl := hs
        have hcl : callback.isClosed = false := by simpa [WorkerOp.plain] using hop
        refine ⟨h.post (.unended hrest ?_ hstate), ⟨Nat.le_refl _, Nat.le_refl _⟩⟩
        rw [closes_post h.detached fun _ => hcl, hc, hcl]
        rfl
  case posting code reason clean hw' hc hstate =>
    obtain ⟨rfl, rfl⟩ := List.cons.inj (hw.symm.trans hw')
    cases input <;> simp only [workerStep, Option.some.injEq, reduceCtorEq] at hs
    obtain rfl := hs
    refine ⟨h.post (.ended rfl ?_ hstate), ⟨Nat.le_refl _, Nat.le_refl _⟩⟩
    rw [closes_post h.detached (by simp), hc]
    rfl
  case ended hw' _ _ => cases hw.symm.trans hw'

end Worker

section Page

variable {op : PageOp} {rest : List PageOp}

-- What a page's method changes, beside the native state.
theorem Inv.ofPage (h : c.Inv) {page : List PageOp} {outQueue : List OutMsg} {readyState : WsState}
    (hr : readyState = .closed → c.state = .closed) (hp : .setReady ∈ page → readyState ≠ .closed) :
    Inv { c with page, outQueue, readyState } :=
  ⟨h.phase.of_eq rfl rfl rfl, h.detached, h.pending, hr, hp⟩

theorem pageStep_spec (h : c.Inv) (hpage : c.page = op :: rest) (hp : op = .setClosing → c.state ≠ .closed) :
    (c.pageStep rest op).Inv ∧ c.Forward (c.pageStep rest op) := by
  have hrest (hm : .setReady ∈ rest) : c.readyState ≠ .closed := h.page (hpage ▸ List.mem_cons_of_mem _ hm)
  cases op
  case checkSend m =>
    refine ⟨h.ofPage h.ready fun hm => hrest ?_, .of_eq rfl rfl⟩
    split at hm
    · simpa using hm
    · exact hm
  case checkClose code reason =>
    refine ⟨h.ofPage h.ready fun hm => ?_, .of_eq rfl rfl⟩
    split at hm
    case isTrue        => exact hrest hm
    case isFalse hopen => exact fun hr => hopen (.inl (h.ready hr))
  case setReady =>
    have hr : c.readyState ≠ .closed := h.page (hpage ▸ List.mem_cons_self)
    exact ⟨h.ofPage (by simp) (by simp), ⟨WsState.rank_le_closing hr, Nat.le_refl _⟩⟩
  case wsClose code reason =>
    refine ⟨h.ofPage h.ready fun hm => hrest ?_, .of_eq rfl rfl⟩
    split at hm
    · exact hm
    · simpa using hm
  case enqueue m => exact ⟨h.ofPage h.ready hrest, .of_eq rfl rfl⟩
  case setClosing =>
    have hstate := hp rfl
    refine ⟨⟨?_, h.detached, h.pending, fun hr => absurd (h.ready hr) hstate, hrest⟩,
      ⟨Nat.le_refl _, WsState.rank_le_closing hstate⟩⟩
    cases h.phase
    case unended hu hc _ => exact .unended hu hc (by simp [pageStep])
    case posting hs      => exact absurd hs hstate
    case ended hs        => exact absurd hs hstate

end Page

section Loop

variable {busy : Bool}

theorem invokes_eq (hd : c.dispatcher.detached = false) (hl : l = .idle busy ∨ l = .timeout busy) :
    c.invokes l = [] ∨ ∃ callback ∈ c.dispatcher.waiting, c.invokes l = [callback] := by
  have hrun {d : Dispatcher WsCallback} {callback : WsCallback} (hd : d.detached = false)
      (he : d.delivered = c.dispatcher.delivered) :
      (d.dispatchRun callback busy).delivered.drop c.dispatcher.delivered.length = [] ∨
        (d.dispatchRun callback busy).delivered.drop c.dispatcher.delivered.length = [callback] := by
    cases busy <;> simp [Dispatcher.dispatchRun, hd, he]
  obtain rfl | rfl := hl
  · cases hq : c.dispatcher.idle
    case nil                 => exact .inl (by simp [invokes, Dispatcher.step, hq])
    case cons callback later =>
      simp only [invokes, Dispatcher.step, hq]
      have hw : callback ∈ c.dispatcher.waiting := by simp [Dispatcher.waiting, hq]
      exact (hrun (d := { c.dispatcher with idle := later }) hd rfl).imp_right fun hi => ⟨callback, hw, hi⟩
  · cases hq : c.dispatcher.timeouts
    case nil                 => exact .inl (by simp [invokes, Dispatcher.step, hq])
    case cons callback later =>
      simp only [invokes, Dispatcher.step, hq]
      have hw : callback ∈ c.dispatcher.waiting := by simp [Dispatcher.waiting, hq]
      exact (hrun (d := { c.dispatcher with timeouts := later }) hd rfl).imp_right fun hi => ⟨callback, hw, hi⟩

theorem step_loop (h : c.Inv) (hl : l = .idle busy ∨ l = .timeout busy) :
    (c.dispatcher.step l).detached = false ∧
      (c.dispatcher.step l).Inv (c.dispatcher.delivered ++ c.dispatcher.waiting) := by
  have hi : c.dispatcher.Inv (c.dispatcher.delivered ++ c.dispatcher.waiting) := ⟨.refl _, h.pending⟩
  have hd : (c.dispatcher.step l).detached = false := by
    obtain rfl | rfl := hl
    · simp only [Dispatcher.step]
      split
      · exact h.detached
      · rw [Dispatcher.dispatchRun_detached]
        exact h.detached
    · simp only [Dispatcher.step]
      split
      · exact h.detached
      · rw [Dispatcher.dispatchRun_detached]
        exact h.detached
  have ht : l.taken c.dispatcher = [] := by
    obtain rfl | rfl := hl <;> rfl
  exact ⟨hd, by simpa [ht] using hi.step hd⟩

-- A close event comes to the page when the worker is through.
theorem state_of_closed {code : Int} {reason : CString} {clean : Bool} (h : c.Inv)
    (hw : .closed code reason clean ∈ c.dispatcher.waiting) : c.state = .closed := by
  have hpos : 0 < c.closes := List.countP_pos_iff.mpr ⟨_, List.mem_append_right _ hw, rfl⟩
  cases h.phase
  case unended _ hc _ => exact absurd hc (Nat.pos_iff_ne_zero.mp hpos)
  case posting hs     => exact hs
  case ended hs       => exact hs

theorem loopStep_spec (h : c.Inv) (hl : l = .idle busy ∨ l = .timeout busy) (hpage : c.page = [])
    (hp : .opened ∈ c.invokes l → c.readyState = .connecting) :
    (c.loopStep l).Inv ∧ c.Forward (c.loopStep l) := by
  obtain ⟨hd, hi⟩ := step_loop h hl
  have hphase : (c.loopStep l).Phase := h.phase.of_eq rfl (hi.kept.countP_eq _) rfl
  have hpage' : .setReady ∈ (c.loopStep l).page → (c.loopStep l).readyState ≠ .closed := by
    intro hm
    rw [show (c.loopStep l).page = [] from hpage] at hm
    cases hm
  have hkeep (hs : (c.loopStep l).readyState = c.readyState) :
      (c.loopStep l).Inv ∧ c.Forward (c.loopStep l) :=
    ⟨⟨hphase, hd, hi.pending, fun hr => h.ready (hs ▸ hr), hpage'⟩, ⟨hs ▸ Nat.le_refl _, Nat.le_refl _⟩⟩
  obtain hinv | ⟨callback, hw, hinv⟩ := invokes_eq h.detached hl
  · exact hkeep (by rw [loopStep, hinv]; rfl)
  · have hs : (c.loopStep l).readyState = onCallback c.readyState callback := by rw [loopStep, hinv]; rfl
    cases callback
    case opened =>
      have hr : c.readyState = .connecting := hp (hinv ▸ List.mem_cons_self)
      refine ⟨⟨hphase, hd, hi.pending, fun hc => ?_, hpage'⟩, ⟨?_, Nat.le_refl _⟩⟩
      · cases hs.symm.trans hc
      · rw [hr]
        exact Nat.zero_le _
    case message => exact hkeep hs
    case error   => exact hkeep hs
    case closed  =>
      have hstate : c.state = .closed := state_of_closed h hw
      refine ⟨⟨hphase, hd, hi.pending, fun _ => hstate, hpage'⟩, ⟨?_, Nat.le_refl _⟩⟩
      rw [hs]
      exact WsState.rank_le_closed

end Loop

-- What a step keeps, and that it moves no state backward.
theorem step_spec (h : c.Inv) (hp : c.Proper e) (hs : c.step e = some c') : c'.Inv ∧ c.Forward c' := by
  have hcall {op : PageOp} (hop : op ≠ .setReady) (hs : c.call [op] = some c') : c'.Inv ∧ c.Forward c' := by
    rw [call] at hs
    split at hs
    case isTrue  =>
      cases hs
      exact ⟨h.ofPage h.ready fun hm => absurd (List.mem_singleton.mp hm).symm hop, .of_eq rfl rfl⟩
    case isFalse => cases hs
  cases e
  case worker input =>
    simp only [step] at hs
    split at hs
    case h_1            => cases hs
    case h_2 op rest hw => exact workerStep_spec h hw (fun ho => hp (by rw [hw, ho]; rfl)) hs
  case send m            => exact hcall (by simp) hs
  case close code reason => exact hcall (by simp) hs
  case page =>
    simp only [step] at hs
    split at hs
    case h_1               => cases hs
    case h_2 op rest hpage =>
      cases hs
      exact pageStep_spec h hpage fun ho => hp (by rw [hpage, ho]; rfl)
  case idle busy =>
    simp only [step] at hs
    split at hs
    case isTrue hpage => cases hs; exact loopStep_spec h (.inl rfl) hpage hp
    case isFalse      => cases hs
  case timeout busy =>
    simp only [step] at hs
    split at hs
    case isTrue hpage => cases hs; exact loopStep_spec h (.inr rfl) hpage hp
    case isFalse      => cases hs

theorem closeEvents_le : c.closeEvents ≤ c.closes := by
  rw [closes, List.countP_append]
  exact Nat.le_add_right _ _

-- Whatever the order of the worker's and the page's steps, the states that the page sees only move
-- forward, and the end of the connection is told once.
theorem forward_of_run {c₁ c₂ : Conn} {es es' : List Event} (hr : run step {} es = some c₁)
    (hc : StepsMeet Proper step {} es) (hr' : run step c₁ es' = some c₂) (hc' : StepsMeet Proper step c₁ es') :
    c₁.Forward c₂ ∧ c₂.closeEvents ≤ 1 ∧
      (c₂.worker = [] → c₂.dispatcher.waiting = [] → c₂.closeEvents = 1) := by
  have h₁ : c₁.Inv := run_preserves (I := Inv) (fun _ _ _ h hp hs => (step_spec h hp hs).left) hr hc inv_start
  obtain ⟨h₂, hf⟩ : c₂.Inv ∧ c₁.Forward c₂ :=
    run_preserves (I := fun c => c.Inv ∧ c₁.Forward c)
      (fun _ _ _ h hp hs => (step_spec h.left hp hs).imp_right h.right.trans) hr' hc' ⟨h₁, .refl⟩
  refine ⟨hf, ?_, fun hw hd => ?_⟩
  · refine closeEvents_le.trans ?_
    cases h₂.phase
    case unended _ hc _   => exact hc ▸ Nat.zero_le _
    case posting _ hc _   => exact hc ▸ Nat.zero_le _
    case ended hc _       => exact hc ▸ Nat.le_refl _
  · have he : c₂.closeEvents = c₂.closes := by rw [closes, hd, List.append_nil]; rfl
    cases h₂.phase
    case unended hu _ _      => rw [hw] at hu; cases hu
    case posting hw' _ _     => cases hw.symm.trans hw'
    case ended hc _          => exact he.trans hc

-- The page closes an open connection.
def opening : List Event :=
  [.worker (.performed .connected), .worker .none, .worker .none, .idle false]

def closingRun : List Event :=
  [.close none [], .page, .page, .page, .page, .page, .worker .none, .worker .none, .worker .none, .worker .none,
    .idle false]

theorem forward_closingRun : ∃ c₁ c₂, run step {} opening = some c₁ ∧ run step c₁ closingRun = some c₂ ∧
    c₁.Forward c₂ ∧ c₂.closeEvents = 1 :=
  ⟨_, _, rfl, rfl, (@forward_of_run _ _ opening closingRun rfl (by decide) rfl (by decide)).left, rfl⟩

-- The page closes a connection during its handshake, and then hears of the opening.
theorem not_forward_handshake : ¬∀ (es es' : List Event) (c₁ c₂ : Conn), run step {} es = some c₁ →
    run step c₁ es' = some c₂ → c₁.Forward c₂ := by
  intro h
  have hf := h [.close none [], .page, .page, .page, .page, .page]
    [.worker (.performed .connected), .worker .none, .worker .none, .idle false] _ _ rfl rfl
  exact absurd hf.readyState (by decide)

end Conn

end Nordstjernen.Net.Socket
