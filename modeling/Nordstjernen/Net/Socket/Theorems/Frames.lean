import Nordstjernen.Net.Socket.WebSocket

namespace Nordstjernen.Net.Socket.Dispatcher

-- The equations of what is matched on most are derived here, once for all the proofs below.
section
attribute [local simp] step Nordstjernen.Net.Socket.closeOf taken Nordstjernen.Net.Socket.Received.next
  Nordstjernen.Net.Socket.Assembly.receive Nordstjernen.Net.Socket.Fragment.deliver Event.taken
  Nordstjernen.Net.Socket.Fragment.deliverChunks
end

variable {α : Type} {d : Dispatcher α} {taken posted : List α} {e : Event α} {es : List (Event α)}
  {callback : α} {busy : Bool}

-- What the steps keep, as long as the connection is not freed.
structure Inv (d : Dispatcher α) (taken : List α) : Prop where
  kept    : (d.delivered ++ d.waiting).Perm taken
  pending : d.pending = d.waiting.length

theorem Inv.start : ({} : Dispatcher α).Inv [] :=
  ⟨.refl _, rfl⟩

theorem dispatchRun_detached : (d.dispatchRun callback busy).detached = d.detached := by
  rw [dispatchRun]
  split <;> rfl

theorem step_detached (h : (d.step e).detached = false) : d.detached = false := by
  cases e
  case post callback droppable =>
    simp only [step, post] at h
    split at h <;> exact h
  case idle busy =>
    simp only [step] at h
    split at h
    · exact h
    · rwa [dispatchRun_detached] at h
  case timeout busy =>
    simp only [step] at h
    split at h
    · exact h
    · rwa [dispatchRun_detached] at h
  case free => cases h

-- A callback that has been taken off its queue is delivered, or put off.
theorem Inv.dispatchRun (hd : d.detached = false) (hk : (d.delivered ++ callback :: d.waiting).Perm taken)
    (hp : d.pending = d.waiting.length + 1) : (d.dispatchRun callback busy).Inv taken := by
  cases busy
  case false =>
    refine ⟨?_, ?_⟩
    · simpa [Dispatcher.dispatchRun, hd, waiting] using hk
    · simp [Dispatcher.dispatchRun, waiting, hp]
  case true =>
    refine ⟨?_, ?_⟩
    · have hmove : (d.timeouts ++ callback :: d.idle).Perm (callback :: d.waiting) := List.perm_middle
      simpa [Dispatcher.dispatchRun, hd, waiting] using (hmove.append_left d.delivered).trans hk
    · simp only [Dispatcher.dispatchRun, hd, waiting, hp, List.length_append]
      simp
      omega

theorem Inv.post {droppable : Bool} (h : d.Inv taken) :
    (d.post callback droppable).Inv (taken ++ (Event.post callback droppable).taken d) := by
  rw [Dispatcher.post, Event.taken]
  split
  case isTrue  => simpa using h
  case isFalse =>
    refine ⟨?_, ?_⟩
    · simpa [waiting] using h.kept.append_right [callback]
    · simp [waiting, h.pending, Nat.add_assoc]

theorem Inv.step (h : d.Inv taken) (hd : (d.step e).detached = false) : (d.step e).Inv (taken ++ e.taken d) := by
  have hd' := step_detached hd
  cases e
  case post callback droppable => exact h.post
  case idle busy =>
    rw [show (Event.idle busy).taken d = [] from rfl, List.append_nil, Dispatcher.step]
    split
    case h_1                      => exact h
    case h_2 callback later hidle =>
      have hmove : (callback :: (d.timeouts ++ later)).Perm d.waiting := by
        rw [waiting, hidle]
        exact List.perm_middle.symm
      exact .dispatchRun hd' ((hmove.append_left d.delivered).trans h.kept) (h.pending.trans hmove.length_eq.symm)
  case timeout busy =>
    rw [show (Event.timeout busy).taken d = [] from rfl, List.append_nil, Dispatcher.step]
    split
    case h_1                      => exact h
    case h_2 callback later htime =>
      have hsame : callback :: (later ++ d.idle) = d.waiting := by rw [waiting, htime, List.cons_append]
      exact .dispatchRun hd' (hsame ▸ h.kept) (h.pending.trans (congrArg List.length hsame.symm))
  case free => cases hd

theorem run_detached (h : (d.run es).detached = false) : d.detached = false := by
  induction es generalizing d
  case nil          => exact h
  case cons e es hi => exact step_detached (hi h)

theorem Inv.run (h : d.Inv posted) (hd : (d.run es).detached = false) : (d.run es).Inv (posted ++ d.taken es) := by
  induction es generalizing d posted
  case nil          => rwa [Dispatcher.taken, List.append_nil]
  case cons e es hi =>
    rw [Dispatcher.taken, ← List.append_assoc]
    have hd' : ((d.step e).run es).detached = false := hd
    exact hi (h.step (run_detached hd')) hd

-- Where nothing is put off, the idle sources alone keep the order.
theorem step_order (hd : d.detached = false) (ht : d.timeouts = []) (hb : e.busy = false)
    (hf : (d.step e).detached = false) :
    (d.step e).timeouts = [] ∧
      (d.step e).delivered ++ (d.step e).idle = d.delivered ++ d.idle ++ e.taken d := by
  cases e
  case post callback droppable =>
    simp only [step, post, Event.taken]
    split
    case isTrue  => exact ⟨ht, by simp⟩
    case isFalse => exact ⟨ht, by simp⟩
  case idle busy =>
    obtain rfl : busy = false := hb
    cases hidle : d.idle
    case nil  => simp [step, hidle, ht, Event.taken]
    case cons => simp [step, hidle, ht, dispatchRun, hd, Event.taken]
  case timeout busy => simp [step, ht, Event.taken]
  case free => cases hf

theorem run_order (ht : d.timeouts = []) (hb : ∀ e ∈ es, e.busy = false) (hf : (d.run es).detached = false) :
    (d.run es).timeouts = [] ∧ (d.run es).delivered ++ (d.run es).idle = d.delivered ++ d.idle ++ d.taken es := by
  induction es generalizing d
  case nil          => exact ⟨ht, by rw [Dispatcher.taken, List.append_nil]; rfl⟩
  case cons e es hi =>
    have hrun : ((d.step e).run es).detached = false := hf
    have hstep : (d.step e).detached = false := run_detached hrun
    obtain ⟨ht, ho⟩ := step_order (step_detached hstep) ht (hb e List.mem_cons_self) hstep
    obtain ⟨ht', ho'⟩ := hi ht (fun e he => hb e (List.mem_cons_of_mem _ he)) hf
    exact ⟨ht', by rw [Dispatcher.taken, ← List.append_assoc, ← ho]; exact ho'⟩

-- Until the connection is freed, whatever the order in which the main loop runs its sources and
-- whatever `busy` answers, a callback is lost only to the limit, and no order is lost to anything but `busy`.
theorem keeps_of_run (hf : (({} : Dispatcher α).run es).detached = false) :
    (({} : Dispatcher α).run es).Keeps (({} : Dispatcher α).taken es) ∧
      ((∀ e ∈ es, e.busy = false) → (({} : Dispatcher α).run es).delivered.IsPrefix (({} : Dispatcher α).taken es)) := by
  have hi : (({} : Dispatcher α).run es).Inv (({} : Dispatcher α).taken es) := Inv.start.run hf
  refine ⟨⟨hi.kept, fun droppable => ?_⟩, fun hb => ?_⟩
  · rw [refuses, hf, hi.pending, Bool.false_or]
  · exact ⟨_, (run_order rfl hb hf).right⟩

def twoPosts : List (Event Nat) :=
  [.post 1 false, .post 2 true, .idle false, .post 3 true, .idle false]

theorem keeps_twoPosts : (({} : Dispatcher Nat).run twoPosts).Keeps [1, 2, 3] ∧
    (({} : Dispatcher Nat).run twoPosts).delivered.IsPrefix [1, 2, 3] :=
  have hf : (({} : Dispatcher Nat).run twoPosts).detached = false := rfl
  have h := keeps_of_run hf
  ⟨h.left, h.right (by decide)⟩

-- The first of two callbacks is put off, and the last one of too many is refused.
theorem not_faithful_limit :
    (¬∀ es : List (Event Nat), (({} : Dispatcher Nat).run es).detached = false →
      (({} : Dispatcher Nat).run es).delivered.IsPrefix (posts es)) ∧
    ¬∀ es : List (Event Nat), (({} : Dispatcher Nat).run es).detached = false →
      ((({} : Dispatcher Nat).run es).delivered ++ (({} : Dispatcher Nat).run es).waiting).Perm (posts es) := by
  refine ⟨fun h => ?_, fun h => ?_⟩
  · have hp := h [.post 1 false, .post 2 false, .idle true, .idle false, .timeout false] rfl
    exact absurd hp (by decide)
  · have hp := h (List.replicate 257 (.post 1 true)) (by decide +kernel)
    exact absurd hp.length_eq (by decide +kernel)

end Nordstjernen.Net.Socket.Dispatcher

open Nordstjernen.Glib

namespace Nordstjernen.Net.Socket

namespace Assembly

variable {a : Assembly} {d : Delivery} {ds ds' : List Delivery} {flags : Flags} {c : Bytes} {cs : List Bytes}
  {offset : Nat}

theorem receive_of_nothing {a' : Assembly} (h : a.handleFrame d = (a', .nothing)) :
    a.receive (d :: ds) = a'.receive ds := by
  rw [receive, h]
  rfl

-- What closes the connection dispatches nothing.
theorem receive_of_closing {a' : Assembly} {received : Received} (h : a.handleFrame d = (a', received))
    (hd : received.dispatched = []) (hn : .drain ∉ received.next) : a.receive (d :: ds) = [] := by
  rw [receive, h]
  dsimp only
  rw [hd, if_neg hn]
  rfl

theorem receive_append_prefix : a.receive ds <+: a.receive (ds ++ ds') := by
  induction ds generalizing a
  case nil          => exact List.nil_prefix
  case cons d ds hi =>
    rw [List.cons_append, receive, receive]
    dsimp only
    split
    case isTrue  => exact (List.prefix_append_right_inj _).mpr hi
    case isFalse => exact List.prefix_rfl

theorem closeOf_eq (data : Bytes) : ∃ code reason, closeOf data = .peerClosed code reason := by
  match data with
  | []          => exact ⟨_, _, rfl⟩
  | [_]         => exact ⟨_, _, rfl⟩
  | _ :: _ :: _ =>
    rw [closeOf]
    split <;> exact ⟨_, _, rfl⟩

theorem receive_of_close (h : d.flags.close) : a.receive (d :: ds) = [] := by
  obtain ⟨code, reason, hc⟩ := closeOf_eq d.data
  have hf : a.handleFrame d = (a, .peerClosed code reason) := hc ▸ if_pos h
  exact receive_of_closing hf rfl (by simp [Received.next, dispatchClose])

-- Nothing that is dispatched comes behind a frame that closes the connection.
theorem receive_takeWhile : a.receive (ds.takeWhile (!·.flags.close)) = a.receive ds := by
  induction ds generalizing a
  case nil          => rfl
  case cons d ds hi =>
    by_cases hc : d.flags.close
    case pos => rw [List.takeWhile_cons_of_neg (by simpa using hc), receive_of_close hc, receive]
    case neg =>
      rw [List.takeWhile_cons_of_pos (by simpa using hc), receive, receive]
      dsimp only
      rw [hi]

theorem handleFrame_of_not_isData (hc : d.flags.close = false) (hd : d.isData = false) :
    a.handleFrame d = (a, .nothing) := by
  rw [handleFrame, hc]
  rw [Delivery.isData] at hd
  cases hp : d.flags.ping
  case true  => rfl
  case false =>
    rw [hp] at hd
    simp only [Bool.not_false, Bool.true_and] at hd
    simp [hd]

-- Frames that are not of a message change nothing of it.
theorem receive_filter (h : ∀ d ∈ ds, d.flags.close = false) :
    a.receive (ds.filter Delivery.isData) = a.receive ds := by
  induction ds generalizing a
  case nil          => rfl
  case cons d ds hi =>
    have hi (a : Assembly) := hi (a := a) fun d hd => h d (List.mem_cons_of_mem _ hd)
    cases hd : d.isData
    case true  =>
      rw [List.filter_cons_of_pos hd, receive, receive]
      dsimp only
      rw [hi]
    case false =>
      rw [List.filter_cons_of_neg (by simp [hd]), hi]
      exact (receive_of_nothing (handleFrame_of_not_isData (h d List.mem_cons_self) hd)).symm

-- What is received of a message that has begun.
structure OfMessage (flags : Flags) : Prop where
  close : flags.close = false
  ping  : flags.ping = false
  data  : flags.text || flags.binary || flags.cont

theorem handleFrame_of_inMessage (hd : OfMessage d.flags) (ha : a.inMessage) : a.handleFrame d =
    if d.data ≠ [] ∧ a.data.length + d.data.length > Conn.maxMessage then
      ({ a with data := [], inMessage := false }, .tooBig)
    else if d.bytesleft = 0 ∧ !d.flags.cont then finish { a with data := a.data ++ d.data }
    else ({ a with data := a.data ++ d.data }, .nothing) := by
  have hb : ¬(d.offset = 0 ∧ !a.inMessage ∧ (d.flags.text || d.flags.binary)) := fun h => by simp [ha] at h
  rw [handleFrame, if_neg (by simp [hd.close]), if_neg (by simp [hd.ping]), if_neg (by simp [hd.data])]
  dsimp only
  rw [if_neg hb, if_neg (by simp [ha])]

-- The first delivery of a message is received as if it had begun, with nothing in it.
theorem handleFrame_of_begins (hd : OfMessage d.flags) (ha : a.inMessage = false) (ho : d.offset = 0)
    (ht : d.flags.text || d.flags.binary) :
    a.handleFrame d = handleFrame { isBinary := d.flags.binary, inMessage := true } d := by
  have hb : d.offset = 0 ∧ !a.inMessage ∧ (d.flags.text || d.flags.binary) := ⟨ho, by simp [ha], ht⟩
  rw [handleFrame_of_inMessage hd (a := { isBinary := d.flags.binary, inMessage := true }) rfl, handleFrame,
    if_neg (by simp [hd.close]), if_neg (by simp [hd.ping]), if_neg (by simp [hd.data])]
  dsimp only
  rw [if_pos hb]
  rfl

-- What is dispatched at the end of a message, and behind it.
def conclude (a : Assembly) (ds : List Delivery) : List (Bool × Bytes) :=
  let (a, received) := a.finish
  received.dispatched ++ if .drain ∈ received.next then receive a ds else []

theorem receive_of_finish (h : a.handleFrame d = finish { a with data := c }) :
    a.receive (d :: ds) = conclude { a with data := c } ds := by
  rw [receive, h]
  rfl

theorem receive_of_tooBig {a' : Assembly} (h : a.handleFrame d = (a', .tooBig)) : a.receive (d :: ds) = [] :=
  receive_of_closing h rfl (by simp [Received.next, dispatchClose])

-- A frame of a message that has begun, in whatever chunks.
theorem receive_deliverChunks (hf : OfMessage flags) (ha : a.inMessage)
    (hm : a.data.length ≤ Conn.maxMessage) (hc : Chunked cs) :
    a.receive (Fragment.deliverChunks flags offset cs ++ ds) =
      if a.data.length + cs.flatten.length > Conn.maxMessage then []
      else if flags.cont then receive { a with data := a.data ++ cs.flatten } ds
      else conclude { a with data := a.data ++ cs.flatten } ds := by
  induction cs generalizing a offset
  case nil => cases hc
  case cons c cs hi =>
    rw [Fragment.deliverChunks, List.cons_append, List.flatten_cons, List.length_append, ← Nat.add_assoc]
    have hframe := handleFrame_of_inMessage (d := ⟨flags, offset, cs.flatten.length, c⟩) hf ha
    by_cases hbig : a.data.length + c.length > Conn.maxMessage
    case pos =>
      have hne : c ≠ [] := by
        rintro rfl
        exact absurd hbig (not_lt.mpr hm)
      rw [if_pos ⟨hne, hbig⟩] at hframe
      rw [receive_of_tooBig hframe, if_pos (by omega)]
    case neg =>
      rw [if_neg (hbig ·.2)] at hframe
      match cs with
      | []       =>
        rw [List.flatten_nil, List.append_nil, List.length_nil, Nat.add_zero, if_neg hbig]
        cases hcont : flags.cont
        case true  =>
          rw [if_neg (by simp [hcont])] at hframe
          exact receive_of_nothing hframe
        case false =>
          rw [if_pos (by simp [hcont])] at hframe
          exact receive_of_finish hframe
      | c' :: cs =>
        obtain ⟨hleft, hc⟩ := hc
        rw [if_neg fun h => hleft (List.length_eq_zero_iff.mp h.1)] at hframe
        rw [receive_of_nothing hframe, hi (a := { a with data := a.data ++ c }) ha (by simpa using hbig) hc]
        simp only [List.length_append, List.append_assoc]

-- The frames of a message that has begun.
theorem receive_deliver {fs : List Fragment} (hne : fs ≠ []) (ht : (fs.getLast hne).typed) (ha : a.inMessage)
    (hm : a.data.length ≤ Conn.maxMessage) :
    a.receive (Fragment.deliver fs ++ ds) =
      if a.data.length + (fs.flatMap Fragment.payload).length > Conn.maxMessage then []
      else conclude { a with data := a.data ++ fs.flatMap Fragment.payload } ds := by
  induction fs generalizing a
  case nil          => exact absurd rfl hne
  case cons f fs hi =>
    rw [Fragment.deliver, List.append_assoc]
    match fs with
    | []      =>
      have hf : OfMessage { text := f.text, binary := f.binary, cont := false } :=
        ⟨rfl, rfl, by simpa [Fragment.typed] using ht⟩
      rw [List.isEmpty_nil, Bool.not_true, receive_deliverChunks hf ha hm f.chunked, List.flatMap_singleton,
        if_neg (c := (false : Bool) = true) Bool.false_ne_true]
      rfl
    | g :: fs =>
      have hf : OfMessage { text := f.text, binary := f.binary, cont := true } := ⟨rfl, rfl, Bool.or_true _⟩
      rw [List.isEmpty_cons, Bool.not_false, receive_deliverChunks hf ha hm f.chunked, List.flatMap_cons,
        List.length_append, ← Nat.add_assoc, if_pos (c := (true : Bool) = true) rfl, ← Fragment.payload]
      by_cases hbig : a.data.length + f.payload.length > Conn.maxMessage
      case pos => rw [if_pos hbig, if_pos (by omega)]
      case neg =>
        rw [if_neg hbig, hi (a := { a with data := a.data ++ f.payload }) (List.cons_ne_nil _ _) ht ha
          (by simpa using hbig)]
        simp only [List.length_append, List.append_assoc]

theorem conclude_eq : a.conclude ds =
    if !a.isBinary → a.data ≠ [] → gUtf8Validate a.data then
      (!a.isBinary, a.data) :: receive { a with data := [], inMessage := false } ds
    else [] := by
  rw [conclude, finish]
  dsimp only
  by_cases hgood : !a.isBinary → a.data ≠ [] → gUtf8Validate a.data
  case pos =>
    have hbad : ¬(!a.isBinary && a.data ≠ [] && !gUtf8Validate a.data) := by simpa using hgood
    rw [if_neg hbad, if_pos hgood]
    exact congrArg _ (if_pos List.mem_concat_self)
  case neg =>
    have hbad : !a.isBinary && a.data ≠ [] && !gUtf8Validate a.data := by simpa [and_assoc] using hgood
    rw [if_pos hbad, if_neg hgood, if_neg (by simp [Received.next, dispatchClose])]
    rfl

-- A message, from any state between two of them.
theorem receive_message {m : Message} (ha : a.inMessage = false) :
    a.receive (Fragment.deliver m.fragments ++ ds) =
      if m.Accepted then (m.isText, m.payload) :: receive { isBinary := m.first.binary } ds else [] := by
  have hbegin : a.receive (Fragment.deliver m.fragments ++ ds) =
      receive { isBinary := m.first.binary, inMessage := true } (Fragment.deliver m.fragments ++ ds) := by
    rw [Message.fragments, Fragment.deliver]
    match hc : m.first.chunks with
    | []      =>
      have hchunked := m.first.chunked
      rw [hc] at hchunked
      exact hchunked.elim
    | c :: cs =>
      have htyped : m.first.text || m.first.binary := m.typedFirst
      have hf : OfMessage { text := m.first.text, binary := m.first.binary, cont := !m.others.isEmpty } :=
        ⟨rfl, rfl, by rw [htyped, Bool.true_or]⟩
      rw [Fragment.deliverChunks, List.cons_append, List.cons_append, receive, receive,
        handleFrame_of_begins (d := ⟨_, 0, _, c⟩) hf ha rfl htyped]
  rw [hbegin]
  refine (receive_deliver (List.cons_ne_nil m.first m.others) m.typedLast rfl (Nat.zero_le _)).trans ?_
  rw [conclude_eq]
  dsimp only
  rw [List.length_nil, Nat.zero_add, List.nil_append, ← Message.fragments, ← Message.payload, ← Message.isText]
  by_cases hlen : m.payload.length ≤ Conn.maxMessage
  case pos =>
    rw [if_neg (not_lt.mpr hlen)]
    exact if_congr ⟨fun h => ⟨hlen, h⟩, And.right⟩ rfl rfl
  case neg => rw [if_pos (not_le.mp hlen), if_neg fun h => hlen h.1]

end Assembly

namespace Message

-- What is dispatched of the messages that come: those before the first one that is refused, each with the
-- type of its first frame.
def dispatched (ms : List Message) : List (Bool × Bytes) :=
  (ms.takeWhile (·.Accepted)).map fun m => (m.isText, m.payload)

variable {a : Assembly} {ds : List Delivery} {ms : List Message}

theorem receive_messages (ha : a.inMessage = false) :
    a.receive (ms.flatMap fun m => Fragment.deliver m.fragments) = dispatched ms := by
  induction ms generalizing a
  case nil          => rfl
  case cons m ms hi =>
    rw [List.flatMap_cons, Assembly.receive_message ha, dispatched]
    by_cases hm : m.Accepted
    case pos =>
      rw [if_pos hm, List.takeWhile_cons_of_pos (p := fun m => decide (Accepted m)) (decide_eq_true hm), hi rfl,
        List.map_cons, dispatched]
    case neg =>
      rw [if_neg hm, List.takeWhile_cons_of_neg (p := fun m => decide (Accepted m)) (by simpa using hm),
        List.map_nil]

-- However the frames of some messages are delivered, with control frames among them and as far as they
-- come, what is dispatched are these messages, up to the first one that is refused.
theorem dispatched_of_frames (h : (ds.takeWhile (!·.flags.close)).filter Delivery.isData <+:
      ms.flatMap fun m => Fragment.deliver m.fragments) :
    Assembly.receive {} ds <+: dispatched ms ∧
      ((ds.takeWhile (!·.flags.close)).filter Delivery.isData =
          ms.flatMap (fun m => Fragment.deliver m.fragments) →
        Assembly.receive {} ds = dispatched ms) := by
  have hopen : ∀ d ∈ ds.takeWhile (!·.flags.close), d.flags.close = false := fun d hd => by
    simpa using List.mem_takeWhile_imp hd
  rw [← Assembly.receive_takeWhile, ← Assembly.receive_filter hopen, ← receive_messages (a := {}) rfl]
  obtain ⟨rest, hrest⟩ := h
  refine ⟨?_, fun hall => by rw [hall]⟩
  rw [← hrest]
  exact Assembly.receive_append_prefix

-- Two frames, the first one in two chunks, with a ping between them.
def twoFrames : Message where
  first      := { text := true, binary := false, chunks := [[0xc3], [0xa4, 98]], chunked := ⟨nofun, trivial⟩ }
  others     := [{ text := true, binary := false, chunks := [[99]], chunked := trivial }]
  typedFirst := rfl
  typedLast  := rfl

def twoFramesAndPing : List Delivery :=
  [⟨{ text := true, cont := true }, 0, 2, [0xc3]⟩, ⟨{ text := true, cont := true }, 1, 0, [0xa4, 98]⟩,
    ⟨{ ping := true }, 0, 0, []⟩, ⟨{ text := true }, 0, 0, [99]⟩]

theorem receive_twoFramesAndPing : Assembly.receive {} twoFramesAndPing = [(true, [0xc3, 0xa4, 98, 99])] :=
  ((@dispatched_of_frames twoFramesAndPing [twoFrames] ⟨[], rfl⟩).2 rfl).trans (by decide +kernel)

end Message

end Nordstjernen.Net.Socket
