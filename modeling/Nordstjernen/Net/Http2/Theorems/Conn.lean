import Mathlib.Data.List.Nodup
import Nordstjernen.Net.Http2.Conn

namespace Nordstjernen.Net.Http2

section

variable {κ ο : Type}

namespace Phase

-- The connection on which a request is pending or under way.
def queuedOn : Phase κ ο → Option κ
  | pushed k | waiting k          => some k
  | unref _ next | joining _ next => next.queuedOn
  | _                             => none

-- Before the request of an attempt is pushed.
def beforePush : Phase κ ο → Bool
  | pushed _ | waiting _ | returned => false
  | unref _ next | joining _ next   => next.beforePush
  | _                               => true

theorem beforePush_eq_false {phase : Phase κ ο} {k : κ} (h : phase.queuedOn = some k) :
    phase.beforePush = false := by
  induction phase <;> simp_all [queuedOn, beforePush]

end Phase

end

namespace Session

variable {ρ : Type} {session : Session ρ} {id : Nat} {code : UInt32}

@[simp]
theorem forget_userData :
    (session.forget id).userData = Function.update session.userData id none :=
  rfl

@[simp]
theorem forget_nextId : (session.forget id).nextId = session.nextId :=
  rfl

@[simp]
theorem forget_refusals : (session.forget id).refusals = session.refusals :=
  rfl

@[simp]
theorem close_userData :
    (session.close id code).userData = Function.update session.userData id none :=
  rfl

@[simp]
theorem close_nextId : (session.close id code).nextId = session.nextId :=
  rfl

theorem subset_close_refusals : session.refusals ⊆ (session.close id code).refusals := by
  simp only [close]
  split <;> simp

theorem mem_close_refusals : id ∈ (session.close id refusedStream).refusals := by
  simp [close]

theorem foldl_forget (session : Session ρ) (ids : List Nat) :
    let session' := ids.foldl forget session
    session'.nextId = session.nextId ∧ session'.refusals = session.refusals ∧
      ∀ id, session'.userData id = if id ∈ ids then none else session.userData id := by
  induction ids generalizing session
  case nil => simp
  case cons id ids hi =>
    obtain ⟨hn, hr, hu⟩ := hi (session.forget id)
    refine ⟨hn, hr, fun id' => ?_⟩
    rw [List.foldl_cons, hu]
    by_cases he : id' = id <;> simp [he]

end Session

namespace Conn

variable {ρ : Type} {conn : Conn ρ} {r : ρ} {id : Nat}

-- A connection that no thread is changing.
structure Ok (conn : Conn ρ) : Prop where
  counted : conn.active = conn.streams.keys.length
  lookup  : ∀ id, conn.streams.lookup id = conn.session.userData id
  below   : ∀ id, conn.session.nextId ≤ id → conn.session.userData id = none
  nodup   : conn.pending.Nodup
  dead    : conn.io = .leaving ∨ conn.io = .exited → conn.dead
  exited  : conn.io = .exited → conn.pending = [] ∧ ∀ id, conn.session.userData id = none

theorem ok_default : ({} : Conn ρ).Ok := by
  constructor <;> simp

theorem mem_entries (h : conn.Ok) : ⟨id, r⟩ ∈ conn.streams.entries ↔ conn.session.userData id = some r := by
  rw [← h.lookup, ← Option.mem_def, AList.mem_lookup_iff]

theorem mem_requests (h : conn.Ok) : r ∈ conn.requests ↔ ∃ id, conn.session.userData id = some r := by
  simp only [requests, List.mem_map, ← mem_entries h]
  constructor
  · rintro ⟨⟨id, r⟩, he, rfl⟩
    exact ⟨id, he⟩
  · rintro ⟨id, he⟩
    exact ⟨⟨id, r⟩, he, rfl⟩

theorem Ok.submit (h : conn.Ok) (hio : conn.io ≠ .exited) : (conn.submit r).Ok := by
  have hn : conn.streams.lookup conn.session.nextId = none := by rw [h.lookup, h.below _ le_rfl]
  have hk : conn.session.nextId ∉ conn.streams.keys := AList.lookup_eq_none.mp hn
  obtain ⟨h₁, h₂, h₃, h₄, h₅, h₆⟩ := h
  constructor <;> simp only [Conn.submit, Session.submit]
  case counted => simp [h₁, List.erase_of_not_mem hk]
  case lookup =>
    intro id
    by_cases he : id = conn.session.nextId
    case pos => rw [he, AList.lookup_insert, Function.update_self]
    case neg => rw [AList.lookup_insert_ne he, Function.update_of_ne he, h₂]
  case below => grind
  all_goals grind [Conn.dead]

theorem Ok.remove (h : conn.Ok) {session : Session ρ} (hr : conn.session.userData id = some r)
    (hd : session.userData = Function.update conn.session.userData id none)
    (hi : session.nextId = conn.session.nextId) :
    ({ conn.remove id with session } : Conn ρ).Ok := by
  have hk : id ∈ conn.streams.keys :=
    AList.lookup_isSome.mp (by rw [h.lookup, hr]; rfl)
  obtain ⟨h₁, h₂, h₃, h₄, h₅, h₆⟩ := h
  constructor <;> simp only [Conn.remove, hd, hi]
  case counted => simp [h₁, List.length_erase_of_mem hk]
  case lookup =>
    intro id'
    by_cases he : id' = id
    case pos => rw [he, AList.lookup_erase, Function.update_self]
    case neg => rw [AList.lookup_erase_ne he, Function.update_of_ne he, h₂]
  all_goals grind [Conn.dead]

theorem Ok.settle {now : Int} (h : conn.Ok) : (conn.settle now).Ok where
  counted := h.counted
  lookup  := h.lookup
  below   := h.below
  nodup   := h.nodup
  dead    := by grind [Conn.settle, Conn.dead]
  exited  := by grind [Conn.settle]

theorem Ok.stopping (stopping : Bool) (h : conn.Ok) :
    ({ conn with stopping := conn.stopping || stopping } : Conn ρ).Ok := by
  have hd := h.dead
  exact { h with dead := by grind [Conn.dead] }

theorem Ok.push (h : conn.Ok) (hr : r ∉ conn.pending) (hio : conn.io ≠ .exited) :
    ({ conn with pending := conn.pending ++ [r] } : Conn ρ).Ok :=
  { h with
    nodup  := h.nodup.append (List.nodup_singleton r) (by simpa using hr)
    exited := fun he => absurd he hio }

theorem Ok.reuse {now : Int} (h : conn.Ok) (hr : r ∉ conn.pending) (hd : conn.dead = false) :
    (conn.reuse r now).Ok := by
  have hio : conn.io ≠ .exited := fun he => by simpa [hd] using h.dead (.inr he)
  exact { h.push hr hio with }

theorem Ok.ioFailed (failed : Bool) (h : conn.Ok) :
    ({ conn with ioFailed := conn.ioFailed || failed } : Conn ρ).Ok := by
  have hd := h.dead
  exact { h with dead := by grind [Conn.dead] }

end Conn

theorem Send.Refused.mono {ρ κ : Type} {conns conns' : κ → Conn ρ} {sent : Send κ}
    (h : sent.Refused conns) (hc : ∀ k, (conns k).session.refusals ⊆ (conns' k).session.refusals) :
    sent.Refused conns' := by
  cases sent
  case http1        => exact h
  case stream k id  => exact hc k h

theorem Send.Refused.update {ρ κ : Type} [DecidableEq κ] {conns : κ → Conn ρ} {k : κ} {conn : Conn ρ}
    {sent : Send κ} (h : sent.Refused conns)
    (hc : (conns k).session.refusals ⊆ conn.session.refusals) :
    sent.Refused (Function.update conns k conn) := by
  refine h.mono fun k' => ?_
  rw [Function.update_apply]
  split
  case isTrue he => rw [he]; exact hc
  case isFalse   => exact List.Subset.refl _

theorem forall_of_pairwise_of_getLast {α : Type} {p : α → Prop} {xs : List α}
    (h : xs.Pairwise fun a _ => p a) (hl : ∀ a ∈ xs.getLast?, p a) : ∀ a ∈ xs, p a := by
  rcases xs.eq_nil_or_concat with rfl | ⟨xs, a, rfl⟩
  · nofun
  · rw [List.concat_eq_append] at h hl ⊢
    have ha := hl a (by simp)
    intro b hb
    rcases List.mem_append.mp hb with hb | hb
    · exact (List.pairwise_append.mp h).right.right b hb a (by simp)
    · exact List.mem_singleton.mp hb ▸ ha

namespace Request

section

variable {ρ κ ο : Type} {conns conns' : κ → Conn ρ} {conn : Conn ρ} {r : ρ} {k : κ} {c c' : Request κ ο}

-- A request that no thread is changing, beside the connections.
structure Ok (conns : κ → Conn ρ) (r : ρ) (c : Request κ ο) : Prop where
  stream  : ∀ k id, (conns k).session.userData id = some r →
    c.phase.queuedOn = some k ∧ c.submitted ∧ ¬c.done ∧ c.streamId = id ∧
      c.sends.getLast? = some (.stream k id)
  pending : ∀ k, r ∈ (conns k).pending → c.phase.queuedOn = some k ∧ ¬c.submitted ∧ ¬c.done
  queued  : ∀ k, c.phase.queuedOn = some k → ¬c.done →
    r ∈ (conns k).pending ∨ ∃ id, (conns k).session.userData id = some r
  clean   : c.phase.beforePush → ¬c.submitted ∧ ¬c.done
  unsent  : ¬c.submitted → ¬c.refused
  refused : c.phase.beforePush ∨ c.phase.queuedOn.isSome → (c.submitted → c.refused) →
    ∀ sent ∈ c.sends, sent.Refused conns
  once    : c.sends.Pairwise fun sent _ => sent.Refused conns

-- It only sees its own places in the connections, and what was refused.
theorem Ok.frame (h : c.Ok conns r) (hp : ∀ k, r ∈ (conns' k).pending ↔ r ∈ (conns k).pending)
    (hu : ∀ k id, (conns' k).session.userData id = some r ↔ (conns k).session.userData id = some r)
    (hr : ∀ k, (conns k).session.refusals ⊆ (conns' k).session.refusals) : c.Ok conns' r where
  stream k id hs      := h.stream k id ((hu k id).mp hs)
  pending k hr        := h.pending k ((hp k).mp hr)
  queued k hq hd      := by simpa only [hp, hu] using h.queued k hq hd
  clean               := h.clean
  unsent              := h.unsent
  refused hq hc s hs  := (h.refused hq hc s hs).mono hr
  once                := h.once.imp fun hs => hs.mono hr

-- A request that stays where it is.
theorem Ok.stay (h : c.Ok conns r) (hq : c'.phase.queuedOn = c.phase.queuedOn)
    (hb : c'.phase.beforePush → c.phase.beforePush) (hid : c'.streamId = c.streamId)
    (hsubmitted : c'.submitted = c.submitted) (hdone : c'.done = c.done) (hrefused : c'.refused = c.refused)
    (hsends : c'.sends = c.sends) : c'.Ok conns r := by
  obtain ⟨h₁, h₂, h₃, h₄, h₅, h₆, h₇⟩ := h
  constructor <;> grind

variable [DecidableEq κ]

-- The end of a request on its connection.
theorem Ok.finish (h : c.Ok conns r) (hq : c.phase.queuedOn = some k) (hp : r ∉ conn.pending)
    (hu : ∀ id, conn.session.userData id ≠ some r)
    (hf : (conns k).session.refusals ⊆ conn.session.refusals) (hd : c'.done)
    (hphase : c'.phase = c.phase) (hsubmitted : c'.submitted = c.submitted) (hsends : c'.sends = c.sends)
    (hrefused : c'.refused → c.refused ∨ c.submitted ∧
      ∀ sent ∈ c.sends.getLast?, sent.Refused (Function.update conns k conn)) :
    c'.Ok (Function.update conns k conn) r := by
  have hm : ∀ sent ∈ c.sends, sent.Refused conns → sent.Refused (Function.update conns k conn) :=
    fun _ _ hs => hs.update hf
  have hb := Phase.beforePush_eq_false hq
  obtain ⟨h₁, h₂, h₃, h₄, h₅, h₆, h₇⟩ := h
  constructor
  case once => rw [hsends]; exact h₇.imp fun hs => hs.update hf
  case refused =>
    intro _ hr
    rw [hsubmitted] at hr
    rw [hsends]
    by_cases hs : c.submitted
    case neg => exact fun sent hm => (h₆ (by simp [hq]) (absurd · hs) sent hm).update hf
    case pos =>
      rcases hrefused (hr hs) with hc | hc
      · exact fun sent hm => (h₆ (by simp [hq]) (fun _ => hc) sent hm).update hf
      · exact forall_of_pairwise_of_getLast (h₇.imp fun hs => hs.update hf) hc.right
  case unsent => grind
  case clean  => rw [hphase, hb]; exact nofun
  all_goals simp only [Function.update_apply]; grind

-- A request that is pushed.
theorem Ok.push (h : c.Ok conns r) (hb : c.phase.beforePush) (hq : c.phase.queuedOn = none)
    (hp : r ∈ conn.pending) (hs : conn.session = (conns k).session) (hphase : c'.phase.queuedOn = some k)
    (hsubmitted : c'.submitted = c.submitted) (hdone : c'.done = c.done) (hrefused : c'.refused = c.refused)
    (hsends : c'.sends = c.sends) : c'.Ok (Function.update conns k conn) r := by
  have hf : (conns k).session.refusals ⊆ conn.session.refusals := hs ▸ List.Subset.refl _
  have hb' := Phase.beforePush_eq_false hphase
  obtain ⟨h₁, h₂, h₃, h₄, h₅, h₆, h₇⟩ := h
  constructor
  case once    => rw [hsends]; exact h₇.imp fun hs => hs.update hf
  case refused =>
    rw [hsends, hsubmitted, hrefused]
    exact fun _ hc sent hs => (h₆ (.inl hb) hc sent hs).update hf
  case unsent => grind
  case clean  => grind
  all_goals simp only [Function.update_apply]; grind

-- A pending request that gets its stream.
theorem Ok.submit {id : Nat} (h : c.Ok conns r) (hr : r ∈ (conns k).pending) (hp : r ∉ conn.pending)
    (hu : ∀ id', conn.session.userData id' = some r ↔ id' = id)
    (hf : (conns k).session.refusals ⊆ conn.session.refusals) :
    ({ c with streamId := id, submitted := true, sends := c.sends ++ [.stream k id] } : Request κ ο).Ok
      (Function.update conns k conn) r := by
  have hq := h.pending k hr
  have hb := Phase.beforePush_eq_false hq.left
  have hc := h.refused (by simp [hq.left]) (absurd · hq.right.left)
  have hn := h.unsent hq.right.left
  obtain ⟨h₁, h₂, h₃, h₄, h₅, h₆, h₇⟩ := h
  constructor
  case once =>
    refine List.pairwise_append.mpr ⟨h₇.imp fun hs => hs.update hf, List.pairwise_singleton _ _, ?_⟩
    exact fun sent hs _ _ => (hc sent hs).update hf
  case refused => exact fun _ hr => absurd (hr rfl) hn
  case unsent  => exact fun hn => absurd rfl hn
  case clean   => exact fun hn => absurd hn (by simp [hb])
  case queued  =>
    intro k' hk' _
    have he : k' = k := by grind
    exact .inr ⟨id, by rw [he, Function.update_self, hu]⟩
  all_goals simp only [Function.update_apply]; grind

end

end Request

end Nordstjernen.Net.Http2
