import Nordstjernen.Net.Http2.Pool
import Nordstjernen.Net.Http2.Theorems.Conn

namespace Nordstjernen.Net.Http2

namespace State

variable {ρ κ ο : Type} {s t : State ρ κ ο} {k : κ} {r : ρ} {id : Nat}

structure Inv (s : State ρ κ ο) : Prop where
  conns    : ∀ k, (s.conns k).Ok
  requests : ∀ r, (s.requests r).Ok s.conns r

theorem inv_init {origin : ρ → ο} : ({ requests := fun r => { origin := origin r } } : State ρ κ ο).Inv where
  conns _    := Conn.ok_default
  requests _ := by constructor <;> simp [Phase.queuedOn]

section

variable [DecidableEq ρ] [DecidableEq κ]

-- A step at one connection and for one request.
def update (s : State ρ κ ο) (k : κ) (conn : Conn ρ) (r : ρ) (c : Request κ ο) : State ρ κ ο :=
  { s with requests := Function.update s.requests r c, conns := Function.update s.conns k conn }

theorem Inv.update {c : Request κ ο} {conn : Conn ρ} (h : s.Inv) (hc : conn.Ok)
    (hr : c.Ok (Function.update s.conns k conn) r)
    (hp : ∀ r' ≠ r, r' ∈ conn.pending ↔ r' ∈ (s.conns k).pending)
    (hu : ∀ r' ≠ r, ∀ id, conn.session.userData id = some r' ↔ (s.conns k).session.userData id = some r')
    (hf : (s.conns k).session.refusals ⊆ conn.session.refusals) : (s.update k conn r c).Inv where
  conns k' := by
    simp only [State.update, Function.update_apply]
    split
    case isTrue  => exact hc
    case isFalse => exact h.conns k'
  requests r' := by
    simp only [State.update]
    by_cases he : r' = r
    case pos => simpa [he] using hr
    case neg =>
      rw [Function.update_of_ne he]
      apply (h.requests r').frame
      all_goals simp only [Function.update_apply]; grind

omit [DecidableEq ρ] in
-- What only concerns the flags of a connection.
theorem Inv.modifyConn {f : Conn ρ → Conn ρ} (h : s.Inv) (hf : (f (s.conns k)).Ok)
    (hp : (f (s.conns k)).pending = (s.conns k).pending)
    (hu : (f (s.conns k)).session.userData = (s.conns k).session.userData)
    (hr : (s.conns k).session.refusals ⊆ (f (s.conns k)).session.refusals) : (s.modifyConn k f).Inv where
  conns k' := by
    simp only [State.modifyConn, Function.update_apply]
    split
    case isTrue  => exact hf
    case isFalse => exact h.conns k'
  requests r := by
    apply (h.requests r).frame
    all_goals simp only [State.modifyConn, Function.update_apply]; grind

omit [DecidableEq κ] in
-- What only concerns a request.
theorem Inv.modifyRequest {f : Request κ ο → Request κ ο} (h : s.Inv)
    (hf : (f (s.requests r)).Ok s.conns r) : (s.modifyRequest r f).Inv where
  conns       := h.conns
  requests r' := by
    simp only [State.modifyRequest, Function.update_apply]
    split
    case isTrue he  => rw [he]; exact hf
    case isFalse    => exact h.requests r'

omit [DecidableEq κ] in
theorem Inv.setPhase {phase : Phase κ ο} (h : s.Inv)
    (hq : phase.queuedOn = (s.requests r).phase.queuedOn)
    (hb : phase.beforePush → (s.requests r).phase.beforePush) : (s.setPhase r phase).Inv :=
  h.modifyRequest ((h.requests r).stay hq hb rfl rfl rfl rfl rfl)

theorem submit_eq {rs rejected : List ρ} (id : Nat) (hid : id = (s.conns k).session.nextId) :
    (s.modifyConn k ({ · with pending := rs })).submit k rejected r =
      if r ∈ rejected ∨ 2 ^ 31 ≤ id then
        s.update k { s.conns k with pending := rs, goaway := true } r (s.requests r).fail
      else
        s.update k (({ s.conns k with pending := rs } : Conn ρ).submit r) r { s.requests r with
          streamId  := id
          submitted := true
          sends     := (s.requests r).sends ++ [.stream k id] } := by
  simp [State.submit, State.modifyConn, State.modifyRequest, State.update, hid]

-- The I/O thread takes the first of its pending requests.
theorem Inv.submit {rs rejected : List ρ} (h : s.Inv) (hp : (s.conns k).pending = r :: rs)
    (hio : (s.conns k).io ≠ .exited) :
    ((s.modifyConn k ({ · with pending := rs })).submit k rejected r).Inv := by
  have hnd : r ∉ rs ∧ rs.Nodup := List.nodup_cons.mp (hp ▸ (h.conns k).nodup)
  have hm : r ∈ (s.conns k).pending := by simp [hp]
  have hr := (h.requests r).pending k hm
  have hn : ∀ id, (s.conns k).session.userData id ≠ some r :=
    fun id hu => hr.right.left ((h.requests r).stream k id hu).right.left
  have ho : ({ s.conns k with pending := rs } : Conn ρ).Ok :=
    { h.conns k with nodup := hnd.right, exited := fun he => absurd he hio }
  have hb := (h.conns k).below _ le_rfl
  rw [submit_eq _ rfl]
  split
  case isTrue =>
    apply h.update
    case hc => exact { ho with dead := by simp [Conn.dead] }
    case hr => exact (h.requests r).finish hr.left hnd.left hn (List.Subset.refl _) rfl rfl rfl rfl .inl
    case hf => exact List.Subset.refl _
    all_goals grind
  case isFalse =>
    apply h.update
    case hc => exact ho.submit hio
    case hr =>
      apply (h.requests r).submit hm hnd.left
      · simp only [Conn.submit, Session.submit, Function.update_apply]
        grind
      · exact List.Subset.refl _
    case hf => exact List.Subset.refl _
    all_goals simp only [Conn.submit, Session.submit, Function.update_apply]; grind

theorem submit_conn (s : State ρ κ ο) (k : κ) (r : ρ) (rs rejected : List ρ) :
    let conn := ((s.modifyConn k ({ · with pending := rs })).submit k rejected r).conns k
    conn.pending = rs ∧ conn.io = (s.conns k).io := by
  rw [submit_eq _ rfl]
  split <;> simp [State.update, Conn.submit]

theorem Inv.submitPending {rs : List ρ} (rejected : List ρ) (h : s.Inv) (hp : (s.conns k).pending = rs)
    (hio : (s.conns k).io ≠ .exited) : (s.submitPending k rejected rs).Inv := by
  induction rs generalizing s
  case nil => exact h
  case cons r rs hi =>
    have hc := submit_conn s k r rs rejected
    exact hi (h.submit hp hio) hc.left (hc.right ▸ hio)

-- A stream that ends, and its request with it.
theorem Inv.removeStream {session : Session ρ} {lastUsed : Int} {c : Request κ ο} (h : s.Inv)
    (hu : (s.conns k).session.userData id = some r)
    (hd : session.userData = Function.update (s.conns k).session.userData id none)
    (hi : session.nextId = (s.conns k).session.nextId)
    (hf : (s.conns k).session.refusals ⊆ session.refusals) (hdone : c.done)
    (hphase : c.phase = (s.requests r).phase) (hsubmitted : c.submitted = (s.requests r).submitted)
    (hsends : c.sends = (s.requests r).sends)
    (hrefused : c.refused → (s.requests r).refused ∨ id ∈ session.refusals) :
    (s.update k { (s.conns k).remove id with lastUsed, session } r c).Inv := by
  have hr := (h.requests r).stream k id hu
  have hn : r ∉ (s.conns k).pending := fun hp => ((h.requests r).pending k hp).right.left hr.right.left
  have hx : ∀ id', (s.conns k).session.userData id' = some r → id' = id :=
    fun id' hu' => ((h.requests r).stream k id' hu').right.right.right.left.symm.trans
      hr.right.right.right.left
  apply h.update
  case hc => exact { (h.conns k).remove hu hd hi with }
  case hr =>
    refine (h.requests r).finish hr.left hn ?_ hf hdone hphase hsubmitted hsends ?_
    · simp only [hd, Function.update_apply]
      grind
    · refine fun hc => (hrefused hc).imp_right fun hm => ⟨hr.right.left, ?_⟩
      rw [hr.right.right.right.right]
      rintro _ ⟨⟩
      simpa [Send.Refused] using hm
  case hf => exact hf
  all_goals simp only [Conn.remove, hd, Function.update_apply]; grind

theorem Inv.closeStream {code : UInt32} {now : Int} (h : s.Inv) : (s.closeStream k id code now).Inv := by
  rw [State.closeStream]
  split
  case h_1 hu =>
    have hs : ((s.conns k).session.close id code).userData = (s.conns k).session.userData := by
      simp [← hu]
    apply h.modifyConn _ rfl hs Session.subset_close_refusals
    exact { h.conns k with
      lookup := by simpa only [hs] using (h.conns k).lookup
      below  := by simpa only [hs, Session.close_nextId] using (h.conns k).below
      exited := by simpa only [hs] using (h.conns k).exited }
  case h_2 r hu =>
    refine h.removeStream (c := (s.requests r).close code) hu Session.close_userData Session.close_nextId
      Session.subset_close_refusals rfl rfl rfl rfl fun hc => .inr ?_
    rw [eq_of_beq hc]
    exact Session.mem_close_refusals

theorem Inv.callback {callback : Callback} (h : s.Inv) : (s.callback k callback).Inv := by
  cases callback <;> simp only [State.callback]
  case writeFailed =>
    exact h.modifyConn { h.conns k with dead := by simp [Conn.dead] } rfl rfl (List.Subset.refl _)
  case goaway =>
    exact h.modifyConn { h.conns k with dead := by simp [Conn.dead] } rfl rfl (List.Subset.refl _)
  case data id len =>
    split
    case h_1     => exact h
    case h_2 r _ => exact h.modifyRequest { h.requests r with }
  case close => exact h.closeStream

theorem timeOut_eq (hr : (s.requests r).submitted) (hid : (s.requests r).streamId = id) :
    s.timeOut k r =
      s.update k { (s.conns k).remove id with session := (s.conns k).session.forget id } r
        { s.requests r with rst := true, streamOk := false, done := true } := by
  simp [State.timeOut, State.detach, State.modifyConn, State.modifyRequest, State.update, hr, hid, Conn.remove]

theorem Inv.timeOut (h : s.Inv) (hu : (s.conns k).session.userData id = some r) : (s.timeOut k r).Inv := by
  have hr := (h.requests r).stream k id hu
  rw [timeOut_eq hr.right.left hr.right.right.right.left]
  exact h.removeStream (c := { s.requests r with rst := true, streamOk := false, done := true }) hu rfl rfl
    (List.Subset.refl _) rfl rfl rfl rfl .inl

omit [DecidableEq ρ] [DecidableEq κ] in
-- Each request has one stream at most.
theorem Inv.nodup_requests (h : s.Inv) : (s.conns k).requests.Nodup := by
  refine List.Nodup.map_on ?_ (s.conns k).streams.nodupKeys.nodup
  rintro ⟨id, r⟩ hx ⟨id', r'⟩ hy rfl
  rw [Conn.mem_entries (h.conns k)] at hx hy
  rw [← ((h.requests r).stream k id hx).right.right.right.left,
    ← ((h.requests r).stream k id' hy).right.right.right.left]

theorem Inv.timeOuts {rs : List ρ} (h : s.Inv) (hn : rs.Nodup)
    (hm : ∀ r ∈ rs, ∃ id, (s.conns k).session.userData id = some r) :
    (rs.foldl (fun s r => s.timeOut k r) s).Inv := by
  induction rs generalizing s
  case nil => exact h
  case cons r rs hi =>
    have ⟨id, hu⟩ := hm r (by simp)
    have hr := (h.requests r).stream k id hu
    refine hi (h.timeOut hu) hn.of_cons fun r' hr' => ?_
    have ⟨id', hu'⟩ := hm r' (by simp [hr'])
    have he : id' ≠ id := by grind
    exact ⟨id', by simp [timeOut_eq hr.right.left hr.right.right.right.left, State.update, he, hu']⟩

theorem Inv.scanTimeouts (k : κ) (aborting : List ρ) (h : s.Inv) : (s.scanTimeouts k aborting).Inv := by
  rw [State.scanTimeouts]
  split
  case isTrue  => exact h
  case isFalse =>
    refine h.timeOuts (h.nodup_requests.filter _) fun r hr => ?_
    exact (Conn.mem_requests (h.conns k)).mp (List.mem_of_mem_filter hr)

theorem Inv.callbacks (k : κ) (callbacks : List Callback) (h : s.Inv) :
    (callbacks.foldl (fun s callback => s.callback k callback) s).Inv := by
  induction callbacks generalizing s
  case nil             => exact h
  case cons _ _ hi => exact hi h.callback

omit [DecidableEq ρ] in
theorem Inv.settle {now : Int} (h : s.Inv) : (s.modifyConn k (·.settle now)).Inv :=
  h.modifyConn (h.conns k).settle rfl rfl (List.Subset.refl _)

theorem Inv.iterate {rejected aborting : List ρ} {sent : List Callback} {sendFailed : Bool} {now : Int}
    (h : s.Inv) (hio : (s.conns k).io = .top) :
    (s.iterate k rejected sent sendFailed aborting now).Inv := by
  have h := h.submitPending (k := k) rejected rfl (by simp [hio])
  have h := h.callbacks k sent
  refine Inv.settle (Inv.scanTimeouts k aborting ?_)
  exact h.modifyConn ((h.conns k).ioFailed sendFailed) rfl rfl (List.Subset.refl _)

theorem Inv.recv {callbacks : List Callback} {failed : Bool} (h : s.Inv) :
    (s.recv k callbacks failed).Inv := by
  have h := h.callbacks k callbacks
  rw [State.recv]
  refine h.modifyConn ?_ rfl rfl (List.Subset.refl _)
  exact { h.conns k with dead := by grind, exited := by grind }

omit [DecidableEq κ] in
theorem foldl_fail_conns {rs : List ρ} :
    (rs.foldl (fun s r => s.modifyRequest r (·.fail)) s).conns = s.conns := by
  induction rs generalizing s
  case nil            => rfl
  case cons r rs hi => exact hi

omit [DecidableEq κ] in
theorem foldl_fail_requests {rs : List ρ} {r' : ρ} :
    (rs.foldl (fun s r => s.modifyRequest r (·.fail)) s).requests r' =
      if r' ∈ rs then (s.requests r').fail else s.requests r' := by
  induction rs generalizing s
  case nil => simp
  case cons r rs hi =>
    rw [List.foldl_cons, hi]
    by_cases he : r' = r <;> simp [he, modifyRequest, Request.fail]

theorem detach_eq (hs : (s.requests r).submitted) :
    (s.modifyRequest r ({ · with streamOk := false })).detach k r =
      s.update k { s.conns k with session := (s.conns k).session.forget (s.requests r).streamId } r
        (s.requests r).fail := by
  simp [State.detach, State.modifyConn, State.modifyRequest, State.update, Request.fail, hs]

theorem foldl_detach {rs : List ρ} (hs : ∀ r ∈ rs, (s.requests r).submitted) :
    let s' := rs.foldl (fun s r => (s.modifyRequest r ({ · with streamOk := false })).detach k r) s
    let ids := rs.map fun r => (s.requests r).streamId
    s'.conns = Function.update s.conns k
      { s.conns k with session := ids.foldl Session.forget (s.conns k).session } ∧
    ∀ r', s'.requests r' = if r' ∈ rs then (s.requests r').fail else s.requests r' := by
  induction rs generalizing s
  case nil => simp
  case cons r rs hi =>
    dsimp only
    rw [List.foldl_cons, detach_eq (hs r (by simp))]
    have hk : ∀ r', ((s.update k { s.conns k with
        session := (s.conns k).session.forget (s.requests r).streamId } r (s.requests r).fail).requests
          r').submitted = (s.requests r').submitted ∧ ((s.update k { s.conns k with
        session := (s.conns k).session.forget (s.requests r).streamId } r (s.requests r).fail).requests
          r').streamId = (s.requests r').streamId := by
      intro r'
      by_cases he : r' = r <;> simp [he, State.update, Request.fail]
    obtain ⟨hc, hr⟩ := hi fun r' hr' => (hk r').left ▸ hs r' (by simp [hr'])
    refine ⟨?_, fun r' => ?_⟩
    · rw [hc]
      simp only [hk]
      simp [State.update]
    · rw [hr]
      by_cases he : r' = r <;> simp [he, State.update, Request.fail]

theorem Inv.failAll_eq (h : s.Inv) : ∃ session : Session ρ,
    session.refusals = (s.conns k).session.refusals ∧ (∀ id, session.userData id = none) ∧
    (s.failAll k).conns = Function.update s.conns k
      { s.conns k with pending := [], streams := ∅, active := 0, session } ∧
    ∀ r, (s.failAll k).requests r =
      if r ∈ (s.conns k).pending ∨ r ∈ (s.conns k).requests then (s.requests r).fail
      else s.requests r := by
  let s' := (s.conns k).pending.foldl (fun s r => s.modifyRequest r (·.fail)) s
  have hc' : s'.conns = s.conns := foldl_fail_conns
  have hr' : ∀ r, s'.requests r = if r ∈ (s.conns k).pending then (s.requests r).fail else s.requests r :=
    fun _ => foldl_fail_requests
  have hs : ∀ r, (s'.requests r).submitted = (s.requests r).submitted ∧
      (s'.requests r).streamId = (s.requests r).streamId := by
    intro r
    rw [hr']
    split <;> simp [Request.fail]
  have hu : ∀ r ∈ (s.conns k).requests, (s'.requests r).submitted := by
    intro r hr
    have ⟨id, hu⟩ := (Conn.mem_requests (h.conns k)).mp hr
    rw [(hs r).left]
    exact ((h.requests r).stream k id hu).right.left
  obtain ⟨hc, hr⟩ := foldl_detach (k := k) hu
  obtain ⟨-, hf, hn⟩ := Session.foldl_forget (s'.conns k).session
    ((s.conns k).requests.map fun r => (s'.requests r).streamId)
  refine ⟨((s.conns k).requests.map fun r => (s'.requests r).streamId).foldl Session.forget
    (s'.conns k).session, ?_, ?_, ?_, fun r => ?_⟩
  · rw [hf, hc']
  · intro id
    rw [hn, hc']
    split
    case isTrue        => rfl
    case isFalse hmem =>
      by_contra hne
      have ⟨r, hu⟩ := Option.ne_none_iff_exists'.mp hne
      refine hmem (List.mem_map.mpr ⟨r, (Conn.mem_requests (h.conns k)).mpr ⟨id, hu⟩, ?_⟩)
      rw [(hs r).right, ((h.requests r).stream k id hu).right.right.right.left]
  · simp only [State.failAll, State.modifyConn]
    rw [hc]
    simp [hc']
  · simp only [State.failAll, State.modifyConn]
    rw [hr, hr']
    grind [Request.fail]

theorem Inv.leave (h : s.Inv) (hio : (s.conns k).io = .leaving) :
    ((s.failAll k).modifyConn k ({ · with io := .exited })).Inv := by
  obtain ⟨session, hf, hu, hc, hr⟩ := h.failAll_eq (k := k)
  have he : (((s.failAll k).modifyConn k ({ · with io := .exited })).conns) = Function.update s.conns k
      { s.conns k with io := .exited, pending := [], streams := ∅, active := 0, session } := by
    simp [State.modifyConn, hc]
  constructor
  case conns =>
    intro k'
    rw [he, Function.update_apply]
    split
    case isFalse => exact h.conns k'
    case isTrue =>
      exact {
        counted := rfl
        lookup  := by simp [hu]
        below   := fun _ _ => hu _
        nodup   := List.nodup_nil
        dead    := fun _ => (h.conns k).dead (.inl hio)
        exited  := fun _ => ⟨rfl, hu⟩ }
  case requests =>
    intro r
    rw [he]
    have hr : ((s.failAll k).modifyConn k ({ · with io := .exited })).requests r = _ := hr r
    rw [hr]
    split
    all_goals rename_i hm; rw [Conn.mem_requests (h.conns k)] at hm
    case isTrue =>
      have hq : (s.requests r).phase.queuedOn = some k := by
        rcases hm with hp | ⟨id, hu⟩
        · exact ((h.requests r).pending k hp).left
        · exact ((h.requests r).stream k id hu).left
      exact (h.requests r).finish hq List.not_mem_nil (by simp [hu]) (hf ▸ List.Subset.refl _) rfl rfl rfl rfl .inl
    case isFalse =>
      apply (h.requests r).frame
      all_goals simp only [Function.update_apply]; grind

end

end State

end Nordstjernen.Net.Http2
