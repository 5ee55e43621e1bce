import Mathlib.Data.List.Basic
import Nordstjernen.Streaming.Session

open Nordstjernen.Lib

namespace Nordstjernen.Streaming

namespace Job

@[simp]
theorem pending_start (rs : List Resource) : (start rs).pending = rs := by
  cases rs <;> rfl

@[simp]
theorem pending_idle : idle.pending = [] :=
  rfl

@[simp]
theorem pending_appending (r : Resource) (rest : List Resource) :
    (appending r rest).pending = r :: rest :=
  rfl

end Job

namespace Track

variable {t t' : Track} {e : TrackEvent}

-- What the source buffer has taken and what is on its way to it are the resources that were asked
-- for so far, in order.
structure Inv (t : Track) : Prop where
  issued : t.appended ++ t.job.pending =
    (if t.appendedInit then t.initSegment.toList else []) ++
      (t.segments.take t.nextIndex).map (·.toResource)
  init   : t.appendedInit = false → t.nextIndex = 0 ∨ t.initSegment = none
  bound  : t.nextIndex ≤ t.segments.length

theorem Inv.makeTrack (media : Media) : (makeTrack media).Inv where
  issued := by simp [Streaming.makeTrack]
  init _ := .inl rfl
  bound  := Nat.zero_le _

theorem Inv.pumpTrack (h : t.Inv) (hj : t.job = .idle) (ahead : Bool) : (t.pumpTrack ahead).Inv := by
  rw [Track.pumpTrack]
  split
  case h_1 => exact { h with issued := by simpa [hj] using h.issued }
  case h_2 segment hs =>
    have ⟨hlt, he⟩ := List.getElem?_eq_some_iff.mp hs
    have hi := h.issued
    rw [hj, Job.pending_idle, List.append_nil] at hi
    split
    case isTrue => exact { h with issued := by simpa [hj, Job.pending] using h.issued }
    case isFalse =>
      refine ⟨?_, ?_, hlt⟩
      · simp only [Job.pending_start, hi, List.take_add_one, hs, Option.toList, List.map_append]
        cases ha : t.appendedInit
        case true => simp
        case false =>
          cases h.init ha
          case inl h0 => cases hn : t.initSegment <;> simp [h0]
          case inr hn => simp [hn]
      · simp only [Bool.or_eq_false_iff, Option.isSome_eq_false_iff, Option.isNone_iff_eq_none]
        exact fun h => .inr h.right

theorem Inv.mergeSegments (h : t.Inv) (incoming : List Segment) : (t.mergeSegments incoming).Inv where
  issued := by
    simp only [Track.mergeSegments, List.take_append_of_le_length h.bound]
    exact h.issued
  init   := h.init
  bound  := by
    have := h.bound
    simp only [Track.mergeSegments, List.length_append]
    omega

-- Without a quota error, a promise chain either moves on with everything that it still has to append
-- or takes the next resource off it.
theorem advance_cases (h : t.advance e = some t')
    (hq : ∀ removes, e ≠ .fetched (.quotaExceeded removes)) :
    (∃ job, job.pending = t.job.pending ∧ t' = { t with job := job }) ∨
    (∃ r rest, t.job = .appending r rest ∧
      t' = { t with appended := t.appended ++ [r], job := .start rest }) := by
  cases e <;> simp only [advance] at h <;> cases hj : t.job <;> simp only [hj] at h <;>
    try cases h
  case fetched.fetching outcome r rest =>
    cases outcome
    case accepted              => cases h; exact .inl ⟨.appending r rest, rfl, rfl⟩
    case quotaExceeded removes => exact absurd rfl (hq removes)
    case thrown                => cases h; exact .inl ⟨.failed (r :: rest), rfl, rfl⟩
  case fetchFailed.fetching.refl r rest => exact .inl ⟨.failed (r :: rest), rfl, rfl⟩
  case updateend.appending.refl r rest  => exact .inr ⟨r, rest, rfl, rfl⟩
  case updateend.evicting.refl rest     => exact .inl ⟨_, Job.pending_start rest, rfl⟩
  case error.appending.refl r rest      => exact .inl ⟨.failed (r :: rest), rfl, rfl⟩
  case timeout.delayed.refl             => exact .inl ⟨.idle, rfl, rfl⟩

-- Every event but the quota error keeps the order.
theorem Inv.advance (h : t.Inv) (ht : t.advance e = some t')
    (hq : ∀ removes, e ≠ .fetched (.quotaExceeded removes)) : t'.Inv := by
  obtain ⟨job, hp, rfl⟩ | ⟨r, rest, hj, rfl⟩ := advance_cases ht hq
  · exact { h with issued := by simpa [hp] using h.issued }
  · have hi := h.issued
    rw [hj] at hi
    exact { h with issued := by simpa using hi }

theorem advance_idle (h : t.advance e = some t') : t.job ≠ .idle := by
  intro hj
  cases e <;> simp [Track.advance, hj] at h

theorem Inv.appended_isPrefixOf (h : t.Inv) : t.appended <+: t.expected := by
  have hp : t.appended <+: t.appended ++ t.job.pending := List.prefix_append _ _
  refine hp.trans ?_
  rw [h.issued, expected]
  have hs : (t.segments.take t.nextIndex).map (·.toResource) <+: t.segments.map (·.toResource) :=
    (List.take_prefix _ _).map _
  cases ha : t.appendedInit
  case true => exact (List.prefix_append_right_inj _).mpr hs
  case false =>
    cases h.init ha
    case inl h0 => simp [h0]
    case inr hn => simpa [hn] using hs

theorem Inv.appended_eq (h : t.Inv) (hj : t.job = .idle) (he : t.exhausted) (hs : t.segments ≠ []) :
    t.appended = t.expected := by
  have hi := h.issued
  have hl : t.segments.length ≤ t.nextIndex := by simpa [exhausted] using he
  rw [hj, Job.pending_idle, List.append_nil, List.take_of_length_le hl] at hi
  rw [hi, expected]
  cases ha : t.appendedInit
  case true => rfl
  case false =>
    have hn : t.nextIndex ≠ 0 := by
      have := List.length_pos_of_ne_nil hs
      omega
    simp [(h.init ha).resolve_left hn]

end Track

namespace Session

-- Whether the source buffers have been given what they should be: at any time the first so many of
-- the expected resources, and all of them when the session has finished or waits for new ones.
structure Delivers (s : Session) : Prop where
  order    : ∀ t ∈ s.tracks, t.appended <+: t.expected
  complete : s.phase = .finished ∨ s.phase = .waiting →
    ∀ t ∈ s.tracks, t.segments ≠ [] → t.appended = t.expected

-- No promise is pending while the session waits for something other than `pump`.
structure Inv (s : Session) : Prop where
  tracks    : ∀ t ∈ s.tracks, t.Inv
  idle      : s.phase ≠ .pumping → s.phase ≠ .over → ∀ t ∈ s.tracks, t.job = .idle
  exhausted : s.phase = .finished ∨ s.phase = .waiting → ∀ t ∈ s.tracks, t.exhausted

variable {s s' : Session} {e : Event}

theorem Inv.delivers (h : s.Inv) : s.Delivers where
  order t ht       := (h.tracks t ht).appended_isPrefixOf
  complete hp t ht := by
    have hj := h.idle (by rcases hp with hp | hp <;> simp [hp]) (by rcases hp with hp | hp <;> simp [hp])
    exact (h.tracks t ht).appended_eq (hj t ht) (h.exhausted hp t ht)

theorem Inv.load (hls live : Bool) (media : List Media) : (load hls live media).Inv where
  tracks := by
    intro t ht
    obtain ⟨m, _, rfl⟩ := List.mem_map.mp ht
    exact .makeTrack m
  idle _ _ := by
    intro t ht
    obtain ⟨m, _, rfl⟩ := List.mem_map.mp ht
    rfl
  exhausted h := by simp [Session.load] at h

theorem Inv.over (h : ∀ t ∈ s.tracks, t.Inv) (hp : s.phase = .over) : s.Inv where
  tracks      := h
  idle _ ho   := absurd hp ho
  exhausted h := by simp [hp] at h

theorem Inv.pump (h : ∀ t ∈ s.tracks, t.Inv) (hi : ∀ t ∈ s.tracks, t.job = .idle)
    (ahead : Nat → Bool) : (s.pump ahead).Inv := by
  rw [Session.pump]
  split
  case isTrue => exact .over h rfl
  case isFalse =>
    refine ⟨?_, by simp, by simp⟩
    intro t ht
    obtain ⟨i, hlt, rfl⟩ := List.mem_mapIdx.mp ht
    exact (h _ (List.getElem_mem hlt)).pumpTrack (hi _ (List.getElem_mem hlt)) _

theorem Inv.settle (h : s.Inv) (hi : s.idle) (ahead : Nat → Bool) : (s.settle ahead).Inv := by
  have hj : ∀ t ∈ s.tracks, t.job = .idle := by simpa [Session.idle] using hi
  rw [Session.settle]
  split
  · exact .over h.tracks rfl
  split
  case isTrue he =>
    exact ⟨h.tracks, fun _ _ => hj, fun _ => by simpa [tracksExhausted] using he⟩
  case isFalse => exact .pump h.tracks hj ahead

theorem updateTrack_eq_some {i : Nat} {f : Track → Option Track} :
    s.updateTrack i f = some s' ↔
      ∃ t t', s.tracks[i]? = some t ∧ f t = some t' ∧ s' = { s with tracks := s.tracks.set i t' } := by
  simp only [updateTrack, bind, pure, Option.bind_eq_some_iff, Option.some.injEq]
  constructor
  case mp  => rintro ⟨t, ht, t', hf, rfl⟩; exact ⟨t, t', ht, hf, rfl⟩
  case mpr => rintro ⟨t, t', ht, hf, rfl⟩; exact ⟨t, ht, t', hf, rfl⟩

-- One track takes a step, and the others stay as they are.
theorem mem_set {t t' : Track} {i : Nat} {p : Track → Prop} (h : ∀ t ∈ s.tracks, p t) (h' : p t')
    (ht : t ∈ s.tracks.set i t') : p t := by
  cases List.mem_or_eq_of_mem_set ht
  case inl ht => exact h t ht
  case inr ht => exact ht ▸ h'

theorem Inv.track {i : Nat} {e : TrackEvent} (h : s.Inv) (hs : s.step (.track i e) = some s')
    (hq : ∀ removes, e ≠ .fetched (.quotaExceeded removes)) : s'.Inv := by
  obtain ⟨t, t', hi, ha, rfl⟩ := updateTrack_eq_some.mp hs
  have ht := List.mem_of_getElem? hi
  have hb : s.phase = .pumping ∨ s.phase = .over := by
    by_contra hp
    simp only [not_or] at hp
    exact Track.advance_idle ha (h.idle hp.left hp.right t ht)
  refine ⟨fun u hu => mem_set h.tracks ((h.tracks t ht).advance ha hq) hu, ?_, ?_⟩
  · intro hp ho
    rcases hb with hb | hb <;> contradiction
  · intro hp
    rcases hb with hb | hb <;> simp [hb] at hp

theorem Inv.refresh (h : s.Inv) (hp : s.phase = .waiting) : s.refresh.Inv := by
  rw [Session.refresh]
  split
  case isTrue  => exact .over h.tracks rfl
  case isFalse => exact ⟨h.tracks, fun _ _ => h.idle (by simp [hp]) (by simp [hp]), by simp⟩

theorem Inv.playlist {i : Nat} {segments : List Segment} {live : Bool} (h : s.Inv)
    (hs : s.step (.playlist i segments live) = some s') : s'.Inv := by
  simp only [step] at hs
  split at hs
  case h_2 => cases hs
  case h_1 jobs hp =>
    simp only [Option.ite_none_right_eq_some, Option.map_eq_some_iff] at hs
    obtain ⟨_, s'', hu, rfl⟩ := hs
    obtain ⟨t, t', hi, hm, rfl⟩ := updateTrack_eq_some.mp hu
    cases hm
    have ht := List.mem_of_getElem? hi
    have hj := h.idle (by simp [hp]) (by simp [hp])
    refine ⟨fun u hu => mem_set h.tracks ((h.tracks t ht).mergeSegments segments) hu, ?_, by simp⟩
    have hm : (t.mergeSegments segments).job = .idle := hj t ht
    exact fun _ _ u hu => mem_set (p := (·.job = .idle)) hj hm hu

theorem Inv.stop (h : s.Inv) : s.stop.Inv := by
  rw [Session.stop]
  split
  case isTrue hp => exact .over h.tracks rfl
  case isFalse   => exact ⟨h.tracks, h.idle, h.exhausted⟩

theorem Inv.step (h : s.Inv) (hq : ¬e.isQuotaError) (hs : s.step e = some s') : s'.Inv := by
  cases e
  case sourceopen ahead =>
    have ⟨hp, he⟩ : s.phase = .opening ∧ s.pump ahead = s' := by simpa [Session.step] using hs
    exact he ▸ .pump h.tracks (h.idle (by simp [hp]) (by simp [hp])) ahead
  case track i e =>
    exact h.track hs fun removes he => hq (by simp [he, Event.isQuotaError])
  case settled ahead =>
    have ⟨hp, he⟩ : (s.phase = .pumping ∧ s.idle) ∧ s.settle ahead = s' := by
      simpa [Session.step] using hs
    exact he ▸ h.settle hp.right ahead
  case rejected =>
    have ⟨_, he⟩ : (s.phase = .pumping ∧ s.rejected) ∧ s.fail = s' := by simpa [Session.step] using hs
    exact he ▸ .over h.tracks rfl
  case timer =>
    have ⟨hp, he⟩ : s.phase = .waiting ∧ s.refresh = s' := by simpa [Session.step] using hs
    exact he ▸ h.refresh hp
  case playlist i segments live => exact h.playlist hs
  case playlistFailed =>
    simp only [Session.step] at hs
    split at hs
    case h_1 => cases hs; exact .over h.tracks rfl
    case h_2 => cases hs
  case refreshed ahead =>
    have ⟨hp, he⟩ : s.phase = .refreshing [] ∧ s.pump ahead = s' := by simpa [Session.step] using hs
    exact he ▸ .pump h.tracks (h.idle (by simp [hp]) (by simp [hp])) ahead
  case stop =>
    have he : s.stop = s' := by simpa [Session.step] using hs
    exact he ▸ h.stop

-- As long as no append runs into the quota, every track gets its init segment and then its segments.
theorem delivers_of_run {hls live : Bool} {media : List Media} {es : List Event}
    (hrun : run Session.step (load hls live media) es = some s) (hq : ∀ e ∈ es, ¬e.isQuotaError) :
    s.Delivers := by
  have hc : StepsMeet (fun _ e => ¬e.isQuotaError) Session.step (load hls live media) es :=
    stepsMeet_of_forall fun _ => hq
  exact (run_preserves (fun _ _ _ h hq hs => Inv.step h hq hs) hrun hc (.load hls live media)).delivers

-- A stream of two segments behind an init segment.
def twoSegments : Media where
  url         := none
  initSegment := some ⟨"init.mp4", ""⟩
  segments    := [⟨⟨"1.m4s", ""⟩, 0⟩, ⟨⟨"2.m4s", ""⟩, 1⟩]

def append (outcome : AppendOutcome) : Event :=
  .track 0 (.fetched outcome)

def updateend : Event :=
  .track 0 .updateend

def playThrough : List Event := [
  .sourceopen fun _ => false, append .accepted, updateend, append .accepted, updateend,
  .settled fun _ => false, append .accepted, updateend, .settled fun _ => false]

theorem delivers_of_run_playThrough :
    ∃ s, run Session.step (load false false [twoSegments]) playThrough = some s ∧
      s.phase = .finished ∧ s.Delivers := by
  have hq : ∀ e ∈ playThrough, ¬e.isQuotaError := by
    simp [playThrough, append, updateend, Event.isQuotaError]
  have hrun : run Session.step (load false false [twoSegments]) playThrough = some _ := rfl
  exact ⟨_, hrun, rfl, delivers_of_run hrun hq⟩

-- The first segment is gone after a quota error, and the stream goes on without it.
def playOverQuota : List Event := [
  .sourceopen fun _ => false, append .accepted, updateend, append (.quotaExceeded true), updateend,
  .settled fun _ => false, append .accepted, updateend]

theorem not_delivers_of_playOverQuota :
    ∃ s, run Session.step (load false false [twoSegments]) playOverQuota = some s ∧ ¬s.Delivers :=
  ⟨_, rfl, fun h => absurd (h.order _ (List.mem_singleton.mpr rfl)) (by decide)⟩

end Session

end Nordstjernen.Streaming
