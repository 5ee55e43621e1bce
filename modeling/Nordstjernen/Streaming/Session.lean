import Nordstjernen.Lib.Run

namespace Nordstjernen.Streaming

-- What `fetchBytes` is asked for. The range is empty where the whole file is wanted.
structure Resource where
  url   : String
  range : String
deriving DecidableEq

structure Segment extends Resource where
  sequence : Int
deriving DecidableEq

-- The promise that `pumpTrack` has returned last, as what is left to do until it settles: fetch a
-- resource and append its bytes, then go on with the rest.
inductive Job
  | idle
  | delayed
  | fetching (r : Resource) (rest : List Resource)
  | appending (r : Resource) (rest : List Resource)
  | evicting (rest : List Resource)
  | failed (rest : List Resource)
deriving DecidableEq

-- What becomes of a call of `appendBuffer`. After a `QuotaExceededError`, `evict` may or may not find
-- something to remove.
inductive AppendOutcome
  | accepted
  | quotaExceeded (removes : Bool)
  | thrown
deriving DecidableEq

inductive TrackEvent
  | fetched (outcome : AppendOutcome)
  | fetchFailed
  | updateend
  | error
  | timeout
deriving DecidableEq

-- The contents of the source buffer are those resources whose bytes it has taken, in order.
structure Track where
  url          : Option String
  initSegment  : Option Resource
  segments     : List Segment
  nextIndex    : Nat := 0
  appendedInit : Bool := false
  appended     : List Resource := []
  job          : Job := .idle
deriving DecidableEq

namespace Job

def start : List Resource → Job
  | []        => idle
  | r :: rest => fetching r rest

-- What is still to be appended.
def pending : Job → List Resource
  | idle | delayed                       => []
  | fetching r rest | appending r rest   => r :: rest
  | evicting rest | failed rest          => rest

end Job

namespace Track

def mergeSegments (t : Track) (incoming : List Segment) : Track :=
  let known := (t.segments.getLast?.map (·.sequence)).getD (-1)
  { t with segments := t.segments ++ incoming.filter (known < ·.sequence) }

def exhausted (t : Track) : Bool :=
  t.segments.length ≤ t.nextIndex

-- `pumpTrack`, where `ahead` says whether enough is buffered.
def pumpTrack (ahead : Bool) (t : Track) : Track :=
  match t.segments[t.nextIndex]? with
  | none         => { t with job := .idle }
  | some segment =>
    if ahead then
      { t with job := .delayed }
    else
      let init := if t.appendedInit then [] else t.initSegment.toList
      { t with
        appendedInit := t.appendedInit || t.initSegment.isSome
        nextIndex    := t.nextIndex + 1
        job          := .start (init ++ [segment.toResource]) }

-- One step of the promise chain. The bytes of an append that runs into the quota are given up: once
-- `evict` is through, the chain goes on with the rest.
def advance (t : Track) : TrackEvent → Option Track
  | .fetched outcome =>
    match t.job with
    | .fetching r rest =>
      match outcome with
      | .accepted            => some { t with job := .appending r rest }
      | .quotaExceeded true  => some { t with job := .evicting rest }
      | .quotaExceeded false => some { t with job := .start rest }
      | .thrown              => some { t with job := .failed (r :: rest) }
    | _ => none
  | .fetchFailed =>
    match t.job with
    | .fetching r rest => some { t with job := .failed (r :: rest) }
    | _                => none
  | .updateend =>
    match t.job with
    | .appending r rest => some { t with appended := t.appended ++ [r], job := .start rest }
    | .evicting rest    => some { t with job := .start rest }
    | _                 => none
  | .error =>
    match t.job with
    | .appending r rest => some { t with job := .failed (r :: rest) }
    | _                 => none
  | .timeout =>
    match t.job with
    | .delayed => some { t with job := .idle }
    | _        => none

-- What the source buffer of a track is to be given.
def expected (t : Track) : List Resource :=
  t.initSegment.toList ++ t.segments.map (·.toResource)

end Track

-- What a session waits for: the promises of `pump`, the timer of `scheduleRefresh`, or the playlists
-- of the tracks that `refresh` still expects.
inductive Phase
  | opening
  | pumping
  | waiting
  | refreshing (jobs : List Nat)
  | finished
  | over
deriving DecidableEq

structure Session where
  hls     : Bool
  live    : Bool
  tracks  : List Track
  stopped : Bool := false
  phase   : Phase := .opening
deriving DecidableEq

inductive Event
  | sourceopen (ahead : Nat → Bool)
  | track (i : Nat) (e : TrackEvent)
  | settled (ahead : Nat → Bool)
  | rejected
  | timer
  | playlist (i : Nat) (segments : List Segment) (live : Bool)
  | playlistFailed
  | refreshed (ahead : Nat → Bool)
  | stop

-- Whether the event is an append that runs into the quota.
def Event.isQuotaError : Event → Prop
  | .track _ (.fetched (.quotaExceeded _)) => True
  | _                                      => False

namespace Session

variable (s : Session)

def pump (ahead : Nat → Bool) : Session :=
  if s.stopped then { s with phase := .over }
  else { s with
    phase  := .pumping
    tracks := s.tracks.mapIdx fun i t => t.pumpTrack (ahead i) }

def tracksExhausted : Bool :=
  s.tracks.all Track.exhausted

def fail : Session :=
  { s with stopped := true, phase := .over }

def stop : Session :=
  { s with stopped := true, phase := if s.phase = .waiting then .over else s.phase }

-- The continuation of `Promise.all` in `pump`.
def settle (ahead : Nat → Bool) : Session :=
  if s.stopped then { s with phase := .over }
  else if s.tracksExhausted then { s with phase := if s.live then .waiting else .finished }
  else s.pump ahead

def refresh : Session :=
  if s.stopped || !s.hls then { s with phase := .over }
  else { s with phase := .refreshing <|
    (List.range s.tracks.length).filter fun i => (s.tracks[i]?.bind (·.url)).isSome }

def idle : Bool :=
  s.tracks.all (·.job = .idle)

def rejected : Bool :=
  s.tracks.any fun t => match t.job with
    | .failed _ => true
    | _         => false

def updateTrack (i : Nat) (f : Track → Option Track) : Option Session := do
  let t  ← s.tracks[i]?
  let t' ← f t
  return { s with tracks := s.tracks.set i t' }

def step : Event → Option Session
  | .sourceopen ahead => if s.phase = .opening then some (s.pump ahead) else none
  | .track i e        => s.updateTrack i (·.advance e)
  | .settled ahead    => if s.phase = .pumping ∧ s.idle then some (s.settle ahead) else none
  | .rejected         => if s.phase = .pumping ∧ s.rejected then some s.fail else none
  | .timer            => if s.phase = .waiting then some s.refresh else none
  | .playlist i segments live =>
    match s.phase with
    | .refreshing jobs =>
      if i ∈ jobs then
        (s.updateTrack i fun t => some (t.mergeSegments segments)).map fun s' =>
          { s' with live := s.live && live, phase := .refreshing (jobs.erase i) }
      else none
    | _ => none
  | .playlistFailed =>
    match s.phase with
    | .refreshing (_ :: _) => some s.fail
    | _                    => none
  | .refreshed ahead => if s.phase = .refreshing [] then some (s.pump ahead) else none
  | .stop            => some s.stop

end Session

-- One playlist as it was loaded.
structure Media where
  url         : Option String
  initSegment : Option Resource
  segments    : List Segment

def makeTrack (media : Media) : Track where
  url         := media.url
  initSegment := media.initSegment
  segments    := media.segments

-- A session whose playlists are loaded and whose source is about to open.
def Session.load (hls live : Bool) (media : List Media) : Session where
  hls    := hls
  live   := live
  tracks := media.map makeTrack

end Nordstjernen.Streaming
