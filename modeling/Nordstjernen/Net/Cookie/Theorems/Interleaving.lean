import Nordstjernen.Lib.SharedCell
import Nordstjernen.Net.Cookie.Theorems.Line
import Nordstjernen.Net.Cookie.History

open Nordstjernen.Glib Nordstjernen.Lib

namespace Nordstjernen.Net.Cookie

variable {ι : Type} {writes : ι → Line} {ls : Lines} {route : Route}

-- What the calls of the store do to the one file that they share: each reads it, and replaces it by
-- what it has read with its own cookie merged in.
def mergeInto (writes : ι → Line) (i : ι) (contents : CString) : CString :=
  rewriteFile (writes i).write contents

-- Whether some call of `later` wrote the cookie of `w` again or came after its expiry.
def Superseded (writes : ι → Line) (w : Line) (later : List ι) : Prop :=
  ∃ j ∈ later, (writes j).key = w.key ∨ w.dead (writes j).write.now

instance (w : Line) (later : List ι) : Decidable (Superseded writes w later) :=
  inferInstanceAs (Decidable (∃ j ∈ later, _))

-- Every call that is done has its cookie in the file, unless a later one has superseded it.
def NoLostUpdate (writes : ι → Line) (es : List (SharedCell.Event ι))
    (t : SharedCell.State ι CString) : Prop :=
  ∀ i, t.phase i = .done → (writes i).write.expired = false →
    ∃ earlier later, SharedCell.replacers es = earlier ++ i :: later ∧
      ((writes i).text ∈ fileLines t.cell ∨ Superseded writes (writes i) later)

namespace Lines

-- The file after a list of calls that take turns.
def mergeAll (writes : ι → Line) (ls : Lines) (is : List ι) : Lines :=
  is.foldl (fun ls i => ls.store (writes i)) ls

variable {is : List ι} {l : Line}

theorem foldl_mergeInto :
    is.foldl (fun c i => mergeInto writes i c) ls.contents = (ls.mergeAll writes is).contents := by
  induction is generalizing ls
  case nil => rfl
  case cons i is hi =>
    rw [List.foldl_cons, mergeInto, rewriteFile_contents, hi]
    rfl

theorem Routed.mergeAll (h : ls.Routed route) (hw : ∀ i, (writes i).write.route = route) :
    (ls.mergeAll writes is).Routed route := by
  induction is generalizing ls
  case nil => exact h
  case cons i is hi => exact hi (h.store (hw i))

-- A line stays in the file until its key is written again or its time is over.
theorem Routed.mem_mergeAll (h : ls.Routed route) (hw : ∀ i, (writes i).write.route = route)
    (hl : l ∈ ls) (hs : ¬Superseded writes l is) : l ∈ ls.mergeAll writes is := by
  induction is generalizing ls
  case nil => exact hl
  case cons i is hi =>
    have hn : ¬Superseded writes l is := fun ⟨j, hj, h⟩ => hs ⟨j, List.mem_cons_of_mem _ hj, h⟩
    have hk : (writes i).key ≠ l.key := fun hk => hs ⟨i, by simp, .inl hk⟩
    have hd : l.dead (writes i).write.now = false :=
      Bool.eq_false_iff.mpr fun hd => hs ⟨i, by simp, .inr hd⟩
    have hi := hi (h.store (hw i)) ?_ hn
    · exact hi
    · exact ((hw i) ▸ h : ls.Routed (writes i).write.route).mem_store.mpr (.inr ⟨hl, hk.symm, .inr hd⟩)

end Lines

-- No update is lost as long as no call replaces the file after another one has changed it.
theorem no_lost_update [DecidableEq ι] {P : Platform} {calls : ι → Call} {es : List (SharedCell.Event ι)}
    {t : SharedCell.State ι CString} (hc : ∀ i, (calls i).accepted P = some (writes i))
    (hroute : ∀ i, (calls i).route = route) (hls : ls.Routed route)
    (hrun : run (SharedCell.step (mergeInto writes)) (SharedCell.start ls.contents) es = some t)
    (hfresh : SharedCell.FreshRun (mergeInto writes) (SharedCell.start ls.contents) es) :
    NoLostUpdate writes es t := by
  intro i hi he
  have hw (j : ι) : (writes j).write.route = route :=
    (acceptCookie_route (Call.accepted_eq_some.mp (hc j))).left.trans (hroute j)
  have hm := SharedCell.mem_replacers hrun (by simp [SharedCell.start]) hi
  obtain ⟨earlier, later, hsplit⟩ := List.append_of_mem hm
  refine ⟨earlier, later, hsplit, or_iff_not_imp_right.mpr fun hs => ?_⟩
  have hcell : t.cell = (ls.mergeAll writes (earlier ++ i :: later)).contents := by
    rw [SharedCell.run_fresh hrun hfresh, hsplit]
    exact Lines.foldl_mergeInto
  have hr : (ls.mergeAll writes earlier).Routed route := hls.mergeAll hw
  have hstore : writes i ∈ (ls.mergeAll writes earlier).store (writes i) :=
    ((hw i) ▸ hr : (ls.mergeAll writes earlier).Routed (writes i).write.route).mem_store.mpr
      (.inl ⟨rfl, he⟩)
  have hmem := (hr.store (hw i)).mem_mergeAll hw hstore hs
  have hall : ls.mergeAll writes (earlier ++ i :: later) =
      ((ls.mergeAll writes earlier).store (writes i)).mergeAll writes later := by
    simp [Lines.mergeAll]
  rw [hcell, Lines.fileLines_contents, hall]
  exact List.mem_map_of_mem hmem

-- Two responses that set a cookie each.
def twoCalls : Bool → Call
  | false => ⟨10, .http, Platform.frontPageUrl, "a=1".toList⟩
  | true  => ⟨10, .http, Platform.frontPageUrl, "b=2".toList⟩

theorem twoCalls_accepted (i : Bool) : ((twoCalls i).accepted .ofFrontPage).isSome := by
  cases i <;> decide

def twoWrites (i : Bool) : Line :=
  ((twoCalls i).accepted .ofFrontPage).get (twoCalls_accepted i)

theorem no_lost_update_turns :
    let es : List (SharedCell.Event Bool) :=
      [.read false, .replace false, .read true, .replace true]
    ∃ t, run (SharedCell.step (mergeInto twoWrites)) (SharedCell.start (Lines.contents [])) es = some t ∧
      NoLostUpdate twoWrites es t := by
  have hroute : ∀ i, (twoCalls i).route = .http := by decide
  refine ⟨_, rfl, no_lost_update (fun i => (Option.some_get (twoCalls_accepted i)).symm) hroute
    ?_ rfl ?_⟩
  · simp [Lines.Routed]
  · simp [SharedCell.FreshRun, StepsMeet, SharedCell.Fresh, SharedCell.step, SharedCell.start]

-- The second call has read the file before the first one replaces it.
theorem not_noLostUpdate_of_overlap :
    let es : List (SharedCell.Event Bool) :=
      [.read false, .read true, .replace false, .replace true]
    ∃ t, run (SharedCell.step (mergeInto twoWrites)) (SharedCell.start []) es = some t ∧
      ¬NoLostUpdate twoWrites es t := by
  refine ⟨_, rfl, fun h => ?_⟩
  obtain ⟨earlier, later, hsplit, hi⟩ := h false rfl (by decide)
  have hlater : later = [true] := by
    have hl : [false, true] = earlier ++ false :: later := hsplit
    obtain - | ⟨i, - | ⟨j, is⟩⟩ := earlier <;> simp at hl
    exact hl.symm
  subst hlater
  revert hi
  decide

end Nordstjernen.Net.Cookie
