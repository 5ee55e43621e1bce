import Nordstjernen.Net.EventSource.Theorems.Parse

open Nordstjernen.Glib

namespace Nordstjernen.Net.EventSource

variable {id line : CString} {lines : List CString} {chunks : List CString} {conns : List (List CString)} {p : Parse}

section Ids

theorem lastId_append (id : CString) (lines lines' : List CString) :
    lastId id (lines ++ lines') = lastId (lastId id lines) lines' := by
  rw [lastId, lastId, lastId, List.filterMap_append, List.getLast?_append]
  cases (lines'.filterMap lineId).getLast? <;> rfl

theorem lastId_eq_iff : lastId id lines = id ↔ ∀ id' ∈ (lines.filterMap lineId).getLast?, id' = id := by
  rw [lastId]
  cases (lines.filterMap lineId).getLast? <;> simp

theorem dispatchedLines_append_partialLines (lines : List CString) :
    dispatchedLines lines ++ partialLines lines = lines := by
  rw [dispatchedLines, partialLines, ← List.reverse_append, List.takeWhile_append_dropWhile, List.reverse_reverse]

end Ids

namespace Parse

theorem lastEventId_processField {field value : CString} (hn : '\x00' ∉ value) :
    (p.processField field value).lastEventId =
      match fieldMeaning field value with
      | .id value => value
      | _         => p.lastEventId := by
  simp only [processField, fieldMeaning, hn, if_false]
  split_ifs <;> rfl

theorem lastEventId_processLine (hn : '\x00' ∉ line) :
    (p.processLine line).lastEventId = (lineId line).getD p.lastEventId := by
  rw [processLine, lineId, meaning]
  split
  case isTrue  =>
    rw [dispatchEvent]
    split_ifs <;> rfl
  case isFalse =>
    split
    case isTrue  => rfl
    case isFalse =>
      rw [fieldValue_eq, lastEventId_processField]
      · cases fieldMeaning (line.takeWhile (· != ':')) (unspaced ((line.dropWhile (· != ':')).drop 1)) <;> rfl
      · refine not_mem_unspaced fun hm => hn ?_
        exact (List.dropWhile_suffix _).subset (List.mem_of_mem_drop hm)

theorem lastEventId_processLines :
    (p.processLines lines).lastEventId = lastId p.lastEventId (lines.map gStrndup) := by
  induction lines generalizing p
  case nil             => rfl
  case cons l lines hi =>
    have hl : (p.processLine (gStrndup l)).lastEventId = lastId p.lastEventId [gStrndup l] := by
      rw [lastEventId_processLine not_mem_gStrndup, lastId, List.filterMap_cons, List.filterMap_nil]
      cases lineId (gStrndup l) <;> rfl
    have hc : (p.processLines (l :: lines)) = (p.processLine (gStrndup l)).processLines lines := rfl
    rw [hc, hi, hl, List.map_cons]
    exact (lastId_append p.lastEventId [gStrndup l] (lines.map gStrndup)).symm

end Parse

theorem fatal_writeAll (h : p.fatal = true) : p.writeAll chunks = p := by
  induction chunks
  case nil              => rfl
  case cons c chunks hi =>
    rw [Parse.writeAll, List.foldl_cons, Parse.write, if_pos h]
    exact hi

-- A connection that is not given up has fed all of its text.
theorem writeAll_of_not_fatal (h : (p.writeAll chunks).fatal = false) :
    p.writeAll chunks = p.feed chunks.flatten := by
  refine Parse.writeAll_eq ?_
  induction chunks generalizing p
  case nil              => exact h
  case cons c chunks hi =>
    have hw : p.writeAll (c :: chunks) = (p.write c).writeAll chunks := rfl
    rw [hw] at h
    have hf : (p.write c).fatal = false := by
      by_contra hf
      rw [fatal_writeAll (by simpa using hf)] at h
      exact hf h
    have hp : p.fatal = false := by
      by_contra hp
      rw [Parse.write, if_pos (by simpa using hp)] at hf
      exact hp hf
    rw [Parse.write, if_neg (by simp [hp])] at h hf
    rw [List.flatten_cons, Parse.feed_append hf]
    exact hi h

theorem lastEventId_connect (h : (connect id chunks).fatal = false) :
    (connect id chunks).lastEventId = lastId id (streamLines chunks) := by
  have he := writeAll_of_not_fatal h
  rw [connect, he] at h
  have hc := congrArg Parse.lastEventId (Parse.core_feed_of_not_fatal h)
  rw [connect, he]
  refine hc.trans ?_
  rw [Parse.core, Parse.lastEventId_processLines, streamLines, completeLines, splitLines_eq]

theorem exists_sentIds (id : CString) (conns : List (List CString)) : ∃ later, sentIds id conns = id :: later := by
  cases conns <;> exact ⟨_, rfl⟩

theorem exists_dispatchedIds (id : CString) (conns : List (List CString)) :
    ∃ later, dispatchedIds id conns = id :: later := by
  cases conns <;> exact ⟨_, rfl⟩

-- The id that a connection leaves behind, next to the one that it has dispatched.
theorem lastEventId_connect_eq_iff (h : (connect id chunks).fatal = false) :
    (connect id chunks).lastEventId = lastId id (dispatchedLines (streamLines chunks)) ↔
      ∀ id' ∈ ((partialLines (streamLines chunks)).filterMap lineId).getLast?,
        id' = lastId id (dispatchedLines (streamLines chunks)) := by
  rw [lastEventId_connect h, ← lastId_eq_iff, ← lastId_append, dispatchedLines_append_partialLines]

theorem sentIds_eq_iff : sentIds id conns = dispatchedIds id conns ↔ Settled id conns := by
  induction conns generalizing id
  case nil                   => simp [sentIds, dispatchedIds, Settled]
  case cons chunks later hi =>
    rw [sentIds, dispatchedIds, Settled, List.cons_inj_right]
    cases hf : (connect id chunks).fatal
    case true  => simp
    case false =>
      simp only [Bool.false_eq_true, if_false, forall_const, ← lastEventId_connect_eq_iff hf, ← hi]
      constructor
      case mp =>
        intro h
        have ⟨_, hs⟩ := exists_sentIds (connect id chunks).lastEventId later
        have ⟨_, hd⟩ := exists_dispatchedIds (lastId id (dispatchedLines (streamLines chunks))) later
        have he : (connect id chunks).lastEventId = lastId id (dispatchedLines (streamLines chunks)) := by
          rw [hs, hd] at h
          exact (List.cons.inj h).left
        exact ⟨he, he ▸ h⟩
      case mpr =>
        intro ⟨he, h⟩
        rw [he, h]

-- The second of two blocks arrives without its end.
def halfBlock : List CString :=
  ["id: 1\ndata: a\n\nid: 2\ndata: b\n".toList]

theorem not_sentIds_halfBlock : ¬∀ id conns, sentIds id conns = dispatchedIds id conns := by
  intro h
  have := h [] [halfBlock]
  have hs : sentIds [] [halfBlock] = [[], ['2']] := by decide +kernel
  have hd : dispatchedIds [] [halfBlock] = [[], ['1']] := by decide +kernel
  rw [hs, hd] at this
  cases this

end Nordstjernen.Net.EventSource
