import Mathlib.Data.List.AList
import Nordstjernen.Css.Gather.Selector

open Nordstjernen.Glib

namespace Nordstjernen.Css.Gather

abbrev GHashTable (α : Type*) := AList fun _ : CString => α

-- `css_candidate`
structure Candidate where
  ruleIdx     : Nat
  selectorIdx : Nat
deriving DecidableEq

-- The values of `css_index_kind`, with the place of the class or the attribute that is chosen.
inductive IndexKind
  | none
  | id
  | ofClass (i : Nat)
  | tag
  | attr (i : Nat)
deriving DecidableEq

-- `css_index_counts`
structure Counts where
  byId    : GHashTable UInt32 := ∅
  byClass : GHashTable UInt32 := ∅
  byTag   : GHashTable UInt32 := ∅
  byAttr  : GHashTable UInt32 := ∅

-- `ns_css_rule_index`
structure RuleIndex where
  byId      : GHashTable (List Candidate) := ∅
  byClass   : GHashTable (List Candidate) := ∅
  byTag     : GHashTable (List Candidate) := ∅
  byAttr    : GHashTable (List Candidate) := ∅
  universal : List Candidate := []

def indexAddCandidateArray (bucket : List Candidate) (cand : Candidate) : List Candidate :=
  if bucket.getLast? = some cand then bucket else bucket ++ [cand]

def indexAdd (table : GHashTable (List Candidate)) (key : CString) (cand : Candidate) :
    GHashTable (List Candidate) :=
  table.insert key (indexAddCandidateArray ((table.lookup key).getD []) cand)

def indexAddLowercase (table : GHashTable (List Candidate)) (key : CString) (cand : Candidate) :
    GHashTable (List Candidate) :=
  indexAdd table (gAsciiStrdown key) cand

def indexCount (table : GHashTable UInt32) (key : CString) : UInt32 :=
  (table.lookup key).getD 0

def indexCountInc (table : GHashTable UInt32) (key : CString) : GHashTable UInt32 :=
  table.insert key (indexCount table key + 1)

def indexCountIncLowercase (table : GHashTable UInt32) (key : CString) : GHashTable UInt32 :=
  indexCountInc table (gAsciiStrdown key)

def indexCountLookupLowercase (table : GHashTable UInt32) (key : CString) : UInt32 :=
  indexCount table (gAsciiStrdown key)

namespace Simple

variable {π : Type*} (subj : Simple π)

-- The id, and the type, by which a compound can be found.
def indexId : Option CString :=
  subj.id.filter (· ≠ [])

def indexType : Option CString :=
  subj.type.filter fun t => t ≠ [] && t ≠ ['*']

end Simple

def indexCountsAddSubject {π : Type*} (counts : Counts) (subj : Simple π) : Counts :=
  if subj.neverMatch then counts
  else
    { byId    := subj.indexId.elim counts.byId (indexCountInc counts.byId)
      byClass := (subj.classes.filter (· ≠ [])).foldl indexCountInc counts.byClass
      byTag   := subj.indexType.elim counts.byTag (indexCountIncLowercase counts.byTag)
      byAttr  := ((subj.attrs.map (·.name)).filter (· ≠ [])).foldl indexCountIncLowercase counts.byAttr }

-- The variables `kind` and `best` of `index_subject_kind`.
structure Choice where
  kind : IndexKind := .none
  best : UInt32 := 4294967295

-- `index_choice_take`, and what follows where it succeeds.
def Choice.take (c : Choice) (count : UInt32) (kind : IndexKind) : Choice :=
  if count = 0 ∨ c.best ≤ count then c else ⟨kind, count⟩

def indexSubjectKind {π : Type*} (counts : Counts) (subj : Simple π) : IndexKind :=
  if subj.neverMatch then .none
  else
    let c : Choice := {}
    let c := subj.indexId.elim c fun id => c.take (indexCount counts.byId id) .id
    let c := subj.classes.zipIdx.foldl (fun c (cls, i) =>
      if cls = [] then c else c.take (indexCount counts.byClass cls) (.ofClass i)) c
    let c := subj.indexType.elim c fun type => c.take (indexCountLookupLowercase counts.byTag type) .tag
    let c := subj.attrs.zipIdx.foldl (fun c (a, i) =>
      if a.name = [] then c else c.take (indexCountLookupLowercase counts.byAttr a.name) (.attr i)) c
    c.kind

namespace RuleIndex

variable {π : Type*}

-- The part of the loop of `ns_css_rule_index_build` that files a selector with this last compound.
def file (idx : RuleIndex) (counts : Counts) (subj : Simple π) (cand : Candidate) : RuleIndex :=
  let rest : RuleIndex := { idx with universal := indexAddCandidateArray idx.universal cand }
  match indexSubjectKind counts subj with
  | .id        => { idx with byId := indexAdd idx.byId (subj.id.getD []) cand }
  | .ofClass i =>
    match subj.classes[i]?.filter (· ≠ []) with
    | some cls => { idx with byClass := indexAdd idx.byClass cls cand }
    | none     => rest
  | .tag       => { idx with byTag := indexAddLowercase idx.byTag (subj.type.getD []) cand }
  | .attr i    =>
    match (subj.attrs[i]?.map (·.name)).filter (· ≠ []) with
    | some name => { idx with byAttr := indexAddLowercase idx.byAttr name cand }
    | none      => rest
  | .none      => rest

def add (idx : RuleIndex) (counts : Counts) (subj : Option (Simple π)) (cand : Candidate) : RuleIndex :=
  match subj with
  | none      => { idx with universal := indexAddCandidateArray idx.universal cand }
  | some subj => if subj.neverMatch then idx else idx.file counts subj cand

end RuleIndex

namespace Page

variable {ι ρ σ ν π : Type*} (P : Page ι ρ σ ν π)

-- The last compound of a selector, if the pointer and the selector have one.
def subject (sel : Option σ) : Option (Simple π) :=
  sel.bind fun sel => (P.selector sel).compounds.getLast?

-- The selectors of a sheet in the order of the two nested loops.
def sheetSelectors (sheet : ι) : List (Candidate × Option σ) :=
  (P.sheet sheet).rules.zipIdx.flatMap fun (r, ri) =>
    (P.rule r).selectors.zipIdx.map fun (sel, si) => (⟨ri, si⟩, sel)

def ruleIndexCounts (sheet : ι) : Counts :=
  (P.sheetSelectors sheet).foldl (fun counts (_, sel) =>
    (P.subject sel).elim counts (indexCountsAddSubject counts)) {}

def ruleIndexBuild (sheet : ι) : RuleIndex :=
  let counts := P.ruleIndexCounts sheet
  (P.sheetSelectors sheet).foldl (fun idx (cand, sel) => idx.add counts (P.subject sel) cand) {}

-- The pseudo-elements that a list of selectors adds to a mask.
def pseudoMask (selectors : List (Option σ)) (mask : Nat) : Nat :=
  selectors.foldl (fun mask sel =>
    match sel.map fun sel => (P.selector sel).pseudoElement with
    | none | some .none => mask
    | some pe           => mask ||| 1 <<< pe.code) mask

end Page

end Nordstjernen.Css.Gather
