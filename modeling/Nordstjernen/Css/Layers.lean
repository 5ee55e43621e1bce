import Nordstjernen.Glib.Array
import Nordstjernen.Glib.Strings

open Nordstjernen.Glib

namespace Nordstjernen.Css

-- The hash table of the layer names, which holds the ranks plus one.
abbrev LayerRanks :=
  List (CString × Nat)

namespace LayerRanks

def addName (layerRanks : LayerRanks) (name : CString) : LayerRanks :=
  if layerRanks.any (·.fst == name) then layerRanks else layerRanks ++ [(name, layerRanks.length)]

-- `css_layer_rank_add_sheet`
def addSheet (layerRanks : LayerRanks) (layerNames : List CString) : LayerRanks :=
  layerNames.foldl addName layerRanks

end LayerRanks

def join (parts : List CString) : CString :=
  ['.'].intercalate parts

-- The prefixes of a name that end at a dot or with the name.
def layerPrefixes (name : CString) : List CString :=
  (name.splitOn '.').inits.tail.map join

-- Keeps the smallest index of a prefix.
def notePrefix (index : Nat) (first : CString → Option Nat) (pre : CString) : CString → Option Nat :=
  match first pre with
  | some prev => if prev ≤ index then first else Function.update first pre (some index)
  | none      => Function.update first pre (some index)

-- `css_layer_prefix_note`
def layerPrefixNote (first : CString → Option Nat) (entry : CString × Nat) : CString → Option Nat :=
  (layerPrefixes entry.fst).foldl (notePrefix entry.snd) first

-- `css_layer_first_index`
def layerFirstIndex (first : CString → Option Nat) (pre : CString) : Nat :=
  (first pre).getD 2147483647

def strcmp (a b : CString) : Int :=
  if a = b then 0 else if a < b then -1 else 1

-- The loop of `css_layer_name_cmp` behind the parts that both names begin with.
def layerPartsCmp (first : CString → Option Nat) (a b : CString) :
    List CString → List CString → List CString → Int
  | done, x :: xs, y :: ys =>
    if x = y then
      if xs = [] ∧ ys = [] then 0
      else if xs = [] then 1
      else if ys = [] then -1
      else layerPartsCmp first a b (done ++ [x]) xs ys
    else
      let ai := layerFirstIndex first (join (done ++ [x]))
      let bi := layerFirstIndex first (join (done ++ [y]))
      if ai ≠ bi then (if ai < bi then -1 else 1) else strcmp a b
  | _, _, _ => 0

-- `css_layer_name_cmp`
def layerNameCmp (first : CString → Option Nat) (a b : CString) : Int :=
  layerPartsCmp first a b [] (a.splitOn '.') (b.splitOn '.')

-- The table `first` after the hash table of the names has been iterated over.
def layerFirst (iterated : LayerRanks) : CString → Option Nat :=
  iterated.foldl layerPrefixNote fun _ => none

-- `css_layer_ranks_finalize`. The two hash tables are iterated over in the orders that are given.
def layerRanksFinalize (iterated : LayerRanks) (names : List CString) : LayerRanks :=
  (gArraySort (layerNameCmp (layerFirst iterated)) names).zipIdx

-- The orders in which the hash tables can be iterated over.
structure Iterations (sheets : List (List CString)) (iterated : LayerRanks) (names : List CString) :
    Prop where
  perm  : iterated.Perm (sheets.foldl LayerRanks.addSheet [])
  nodup : names.Nodup
  mem   : ∀ name, name ∈ names ↔ (layerFirst iterated name).isSome

end Nordstjernen.Css

namespace Nordstjernen.Css

def layerParts (name : CString) : List CString :=
  name.splitOn '.'

-- A layer is another one or below it.
def Within (a q : CString) : Prop :=
  layerParts q <+: layerParts a

instance (a q : CString) : Decidable (Within a q) :=
  inferInstanceAs (Decidable (_ <+: _))

-- Layers of the same parent.
def Siblings (q r : CString) : Prop :=
  q ≠ r ∧ (layerParts q).dropLast = (layerParts r).dropLast

-- The layers that some names declare.
def IsLayer (names : List CString) (q : CString) : Prop :=
  ∃ n ∈ names, Within n q

-- Whether of two layers the first one is seen first, by itself or something below it.
def SeenBefore (names : List CString) (q r : CString) : Prop :=
  ∃ before n after, names = before ++ n :: after ∧ Within n q ∧ ∀ m ∈ before ++ [n], ¬Within m r

-- A comparison that is a total order of some names, with none of them equal to another one.
structure TotallyOrders (cmp : CString → CString → Int) (layer : CString → Prop) : Prop where
  eq_zero : ∀ {a b}, layer a → layer b → (cmp a b = 0 ↔ a = b)
  swap    : ∀ {a b}, layer a → layer b → (cmp a b < 0 ↔ 0 < cmp b a)
  trans   : ∀ {a b c}, layer a → layer b → layer c → cmp a b < 0 → cmp b c < 0 → cmp a c < 0

-- Ranks that order the layers of some names as they have to be.
structure RanksLayers (names : List CString) (ranks : LayerRanks) : Prop where
  layers     : ∀ q, IsLayer names q ↔ ∃ i, (q, i) ∈ ranks
  inj        : ∀ {q r i j}, (q, i) ∈ ranks → (r, j) ∈ ranks → (q = r ↔ i = j)
  siblings   : ∀ {q r i j}, (q, i) ∈ ranks → (r, j) ∈ ranks → Siblings q r → (i < j ↔ SeenBefore names q r)
  after      : ∀ {q r i j}, (q, i) ∈ ranks → (r, j) ∈ ranks → Within q r → q ≠ r → i < j
  contiguous : ∀ {p a b c i j k}, (a, i) ∈ ranks → (b, j) ∈ ranks → (c, k) ∈ ranks → i ≤ j → j ≤ k →
    Within a p → Within c p → Within b p

end Nordstjernen.Css
