import Mathlib.Data.Rat.Floor
import Mathlib.Logic.Function.Basic
import Nordstjernen.Glib.Strings
import Nordstjernen.Lib.Doubles
import Nordstjernen.Lib.Run

open Nordstjernen.Glib Nordstjernen.Lib

namespace Nordstjernen.Storage

-- A key: the value of a finite number, or the text that a key of another type is encoded as.
inductive Key
  | number (v : ℚ)
  | encoded (text : CString)
deriving DecidableEq

-- What `_keyFor` passes on to the key generator.
def Key.numeric : Key → Option Int
  | .number v  => if 1 ≤ v then some ⌊v⌋ else none
  | .encoded _ => none

-- The least value of `key_gen` behind a numeric key. The sum is made in doubles.
def keyBound (numeric : Int) : Int :=
  let nextGen := toDouble (numeric + 1)
  if nextGen ≥ 9223372036854775808 then 9223372036854775807 else nextGen

-- A store with a key generator: its row of the table `stores`, and its records.
structure ObjectStore (V : Type) where
  keyGen  : Int
  records : Key → Option V

namespace ObjectStore

variable {V : Type} (s : ObjectStore V)

def create : ObjectStore V where
  keyGen  := 1
  records := fun _ => none

-- `ns_idb_backend_next_key`: `key_gen` has 64 bits, and the key is a number of JavaScript.
def nextKey : ObjectStore V × ℚ :=
  ({ s with keyGen := (s.keyGen + 1).bmod (2 ^ 64) }, toDouble s.keyGen)

-- `ns_idb_backend_put`, which is rolled back where something of it fails.
def put (key : Key) (value : V) (addOnly fails : Bool) : Option (ObjectStore V) :=
  if fails ∨ addOnly ∧ (s.records key).isSome then none
  else
    some
      { keyGen  := match key.numeric with
          | some numeric => max s.keyGen (keyBound numeric)
          | none         => s.keyGen
        records := Function.update s.records key (some value) }

end ObjectStore

-- What `put` and `add` are called with: a key, or none. Whether what they do besides can be done is seen
-- from outside.
inductive StoreOp (V : Type)
  | generated (value : V) (addOnly fails : Bool)
  | explicit (key : Key) (value : V) (addOnly fails : Bool)

-- The numeric keys, as they come: those that are generated, with the record that is replaced, and those
-- that records are stored with.
inductive Numbered (V : Type)
  | generated (key : ℚ) (replaced : Option V)
  | stored (key : ℚ)
deriving DecidableEq

def Numbered.key {V : Type} : Numbered V → ℚ
  | .generated key _ => key
  | .stored key      => key

structure Numbering (V : Type) where
  store : ObjectStore V
  log   : List (Numbered V)

namespace Numbering

variable {V : Type} (s : Numbering V)

def start : Numbering V where
  store := .create
  log   := []

-- `_store`. A key that has been generated is not given back when the record cannot be stored.
def step : StoreOp V → Option (Numbering V)
  | .generated value addOnly fails    =>
    let (store, key) := s.store.nextKey
    match store.put (.number key) value addOnly fails with
    | none        => some { store, log := s.log ++ [.generated key none] }
    | some store' => some { store := store', log := s.log ++ [.generated key (store.records (.number key))] }
  | .explicit key value addOnly fails =>
    match s.store.put key value addOnly fails with
    | none       => some s
    | some store =>
      some
        { store
          log := match key with
            | .number v  => s.log ++ [.stored v]
            | .encoded _ => s.log }

-- Each key that is generated is above all numeric keys before it, and replaces nothing.
def Ascends : Prop :=
  ∀ before key replaced after, s.log = before ++ .generated key replaced :: after →
    (∀ n ∈ before, n.key < key) ∧ replaced = none

-- Where the generator counts exactly: it is not beyond 2⁵³, and nobody stores a record with that key.
def Counts (s : Numbering V) : StoreOp V → Prop
  | .generated ..              => s.store.keyGen ≤ 2 ^ 53
  | .explicit (.number v) _ .. => ⌊v⌋ ≠ 2 ^ 53
  | .explicit (.encoded _) ..  => True

instance : ∀ op, Decidable (s.Counts op)
  | .generated ..              => inferInstanceAs (Decidable (s.store.keyGen ≤ 2 ^ 53))
  | .explicit (.number v) _ .. => inferInstanceAs (Decidable (⌊v⌋ ≠ 2 ^ 53))
  | .explicit (.encoded _) ..  => inferInstanceAs (Decidable True)

end Numbering

section Bound

variable {numeric : Int} {v : ℚ}

theorem keyBound_of_lt (h : 1 ≤ numeric) (hn : numeric < 2 ^ 53) : keyBound numeric = numeric + 1 := by
  rw [keyBound, toDouble_of_le (by omega) (by omega)]
  exact if_neg (by omega)

theorem lt_keyBound (h : 2 ^ 53 < numeric) : 2 ^ 53 < keyBound numeric := by
  have hd : 2 ^ 53 < toDouble (numeric + 1) := lt_toDouble (by omega)
  rw [keyBound]
  split <;> omega

-- Behind a key that the generator can count, what it says next is above the key.
theorem lt_of_keyBound_le (h : 1 ≤ v) (hv : ⌊v⌋ ≠ 2 ^ 53) {keyGen : Int} (hb : keyBound ⌊v⌋ ≤ keyGen)
    (hk : keyGen ≤ 2 ^ 53) : v < keyGen := by
  have hfloor : 1 ≤ ⌊v⌋ := Int.le_floor.mpr (by exact_mod_cast h)
  obtain hlt | hgt := lt_or_gt_of_ne hv
  · have hle : ⌊v⌋ + 1 ≤ keyGen := keyBound_of_lt hfloor hlt ▸ hb
    exact (Int.lt_floor_add_one v).trans_le (by exact_mod_cast hle)
  · have := lt_keyBound hgt
    omega

end Bound

namespace ObjectStore

variable {V : Type} {s s' : ObjectStore V} {key : Key} {value : V} {addOnly fails : Bool}

theorem put_eq_some (h : s.put key value addOnly fails = some s') :
    s'.records = Function.update s.records key (some value) ∧ s.keyGen ≤ s'.keyGen ∧
      ∀ n ∈ key.numeric, keyBound n ≤ s'.keyGen := by
  rw [put] at h
  split at h
  case isTrue  => cases h
  case isFalse =>
    cases h
    refine ⟨rfl, ?_, fun n hn => ?_⟩
    · dsimp only
      split
      · exact le_max_left ..
      · exact le_rfl
    · dsimp only
      rw [hn]
      exact le_max_right ..

-- Where the generator counts exactly, it goes on by one.
theorem nextKey_of_le (h : 1 ≤ s.keyGen) (hle : s.keyGen ≤ 2 ^ 53) :
    s.nextKey = ({ s with keyGen := s.keyGen + 1 }, (s.keyGen : ℚ)) := by
  have hmod : (s.keyGen + 1).bmod (2 ^ 64) = s.keyGen + 1 := by
    rw [Int.bmod_eq_of_le] <;> omega
  rw [nextKey, toDouble_of_le h hle, hmod]

end ObjectStore

namespace Numbering

variable {V : Type} {s s' : Numbering V} {op : StoreOp V} {ops : List (StoreOp V)} {n : Numbered V}

-- While the generator counts exactly, all numeric keys are below what it says next.
structure Inv (s : Numbering V) : Prop where
  ascends : s.Ascends
  pos     : s.store.keyGen ≤ 2 ^ 53 → 1 ≤ s.store.keyGen
  log     : s.store.keyGen ≤ 2 ^ 53 → ∀ n ∈ s.log, n.key < s.store.keyGen
  records : s.store.keyGen ≤ 2 ^ 53 → ∀ v : ℚ, (s.store.records (.number v)).isSome → v < s.store.keyGen

theorem Inv.start : (start : Numbering V).Inv where
  ascends _ _ _ _ h := absurd h (by simp [Numbering.start])
  pos _             := le_rfl
  log _ _ hn        := absurd hn List.not_mem_nil
  records _ _ h     := absurd h (by simp [Numbering.start, ObjectStore.create])

-- One more numeric key: one that is generated has to be above those before.
theorem Ascends.concat (h : s.Ascends)
    (hn : ∀ key replaced, n = .generated key replaced → (∀ m ∈ s.log, m.key < key) ∧ replaced = none)
    {store : ObjectStore V} : Ascends { store, log := s.log ++ [n] } := by
  intro before key replaced after he
  obtain rfl | ⟨after, m, rfl⟩ := after.eq_nil_or_concat
  · obtain ⟨hlog, hlast⟩ := List.append_inj' he rfl
    exact hlog ▸ hn key replaced (List.singleton_inj.mp hlast)
  · rw [List.concat_eq_append, ← List.cons_append, ← List.append_assoc] at he
    exact h before key replaced after (List.append_inj' he rfl).1

-- A key has been generated, and its record is stored or not.
theorem Inv.generated (h : s.Inv) (hle : s.store.keyGen ≤ 2 ^ 53) {store : ObjectStore V}
    (hgen : s.store.keyGen + 1 ≤ store.keyGen)
    (hrec : ∀ v : ℚ, (store.records (.number v)).isSome →
      v = s.store.keyGen ∨ (s.store.records (.number v)).isSome) :
    Inv { store, log := s.log ++ [.generated (s.store.keyGen : ℚ) none] } := by
  have hlt : (s.store.keyGen : ℚ) < store.keyGen := by exact_mod_cast hgen
  refine ⟨h.ascends.concat fun key replaced he => ?_, fun _ => ?_, fun _ n hn => ?_, fun _ v hv => ?_⟩
  · cases he
    exact ⟨h.log hle, rfl⟩
  · have := h.pos hle
    dsimp only
    omega
  · obtain hn | hn := List.mem_append.mp hn
    · exact (h.log hle n hn).trans hlt
    · obtain rfl := List.mem_singleton.mp hn
      exact hlt
  · obtain rfl | hv := hrec v hv
    · exact hlt
    · exact (h.records hle v hv).trans hlt

-- A record has been stored with a key.
theorem Inv.stored (h : s.Inv) {key : Key} {store : ObjectStore V} {value : V}
    (hrec : store.records = Function.update s.store.records key (some value))
    (hgen : s.store.keyGen ≤ store.keyGen)
    (hkey : ∀ v, key = .number v → store.keyGen ≤ 2 ^ 53 → v < store.keyGen) :
    Inv { store, log := match key with
      | .number v  => s.log ++ [.stored v]
      | .encoded _ => s.log } := by
  have hle (hle : store.keyGen ≤ 2 ^ 53) : s.store.keyGen ≤ 2 ^ 53 := hgen.trans hle
  have hmono {q : ℚ} (hq : q < s.store.keyGen) : q < store.keyGen := hq.trans_le (by exact_mod_cast hgen)
  refine ⟨?_, fun hk => (h.pos (hle hk)).trans hgen, fun hk n hn => ?_, fun hk v hv => ?_⟩
  · cases key
    case number v => exact h.ascends.concat (n := .stored v) fun _ _ he => nomatch he
    case encoded  => exact h.ascends
  · cases key
    case number v =>
      obtain hn | hn := List.mem_append.mp hn
      · exact hmono (h.log (hle hk) n hn)
      · obtain rfl := List.mem_singleton.mp hn
        exact hkey v rfl hk
    case encoded  => exact hmono (h.log (hle hk) n hn)
  · by_cases he : key = .number v
    case pos => exact hkey v he hk
    case neg =>
      rw [hrec, Function.update_of_ne (Ne.symm he)] at hv
      exact hmono (h.records (hle hk) v hv)

theorem Inv.step (h : s.Inv) (hc : s.Counts op) (hs : s.step op = some s') : s'.Inv := by
  cases op
  case generated value addOnly fails =>
    have hle : s.store.keyGen ≤ 2 ^ 53 := hc
    have hnone : s.store.records (.number s.store.keyGen) = none := by
      by_contra hne
      exact absurd (h.records hle _ (Option.isSome_iff_ne_none.mpr hne)) (lt_irrefl _)
    simp only [Numbering.step, ObjectStore.nextKey_of_le (h.pos hle) hle, hnone] at hs
    split at hs
    case h_1              => exact Option.some.inj hs ▸ h.generated hle le_rfl fun v hv => .inr hv
    case h_2 store' hput =>
      obtain ⟨hrec, hgen, -⟩ := ObjectStore.put_eq_some hput
      refine Option.some.inj hs ▸ h.generated hle hgen fun v hv => ?_
      rw [hrec] at hv
      by_cases he : v = s.store.keyGen
      case pos => exact .inl he
      case neg => exact .inr (by rwa [Function.update_of_ne (by simpa using he)] at hv)
  case explicit key value addOnly fails =>
    simp only [Numbering.step] at hs
    split at hs
    case h_1             => exact Option.some.inj hs ▸ h
    case h_2 store hput =>
      obtain ⟨hrec, hgen, hbound⟩ := ObjectStore.put_eq_some hput
      refine Option.some.inj hs ▸ h.stored hrec hgen fun v he hk => ?_
      subst he
      by_cases hv : 1 ≤ v
      case pos => exact lt_of_keyBound_le hv hc (hbound _ (if_pos hv)) hk
      case neg =>
        have hpos : (1 : ℚ) ≤ store.keyGen := by exact_mod_cast (h.pos (hgen.trans hk)).trans hgen
        exact (not_le.mp hv).trans_le hpos

theorem ascends_of_run (hr : run step start ops = some s) (hc : StepsMeet Counts step start ops) : s.Ascends :=
  (run_preserves (I := Inv) (fun _ _ _ h hc hs => h.step hc hs) hr hc .start).ascends

-- Keys between those that are generated, and above them.
def mixedPuts : List (StoreOp Nat) :=
  [.explicit (.number (5 / 2)) 0 false false, .generated 1 false false, .generated 2 true true,
    .explicit (.number 9) 3 true false, .generated 4 true false]

theorem ascends_mixedPuts : ∃ s, run step start mixedPuts = some s ∧
    s.log.map Numbered.key = [5 / 2, 3, 4, 9, 10] ∧ s.Ascends := by
  have hlog : (run step start mixedPuts).map (·.log.map Numbered.key) = some [5 / 2, 3, 4, 9, 10] := by
    decide +kernel
  obtain ⟨s, hr, hs⟩ := Option.map_eq_some_iff.mp hlog
  exact ⟨s, hr, hs, ascends_of_run hr (by decide +kernel)⟩

-- Behind the key 2⁵³ comes the same key.
theorem not_ascends_twoPow : ¬∀ (ops : List (StoreOp Nat)) (s : Numbering Nat),
    run step start ops = some s → s.Ascends := by
  intro h
  have hlog : (run step start
      [.explicit (.number (2 ^ 53)) 1 false false, .generated 2 false false]).map (·.log) =
      some [.stored (2 ^ 53), .generated (2 ^ 53) (some 1)] := by
    decide +kernel
  obtain ⟨s, hr, hs⟩ := Option.map_eq_some_iff.mp hlog
  exact absurd (h _ s hr [.stored (2 ^ 53)] (2 ^ 53) (some 1) [] hs).2 (by decide)

end Numbering

end Nordstjernen.Storage
