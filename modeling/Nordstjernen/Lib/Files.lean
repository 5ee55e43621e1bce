import Mathlib.Algebra.Group.Defs
import Mathlib.Data.List.Basic
import Mathlib.Logic.Function.Basic

open Function (update)

namespace Nordstjernen.Lib

-- The names in a directory and the files that they lead to. A file stays what it is under another
-- name, and also without one, for those that have it open.
structure Files (ν β : Type*) where
  names : ν → Option Nat
  data  : Nat → List β
  used  : Nat
  named : ∀ n f, names n = some f → f < used

namespace Files

variable {ν β : Type*}

def empty : Files ν β where
  names _ := none
  data _  := []
  used    := 0
  named _ _ h := by cases h

-- What a file has after a write at a position, which may lie behind its end.
def overwrite [Zero β] (xs : List β) (pos : Nat) (ys : List β) : List β :=
  xs.take pos ++ List.replicate (pos - xs.length) 0 ++ ys ++ xs.drop (pos + ys.length)

theorem overwrite_length [Zero β] (xs ys : List β) : overwrite xs xs.length ys = xs ++ ys := by
  simp [overwrite]

def write [Zero β] (d : Files ν β) (f pos : Nat) (ys : List β) : Files ν β :=
  { d with data := update d.data f (overwrite (d.data f) pos ys) }

section Write

variable [Zero β] {d : Files ν β} {f g pos : Nat} {ys : List β}

theorem data_write_of_ne (h : g ≠ f) : (d.write f pos ys).data g = d.data g :=
  Function.update_of_ne h ..

theorem data_write_end : (d.write f (d.data f).length ys).data f = d.data f ++ ys :=
  (Function.update_self ..).trans (overwrite_length ..)

end Write

variable [DecidableEq ν]

theorem lt_of_update {names : ν → Option Nat} {u : Nat} {n : ν} {o : Option Nat}
    (h : ∀ m f, names m = some f → f < u) (ho : ∀ f, o = some f → f < u) (m : ν) (f : Nat)
    (hm : update names n o m = some f) : f < u := by
  by_cases he : m = n
  case pos =>
    rw [he, Function.update_self] at hm
    exact ho f hm
  case neg =>
    rw [Function.update_of_ne he] at hm
    exact h m f hm

variable (d : Files ν β) (n m : ν)

-- Opens a file for writing. What is there under the name loses its content, otherwise there is a
-- new file.
def create : Nat × Files ν β :=
  match d.names n with
  | some f => (f, { d with data := update d.data f [] })
  | none   =>
    (d.used, {
      names := update d.names n (some d.used)
      data  := update d.data d.used []
      used  := d.used + 1
      named := lt_of_update (fun m f h => Nat.lt_succ_of_lt (d.named m f h)) fun f h => by
        cases h
        exact Nat.lt_succ_self _
    })

def unlink : Files ν β where
  names := update d.names n none
  data  := d.data
  used  := d.used
  named := lt_of_update d.named fun _ h => by cases h

-- Gives a file another name at once, in the place of what had it. Two names of one file stay.
def rename : Option (Files ν β) :=
  match h : d.names n with
  | none   => none
  | some f =>
    if d.names m = some f then some d
    else some {
      names := update (d.unlink n).names m (some f)
      data  := d.data
      used  := d.used
      named := lt_of_update (d.unlink n).named fun g hg => by
        cases hg
        exact d.named n f h
    }

variable {d n m} {f g : Nat} {e : Files ν β}

-- What has another name, or none, is as before.
theorem data_create (hg : g < d.used) (hn : d.names n ≠ some g) :
    (d.create n).2.data g = d.data g := by
  rw [create]
  split
  case h_1 f hf =>
    refine Function.update_of_ne ?_ ..
    rintro rfl
    exact hn hf
  case h_2 => exact Function.update_of_ne (Nat.ne_of_lt hg) ..

theorem data_create_self : (d.create n).2.data (d.create n).1 = [] := by
  rw [create]
  split
  all_goals exact Function.update_self ..

theorem names_create_self : (d.create n).2.names n = some (d.create n).1 := by
  rw [create]
  split
  case h_1 f hf => exact hf
  case h_2      => exact Function.update_self ..

theorem names_create (hm : m ≠ n) : (d.create n).2.names m = d.names m := by
  rw [create]
  split
  case h_1 f hf => rfl
  case h_2      => exact Function.update_of_ne hm ..

theorem used_le_create : d.used ≤ (d.create n).2.used := by
  rw [create]
  split
  case h_1 => exact Nat.le_refl _
  case h_2 => exact Nat.le_succ _

-- The file that is opened is the one with the name, or has not been there.
theorem create_fst : d.names n = some (d.create n).1 ∨ (d.create n).1 = d.used := by
  rw [create]
  split
  case h_1 f hf => exact .inl hf
  case h_2      => exact .inr rfl

theorem names_unlink_self : (d.unlink n).names n = none :=
  Function.update_self ..

theorem names_unlink (h : m ≠ n) : (d.unlink n).names m = d.names m :=
  Function.update_of_ne h ..

theorem names_of_rename (h : d.rename n m = some e) (hd : ∀ f, d.names m = some f → d.names n ≠ some f)
    (hnm : n ≠ m) :
    e.names n = none ∧ e.names m = d.names n ∧ e.data = d.data ∧ e.used = d.used := by
  rw [rename] at h
  split at h
  case h_1      => cases h
  case h_2 f hf =>
    rw [if_neg fun hm => hd f hm hf] at h
    cases h
    refine ⟨?_, ?_, rfl, rfl⟩
    · exact (Function.update_of_ne hnm ..).trans names_unlink_self
    · exact (Function.update_self ..).trans hf.symm

end Files

end Nordstjernen.Lib
