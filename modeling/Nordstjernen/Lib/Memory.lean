import Mathlib.Logic.Basic

namespace Nordstjernen.Lib

-- Blocks of bytes whose accesses are checked, and numbers that are checked to fit where they are kept.

inductive Fault
  | outOfBounds
  | overflow
deriving DecidableEq

abbrev Checked := Except Fault

abbrev Bytes := List UInt8

def load (mem : Bytes) (i : Nat) : Checked UInt8 :=
  match mem[i]? with
  | some b => pure b
  | none   => throw .outOfBounds

def store (mem : Bytes) (i : Nat) (b : UInt8) : Checked Bytes :=
  if i < mem.length then pure (mem.set i b) else throw .outOfBounds

-- The block of so many bytes at a place in another one.
def slice (mem : Bytes) (offset len : Nat) : Checked Bytes :=
  if offset + len ≤ mem.length then pure ((mem.drop offset).take len) else throw .outOfBounds

-- `memcpy` into a block, at a place in it.
def copyInto (mem : Bytes) (offset : Nat) (src : Bytes) : Checked Bytes :=
  if offset + src.length ≤ mem.length then
    pure (mem.take offset ++ src ++ mem.drop (offset + src.length))
  else throw .outOfBounds

-- A number that is computed where the greatest one is `max`.
def fit (max n : Nat) : Checked Nat :=
  if n ≤ max then pure n else throw .overflow

-- A difference of unsigned numbers.
def minus (n m : Nat) : Checked Nat :=
  if m ≤ n then pure (n - m) else throw .overflow

-- Runs the body of a loop for `0`, `1` and so on.
def forRange {α : Type*} (n : Nat) (body : Nat → α → Checked α) (a : α) : Checked α :=
  (List.range n).foldlM (fun a i => body i a) a

universe u

variable {α β : Type u} {x : Checked α} {f : α → Checked β} {P : α → Prop} {Q : β → Prop} {a : α}
  {mem src : Bytes} {i offset len max n : Nat} {b : UInt8}

-- The computation ends without a fault, with a result like this.
def Safe (x : Checked α) (P : α → Prop) : Prop :=
  ∃ a, x = .ok a ∧ P a

theorem Safe.pure (h : P a) : Safe (Pure.pure a) P :=
  ⟨a, rfl, h⟩

-- The result may be used as the value of this very computation.
theorem Safe.bind_eq (h : Safe x P) (hf : ∀ a, x = .ok a → P a → Safe (f a) Q) : Safe (x >>= f) Q := by
  obtain ⟨a, hx, ha⟩ := h
  have hs := hf a hx ha
  rwa [hx]

theorem Safe.bind (h : Safe x P) (hf : ∀ a, P a → Safe (f a) Q) : Safe (x >>= f) Q :=
  h.bind_eq fun a _ => hf a

theorem Safe.mono {P' : α → Prop} (h : Safe x P) (hp : ∀ a, P a → P' a) : Safe x P' := by
  obtain ⟨a, rfl, ha⟩ := h
  exact ⟨a, rfl, hp a ha⟩

theorem Safe.ite {c : Prop} [Decidable c] {y : Checked α} (hx : c → Safe x P) (hy : ¬c → Safe y P) :
    Safe (if c then x else y) P := by
  split
  case isTrue h  => exact hx h
  case isFalse h => exact hy h

theorem load_safe (h : i < mem.length) : Safe (load mem i) fun _ => True := by
  rw [load, List.getElem?_eq_getElem h]
  exact .pure trivial

theorem store_safe (h : i < mem.length) : Safe (store mem i b) fun m => m.length = mem.length := by
  rw [store, if_pos h]
  exact .pure List.length_set

theorem slice_safe (h : offset + len ≤ mem.length) : Safe (slice mem offset len) fun m => m.length = len := by
  rw [slice, if_pos h]
  refine .pure ?_
  rw [List.length_take, List.length_drop]
  omega

theorem copyInto_safe (h : offset + src.length ≤ mem.length) :
    Safe (copyInto mem offset src) fun m => m.length = mem.length := by
  rw [copyInto, if_pos h]
  refine .pure ?_
  rw [List.length_append, List.length_append, List.length_take, List.length_drop]
  omega

theorem fit_safe (h : n ≤ max) : Safe (fit max n) fun m => m = n := by
  rw [fit, if_pos h]
  exact .pure rfl

theorem minus_safe (h : n ≤ max) : Safe (minus max n) fun m => m = max - n := by
  rw [minus, if_pos h]
  exact .pure rfl

-- What every round of a loop keeps is kept by the loop.
theorem forRange_safe {I : α → Prop} {body : Nat → α → Checked α} (h : ∀ i < n, ∀ a, I a → Safe (body i a) I)
    (ha : I a) : Safe (forRange n body a) I := by
  rw [forRange]
  have hm : ∀ i ∈ List.range n, ∀ a, I a → Safe (body i a) I := fun i hi => h i (List.mem_range.mp hi)
  generalize List.range n = is at hm
  induction is generalizing a
  case nil => exact .pure ha
  case cons i is hi =>
    rw [List.foldlM_cons]
    refine .bind (hm i List.mem_cons_self a ha) fun a' ha' => ?_
    exact hi ha' fun j hj => hm j (List.mem_cons_of_mem _ hj)

end Nordstjernen.Lib
