import Nordstjernen.Ipc.Http

open Nordstjernen.Glib

namespace Nordstjernen.Ipc

namespace HttpConn

variable {c c₁ c₂ : HttpConn} {f : FilledConn} {cap left : Nat} {out dst : CString}

@[simp]
theorem pending_closed : closed.pending = [] :=
  rfl

theorem pending_of_readFill_none {rs : List ReadResult} (h : readFill rs = none) :
    rs.flatMap ReadResult.data = [] := by
  induction rs
  case nil => rfl
  case cons r rs hi =>
    cases r
    case bytes       => cases h
    case interrupted => exact hi h

theorem pending_of_fill_none (h : c.fill = none) : c.pending = [] := by
  rw [fill] at h
  split at h
  case h_1     => cases h
  case h_2 hb  => rw [pending, hb, pending_of_readFill_none h, List.nil_append]

theorem pending_of_fill_some (h : c.fill = some f) :
    c.pending = f.first :: f.rest ++ f.reads.flatMap ReadResult.data :=
  pending_of_fill h

theorem exists_fill {ch : Char} {p : CString} (h : c.pending = ch :: p) :
    ∃ f, c.fill = some f ∧ f.first = ch ∧ f.next.pending = p := by
  cases hf : c.fill
  case none => cases h.symm.trans (pending_of_fill_none hf)
  case some f =>
    have he := h.symm.trans (pending_of_fill hf)
    rw [List.cons.injEq] at he
    exact ⟨f, rfl, he.left.symm, he.right.symm⟩

theorem fill_eq_none (h : c.pending = []) : c.fill = none := by
  cases hf : c.fill
  case none   => rfl
  case some f => cases h.symm.trans (pending_of_fill hf)

section Line

theorem readLine_of_fill_none (h : c.fill = none) : c.readLine cap out = (none, closed) := by
  rw [readLine]
  split
  case h_1           => rfl
  case h_2 f hf      => cases h.symm.trans hf

theorem readLine_of_fill (h : c.fill = some f) : c.readLine cap out =
    if f.first = '\n' then (some (out.rdropWhile (· == '\r')), f.next)
    else f.next.readLine cap (if out.length + 1 < cap then out ++ [f.first] else out) := by
  rw [readLine]
  split
  case h_1 hf   => cases h.symm.trans hf
  case h_2 g hg =>
    cases h.symm.trans hg
    rfl

-- A line that fits, up to the line break behind it.
theorem exists_readLine_eq {a r : CString} (out : CString) (h : c.pending = a ++ '\n' :: r) (ha : '\n' ∉ a)
    (hl : out.length + a.length < cap) :
    ∃ c', c.readLine cap out = (some ((out ++ a).rdropWhile (· == '\r')), c') ∧ c'.pending = r := by
  induction a generalizing c out
  case nil =>
    have ⟨f, hf, hc, hp⟩ := exists_fill h
    refine ⟨f.next, ?_, hp⟩
    rw [readLine_of_fill hf, if_pos hc, List.append_nil]
  case cons ch a hi =>
    rw [List.mem_cons, not_or] at ha
    rw [List.length_cons] at hl
    have ⟨f, hf, hc, hp⟩ := exists_fill h
    have hne : f.first ≠ '\n' := hc ▸ Ne.symm ha.left
    have hfit : out.length + 1 < cap := by omega
    have ⟨c', hr, hp'⟩ := hi (out ++ [ch]) hp ha.right (by simp; omega)
    refine ⟨c', ?_, hp'⟩
    rw [readLine_of_fill hf, if_neg hne, if_pos hfit, hc, hr, List.append_assoc, List.singleton_append]

end Line

section Body

theorem take_drop_min (b r : CString) (n : Nat) :
    b.take (min b.length n) ++ (b.drop (min b.length n) ++ r).take (n - min b.length n) = (b ++ r).take n := by
  by_cases h : n ≤ b.length
  case pos => simp [Nat.min_eq_right h, List.take_append_of_le_length h]
  case neg =>
    have hm : min b.length n = b.length := Nat.min_eq_left (by omega)
    have ht : b.take n = b := List.take_of_length_le (by omega)
    rw [hm, List.take_length, List.drop_length, List.nil_append, List.take_append, ht]

theorem drop_drop_min (b r : CString) (n : Nat) :
    (b.drop (min b.length n) ++ r).drop (n - min b.length n) = (b ++ r).drop n := by
  by_cases h : n ≤ b.length
  case pos => simp [Nat.min_eq_right h, List.drop_append_of_le_length h]
  case neg =>
    have hm : min b.length n = b.length := Nat.min_eq_left (by omega)
    have hd : b.drop n = [] := List.drop_of_length_le (by omega)
    rw [hm, List.drop_length, List.nil_append, List.drop_append, hd, List.nil_append]

-- What is copied is a number of the bytes that arrive, if there are as many.
theorem copyLoop_eq (left : Nat) (dst : CString) (c : HttpConn) :
    (c.copyLoop left dst).1 = (if left ≤ c.pending.length then some (dst ++ c.pending.take left) else none) ∧
    (c.copyLoop left dst).2.pending = c.pending.drop left := by
  induction left, dst, c using copyLoop.induct
  case case1 dst c => simp [copyLoop]
  case case2 left dst c hl hf =>
    have hp := pending_of_fill_none hf
    rw [copyLoop, dif_neg hl]
    split
    case h_2 hf' => cases hf.symm.trans hf'
    case h_1     => simp [hp, hl]
  case case3 left dst c hl f hf buf take hi =>
    have hp : c.pending = buf ++ f.reads.flatMap ReadResult.data := pending_of_fill_some hf
    have hn : (HttpConn.mk (buf.drop take) f.reads).pending = buf.drop take ++ f.reads.flatMap ReadResult.data :=
      rfl
    rw [copyLoop, dif_neg hl]
    split
    case h_1 hf'   => cases hf.symm.trans hf'
    case h_2 g hf' =>
      cases hf.symm.trans hf'
      change (copyLoop (left - take) (dst ++ buf.take take) _).1 = _ ∧
        (copyLoop (left - take) (dst ++ buf.take take) _).2.pending = _
      have hlen : left - take ≤ (buf.drop take ++ f.reads.flatMap ReadResult.data).length ↔
          left ≤ (buf ++ f.reads.flatMap ReadResult.data).length := by
        simp only [List.length_append, List.length_drop]
        omega
      rw [hi.left, hi.right, hn, hp, drop_drop_min, List.append_assoc, take_drop_min]
      simp only [hlen, and_true]

-- Bytes are skipped in the way in which they are copied.
theorem skipLoop_eq (left : Nat) (dst : CString) (c : HttpConn) :
    c.skipLoop left = ((c.copyLoop left dst).1.isSome, (c.copyLoop left dst).2) := by
  induction left, dst, c using copyLoop.induct
  case case1 dst c => simp [copyLoop, skipLoop]
  case case2 left dst c hl hf =>
    rw [copyLoop, skipLoop, dif_neg hl, dif_neg hl]
    split
    case h_2 hf' => cases hf.symm.trans hf'
    case h_1     => rfl
  case case3 left dst c hl f hf buf take hi =>
    rw [copyLoop, skipLoop, dif_neg hl, dif_neg hl]
    split
    case h_1 hf'   => cases hf.symm.trans hf'
    case h_2 g hf' =>
      cases hf.symm.trans hf'
      exact hi

end Body

section Segments

variable {α : Type}

-- The same result on two connections, and the same bytes left over.
def SameResult (r₁ r₂ : α × HttpConn) : Prop :=
  r₁.1 = r₂.1 ∧ r₁.2.pending = r₂.2.pending

theorem SameResult.exists_eq {r₁ r₂ : α × HttpConn} (h : SameResult r₁ r₂) :
    ∃ a d₁ d₂, r₁ = (a, d₁) ∧ r₂ = (a, d₂) ∧ d₁.pending = d₂.pending :=
  ⟨r₁.1, r₁.2, r₂.2, rfl, Prod.ext h.left.symm rfl, h.right⟩

variable (h : c₁.pending = c₂.pending)

include h

theorem readLine_same (cap : Nat) (out : CString) : SameResult (c₁.readLine cap out) (c₂.readLine cap out) := by
  generalize hp : c₁.pending = p at h
  induction p generalizing c₁ c₂ out
  case nil =>
    rw [readLine_of_fill_none (fill_eq_none hp), readLine_of_fill_none (fill_eq_none h.symm)]
    exact ⟨rfl, rfl⟩
  case cons ch p hi =>
    have ⟨f₁, hf₁, hc₁, hn₁⟩ := exists_fill hp
    have ⟨f₂, hf₂, hc₂, hn₂⟩ := exists_fill h.symm
    rw [readLine_of_fill hf₁, readLine_of_fill hf₂, hc₁, hc₂]
    split
    case isTrue  => exact ⟨rfl, hn₁.trans hn₂.symm⟩
    case isFalse => exact hi _ hn₁ hn₂.symm

theorem copyLoop_same (left : Nat) (dst : CString) :
    SameResult (c₁.copyLoop left dst) (c₂.copyLoop left dst) := by
  have h₁ := copyLoop_eq left dst c₁
  have h₂ := copyLoop_eq left dst c₂
  rw [h] at h₁
  exact ⟨h₁.left.trans h₂.left.symm, h₁.right.trans h₂.right.symm⟩

theorem readBody_same (n : Int) (dst : Bool) : SameResult (c₁.readBody n dst) (c₂.readBody n dst) := by
  rw [readBody, readBody]
  repeat' split
  case isTrue          => exact ⟨rfl, h⟩
  case isFalse.isTrue  => exact ⟨rfl, h⟩
  case isFalse.isFalse => exact copyLoop_same h _ _

theorem skipBody_same (n : Int) : SameResult (c₁.skipBody n) (c₂.skipBody n) := by
  rw [skipBody, skipBody]
  split
  case isTrue  => exact ⟨rfl, h⟩
  case isFalse =>
    rw [skipLoop_eq n.toNat [] c₁, skipLoop_eq n.toNat [] c₂]
    have hs := copyLoop_same h n.toNat []
    exact ⟨congrArg Option.isSome hs.left, hs.right⟩

theorem readHeaders_same (left : Nat) (out : HttpHead) :
    SameResult (HttpHead.readHeaders left out c₁) (HttpHead.readHeaders left out c₂) := by
  induction left generalizing out c₁ c₂
  case zero =>
    have ⟨l, d₁, d₂, h₁, h₂, hd⟩ := (readLine_same h lineSize []).exists_eq
    rw [HttpHead.readHeaders.eq_def, HttpHead.readHeaders.eq_def, h₁, h₂]
    rcases l with _ | _ | ⟨ch, line⟩
    all_goals exact ⟨rfl, hd⟩
  case succ left hi =>
    have ⟨l, d₁, d₂, h₁, h₂, hd⟩ := (readLine_same h lineSize []).exists_eq
    rw [HttpHead.readHeaders.eq_def, HttpHead.readHeaders.eq_def, h₁, h₂]
    rcases l with _ | _ | ⟨ch, line⟩
    case none      => exact ⟨rfl, hd⟩
    case some.nil  => exact ⟨rfl, hd⟩
    case some.cons => exact hi hd _

theorem readHead_same : SameResult c₁.readHead c₂.readHead := by
  have ⟨l, d₁, d₂, h₁, h₂, hd⟩ := (readLine_same h lineSize []).exists_eq
  rw [readHead, readHead, h₁, h₂]
  rcases l with _ | _ | ⟨ch, line⟩
  case none      => exact ⟨rfl, hd⟩
  case some.nil  => exact ⟨rfl, hd⟩
  case some.cons =>
    dsimp only
    split
    case h_1     => exact ⟨rfl, hd⟩
    case h_2 out _ =>
      have ⟨o, e₁, e₂, ho₁, ho₂, he⟩ := (readHeaders_same hd maxHeaders out).exists_eq
      rw [ho₁, ho₂]
      cases o
      case none => exact ⟨rfl, he⟩
      case some => exact ⟨rfl, he⟩

end Segments

end HttpConn

section Headers

variable {name : CString} (out : HttpHead) (val : CString)

theorem strcaseEq_congr {a b : CString} (h : strcaseEq a b) (c : CString) : strcaseEq a c = strcaseEq b c := by
  rw [strcaseEq, strcaseEq, strcaseEq_iff.mp h]

theorem NumberHeader.mem_all (k : NumberHeader) : k ∈ all := by
  cases k <;> decide

theorem TextHeader.mem_all (t : TextHeader) : t ∈ all := by
  cases t <;> decide

theorem NumberHeader.eq_of_name (j k : NumberHeader) (h : strcaseEq j.name k.name) : j = k := by
  have hd : ∀ p ∈ all.map fun k => (k, k.name), ∀ q ∈ all.map fun k => (k, k.name),
      strcaseEq p.2 q.2 → p.1 = q.1 := by
    simp only [all, List.map_cons, List.map_nil]
    delta name
    dsimp only
    repeat rw [String.toList_ofList]
    decide +kernel
  exact hd _ (List.mem_map_of_mem j.mem_all) _ (List.mem_map_of_mem k.mem_all) h

theorem TextHeader.eq_of_name (s t : TextHeader) (h : strcaseEq s.name t.name) : s = t := by
  have hd : ∀ p ∈ all.map fun t => (t, t.name), ∀ q ∈ all.map fun t => (t, t.name),
      strcaseEq p.2 q.2 → p.1 = q.1 := by
    simp only [all, List.map_cons, List.map_nil]
    delta name
    dsimp only
    repeat rw [String.toList_ofList]
    decide +kernel
  exact hd _ (List.mem_map_of_mem s.mem_all) _ (List.mem_map_of_mem t.mem_all) h

theorem NumberHeader.name_ne (k : NumberHeader) (t : TextHeader) : ¬strcaseEq k.name t.name := by
  have hd : ∀ p ∈ all.map (·.name), ∀ q ∈ TextHeader.all.map (·.name), ¬strcaseEq p q := by
    simp only [all, TextHeader.all, List.map_cons, List.map_nil]
    delta name TextHeader.name
    dsimp only
    repeat rw [String.toList_ofList]
    decide +kernel
  exact hd _ (List.mem_map_of_mem k.mem_all) _ (List.mem_map_of_mem t.mem_all)

theorem NumberHeader.find_eq {k : NumberHeader} (h : strcaseEq name k.name) :
    NumberHeader.all.find? (strcaseEq name ·.name) = some k := by
  cases hf : NumberHeader.all.find? (strcaseEq name ·.name)
  case none   => exact absurd h (List.find?_eq_none.mp hf k k.mem_all)
  case some j =>
    have hj : strcaseEq name j.name := List.find?_some (p := fun k : NumberHeader => strcaseEq name k.name) hf
    rw [j.eq_of_name k ((strcaseEq_congr hj _).symm.trans h)]

theorem TextHeader.find_eq {t : TextHeader} (h : strcaseEq name t.name) :
    TextHeader.all.find? (strcaseEq name ·.name) = some t := by
  cases hf : TextHeader.all.find? (strcaseEq name ·.name)
  case none   => exact absurd h (List.find?_eq_none.mp hf t t.mem_all)
  case some s =>
    have hs : strcaseEq name s.name := List.find?_some (p := fun t : TextHeader => strcaseEq name t.name) hf
    rw [s.eq_of_name t ((strcaseEq_congr hs _).symm.trans h)]

@[simp]
theorem NumberHeader.get_set (k : NumberHeader) (n : Int) : k.get (k.set out n) = n := by
  cases k <;> rfl

theorem NumberHeader.get_set_of_ne {j k : NumberHeader} (h : j ≠ k) (n : Int) :
    k.get (j.set out n) = k.get out := by
  cases j <;> cases k <;> first | rfl | exact absurd rfl h

@[simp]
theorem NumberHeader.get_setText (k : NumberHeader) (t : TextHeader) (s : CString) :
    k.get (t.set out s) = k.get out := by
  cases k <;> cases t <;> rfl

@[simp]
theorem TextHeader.get_set (t : TextHeader) (s : CString) : t.get (t.set out s) = s := by
  cases t <;> rfl

theorem TextHeader.get_set_of_ne {s t : TextHeader} (h : s ≠ t) (v : CString) :
    t.get (s.set out v) = t.get out := by
  cases s <;> cases t <;> first | rfl | exact absurd rfl h

@[simp]
theorem TextHeader.get_setNumber (t : TextHeader) (k : NumberHeader) (n : Int) :
    t.get (k.set out n) = t.get out := by
  cases k <;> cases t <;> rfl

-- A header sets the field that has its name, and no other one.
theorem NumberHeader.get_setHeader (k : NumberHeader) :
    k.get (out.setHeader name val) = if strcaseEq name k.name then gAsciiStrtoll val else k.get out := by
  rw [HttpHead.setHeader]
  by_cases h : strcaseEq name k.name
  case pos => rw [if_pos h, NumberHeader.find_eq h, NumberHeader.get_set]
  case neg =>
    rw [if_neg h]
    split
    case h_1 j hj =>
      have hne : j ≠ k := by
        rintro rfl
        exact h (List.find?_some (p := fun k : NumberHeader => strcaseEq name k.name) hj)
      exact NumberHeader.get_set_of_ne out hne _
    case h_2 =>
      split
      case h_1 => rw [NumberHeader.get_setText]
      case h_2 => rfl

theorem TextHeader.get_setHeader (t : TextHeader) :
    t.get (out.setHeader name val) = if strcaseEq name t.name then store t.size val else t.get out := by
  rw [HttpHead.setHeader]
  by_cases h : strcaseEq name t.name
  case pos =>
    have hn : NumberHeader.all.find? (strcaseEq name ·.name) = none :=
      List.find?_eq_none.mpr fun k _ hk => k.name_ne t ((strcaseEq_congr hk _).symm.trans h)
    rw [if_pos h, hn, TextHeader.find_eq h, TextHeader.get_set]
  case neg =>
    rw [if_neg h]
    split
    case h_1 => rw [TextHeader.get_setNumber]
    case h_2 =>
      split
      case h_1 s hs =>
        have hne : s ≠ t := by
          rintro rfl
          exact h (List.find?_some (p := fun t : TextHeader => strcaseEq name t.name) hs)
        exact TextHeader.get_set_of_ne out hne _
      case h_2 => rfl

end Headers

-- No header changes what the first line has set.
theorem setHeader_start (name : CString) (out : HttpHead) (val : CString) :
    (out.setHeader name val).method = out.method ∧
    (out.setHeader name val).path = out.path ∧ (out.setHeader name val).status = out.status := by
  rw [HttpHead.setHeader]
  split
  case h_1 k _ => cases k <;> exact ⟨rfl, rfl, rfl⟩
  case h_2 =>
    split
    case h_1 t _ => cases t <;> exact ⟨rfl, rfl, rfl⟩
    case h_2     => exact ⟨rfl, rfl, rfl⟩


-- A text that a line of its own can have, in a buffer that holds the carriage return too.
def IsLine (l : CString) : Prop :=
  (∀ ch ∈ l, ch ≠ '\n' ∧ ch ≠ '\x00') ∧ l.length + 1 < lineSize

instance : Decidable (IsLine l) :=
  inferInstanceAs (Decidable (_ ∧ _))

theorem isLine_append {s t : CString} {a b : Nat} (hs : ∀ ch ∈ s, ch ≠ '\n' ∧ ch ≠ '\x00')
    (ht : ∀ ch ∈ t, ch ≠ '\n' ∧ ch ≠ '\x00') (hb : s.length ≤ b) (ha : t.length ≤ a) (h : b + a + 1 < lineSize) :
    IsLine (s ++ t) := by
  refine ⟨fun ch hc => (List.mem_append.mp hc).elim (hs ch) (ht ch), ?_⟩
  rw [List.length_append]
  omega

def chompCr (l : CString) : CString :=
  l.rdropWhile (· == '\r')

def crlf (l : CString) : CString :=
  l ++ "\r\n".toList

section Lines

variable {c : HttpConn} {l r : CString} (left : Nat) (out : HttpHead)

theorem chompCr_append {a : CString} {d : Char} (b : CString) (h : d ≠ '\r') :
    chompCr (a ++ d :: b) = a ++ d :: chompCr b := by
  rw [chompCr, chompCr, List.rdropWhile, List.rdropWhile, List.reverse_append, List.reverse_cons,
    List.append_assoc, List.dropWhile_append]
  split
  case isTrue he =>
    rw [List.isEmpty_iff.mp he, List.singleton_append, List.dropWhile_cons_of_neg (by simp [h])]
    simp
  case isFalse => simp

theorem chompCr_eq_self {a : CString} {d : Char} (h : d ≠ '\r') : chompCr (a ++ [d]) = a ++ [d] :=
  chompCr_append [] h

theorem gStrndup_chompCr (hl : IsLine l) : gStrndup (chompCr l) = chompCr l :=
  List.takeWhile_eq_self_iff.mpr fun ch hc => by
    simpa using (hl.left ch ((List.rdropWhile_prefix _ _).subset hc)).right

theorem exists_readLine_crlf (hl : IsLine l) (h : c.pending = crlf l ++ r) :
    ∃ c', c.readLine lineSize [] = (some (chompCr l), c') ∧ c'.pending = r := by
  have hp : c.pending = (l ++ ['\r']) ++ '\n' :: r := by
    rw [h, crlf, List.append_assoc, List.append_assoc]
    rfl
  have hn : '\n' ∉ l ++ ['\r'] := by
    rw [List.mem_append, not_or]
    exact ⟨fun hc => (hl.left _ hc).left rfl, by decide⟩
  have hfit : ([] : CString).length + (l ++ ['\r']).length < lineSize := by
    simpa using hl.right
  have ⟨c', hc, hr⟩ := HttpConn.exists_readLine_eq [] hp hn hfit
  rw [List.nil_append, List.rdropWhile_concat_pos _ _ _ (by rfl)] at hc
  exact ⟨c', hc, hr⟩

theorem exists_readHeaders_crlf (hl : IsLine l) (hne : chompCr l ≠ []) (h : c.pending = crlf l ++ r) :
    ∃ c', HttpHead.readHeaders (left + 1) out c = HttpHead.readHeaders left (out.readHeader (chompCr l)) c' ∧
      c'.pending = r := by
  have ⟨c', hc, hr⟩ := exists_readLine_crlf hl h
  refine ⟨c', ?_, hr⟩
  rw [HttpHead.readHeaders.eq_def, hc]
  have hg := gStrndup_chompCr hl
  generalize chompCr l = line at hne hg
  cases line
  case nil  => exact absurd rfl hne
  case cons => simp only [hg]

-- The empty line that ends the head.
theorem exists_readHeaders_end (h : c.pending = crlf [] ++ r) :
    ∃ c', HttpHead.readHeaders left out c = (some out, c') ∧ c'.pending = r := by
  have ⟨c', hc, hr⟩ := exists_readLine_crlf (by decide) h
  refine ⟨c', ?_, hr⟩
  rw [HttpHead.readHeaders.eq_def, hc]
  rfl

end Lines

-- A header line within the limits of the reader.
structure ExtraHeader where
  name   : CString
  value  : CString
  named  : ':' ∉ name
  isLine : IsLine (name ++ ": ".toList ++ value)

namespace ExtraHeader

variable (x : ExtraHeader) (hs : List ExtraHeader)

def line : CString :=
  x.name ++ ": ".toList ++ x.value

-- The value without what stands around a value in a header line.
def read : CString :=
  (chompCr x.value).dropWhile (· == ' ')

def text : CString :=
  hs.flatMap fun x => crlf x.line

-- What the last header of a name has.
def last (name : CString) : Option CString :=
  ((hs.filter fun x => strcaseEq x.name name).getLast?).map read

def set (out : HttpHead) : HttpHead :=
  hs.foldl (fun out x => out.setHeader x.name x.read) out

section Last

variable {x : ExtraHeader} {hs : List ExtraHeader} {field : CString}

theorem last_cons_of_neg (h : ¬strcaseEq x.name field) : last (x :: hs) field = last hs field := by
  rw [last, last, List.filter_cons_of_neg (p := fun x : ExtraHeader => strcaseEq x.name field) h]

theorem last_concat_of_neg (h : ¬strcaseEq x.name field) : last (hs ++ [x]) field = last hs field := by
  rw [last, last, List.filter_append,
    List.filter_cons_of_neg (p := fun x : ExtraHeader => strcaseEq x.name field) h, List.filter_nil,
    List.append_nil]

theorem last_concat_of_pos (h : strcaseEq x.name field) : last (hs ++ [x]) field = some x.read := by
  rw [last, List.filter_append,
    List.filter_cons_of_pos (p := fun x : ExtraHeader => strcaseEq x.name field) h, List.filter_nil,
    List.getLast?_concat, Option.map_some]

end Last

theorem chompCr_line : chompCr x.line = x.name ++ ':' :: ' ' :: chompCr x.value := by
  have he : x.line = (x.name ++ [':']) ++ ' ' :: x.value := by
    simp [line]
  rw [he, chompCr_append _ (by decide), List.append_assoc]
  rfl

theorem readHeader_line (out : HttpHead) : out.readHeader (chompCr x.line) = out.setHeader x.name x.read := by
  have hd : ((' ' :: chompCr x.value).dropWhile (· == ' ')) = x.read := List.dropWhile_cons_of_pos rfl
  rw [chompCr_line, HttpHead.readHeader, span_ne_append_cons x.named]
  simp only [hd]

theorem exists_readHeaders {c : HttpConn} {r : CString} (left : Nat) (out : HttpHead)
    (h : c.pending = text hs ++ r) : ∃ c',
      HttpHead.readHeaders (left + hs.length) out c = HttpHead.readHeaders left (set hs out) c' ∧
      c'.pending = r := by
  induction hs generalizing c out
  case nil => exact ⟨c, rfl, h⟩
  case cons x hs hi =>
    rw [text, List.flatMap_cons, List.append_assoc] at h
    have hne : chompCr x.line ≠ [] := by
      rw [chompCr_line]
      simp
    have ⟨d, hd, hp⟩ := exists_readHeaders_crlf (left + hs.length) out x.isLine hne h
    have ⟨c', hc, hr⟩ := hi (out.setHeader x.name x.read) hp
    refine ⟨c', ?_, hr⟩
    rw [List.length_cons, ← Nat.add_assoc, hd]
    exact (congrArg (HttpHead.readHeaders _ · d) (x.readHeader_line out)).trans hc

-- A field has what the last header of its name sets it to.
theorem get_set {α : Type} (g : HttpHead → α) (f : CString → α) (field : CString)
    (hg : ∀ out name val, g (HttpHead.setHeader out name val) = if strcaseEq name field then f val else g out)
    (out : HttpHead) : g (set hs out) = ((last hs field).map f).getD (g out) := by
  induction hs generalizing out
  case nil => rfl
  case cons x hs hi =>
    have hc : last (x :: hs) field =
        if strcaseEq x.name field then some ((last hs field).getD x.read) else last hs field := by
      rw [last, List.filter_cons]
      split
      case isTrue  => rw [List.getLast?_cons, last]; cases (hs.filter _).getLast? <;> rfl
      case isFalse => rfl
    rw [set, List.foldl_cons]
    change g (set hs _) = _
    rw [hi, hg, hc]
    split
    case isTrue  => cases last hs field <;> rfl
    case isFalse => rfl

theorem set_start (out : HttpHead) : (set hs out).method = out.method ∧ (set hs out).path = out.path ∧
    (set hs out).status = out.status := by
  induction hs generalizing out
  case nil => exact ⟨rfl, rfl, rfl⟩
  case cons x hs hi =>
    have ⟨h₁, h₂, h₃⟩ := setHeader_start x.name out x.read
    have ⟨g₁, g₂, g₃⟩ := hi (out.setHeader x.name x.read)
    exact ⟨g₁.trans h₁, g₂.trans h₂, g₃.trans h₃⟩

end ExtraHeader

-- A head, from its first line to the empty one.
theorem exists_readHead_eq {c : HttpConn} {start r : CString} {out : HttpHead} (hs : List ExtraHeader)
    (hl : IsLine start) (hne : start ≠ []) (hcr : chompCr start = start)
    (hread : HttpHead.readStart start = some out) (hn : hs.length ≤ maxHeaders)
    (h : c.pending = crlf start ++ (ExtraHeader.text hs ++ (crlf [] ++ r))) : ∃ c', c'.pending = r ∧
      c.readHead = (if (ExtraHeader.set hs out).contentLength < 0 ∨
        (ExtraHeader.set hs out).contentLength > maxBody then none else some (ExtraHeader.set hs out), c') := by
  have ⟨c₁, h₁, hp₁⟩ := exists_readLine_crlf hl h
  have ⟨c₂, h₂, hp₂⟩ := ExtraHeader.exists_readHeaders hs (maxHeaders - hs.length) out hp₁
  have ⟨c₃, h₃, hp₃⟩ := exists_readHeaders_end (maxHeaders - hs.length) (ExtraHeader.set hs out) hp₂
  refine ⟨c₃, hp₃, ?_⟩
  have hg := gStrndup_chompCr hl
  rw [hcr] at h₁ hg
  rw [Nat.sub_add_cancel hn, h₃] at h₂
  obtain ⟨ch, start, rfl⟩ := List.exists_cons_of_ne_nil hne
  rw [HttpConn.readHead, h₁]
  simp only [hg, hread, h₂]

section Writing

variable {s s' : Sink} {wire p head body : CString} {ws : List WriteResult}

theorem wire_of_writeFrom (h : Sink.writeFrom wire ws p = (true, s')) : s'.wire = wire ++ p := by
  induction ws generalizing wire p
  case nil =>
    cases p
    case nil =>
      cases h
      exact (List.append_nil _).symm
    case cons => cases h
  case cons w ws hi =>
    cases p
    case nil =>
      cases w <;> cases h <;> exact (List.append_nil _).symm
    case cons ch p =>
      cases w
      case wrote n     => rw [hi h, List.append_assoc, List.take_append_drop]
      case interrupted => exact hi h
      case failed      => cases h

-- However the bytes are taken, it is the head and the body that are written.
theorem wire_of_writeMessage (h : s.writeMessage body head = (true, s')) : s'.wire = s.wire ++ head ++ body := by
  rw [Sink.writeMessage] at h
  split at h
  case h_1      => cases h
  case h_2 d hd => rw [wire_of_writeFrom h, wire_of_writeFrom hd]

end Writing

section Heads

variable (contentType : Option CString) (n : Nat)

def typeText : CString :=
  "Content-Type: ".toList ++ contentType.getD "text/plain".toList

def lengthText : CString :=
  "Content-Length: ".toList ++ Nat.toDigits 10 n

theorem length_crlf (l : CString) : (crlf l).length = l.length + 2 :=
  List.length_append

theorem typeLine_eq : typeLine contentType = crlf (typeText contentType) :=
  rfl

theorem lengthLines_eq : lengthLines n = crlf (lengthText n) ++ crlf [] := by
  have he : "\r\n\r\n".toList = "\r\n".toList ++ "\r\n".toList := by decide
  exact (congrArg (lengthText n ++ ·) he).trans (List.append_assoc _ _ _).symm

theorem requestHead_eq (method path : CString) : requestHead method path contentType n =
    crlf (method ++ ' ' :: path ++ " HTTP/1.1".toList) ++
      (crlf (typeText contentType) ++ (crlf (lengthText n) ++ crlf [])) := by
  have he : " HTTP/1.1\r\n".toList = " HTTP/1.1".toList ++ "\r\n".toList := by decide
  calc requestHead method path contentType n
      = method ++ ' ' :: path ++ (" HTTP/1.1".toList ++ "\r\n".toList) ++ crlf (typeText contentType) ++
          (crlf (lengthText n) ++ crlf []) :=
        congrArg₂ (method ++ ' ' :: path ++ · ++ crlf (typeText contentType) ++ ·) he (lengthLines_eq n)
    _ = _ := by simp only [crlf, List.append_assoc]

theorem responseHead_eq (status : Int) (extraHeaders : CString) :
    responseHead status contentType extraHeaders n =
      crlf ("HTTP/1.1 ".toList ++ formatInt64 status ++ " OK".toList) ++
        (crlf (typeText contentType) ++ (extraHeaders ++ (crlf (lengthText n) ++ crlf []))) := by
  have he : " OK\r\n".toList = " OK".toList ++ "\r\n".toList := by decide
  calc responseHead status contentType extraHeaders n
      = "HTTP/1.1 ".toList ++ formatInt64 status ++ (" OK".toList ++ "\r\n".toList) ++
          crlf (typeText contentType) ++ extraHeaders ++ (crlf (lengthText n) ++ crlf []) :=
        congrArg₂ (fun ok ends =>
          "HTTP/1.1 ".toList ++ formatInt64 status ++ ok ++ crlf (typeText contentType) ++ extraHeaders ++ ends)
          he (lengthLines_eq n)
    _ = _ := by simp only [crlf, List.append_assoc]

end Heads

-- A request within the limits of the reader, of which the method and the path are a word each.
structure Request where
  method      : CString
  path        : CString
  contentType : Option CString
  body        : CString
  isMethod    : ∀ ch ∈ method, ch ≠ ' ' ∧ ch ≠ '\n' ∧ ch ≠ '\x00'
  isPath      : ∀ ch ∈ path, ch ≠ ' ' ∧ ch ≠ '\n' ∧ ch ≠ '\x00'
  noStatus    : ¬gStrHasPrefix method "HTTP/".toList
  oneLine     : ∀ ch ∈ contentType.getD [], ch ≠ '\n' ∧ ch ≠ '\x00'
  methodFits  : method.length < 8
  pathFits    : path.length < 128
  bodyFits    : body.length ≤ maxBody

-- A response within the limits of the reader, of which the extra headers are lines.
structure Response where
  status       : Int
  contentType  : Option CString
  headers      : List ExtraHeader
  extraHeaders : Option CString
  body         : CString
  isInt        : -2147483648 ≤ status ∧ status ≤ 2147483647
  oneLine      : IsLine (typeText contentType)
  rendered     : extraHeaders.getD [] = ExtraHeader.text headers
  countFits    : headers.length + 2 ≤ maxHeaders
  textsFit     : ∀ x ∈ headers, ∀ t : TextHeader, strcaseEq x.name t.name → x.read.length < t.size
  bodyFits     : body.length ≤ maxBody

def typeHeader (contentType : Option CString) (h : IsLine (typeText contentType)) : ExtraHeader where
  name   := "Content-Type".toList
  value  := contentType.getD "text/plain".toList
  named  := by decide
  isLine := h

section Numbers

variable {n : Int} {ch : Char}

theorem formatInt64_ne_nil : formatInt64 n ≠ [] := by
  rw [formatInt64]
  split
  · exact List.cons_ne_nil _ _
  · exact Nat.toDigits_ne_nil

theorem ne_of_mem_formatInt64 (h : ch ∈ formatInt64 n) (d : Char) (hm : d ≠ '-') (hd : ¬d.isDigit) : ch ≠ d := by
  have hdig (hc : ch ∈ Nat.toDigits 10 n.natAbs) : ch ≠ d := by
    rintro rfl
    exact hd (Nat.isDigit_of_mem_toDigits (by omega) (by omega) hc)
  rw [formatInt64] at h
  split at h
  · rcases List.mem_cons.mp h with rfl | h
    · exact Ne.symm hm
    · exact hdig h
  · exact hdig h

theorem length_formatInt64_le (h : n.natAbs < 10000000000) : (formatInt64 n).length ≤ 11 := by
  have hl : (Nat.toDigits 10 n.natAbs).length ≤ 10 :=
    (Nat.length_toDigits_le_iff (by decide) (by decide)).mpr h
  rw [formatInt64]
  split
  · rw [List.length_cons]
    omega
  · omega

-- Of a number there is nothing to be left out.
theorem read_formatInt64 (n : Int) : (chompCr (formatInt64 n)).dropWhile (· == ' ') = formatInt64 n := by
  have hc : chompCr (formatInt64 n) = formatInt64 n := by
    refine List.rdropWhile_eq_self_iff.mpr fun hl => ?_
    simpa using ne_of_mem_formatInt64 (List.getLast_mem hl) '\r' (by decide) (by decide)
  rw [hc]
  have hne : formatInt64 n ≠ [] := formatInt64_ne_nil
  have hd : ∀ ch ∈ formatInt64 n, ch ≠ ' ' := fun ch h => ne_of_mem_formatInt64 h ' ' (by decide) (by decide)
  generalize formatInt64 n = s at hne hd
  obtain ⟨ch, t, rfl⟩ := List.exists_cons_of_ne_nil hne
  exact List.dropWhile_cons_of_neg (by simpa using hd ch List.mem_cons_self)

end Numbers

theorem formatInt64_natCast (n : Nat) : formatInt64 n = Nat.toDigits 10 n := by
  rw [formatInt64, if_neg (by omega), Int.natAbs_natCast]

section Length

variable {n : Nat} (h : n ≤ maxBody)

include h

theorem length_toDigits_le : (Nat.toDigits 10 n).length ≤ 8 := by
  rw [maxBody] at h
  exact (Nat.length_toDigits_le_iff (by decide) (by decide)).mpr (by omega)

theorem isLine_length : IsLine (lengthText n) := by
  have ht : ∀ ch ∈ "Content-Length: ".toList, ch ≠ '\n' ∧ ch ≠ '\x00' := by decide
  refine isLine_append ht (fun ch hc => ?_) (b := 16) (by decide) (length_toDigits_le h) (by decide)
  have hd := Nat.isDigit_of_mem_toDigits (by omega) (by omega) hc
  constructor
  · rintro rfl
    cases hd
  · rintro rfl
    cases hd

theorem gAsciiStrtoll_length : gAsciiStrtoll (Nat.toDigits 10 n) = n := by
  rw [maxBody] at h
  rw [← formatInt64_natCast]
  exact gAsciiStrtoll_formatInt64 ⟨by rw [int64Min]; omega, by rw [int64Max]; omega⟩

end Length

def lengthHeader (n : Nat) (h : n ≤ maxBody) : ExtraHeader where
  name   := "Content-Length".toList
  value  := Nat.toDigits 10 n
  named  := by decide
  isLine := isLine_length h

theorem read_lengthHeader (n : Nat) (h : n ≤ maxBody) : (lengthHeader n h).read = Nat.toDigits 10 n := by
  have hr := read_formatInt64 n
  rw [formatInt64_natCast] at hr
  exact hr

namespace HttpConn

-- A body that is read whole, or skipped, with what arrives behind it.
def HasBody (c : HttpConn) (body rest : CString) : Prop :=
  (∃ c', c.readBody body.length true = (some body, c') ∧ c'.pending = rest) ∧
  ∃ c', c.skipBody body.length = (true, c') ∧ c'.pending = rest

theorem hasBody_of_pending {c : HttpConn} {body rest : CString} (h : c.pending = body ++ rest) :
    c.HasBody body rest := by
  have ⟨h₁, h₂⟩ := copyLoop_eq body.length [] c
  have hle : body.length ≤ c.pending.length := by
    rw [h, List.length_append]
    omega
  rw [if_pos hle, h, List.take_left, List.nil_append] at h₁
  rw [h, List.drop_left] at h₂
  have hn : ¬((body.length : Int) < 0) := by omega
  constructor
  case left =>
    refine ⟨_, ?_, h₂⟩
    rw [readBody, if_neg hn, if_neg (by simp), Int.toNat_natCast]
    exact Prod.ext h₁ rfl
  case right =>
    refine ⟨_, ?_, h₂⟩
    rw [skipBody, if_neg hn, Int.toNat_natCast, skipLoop_eq body.length [] c]
    exact Prod.ext (by rw [h₁]; rfl) rfl

end HttpConn

namespace Request

variable (m : Request)

def start : CString :=
  m.method ++ ' ' :: m.path ++ " HTTP/1.1".toList

theorem prefix_of_append {a b p : CString} {d : Char} (h : p <+: a ++ d :: b) (hd : d ∉ p) : p <+: a := by
  rcases Nat.lt_or_ge a.length p.length with hl | hl
  · have hp : a ++ [d] <+: p := by
      refine List.prefix_of_prefix_length_le ⟨b, by simp⟩ h ?_
      rw [List.length_append, List.length_singleton]
      exact hl
    exact absurd (hp.subset (List.mem_append_right _ List.mem_cons_self)) hd
  · exact List.prefix_of_prefix_length_le h (List.prefix_append _ _) hl

theorem readStart_start : HttpHead.readStart m.start = some { method := m.method, path := m.path } := by
  have hp : ¬gStrHasPrefix m.start "HTTP/".toList := by
    intro h
    rw [gStrHasPrefix, List.isPrefixOf_iff_prefix, start, List.append_assoc, List.cons_append] at h
    refine m.noStatus ?_
    rw [gStrHasPrefix, List.isPrefixOf_iff_prefix]
    exact prefix_of_append h (by decide)
  have hm : ' ' ∉ m.method := fun h => (m.isMethod _ h).left rfl
  have ha : ' ' ∉ m.path := fun h => (m.isPath _ h).left rfl
  have hs : m.start.span (· != ' ') = (m.method, ' ' :: (m.path ++ " HTTP/1.1".toList)) := by
    rw [start, List.append_assoc, List.cons_append]
    exact span_ne_append_cons hm
  have ht : (m.path ++ " HTTP/1.1".toList).takeWhile (· != ' ') = m.path := by
    have h := congrArg Prod.fst (span_ne_append_cons (t := "HTTP/1.1".toList) ha)
    rwa [List.span_eq_takeWhile_dropWhile] at h
  have h₁ : store 8 m.method = m.method := List.take_of_length_le (by have := m.methodFits; omega)
  have h₂ : store 128 m.path = m.path := List.take_of_length_le (by have := m.pathFits; omega)
  rw [HttpHead.readStart, if_neg hp, hs]
  simp only [ht, h₁, h₂]

theorem oneLine_getD : ∀ ch ∈ m.contentType.getD "text/plain".toList, ch ≠ '\n' ∧ ch ≠ '\x00' := by
  have h := m.oneLine
  cases ht : m.contentType
  case none   => decide
  case some t => simpa only [ht, Option.getD_some] using h

theorem readHead_eq {s : Sink} {ws : List WriteResult} {c : HttpConn} {rest : CString}
    (h : (Sink.mk [] ws).writeRequest m.method m.path m.contentType m.body = (true, s))
    (hc : c.pending = s.wire ++ rest) :
    ∃ c', c.readHead = (some { method := m.method, path := m.path, contentLength := m.body.length }, c') ∧
      c'.HasBody m.body rest := by
  rw [Sink.writeRequest] at h
  split at h
  case isTrue => cases h
  case isFalse hlen =>
    have hw := wire_of_writeMessage h
    have he := requestHead_eq m.contentType m.body.length m.method m.path
    have hsize := congrArg List.length he
    rw [List.length_append, List.length_append, length_crlf, length_crlf] at hsize
    have ht : IsLine (typeText m.contentType) := by
      constructor
      case left =>
        have hn : ∀ ch ∈ "Content-Type: ".toList, ch ≠ '\n' ∧ ch ≠ '\x00' := by
          rw [String.toList_ofList]
          decide
        intro ch hc
        exact (List.mem_append.mp hc).elim (hn ch) (m.oneLine_getD ch)
      case right =>
        rw [lineSize]
        omega
    have hl : IsLine m.start := by
      constructor
      case left =>
        have hn : ∀ ch ∈ " HTTP/1.1".toList, ch ≠ '\n' ∧ ch ≠ '\x00' := by
          rw [String.toList_ofList]
          decide
        intro ch hc
        rw [start, List.append_assoc, List.cons_append, List.mem_append, List.mem_cons, List.mem_append] at hc
        rcases hc with hc | rfl | hc | hc
        · exact (m.isMethod ch hc).right
        · decide
        · exact (m.isPath ch hc).right
        · exact hn ch hc
      case right =>
        rw [lineSize, start]
        omega
    have hp : c.pending = crlf m.start ++
        (ExtraHeader.text [typeHeader m.contentType ht, lengthHeader m.body.length m.bodyFits] ++
          (crlf [] ++ (m.body ++ rest))) := by
      have htext : ExtraHeader.text [typeHeader m.contentType ht, lengthHeader m.body.length m.bodyFits] =
          crlf (typeText m.contentType) ++ (crlf (lengthText m.body.length) ++ []) := rfl
      rw [hc, hw, he, htext, start]
      simp only [List.append_assoc, List.nil_append]
    have hcr : chompCr m.start = m.start := by
      have hlit : " HTTP/1.1".toList = " HTTP/1.".toList ++ ['1'] := by
        rw [String.toList_ofList, String.toList_ofList]
        rfl
      rw [start, hlit, ← List.append_assoc, chompCr_eq_self (by decide)]
    have hne : m.start ≠ [] := fun hn => by
      rw [start, List.append_assoc] at hn
      cases (List.append_eq_nil_iff.mp hn).right
    have hcount : 2 ≤ maxHeaders := by decide
    have ⟨c', hr, he⟩ := exists_readHead_eq [typeHeader m.contentType ht, lengthHeader _ m.bodyFits] hl hne hcr
      m.readStart_start hcount hp
    have hset : ExtraHeader.set [typeHeader m.contentType ht, lengthHeader m.body.length m.bodyFits]
        { method := m.method, path := m.path } =
        { method := m.method, path := m.path, contentLength := m.body.length } := by
      have hn : gAsciiStrtoll (lengthHeader m.body.length m.bodyFits).read = m.body.length := by
        rw [read_lengthHeader, gAsciiStrtoll_length m.bodyFits]
      rw [← hn]
      rfl
    refine ⟨c', ?_, HttpConn.hasBody_of_pending hr⟩
    have hb := m.bodyFits
    have hin : ¬((m.body.length : Int) < 0 ∨ (m.body.length : Int) > maxBody) := by omega
    rw [he, hset, if_neg hin]

end Request

namespace Response

-- What the reader makes of a status line, by the parts of its first word.
section Words

variable {word p r s : CString}

theorem gStrHasPrefix_append (h : word = p ++ r) : gStrHasPrefix (word ++ s) p := by
  rw [gStrHasPrefix, List.isPrefixOf_iff_prefix, h, List.append_assoc]
  exact List.prefix_append _ _

theorem dropWhile_word (h : word = p ++ [' ']) (hp : ' ' ∉ p) :
    (word ++ s).dropWhile (· != ' ') = ' ' :: s := by
  have hne : ∀ c ∈ p, (c != ' ') = true := fun c hc => by
    rw [bne_iff_ne]
    rintro rfl
    exact hp hc
  rw [h, List.append_assoc, List.dropWhile_append_of_pos hne]
  rfl

end Words

variable (m : Response)

def start : CString :=
  "HTTP/1.1 ".toList ++ (formatInt64 m.status ++ " OK".toList)

theorem isInt64 : InInt64 m.status := by
  have ⟨h₁, h₂⟩ := m.isInt
  exact ⟨by rw [int64Min]; omega, by rw [int64Max]; omega⟩

theorem atoi_status : atoi (formatInt64 m.status ++ " OK".toList) = m.status := by
  have ⟨h₁, h₂⟩ := m.isInt
  rw [atoi, gAsciiStrtoll_append (by decide), clampInt64_of_inInt64 m.isInt64]
  exact Int.bmod_eq_of_le (by omega) (by omega)

theorem readStart_start : HttpHead.readStart m.start = some { status := m.status } := by
  have hp : gStrHasPrefix m.start "HTTP/".toList :=
    gStrHasPrefix_append (r := "1.1 ".toList) (by decide)
  have hd : m.start.dropWhile (· != ' ') = ' ' :: (formatInt64 m.status ++ " OK".toList) :=
    dropWhile_word (p := "HTTP/1.1".toList) (by decide) (by decide)
  rw [HttpHead.readStart, if_pos hp, hd]
  simp only [m.atoi_status]

theorem isLine_start : IsLine m.start := by
  have ⟨h₁, h₂⟩ := m.isInt
  have hw : ∀ ch ∈ "HTTP/1.1 ".toList, ch ≠ '\n' ∧ ch ≠ '\x00' := by decide
  have ho : ∀ ch ∈ " OK".toList, ch ≠ '\n' ∧ ch ≠ '\x00' := by decide
  have hl : (formatInt64 m.status).length ≤ 11 := length_formatInt64_le (by omega)
  have hlen : (formatInt64 m.status ++ " OK".toList).length ≤ 14 := by
    rw [List.length_append]
    exact Nat.add_le_add hl (show " OK".toList.length ≤ 3 by decide)
  refine isLine_append hw (fun ch hc => ?_) (b := 9) (by decide) hlen (by decide)
  rcases List.mem_append.mp hc with hc | hc
  · exact ⟨ne_of_mem_formatInt64 hc _ (by decide) (by decide), ne_of_mem_formatInt64 hc _ (by decide) (by decide)⟩
  · exact ho ch hc

theorem chompCr_start : chompCr m.start = m.start := by
  have he : " OK".toList = " O".toList ++ ['K'] := by decide
  have hs : m.start = ("HTTP/1.1 ".toList ++ formatInt64 m.status ++ " O".toList) ++ ['K'] := by
    refine (congrArg (fun o => "HTTP/1.1 ".toList ++ (formatInt64 m.status ++ o)) he).trans ?_
    simp only [List.append_assoc]
  rw [hs, chompCr_eq_self (by decide)]

-- All header lines of a response.
def lines : List ExtraHeader :=
  typeHeader m.contentType m.oneLine :: (m.headers ++ [lengthHeader m.body.length m.bodyFits])

def head : HttpHead :=
  ExtraHeader.set m.lines { status := m.status }

section Fields

theorem last_lines (field : CString) (ht : ¬strcaseEq "Content-Type".toList field)
    (hn : ¬strcaseEq "Content-Length".toList field) :
    ExtraHeader.last m.lines field = ExtraHeader.last m.headers field := by
  rw [lines, ExtraHeader.last_cons_of_neg ht, ExtraHeader.last_concat_of_neg hn]

theorem get_number {k : NumberHeader} (h : k ≠ .contentLength) :
    k.get m.head = ((ExtraHeader.last m.headers k.name).map gAsciiStrtoll).getD (k.get {}) := by
  have hd : k.get { status := m.status } = k.get {} := by cases k <;> rfl
  have ht : ¬strcaseEq "Content-Type".toList k.name := by cases k <;> decide
  have hn : ¬strcaseEq "Content-Length".toList k.name := by
    revert h
    cases k <;> decide
  rw [head, ExtraHeader.get_set m.lines k.get gAsciiStrtoll k.name (fun out _ val => k.get_setHeader out val),
    m.last_lines _ ht hn, hd]

theorem get_text (t : TextHeader) :
    t.get m.head = (ExtraHeader.last m.headers t.name).getD [] := by
  have hd : t.get { status := m.status } = [] := by cases t <;> rfl
  have ht : ¬strcaseEq "Content-Type".toList t.name := by cases t <;> decide
  have hn : ¬strcaseEq "Content-Length".toList t.name := by cases t <;> decide
  rw [head, ExtraHeader.get_set m.lines t.get (store t.size) t.name (fun out _ val => t.get_setHeader out val),
    m.last_lines _ ht hn, hd, ExtraHeader.last]
  cases hl : (m.headers.filter fun x => strcaseEq x.name t.name).getLast?
  case none   => rfl
  case some x =>
    have hm := List.mem_filter.mp (List.mem_of_getLast? hl)
    have hf := m.textsFit x hm.left t hm.right
    exact List.take_of_length_le (by omega)

theorem contentLength_head : m.head.contentLength = m.body.length := by
  have hl : ExtraHeader.last m.lines NumberHeader.contentLength.name =
      some (lengthHeader m.body.length m.bodyFits).read := by
    have ht : ¬strcaseEq "Content-Type".toList NumberHeader.contentLength.name := by decide
    have hn : strcaseEq "Content-Length".toList NumberHeader.contentLength.name := by decide
    rw [lines, ExtraHeader.last_cons_of_neg ht, ExtraHeader.last_concat_of_pos hn]
  have hg := ExtraHeader.get_set m.lines (fun h => h.contentLength) gAsciiStrtoll
    NumberHeader.contentLength.name (fun out _ val => NumberHeader.get_setHeader out val .contentLength)
    { status := m.status }
  rw [hl, Option.map_some, Option.getD_some, read_lengthHeader, gAsciiStrtoll_length m.bodyFits] at hg
  exact hg

end Fields

theorem start_eq : m.start = "HTTP/1.1 ".toList ++ (formatInt64 m.status ++ " OK".toList) :=
  rfl

theorem start_ne_nil : m.start ≠ [] := by
  intro hn
  rw [start_eq] at hn
  have ho := (List.append_eq_nil_iff.mp hn).right
  exact formatInt64_ne_nil (List.append_eq_nil_iff.mp ho).left

theorem responseHead_lines : responseHead m.status m.contentType (m.extraHeaders.getD []) m.body.length =
    crlf m.start ++ (ExtraHeader.text m.lines ++ crlf []) := by
  have htext : ExtraHeader.text m.lines = crlf (typeText m.contentType) ++
      (ExtraHeader.text m.headers ++ (crlf (lengthText m.body.length) ++ [])) := by
    rw [lines, ExtraHeader.text, List.flatMap_cons, List.flatMap_append]
    rfl
  rw [responseHead_eq, m.rendered, htext, start_eq]
  simp only [List.append_assoc, List.nil_append]

theorem readHead_eq {s : Sink} {ws : List WriteResult} {c : HttpConn} {rest : CString}
    (h : (Sink.mk [] ws).writeResponse m.status m.contentType m.extraHeaders m.body = (true, s))
    (hc : c.pending = s.wire ++ rest) :
    ∃ c', c.readHead = (some m.head, c') ∧ c'.HasBody m.body rest := by
  rw [Sink.writeResponse] at h
  split at h
  case isTrue => cases h
  case isFalse =>
    have hw := wire_of_writeMessage h
    have hp : c.pending = crlf m.start ++ (ExtraHeader.text m.lines ++ (crlf [] ++ (m.body ++ rest))) := by
      rw [hc, hw, m.responseHead_lines]
      simp only [List.append_assoc, List.nil_append]
    have hcount : m.lines.length ≤ maxHeaders := by
      have hcf := m.countFits
      rw [lines, List.length_cons, List.length_append, List.length_singleton]
      omega
    have ⟨c', hr, hh⟩ := exists_readHead_eq m.lines m.isLine_start m.start_ne_nil m.chompCr_start
      m.readStart_start hcount hp
    refine ⟨c', ?_, HttpConn.hasBody_of_pending hr⟩
    have hb := m.bodyFits
    have hin : ¬(m.head.contentLength < 0 ∨ m.head.contentLength > maxBody) := by
      rw [m.contentLength_head]
      omega
    rw [hh]
    exact congrArg (·, c') (if_neg hin)

end Response

-- What is read does not depend on where the reads end, and a message is read back from what is written of it.
theorem readHead_laws :
    (∀ c₁ c₂ : HttpConn, c₁.pending = c₂.pending →
      HttpConn.SameResult c₁.readHead c₂.readHead ∧
      (∀ n dst, HttpConn.SameResult (c₁.readBody n dst) (c₂.readBody n dst)) ∧
      ∀ n, HttpConn.SameResult (c₁.skipBody n) (c₂.skipBody n)) ∧
    (∀ (m : Request) (ws : List WriteResult) (s : Sink),
      (Sink.mk [] ws).writeRequest m.method m.path m.contentType m.body = (true, s) →
      ∀ (c : HttpConn) (rest : CString), c.pending = s.wire ++ rest →
        ∃ c', c.readHead = (some { method := m.method, path := m.path, contentLength := m.body.length }, c') ∧
          c'.HasBody m.body rest) ∧
    ∀ (m : Response) (ws : List WriteResult) (s : Sink),
      (Sink.mk [] ws).writeResponse m.status m.contentType m.extraHeaders m.body = (true, s) →
      ∀ (c : HttpConn) (rest : CString), c.pending = s.wire ++ rest →
        ∃ head c', c.readHead = (some head, c') ∧ c'.HasBody m.body rest ∧
          head.method = [] ∧ head.path = [] ∧ head.status = m.status ∧ head.contentLength = m.body.length ∧
          (∀ k : NumberHeader, k ≠ .contentLength →
            k.get head = ((ExtraHeader.last m.headers k.name).map gAsciiStrtoll).getD (k.get {}) ∧
            ∀ n, InInt64 n → ExtraHeader.last m.headers k.name = some (formatInt64 n) → k.get head = n) ∧
          ∀ t : TextHeader, t.get head = (ExtraHeader.last m.headers t.name).getD [] := by
  refine ⟨fun c₁ c₂ h => ?_, fun m ws s h c rest hc => m.readHead_eq h hc, fun m ws s h c rest hc => ?_⟩
  · exact ⟨HttpConn.readHead_same h, HttpConn.readBody_same h, HttpConn.skipBody_same h⟩
  · have ⟨c', hr, hb⟩ := m.readHead_eq h hc
    have ⟨hm, hp, hs⟩ := ExtraHeader.set_start m.lines { status := m.status }
    refine ⟨m.head, c', hr, hb, hm, hp, hs, m.contentLength_head, fun k hk => ⟨m.get_number hk, ?_⟩, m.get_text⟩
    intro n hn hl
    rw [m.get_number hk, hl, Option.map_some, Option.getD_some, gAsciiStrtoll_formatInt64 hn]

-- The header lines of a request without a body.
def emptyLines : List ExtraHeader :=
  [typeHeader none (by decide), lengthHeader 0 (by decide)]

-- A path with a space in it ends there for the reader.
theorem not_path_with_space : ¬∀ (method path : CString) (contentType : Option CString) (body : CString)
    (ws : List WriteResult) (s : Sink), method.length < 8 → path.length < 128 → body.length ≤ maxBody →
    (Sink.mk [] ws).writeRequest method path contentType body = (true, s) →
    ∀ c : HttpConn, c.pending = s.wire → ∃ head c', c.readHead = (some head, c') ∧ head.path = path := by
  intro h
  have hw : (Sink.mk [] [.wrote 511]).writeRequest "POST".toList "/a b".toList none [] =
      (true, { wire := requestHead "POST".toList "/a b".toList none 0, writes := [] }) := by
    rfl
  obtain ⟨head, c', hr, hp⟩ := h _ _ _ _ _ _ (by decide) (by decide) (by decide) hw
    { buf := requestHead "POST".toList "/a b".toList none 0, reads := [] } (by simp [HttpConn.pending])
  have hpend : (HttpConn.mk (requestHead "POST".toList "/a b".toList none 0) []).pending =
      crlf "POST /a b HTTP/1.1".toList ++
        (ExtraHeader.text emptyLines ++ (crlf [] ++ [])) := by
    decide
  have hstart : HttpHead.readStart "POST /a b HTTP/1.1".toList =
      some { method := "POST".toList, path := "/a".toList } := by
    decide
  obtain ⟨d, _, hd⟩ := exists_readHead_eq emptyLines (by decide) (by decide) (by decide) hstart (by decide) hpend
  have hin : ¬((ExtraHeader.set emptyLines { method := "POST".toList, path := "/a".toList }).contentLength < 0 ∨
      (ExtraHeader.set emptyLines { method := "POST".toList, path := "/a".toList }).contentLength > maxBody) := by
    decide
  rw [if_neg hin] at hd
  have he := Option.some.inj (congrArg Prod.fst (hd.symm.trans hr))
  rw [← he, (ExtraHeader.set_start emptyLines _).right.left] at hp
  exact absurd hp (by decide)

end Nordstjernen.Ipc
