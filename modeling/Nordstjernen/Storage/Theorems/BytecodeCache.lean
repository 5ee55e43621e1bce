import Nordstjernen.Storage.BytecodeCache

open Function (update)
open Nordstjernen.Lib

namespace Nordstjernen.Storage.BytecodeCache

-- What a step of a writer does.
inductive Moves (path : Path) (b : Bytecode) (d : Disk) : Writer → WriterCall → Disk → Writer → Prop
  | opens : Moves path b d .start .fopen (d.create (tmp path)).2
      (.writing (d.create (tmp path)).1 0 b.contents true)
  | writes {f pos : Nat} {left : Bytes} {wrote : Bool} {len : Nat} (hl : len ≤ left.length) :
      Moves path b d (.writing f pos left wrote) (.write len) (d.write f pos (left.take len))
        (.writing f (pos + len) (left.drop len) wrote)
  | breaks {f pos : Nat} {left : Bytes} {wrote : Bool} :
      Moves path b d (.writing f pos left wrote) .fail d (.writing f pos left false)
  | closes {f pos : Nat} : Moves path b d (.writing f pos [] true) .fclose d .closed
  | renames {d' : Disk} (hd : d.rename (tmp path) path = some d') : Moves path b d .closed .rename d' .done
  | unlinks : Moves path b d .failed .unlink (d.unlink (tmp path)) .done
  | leaves {w w' : Writer} {call : WriterCall} (hw : ¬w'.Uses) (hd : w = .done → w' = .done) :
      Moves path b d w call d w'

variable {ι : Type*} {path : Path} {bc : ι → Bytecode} {b : Bytecode} {s t : System ι} {d d' : Disk}
  {w w' : Writer} {call : WriterCall} {f g : Nat} {i j : ι}

theorem tmp_ne : tmp path ≠ path := by
  intro h
  simpa [tmp] using congrArg List.length h

theorem length_contents (b : Bytecode) : b.contents.length = b.bytes.length + 8 := by
  rw [Bytecode.contents, List.length_append]
  exact Nat.add_comm 8 _

theorem payload_contents (b : Bytecode) : payload b.contents = some b.bytes := by
  have hpos := b.pos
  have hle := b.le
  rw [payload, length_contents, if_neg (by omega), if_neg, if_neg (by omega)]
  · rfl
  · rintro (h | h)
    all_goals exact h rfl

theorem moves_of_step (h : w.step path b d call = some (d', w')) : Moves path b d w call d' w' := by
  have hleaves {v v' : Writer} (hv : ¬v'.Uses) (hd : v = .done → v' = .done) (he : some (d, v') = some (d', w')) :
      Moves path b d v call d' w' := by
    cases he
    exact .leaves hv hd
  cases w <;> cases call
  case start.fopen => cases h; exact .opens
  case writing.write f pos left wrote len =>
    rw [Writer.step] at h
    split at h
    case isTrue hl  => cases h; exact .writes hl.right
    case isFalse hl => cases h
  case writing.fail => cases h; exact .breaks
  case writing.fclose f pos left wrote =>
    cases wrote
    case false => exact hleaves id (fun hd => by cases hd) h
    case true =>
      rw [Writer.step] at h
      split at h
      case isTrue hl  => subst hl; cases h; exact .closes
      case isFalse hl => cases h
  case closed.rename =>
    rw [Writer.step] at h
    split at h
    case h_1 e he => cases h; exact .renames he
    case h_2      => exact hleaves id (fun hd => by cases hd) h
  case failed.unlink => cases h; exact .unlinks
  all_goals first
    | cases h; done
    | exact hleaves id (fun hd => by first | rfl | cases hd) h

-- A file with all that a writer had to write, which no writer has open or will open.
structure Settled (path : Path) (bc : ι → Bytecode) (s : System ι) (f : Nat) (i : ι) : Prop where
  done : s.writer i = .done
  data : s.disk.data f = (bc i).contents
  used : f < s.disk.used
  tmp  : s.disk.names (tmp path) ≠ some f
  idle : ∀ j pos left wrote, s.writer j ≠ .writing f pos left wrote

-- What a writer has written so far, and what it leaves under the name of the temporary file.
def Writer.Keeps (path : Path) (b : Bytecode) (d : Disk) : Writer → Prop
  | .writing f pos left _ =>
    f < d.used ∧ (∀ g, d.names (tmp path) = some g → g = f) ∧ pos = (d.data f).length ∧
      d.data f ++ left = b.contents
  | .closed => ∀ f, d.names (tmp path) = some f → d.data f = b.contents
  | _ => True

def Reader.Keeps (path : Path) (bc : ι → Bytecode) (s : System ι) : Reader → Prop
  | .opened f           => ∃ i, Settled path bc s f i
  | .reading f size got =>
    (∃ i, Settled path bc s f i) ∧ size = some (s.disk.data f).length ∧ got <+: s.disk.data f
  | .done out           => ∀ bytes, out = some bytes → ∃ i, s.writer i = .done ∧ bytes = (bc i).bytes
  | _                   => True

structure Invariant (path : Path) (bc : ι → Bytecode) (s : System ι) : Prop where
  alone  : ∀ i j, (s.writer i).Uses → (s.writer j).Uses → i = j
  writer : ∀ i, (s.writer i).Keeps path (bc i) s.disk
  file   : ∀ f, s.disk.names path = some f → ∃ i, Settled path bc s f i
  reader : s.reader.Keeps path bc s

theorem invariant_start : Invariant path bc (.start : System ι) where
  alone i j hi := hi.elim
  writer i     := trivial
  file f hf    := by cases hf
  reader       := trivial

theorem Writer.keeps_of_not_uses (h : ¬w.Uses) : w.Keeps path b d := by
  cases w
  case writing  => exact absurd trivial h
  case closed => exact absurd trivial h
  all_goals exact trivial

section Move

variable (hm : Moves path b d w call d' w')

include hm

theorem Moves.done (h : w = .done) : w' = .done := by
  subst h
  cases hm
  case leaves _ hd => exact hd rfl

-- What happens to a file that no writer has open and that has another name.
theorem Moves.keeps_file (hd : ∀ f, d.names path = some f → d.names (tmp path) ≠ some f) (hu : g < d.used)
    (ht : d.names (tmp path) ≠ some g) (hw : ∀ pos left wrote, w ≠ .writing g pos left wrote) :
    d'.data g = d.data g ∧ g < d'.used ∧ d'.names (tmp path) ≠ some g ∧
      ∀ pos left wrote, w' ≠ .writing g pos left wrote := by
  cases hm
  case opens =>
    have hne : (d.create (tmp path)).1 ≠ g := by
      rintro rfl
      rcases Files.create_fst (d := d) (n := tmp path) with h | h
      · exact ht h
      · exact Nat.ne_of_lt hu h
    refine ⟨Files.data_create hu ht, Nat.lt_of_lt_of_le hu Files.used_le_create, ?_, fun _ _ _ he => ?_⟩
    · rw [Files.names_create_self]
      exact fun he => hne (Option.some.inj he)
    · cases he
      exact hne rfl
  case writes f pos left wrote len hl =>
    have hne : g ≠ f := by
      rintro rfl
      exact hw _ _ _ rfl
    refine ⟨Files.data_write_of_ne hne, hu, ht, fun _ _ _ he => ?_⟩
    cases he
    exact hne rfl
  case breaks f pos left wrote =>
    refine ⟨rfl, hu, ht, fun _ _ _ he => ?_⟩
    cases he
    exact hw _ _ _ rfl
  case closes => exact ⟨rfl, hu, ht, fun _ _ _ he => by cases he⟩
  case renames hr =>
    obtain ⟨hn, -, hdata, hused⟩ := Files.names_of_rename hr hd tmp_ne
    refine ⟨congrFun hdata g, hused ▸ hu, ?_, fun _ _ _ he => by cases he⟩
    rw [hn]
    exact fun he => by cases he
  case unlinks =>
    refine ⟨rfl, hu, ?_, fun _ _ _ he => by cases he⟩
    rw [Files.names_unlink_self]
    exact fun he => by cases he
  case leaves hn _ =>
    refine ⟨rfl, hu, ht, fun _ _ _ he => ?_⟩
    rw [he] at hn
    exact hn trivial

theorem Moves.keeps (hk : w.Keeps path b d) : w'.Keeps path b d' := by
  cases hm
  case opens =>
    have hn := Files.names_create_self (d := d) (n := tmp path)
    refine ⟨(d.create (tmp path)).2.named _ _ hn, fun g hg => ?_, ?_, ?_⟩
    · exact Option.some.inj (hg.symm.trans hn)
    · rw [Files.data_create_self, List.length_nil]
    · rw [Files.data_create_self, List.nil_append]
  case writes f pos left wrote len hl =>
    obtain ⟨hu, ht, rfl, hc⟩ := hk
    refine ⟨hu, ht, ?_, ?_⟩
    · rw [Files.data_write_end, List.length_append, List.length_take_of_le hl]
    · rw [Files.data_write_end, List.append_assoc, List.take_append_drop, hc]
  case breaks => exact hk
  case closes f pos =>
    obtain ⟨-, ht, -, hc⟩ := hk
    intro g hg
    rw [ht g hg, ← hc, List.append_nil]
  case renames    => exact trivial
  case unlinks    => exact trivial
  case leaves h _ => exact Writer.keeps_of_not_uses h

-- Only a writer that is done with the temporary file gives it to the readers.
theorem Moves.names_path (hd : ∀ f, d.names path = some f → d.names (tmp path) ≠ some f)
    (hf : d'.names path = some f) : d.names path = some f ∨
    w = .closed ∧ w' = .done ∧ d.names (tmp path) = some f ∧ d'.names (tmp path) = none ∧ d'.data = d.data ∧
      d'.used = d.used := by
  cases hm
  case opens =>
    rw [Files.names_create tmp_ne.symm] at hf
    exact .inl hf
  case renames hr =>
    obtain ⟨hn, hp, hdata, hused⟩ := Files.names_of_rename hr hd tmp_ne
    exact .inr ⟨rfl, rfl, hp.symm.trans hf, hn, hdata, hused⟩
  case unlinks =>
    rw [Files.names_unlink tmp_ne.symm] at hf
    exact .inl hf
  all_goals exact .inl hf

end Move

theorem Writer.Keeps.unlink (h : w.Keeps path b d) : w.Keeps path b (d.unlink (tmp path)) := by
  have hn (g : Nat) : (d.unlink (tmp path)).names (tmp path) ≠ some g := by
    rw [Files.names_unlink_self]
    exact fun he => by cases he
  cases w
  case writing =>
    obtain ⟨hu, -, hp, hc⟩ := h
    exact ⟨hu, fun g hg => absurd hg (hn g), hp, hc⟩
  case closed => exact fun g hg => absurd hg (hn g)
  all_goals exact trivial

section Step

variable (hs : Invariant path bc s)

include hs

theorem Invariant.apart (hf : s.disk.names path = some f) : s.disk.names (tmp path) ≠ some f :=
  have ⟨_, h⟩ := hs.file f hf
  h.tmp

variable (ha : Alone s (.writer i call)) (hm : Moves path (bc i) s.disk (s.writer i) call d w)

include ha hm

-- If a writer uses the temporary file after a step, the others did not.
theorem Moves.alone (hw : w.Uses) (hj : j ≠ i) : ¬(s.writer j).Uses := by
  intro hu
  have huses (h : (s.writer i).Uses) : False := hj (hs.alone j i hu h)
  generalize hwi : s.writer i = v at hm huses
  cases hm
  case opens                    => exact ha j hj hu
  case leaves hn hd             => exact hn hw
  case renames hd               => exact hw
  case unlinks                  => exact hw
  case writes | breaks | closes => exact huses trivial

-- A writer that is not at work has lost the name of its file at most.
theorem Moves.keeps_other (hj : j ≠ i) : (s.writer j).Keeps path (bc j) d := by
  by_cases hu : (s.writer j).Uses
  case neg => exact Writer.keeps_of_not_uses hu
  case pos =>
    have hk := hs.writer j
    have huses (h : (s.writer i).Uses) : False := hj (hs.alone j i hu h)
    generalize hwi : s.writer i = v at hm huses
    cases hm
    case opens                              => exact absurd hu (ha j hj)
    case unlinks                            => exact hk.unlink
    case leaves                             => exact hk
    case writes | breaks | closes | renames => exact (huses trivial).elim

end Step

section After

variable [DecidableEq ι] (hs : Invariant path bc s) (hm : Moves path (bc i) s.disk (s.writer i) call d w)

-- A writer after a step of one of them.
theorem update_writer (s : System ι) (w : Writer) (i j : ι) :
    update s.writer i w j = w ∧ j = i ∨ update s.writer i w j = s.writer j ∧ j ≠ i := by
  by_cases hji : j = i
  case pos => exact .inl ⟨hji ▸ Function.update_self .., hji⟩
  case neg => exact .inr ⟨Function.update_of_ne hji .., hji⟩

include hm in
theorem Moves.stays_done (hd : s.writer j = .done) : update s.writer i w j = .done := by
  rcases update_writer s w i j with ⟨he, rfl⟩ | ⟨he, -⟩
  · exact he.trans (hm.done hd)
  · exact he.trans hd

include hs hm in
theorem Settled.move (hg : Settled path bc s g j) :
    Settled path bc { s with disk := d, writer := update s.writer i w } g j := by
  obtain ⟨hdata, hu, ht, hw⟩ := hm.keeps_file (fun f hf => hs.apart hf) hg.used hg.tmp (hg.idle i)
  refine ⟨hm.stays_done hg.done, hdata.trans hg.data, hu, ht, fun k pos left wrote hk => ?_⟩
  rcases update_writer s w i k with ⟨he, -⟩ | ⟨he, -⟩
  · exact hw pos left wrote (he.symm.trans hk)
  · exact hg.idle k pos left wrote (he.symm.trans hk)

end After

section Read

variable {r : Reader} {rcall : ReaderCall}

theorem Reader.Keeps.mono (hf : ∀ g j, Settled path bc s g j → Settled path bc t g j)
    (hw : ∀ j, s.writer j = .done → t.writer j = .done) (h : r.Keeps path bc s) : r.Keeps path bc t := by
  cases r
  case opened f =>
    obtain ⟨i, hi⟩ := h
    exact ⟨i, hf f i hi⟩
  case reading f size got =>
    obtain ⟨⟨i, hi⟩, hsize, hgot⟩ := h
    have he : t.disk.data f = s.disk.data f := (hf f i hi).data.trans hi.data.symm
    exact ⟨⟨i, hf f i hi⟩, he ▸ hsize, he ▸ hgot⟩
  case done out =>
    intro bytes hb
    obtain ⟨i, hi, he⟩ := h bytes hb
    exact ⟨i, hw i hi, he⟩
  all_goals exact trivial

theorem Invariant.read (hs : Invariant path bc s) (h : s.reader.step path s.disk rcall = some r) :
    r.Keeps path bc s := by
  have hk := hs.reader
  have hnone : (Reader.done none).Keeps path bc s := fun _ he => by cases he
  generalize s.reader = r' at h hk
  cases r' <;> cases rcall
  case start.stat =>
    rw [Reader.step] at h
    split at h
    case h_1 => cases h; exact hnone
    case h_2 =>
      split at h
      case isTrue  => cases h; exact hnone
      case isFalse => cases h; exact trivial
  case opening.open =>
    rw [Reader.step] at h
    split at h
    case h_1      => cases h; exact hnone
    case h_2 f hf => cases h; exact hs.file f hf
  case opened.fstat f =>
    obtain ⟨i, hi⟩ := hk
    cases h
    have hpos : 0 < (s.disk.data f).length := by
      rw [hi.data, length_contents]
      omega
    exact ⟨⟨i, hi⟩, if_pos hpos, List.nil_prefix⟩
  case reading.read f size got len =>
    obtain ⟨hf, hsize, rest, hgot⟩ := hk
    rw [Reader.step] at h
    split at h
    case isFalse => cases h
    case isTrue  =>
      cases h
      refine ⟨hf, hsize, ?_⟩
      rw [← hgot, List.drop_left, List.prefix_append_right_inj]
      exact List.take_prefix len rest
  case reading.close f size got =>
    obtain ⟨⟨i, hi⟩, hsize, hgot⟩ := hk
    rw [Reader.step] at h
    split at h
    case isFalse    => cases h
    case isTrue hl  =>
      cases h
      have hlen : (s.disk.data f).length ≤ got.length := by
        rcases hl with hl | hl
        · exact (Option.some.inj (hsize.symm.trans hl)).le
        · exact hl
      rw [hgot.eq_of_length_le hlen, hi.data, payload_contents]
      intro bytes hb
      exact ⟨i, hi.done, (Option.some.inj hb).symm⟩
  all_goals first
    | cases h; done
    | cases h; exact hnone

theorem Invariant.reads (hs : Invariant path bc s)
    (h : s.reader.step path s.disk rcall = some r) : Invariant path bc { s with reader := r } := by
  have hsettled (g : Nat) (j : ι) (hg : Settled path bc s g j) : Settled path bc { s with reader := r } g j :=
    ⟨hg.done, hg.data, hg.used, hg.tmp, hg.idle⟩
  refine ⟨hs.alone, hs.writer, fun f hf => ?_, (hs.read h).mono hsettled fun _ hj => hj⟩
  obtain ⟨i, hg⟩ := hs.file f hf
  exact ⟨i, hsettled f i hg⟩

end Read

section Run

variable [DecidableEq ι] {e : Event ι} {es : List (Event ι)}

theorem Invariant.writes (hs : Invariant path bc s) (ha : Alone s (.writer i call))
    (hm : Moves path (bc i) s.disk (s.writer i) call d w) :
    Invariant path bc { s with disk := d, writer := update s.writer i w } := by
  constructor
  case alone =>
    intro j k hj hk
    change (update s.writer i w j).Uses at hj
    change (update s.writer i w k).Uses at hk
    rcases update_writer s w i j with ⟨hej, hji⟩ | ⟨hej, hji⟩ <;>
      rcases update_writer s w i k with ⟨hek, hki⟩ | ⟨hek, hki⟩
    all_goals rw [hej] at hj
    all_goals rw [hek] at hk
    · rw [hji, hki]
    · exact absurd hk (Moves.alone hs ha hm hj hki)
    · exact absurd hj (Moves.alone hs ha hm hk hji)
    · exact hs.alone j k hj hk
  case writer =>
    intro j
    change (update s.writer i w j).Keeps path (bc j) d
    rcases update_writer s w i j with ⟨he, rfl⟩ | ⟨he, hji⟩
    · rw [he]
      exact hm.keeps (hs.writer j)
    · rw [he]
      exact Moves.keeps_other hs ha hm hji
  case file =>
    intro f hf
    rcases hm.names_path (fun f hf => hs.apart hf) hf with hf | ⟨hc, hd, ht, hn, hdata, hu⟩
    · obtain ⟨j, hj⟩ := hs.file f hf
      exact ⟨j, hj.move hs hm⟩
    · have hk := hs.writer i
      have huses : (s.writer i).Uses := by
        rw [hc]
        exact trivial
      rw [hc] at hk
      refine ⟨i, (Function.update_self ..).trans hd, (congrFun hdata f).trans (hk f ht),
        hu ▸ s.disk.named _ f ht, ?_, fun j pos left wrote hj => ?_⟩
      · exact hn ▸ fun he => by cases he
      · rcases update_writer s w i j with ⟨he, -⟩ | ⟨he, hji⟩
        · cases hd.symm.trans (he.symm.trans hj)
        · refine hji (hs.alone j i ?_ huses)
          rw [he.symm.trans hj]
          exact trivial
  case reader => exact hs.reader.mono (fun g j hg => hg.move hs hm) fun j hj => hm.stays_done hj

theorem Invariant.step (hs : Invariant path bc s) (ha : Alone s e) (h : s.step path bc e = some t) :
    Invariant path bc t := by
  cases e
  case reader call =>
    obtain ⟨r, hr, rfl⟩ := Option.map_eq_some_iff.mp h
    exact hs.reads hr
  case writer i call =>
    obtain ⟨⟨d, w⟩, hw, rfl⟩ := Option.map_eq_some_iff.mp h
    exact hs.writes ha (moves_of_step hw)

-- Where writers do not open the temporary file while another one uses it, readers get the whole of
-- what one of them wrote, or nothing.
theorem readsWhole_of_alone (hrun : run (System.step path bc) .start es = some t)
    (ha : StepsMeet Alone (System.step path bc) .start es) : t.ReadsWhole bc := by
  have ht : Invariant path bc t := run_preserves (fun s e t hs ha h => hs.step ha h) hrun ha invariant_start
  intro out ho
  have hr := ht.reader
  rw [ho] at hr
  exact hr out rfl

end Run

section Examples

def twice (_ : Bool) : Bytecode :=
  ⟨[1, 2], by decide, by decide⟩

-- The second writer begins when the first one is done, and while the reader is at work.
def inTurn : List (Event Bool) :=
  [.writer false .fopen, .writer false (.write 10), .writer false .fclose, .writer false .rename,
    .reader .stat, .reader .open, .writer true .fopen, .reader .fstat, .reader (.read 7),
    .writer true (.write 9), .reader (.read 3), .reader .close]

theorem readsWhole_inTurn : ∃ t ∈ run (System.step "ab/cd".toList twice) .start inTurn,
    t.reader = .done (some [1, 2]) ∧ t.ReadsWhole twice := by
  have hr : (run (System.step "ab/cd".toList twice) .start inTurn).map System.reader =
      some (.done (some [1, 2])) := by
    decide +kernel
  obtain ⟨t, ht, hr⟩ := Option.map_eq_some_iff.mp hr
  exact ⟨t, ht, hr, readsWhole_of_alone ht (by decide +kernel)⟩

-- The second writer empties the file that the first one is about to rename, and has written one
-- byte of its bytecode when the reader comes.
def overlapping : List (Event Bool) :=
  [.writer false .fopen, .writer false (.write 10), .writer false .fclose, .writer true .fopen,
    .writer true (.write 9), .writer false .rename, .reader .stat, .reader .open, .reader .fstat,
    .reader (.read 9), .reader .close]

theorem not_readsWhole_overlapping : ¬ ∀ (path : Path) (bc : Bool → Bytecode) (es : List (Event Bool))
    (t : System Bool), run (System.step path bc) .start es = some t → t.ReadsWhole bc := by
  intro hall
  have hr : (run (System.step "ab/cd".toList twice) .start overlapping).map System.reader =
      some (.done (some [1])) := by
    decide +kernel
  obtain ⟨t, ht, hr⟩ := Option.map_eq_some_iff.mp hr
  obtain ⟨i, -, hi⟩ := hall _ _ _ t ht [1] hr
  cases hi

end Examples

end Nordstjernen.Storage.BytecodeCache
