import Nordstjernen.Image.Ico

open Nordstjernen.Lib

namespace Nordstjernen.Image

variable {p data bmp pix : Bytes} {i v : Nat} {plat : Platform} {wuffs : Wuffs} {d : Dib} {x : Pixels}

section Bytes

theorem readU16_safe (h : i + 2 ≤ p.length) : Safe (readU16 p i) fun n => n ≤ 0xffff := by
  refine .bind (load_safe (by omega)) fun b₀ _ => ?_
  refine .bind (load_safe (by omega)) fun b₁ _ => .pure ?_
  have h₀ := b₀.toNat_lt
  have h₁ := b₁.toNat_lt
  omega

theorem readU32_safe (h : i + 4 ≤ p.length) : Safe (readU32 p i) fun n => n ≤ u32Max := by
  refine .bind (load_safe (by omega)) fun b₀ _ => ?_
  refine .bind (load_safe (by omega)) fun b₁ _ => ?_
  refine .bind (load_safe (by omega)) fun b₂ _ => ?_
  refine .bind (load_safe (by omega)) fun b₃ _ => .pure ?_
  have h₀ := b₀.toNat_lt
  have h₁ := b₁.toNat_lt
  have h₂ := b₂.toNat_lt
  have h₃ := b₃.toNat_lt
  rw [u32Max]
  omega

theorem writeU32_safe (h : i + 4 ≤ p.length) : Safe (writeU32 p i v) fun q => q.length = p.length := by
  refine .bind (store_safe (by omega)) fun p₁ h₁ => ?_
  refine .bind (store_safe (by omega)) fun p₂ h₂ => ?_
  refine .bind (store_safe (by omega)) fun p₃ h₃ => ?_
  exact (store_safe (by omega)).mono fun p₄ h₄ => by omega

end Bytes

section Pixels

-- Every row is in the buffer, which is not too long.
structure Pixels.Sound (x : Pixels) : Prop where
  row  : x.width * 4 ≤ x.stride
  rows : x.stride * x.height ≤ x.buf.length
  len  : x.buf.length ≤ wuffsMaxPixels * 4

theorem decodeFrame_safe {kind : WuffsFormat} {w h pixLen : Nat} (hw : w ≤ wuffsMaxDim) (hh : h ≤ wuffsMaxDim)
    (hp : pixLen ≤ wuffsMaxPixels * 4) :
    Safe (decodeFrame wuffs kind data w h pixLen) fun r => ∀ x ∈ r, x.Sound := by
  have hw4 : w * 4 ≤ wuffsMaxDim * 4 := Nat.mul_le_mul_right 4 hw
  have hall : w * 4 * h ≤ wuffsMaxDim * 4 * wuffsMaxDim := Nat.mul_le_mul hw4 hh
  rw [decodeFrame]
  refine .ite (fun _ => .pure (by simp)) fun _ => ?_
  refine .bind (fit_safe (hw4.trans (by decide))) fun stride hs => ?_
  subst hs
  refine .bind (fit_safe (hall.trans (by decide))) fun all ha => ?_
  subst ha
  refine .ite (fun _ => .pure (by simp)) fun hc => .pure ?_
  intro x hx
  obtain rfl := Option.mem_some_iff.mp hx
  simp only [not_or] at hc
  refine ⟨by simp, ?_, ?_⟩
  · simp only [List.length_map, List.length_range]
    omega
  · simpa using hp

theorem imageWuffsDecodeToBgra_safe :
    Safe (imageWuffsDecodeToBgra plat wuffs data) fun r => ∀ x ∈ r, x.Sound := by
  rw [imageWuffsDecodeToBgra]
  split
  case h_1 => exact .pure (by simp)
  case h_2 kind _ =>
    split
    case h_1 => exact .pure (by simp)
    case h_2 w h _ =>
      refine .ite (fun _ => .pure (by simp)) fun hc => ?_
      simp only [not_or, Nat.not_lt] at hc
      have hwh : w * h ≤ wuffsMaxDim * wuffsMaxDim := Nat.mul_le_mul hc.2.2.1 hc.2.2.2
      refine .bind (fit_safe (hwh.trans (by decide))) fun wh he => ?_
      subst he
      refine .ite (fun _ => .pure (by simp)) fun hm => ?_
      have hm4 : w * h * 4 ≤ wuffsMaxPixels * 4 := Nat.mul_le_mul_right 4 (Nat.le_of_not_lt hm)
      refine .bind (fit_safe (hm4.trans (by decide))) fun pixLen he => ?_
      subst he
      refine .ite (fun _ => .pure (by simp)) fun _ => ?_
      refine .bind (fit_safe ((hm4.trans (by decide)).trans plat.wide)) fun size _ => ?_
      refine .ite (fun _ => .pure (by simp)) fun _ => ?_
      refine .ite (fun _ => .pure (by simp)) fun _ => ?_
      exact decodeFrame_safe hc.2.2.1 hc.2.2.2 hm4

theorem textureNew_safe : Safe (textureNew plat x) fun _ => True := by
  rw [textureNew]
  refine .ite (fun _ => .pure trivial) fun hd => ?_
  refine .ite (fun _ => .pure trivial) fun hs => ?_
  have hneeded : x.stride * x.height ≤ plat.gMaxsize :=
    (Nat.le_div_iff_mul_le (by omega)).mp (Nat.le_of_not_lt hs)
  refine .bind (fit_safe hneeded) fun needed he => ?_
  subst he
  refine .ite (fun _ => .pure trivial) fun hl => ?_
  exact .bind (slice_safe (by omega)) fun _ _ => .pure trivial

theorem imageDecodeWuffs_safe : Safe (imageDecodeWuffs plat wuffs data) fun _ => True := by
  refine .bind imageWuffsDecodeToBgra_safe fun r _ => ?_
  cases r
  case none => exact .pure trivial
  case some => exact textureNew_safe

end Pixels

section Entry

-- The sizes and the places are those of a header of this length, and the pixels are in the entry.
structure Dib.Fits (d : Dib) (len : Nat) : Prop where
  hdr      : 40 ≤ d.hdr
  w        : d.w ≤ icoMaxDim
  realH    : d.realH ≤ icoMaxDim
  pixelOff : d.pixelOff = d.hdr + d.palBytes
  pixelEnd : d.pixelOff + d.xorSize ≤ len
  dataOff  : d.dataOff = 14 + d.hdr + d.palBytes
  bmpLen   : d.bmpLen = d.dataOff + d.xorSize
  bmpMax   : d.bmpLen ≤ icoMaxBmp

theorem xorSize_le {w h bits : Nat} (hw : w ≤ icoMaxDim) (hh : h ≤ icoMaxDim) (hb : bits ≤ 32) :
    (w * bits + 31) / 32 * 4 ≤ 0x2000 ∧ (w * bits + 31) / 32 * 4 * h ≤ 0x800000 := by
  have hwb : w * bits ≤ icoMaxDim * 32 := Nat.mul_le_mul hw hb
  have hrow : (w * bits + 31) / 32 * 4 ≤ 0x2000 := by
    simp only [icoMaxDim] at hwb
    omega
  exact ⟨hrow, Nat.mul_le_mul hrow hh⟩

theorem readDib_safe : Safe (readDib p) fun r => ∀ d ∈ r, d.Fits p.length := by
  rw [readDib]
  refine .ite (fun _ => .pure (by simp)) fun hlen => ?_
  refine .bind (readU32_safe (by omega)) fun hdr hhdr => ?_
  refine .ite (fun _ => .pure (by simp)) fun hh => ?_
  refine .bind (readU32_safe (by omega)) fun bw _ => ?_
  refine .bind (readU32_safe (by omega)) fun bh _ => ?_
  refine .bind (readU16_safe (by omega)) fun bits _ => ?_
  refine .bind (readU32_safe (by omega)) fun compression _ => ?_
  refine .ite (fun _ => .pure (by simp)) fun hpos => ?_
  refine .ite (fun _ => .pure (by simp)) fun hdim => ?_
  refine .ite (fun _ => .pure (by simp)) fun _ => ?_
  refine .ite (fun _ => .pure (by simp)) fun hbits => ?_
  refine .bind (readU32_safe (by omega)) fun clrUsed _ => ?_
  refine .ite (fun _ => .pure (by simp)) fun hpal => ?_
  have hb : bits ≤ 32 := by
    revert hbits
    simp only [List.mem_cons, List.not_mem_nil, or_false, not_not]
    omega
  have hw : (toInt32 bw).toNat ≤ icoMaxDim := by omega
  have hrh : (toInt32 bh).toNat / 2 ≤ icoMaxDim := by omega
  obtain ⟨hrow, hxor⟩ := xorSize_le hw hrh hb
  have hu32 : u32Max = 0xffffffff := rfl
  have hu64 : u64Max = 0xffffffffffffffff := rfl
  refine .bind (fit_safe (by omega)) fun palBytes hp => ?_
  refine .bind (fit_safe (by omega)) fun xorRow hr => ?_
  subst hr
  refine .bind (fit_safe (by omega)) fun xorSize hx => ?_
  refine .bind (fit_safe (by omega)) fun pixelOff ho => ?_
  refine .bind (fit_safe (by omega)) fun pixelEnd he => ?_
  refine .ite (fun _ => .pure (by simp)) fun hend => ?_
  refine .bind (fit_safe (by omega)) fun dataOff64 hd => ?_
  refine .bind (fit_safe (by omega)) fun bmpLen hl => ?_
  refine .ite (fun _ => .pure (by simp)) fun hmax => ?_
  refine .bind (fit_safe (by omega)) fun dataOff hdo => .pure fun d hd => ?_
  obtain rfl := Option.mem_some_iff.mp hd
  refine ⟨?hdr, hw, hrh, ho, ?pixelEnd, ?dataOff, ?bmpLen, ?bmpMax⟩
  all_goals
    simp only
    omega

theorem makeBmp_safe (h : d.Fits p.length) : Safe (makeBmp plat p d) fun _ => True := by
  obtain ⟨hhdr, hw, hh, hpo, hpe, hdo, hbl, hbm⟩ := h
  have hmax : icoMaxBmp = 67108864 := rfl
  have hu32 : u32Max = 0xffffffff := rfl
  have hwide := plat.wide
  rw [makeBmp]
  refine .bind (fit_safe (by omega)) fun size hs => ?_
  refine .ite (fun _ => .pure trivial) fun _ => ?_
  have h₀ : (List.replicate size (0 : UInt8)).length = d.bmpLen := by rw [List.length_replicate, hs]
  refine .bind (store_safe (by omega)) fun b₁ h₁ => ?_
  refine .bind (store_safe (by omega)) fun b₂ h₂ => ?_
  refine .bind (fit_safe (by omega)) fun len _ => ?_
  refine .bind (writeU32_safe (by omega)) fun b₃ h₃ => ?_
  refine .bind (writeU32_safe (by omega)) fun b₄ h₄ => ?_
  refine .bind (writeU32_safe (by omega)) fun b₅ h₅ => ?_
  refine .bind (fit_safe (by omega)) fun n hn => ?_
  refine .bind (slice_safe (by omega)) fun src hsrc => ?_
  refine .bind (copyInto_safe (by omega)) fun b₆ h₆ => ?_
  refine .bind (writeU32_safe (by omega)) fun b₇ h₇ => ?_
  refine .bind (writeU32_safe (by omega)) fun b₈ h₈ => ?_
  refine .bind (fit_safe (by omega)) fun n' hn' => ?_
  refine .bind (slice_safe (by omega)) fun src' hsrc' => ?_
  exact .bind (copyInto_safe (by omega)) fun b₉ _ => .pure trivial

theorem clearPixel_safe {mrow prow i n : Nat} (hm : mrow + i / 8 < p.length)
    (hp : prow + i * 4 + 4 ≤ pix.length) (hn : pix.length = n) (hmax : n ≤ u32Max) :
    Safe (clearPixel plat p mrow prow i pix) fun q => q.length = n := by
  have hwide := plat.wide
  rw [clearPixel]
  refine .bind (load_safe hm) fun m _ => .ite (fun _ => ?_) fun _ => .pure hn
  refine .bind (fit_safe (by omega)) fun px he => ?_
  refine .bind (store_safe (by omega)) fun q₁ h₁ => ?_
  refine .bind (store_safe (by omega)) fun q₂ h₂ => ?_
  refine .bind (store_safe (by omega)) fun q₃ h₃ => ?_
  exact (store_safe (by omega)).mono fun q₄ h₄ => by omega

theorem applyMask_safe (h : d.Fits p.length) (hx : x.Sound) : Safe (applyMask plat p d x) fun _ => True := by
  have hrow : (d.w + 31) / 32 * 4 ≤ 0x1000 := by
    have hw := h.w
    simp only [icoMaxDim] at hw
    omega
  have hsize : (d.w + 31) / 32 * 4 * d.realH ≤ 0x1000 * icoMaxDim := Nat.mul_le_mul hrow h.realH
  have hoff : d.pixelOff + d.xorSize ≤ icoMaxBmp := by
    have hb := h.bmpLen
    have hd := h.dataOff
    have hp := h.pixelOff
    have hm := h.bmpMax
    omega
  have hu64 : u64Max = 0xffffffffffffffff := rfl
  have hdim : icoMaxDim = 1024 := rfl
  have hbmp : icoMaxBmp = 67108864 := rfl
  rw [applyMask]
  refine .bind (fit_safe (by omega)) fun andRow hr => ?_
  subst hr
  refine .bind (fit_safe (by omega)) fun andOff ho => ?_
  refine .bind (fit_safe (by omega)) fun andSize hs => ?_
  refine .bind (fit_safe (by omega)) fun andEnd he => ?_
  refine .ite (fun hc => ?_) fun _ => .pure trivial
  refine .bind (forRange_safe (I := fun buf => buf.length = x.buf.length) ?_ rfl) fun _ _ => .pure trivial
  intro y hy buf hbuf
  have hmask : (d.realH - 1 - y + 1) * ((d.w + 31) / 32 * 4) ≤ (d.w + 31) / 32 * 4 * d.realH := by
    rw [Nat.mul_comm]
    exact Nat.mul_le_mul_left _ (by omega)
  have hpix : (y + 1) * x.stride ≤ x.stride * x.height := by
    rw [Nat.mul_comm]
    exact Nat.mul_le_mul_left _ hy
  rw [Nat.add_mul, Nat.one_mul] at hmask hpix
  have hrows := hx.rows
  have hlen := hx.len
  have hstride := hx.row
  have hmax : wuffsMaxPixels * 4 ≤ u32Max := by decide
  have hwide := plat.wide
  refine .bind (minus_safe (by omega)) fun below hb => ?_
  refine .bind (minus_safe (by omega)) fun above ha => ?_
  subst hb ha
  refine .bind (fit_safe (by omega)) fun skipped hs => ?_
  refine .bind (fit_safe (by omega)) fun mrow hm => ?_
  refine .bind (fit_safe (by omega)) fun prow hp => ?_
  refine forRange_safe (fun i hi pix hpix => clearPixel_safe ?_ ?_ hpix (hlen.trans hmax)) hbuf
  · omega
  · omega

theorem decodeDibEntry_safe : Safe (decodeDibEntry plat wuffs p) fun _ => True := by
  refine .bind readDib_safe fun r hr => ?_
  cases r
  case none => exact .pure trivial
  case some d =>
    have hd := hr d rfl
    refine .bind (makeBmp_safe hd) fun r _ => ?_
    cases r
    case none => exact .pure trivial
    case some bmp =>
      refine .bind imageWuffsDecodeToBgra_safe fun r hr => ?_
      cases r
      case none   => exact .pure trivial
      case some x => exact .bind (applyMask_safe hd (hr x rfl)) fun _ _ => textureNew_safe

end Entry

section Directory

variable {best : Option Best} {count : Nat}

-- The best entry so far is one of the directory, and its data are in the file.
def Best.Within (data : Bytes) (count : Nat) (b : Best) : Prop :=
  b.index < count ∧ ∃ size off, readU32 data (6 + b.index * 16 + 8) = .ok size ∧
    readU32 data (6 + b.index * 16 + 12) = .ok off ∧ off + size ≤ data.length

theorem lookAt_safe (plat : Platform) (hcount : count ≤ icoMaxEntries)
    (hlen : 6 + count * 16 ≤ data.length) (hi : i < count) (hb : ∀ b ∈ best, b.Within data count) :
    Safe (lookAt plat data i best) fun r => ∀ b ∈ r, b.Within data count := by
  have hwide := plat.wide
  have hu32 : u32Max = 0xffffffff := rfl
  have hu64 : u64Max = 0xffffffffffffffff := rfl
  have hmax : icoMaxEntries = 256 := rfl
  rw [lookAt]
  refine .bind (fit_safe (by omega)) fun e he => ?_
  subst he
  refine .bind (load_safe (by omega)) fun b₀ _ => ?_
  refine .bind (load_safe (by omega)) fun b₁ _ => ?_
  refine .bind (readU16_safe (by omega)) fun bits _ => ?_
  refine .bind_eq (readU32_safe (by omega)) fun size hsize hs => ?_
  refine .bind_eq (readU32_safe (by omega)) fun off hoff ho => ?_
  refine .bind (fit_safe (by omega)) fun stop hstop => ?_
  subst hstop
  refine .ite (fun _ => .pure hb) fun hc => ?_
  have hside (b : UInt8) : (if b ≠ 0 then b.toNat else 256) ≤ 256 := by
    have hlt := b.toNat_lt
    split <;> omega
  have hpx := Nat.mul_le_mul (hside b₀) (hside b₁)
  refine .bind (fit_safe (hpx.trans (by decide))) fun px _ => ?_
  have hnew : Best.Within data count ⟨i, px, bits⟩ := ⟨hi, size, off, hsize, hoff, by omega⟩
  cases best
  case none => exact .pure fun b h => Option.mem_some_iff.mp h ▸ hnew
  case some c =>
    refine .pure ?_
    split
    case isTrue  => exact fun b h => Option.mem_some_iff.mp h ▸ hnew
    case isFalse => exact hb

end Directory

-- Whatever a file claims, no byte is read or written outside of a block and no number is too big for its place.
theorem imageDecodeIco_safe (plat : Platform) (wuffs : Wuffs) (data : Bytes) :
    ∃ r, imageDecodeIco plat wuffs data = .ok r := by
  have hwide := plat.wide
  have hu32 : u32Max = 0xffffffff := rfl
  have hmax : icoMaxEntries = 256 := rfl
  suffices h : Safe (imageDecodeIco plat wuffs data) fun _ => True from h.imp fun r hr => hr.left
  rw [imageDecodeIco]
  refine .ite (fun _ => .pure trivial) fun hlen => ?_
  refine .bind (readU16_safe (by omega)) fun reserved _ => ?_
  refine .ite (fun _ => .pure trivial) fun _ => ?_
  refine .bind (readU16_safe (by omega)) fun type _ => ?_
  refine .ite (fun _ => .pure trivial) fun _ => ?_
  refine .bind (readU16_safe (by omega)) fun count hcount => ?_
  refine .ite (fun _ => .pure trivial) fun hc => ?_
  refine .bind (fit_safe (by omega)) fun stop hstop => ?_
  subst hstop
  refine .ite (fun _ => .pure trivial) fun hdir => ?_
  have hnone : ∀ b ∈ (none : Option Best), b.Within data count := fun b hb => by cases hb
  have hloop := forRange_safe (fun i hi best hb => lookAt_safe plat (by omega) (by omega) hi hb) hnone
  refine .bind hloop fun best hbest => ?_
  cases best
  case none => exact .pure trivial
  case some best =>
    obtain ⟨hi, size, off, hsize, hoff, hle⟩ := hbest best rfl
    refine .bind (fit_safe (by omega)) fun e he => ?_
    subst he
    refine .bind ⟨size, hsize, rfl⟩ fun size' hs => ?_
    refine .bind ⟨off, hoff, rfl⟩ fun off' ho => ?_
    subst hs ho
    refine .bind (slice_safe hle) fun payload _ => ?_
    exact .ite (fun _ => imageDecodeWuffs_safe) fun _ => decodeDibEntry_safe

end Nordstjernen.Image
