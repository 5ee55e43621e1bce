import Mathlib.Algebra.Group.Nat.Defs
import Mathlib.Data.List.Range
import Nordstjernen.Lib.Memory

open Nordstjernen.Lib

namespace Nordstjernen.Image

def u32Max : Nat := 0xffffffff

def u64Max : Nat := 0xffffffffffffffff

-- `G_MAXSIZE`, and whether memory of some size is found.
structure Platform where
  gMaxsize  : Nat
  wide      : u32Max ≤ gMaxsize
  allocates : Nat → Bool

section Wuffs

def wuffsMaxDim : Nat := 16384

def wuffsMaxPixels : Nat := 64 * 1024 * 1024

def wuffsMaxWorkbuf : Nat := 64 * 1024 * 1024

inductive WuffsFormat
  | png
  | gif
  | bmp
  | jpeg
  | webp
deriving DecidableEq

inductive FrameStatus
  | ok
  | tooMuchData
  | failed
deriving DecidableEq

-- The decoders. A width and a height are read from a file, or none of them. The pixels are written into a block
-- of the size that is asked for.
structure Wuffs where
  imageConfig : WuffsFormat → Bytes → Option (Nat × Nat)
  workbufLen  : WuffsFormat → Bytes → Nat
  decodeFrame : WuffsFormat → Bytes → FrameStatus × (Nat → UInt8)

-- The pixels of a picture, with the length of a row.
structure Pixels where
  width  : Nat
  height : Nat
  stride : Nat
  buf    : Bytes

-- `ns_wuffs_detect`
def wuffsDetect (data : Bytes) : Option WuffsFormat :=
  if data.length < 4 then none
  else if [0x89, 0x50, 0x4e, 0x47].isPrefixOf data then some .png
  else if data.length ≥ 6 ∧ (data.take 6 = [0x47, 0x49, 0x46, 0x38, 0x37, 0x61] ∨
    data.take 6 = [0x47, 0x49, 0x46, 0x38, 0x39, 0x61]) then some .gif
  else if [0x42, 0x4d].isPrefixOf data then some .bmp
  else if [0xff, 0xd8, 0xff].isPrefixOf data then some .jpeg
  else if data.length ≥ 12 ∧ data.take 4 = [0x52, 0x49, 0x46, 0x46] ∧
    (data.drop 8).take 4 = [0x57, 0x45, 0x42, 0x50] then some .webp
  else none

-- The end of `ns_image_wuffs_decode_to_bgra`, where there is a buffer of four bytes for every pixel.
def decodeFrame (wuffs : Wuffs) (kind : WuffsFormat) (data : Bytes) (w h pixLen : Nat) :
    Checked (Option Pixels) := do
  let (status, pixel) := wuffs.decodeFrame kind data
  if status = .failed ∧ kind ≠ .gif then return none
  let stride ← fit u64Max (w * 4)
  let all ← fit u64Max (stride * h)
  if stride = 0 ∨ stride < w * 4 ∨ all > pixLen then return none
  return some ⟨w, h, stride, (List.range pixLen).map pixel⟩

-- `ns_image_wuffs_decode_to_bgra`
def imageWuffsDecodeToBgra (p : Platform) (wuffs : Wuffs) (data : Bytes) : Checked (Option Pixels) :=
  match wuffsDetect data with
  | none      => return none
  | some kind =>
    match wuffs.imageConfig kind data with
    | none        => return none
    | some (w, h) => do
      if w = 0 ∨ h = 0 ∨ w > wuffsMaxDim ∨ h > wuffsMaxDim then return none
      let wh ← fit u64Max (w * h)
      if wh > wuffsMaxPixels then return none
      let pixLen ← fit u64Max (wh * 4)
      if pixLen = 0 ∨ pixLen > wuffsMaxPixels * 4 then return none
      let size ← fit p.gMaxsize pixLen
      if !p.allocates size then return none
      let work := wuffs.workbufLen kind data
      if work ≠ 0 ∧ (work > wuffsMaxWorkbuf ∨ !p.allocates work) then return none
      decodeFrame wuffs kind data w h pixLen

end Wuffs

-- A texture has its own copy of the pixels.
structure Texture where
  width  : Nat
  height : Nat
  stride : Nat
  bgra   : Bytes

-- `ns_texture_new`
def textureNew (p : Platform) (x : Pixels) : Checked (Option Texture) := do
  if x.width = 0 ∨ x.height = 0 then return none
  if x.stride > p.gMaxsize / x.height then return none
  let needed ← fit p.gMaxsize (x.stride * x.height)
  if x.buf.length < needed then return none
  let bgra ← slice x.buf 0 needed
  return some ⟨x.width, x.height, x.stride, bgra⟩

-- `ns_image_decode_wuffs`
def imageDecodeWuffs (p : Platform) (wuffs : Wuffs) (data : Bytes) : Checked (Option Texture) := do
  match ← imageWuffsDecodeToBgra p wuffs data with
  | none   => return none
  | some x => textureNew p x

def icoMaxEntries : Nat := 256

def icoMaxDim : Nat := 1024

def icoMaxBmp : Nat := 64 * 1024 * 1024

def readU16 (p : Bytes) (i : Nat) : Checked Nat := do
  let b₀ ← load p i
  let b₁ ← load p (i + 1)
  return b₀.toNat + b₁.toNat * 0x100

def readU32 (p : Bytes) (i : Nat) : Checked Nat := do
  let b₀ ← load p i
  let b₁ ← load p (i + 1)
  let b₂ ← load p (i + 2)
  let b₃ ← load p (i + 3)
  return b₀.toNat + b₁.toNat * 0x100 + b₂.toNat * 0x10000 + b₃.toNat * 0x1000000

def writeU32 (p : Bytes) (i v : Nat) : Checked Bytes := do
  let p ← store p i (.ofNat v)
  let p ← store p (i + 1) (.ofNat (v / 0x100))
  let p ← store p (i + 2) (.ofNat (v / 0x10000))
  store p (i + 3) (.ofNat (v / 0x1000000))

def isPng (d : Bytes) : Bool :=
  d.length ≥ 8 && d.take 8 == [0x89, 0x50, 0x4e, 0x47, 0x0d, 0x0a, 0x1a, 0x0a]

-- The cast of an unsigned number to `gint32`.
def toInt32 (n : Nat) : Int :=
  if n < 0x80000000 then n else n - 0x100000000

-- What `decode_dib_entry` takes from the header of an entry, and the sizes and the places that it computes.
structure Dib where
  hdr      : Nat
  w        : Nat
  realH    : Nat
  palBytes : Nat
  xorSize  : Nat
  pixelOff : Nat
  dataOff  : Nat
  bmpLen   : Nat

-- The first part of `decode_dib_entry`.
def readDib (p : Bytes) : Checked (Option Dib) := do
  let len := p.length
  if len < 40 then return none
  let hdr ← readU32 p 0
  if hdr < 40 ∨ hdr > len then return none
  let bw := toInt32 (← readU32 p 4)
  let bh := toInt32 (← readU32 p 8)
  let bitcount ← readU16 p 14
  let compression ← readU32 p 16
  if bw ≤ 0 ∨ bh ≤ 0 ∨ bh % 2 ≠ 0 then return none
  if bw > icoMaxDim ∨ bh > 2 * icoMaxDim then return none
  if compression ≠ 0 then return none
  if bitcount ∉ [1, 4, 8, 24, 32] then return none
  let w := bw.toNat
  let realH := bh.toNat / 2
  let clrUsed ← readU32 p 32
  let palCount := if bitcount ≤ 8 then if clrUsed ≠ 0 then clrUsed else 2 ^ bitcount else 0
  if palCount > 256 then return none
  let palBytes ← fit u32Max (palCount * 4)
  let xorRow ← fit u64Max ((w * bitcount + 31) / 32 * 4)
  let xorSize ← fit u64Max (xorRow * realH)
  let pixelOff ← fit u64Max (hdr + palBytes)
  let pixelEnd ← fit u64Max (pixelOff + xorSize)
  if pixelEnd > len then return none
  let dataOff64 ← fit u64Max (14 + hdr + palBytes)
  let bmpLen ← fit u64Max (dataOff64 + xorSize)
  if dataOff64 > u32Max ∨ bmpLen > icoMaxBmp then return none
  let dataOff ← fit u32Max dataOff64
  return some { hdr, w, realH, palBytes, xorSize, pixelOff, dataOff, bmpLen }

-- The bitmap that `decode_dib_entry` makes of an entry. A block of memory has some content before it is written.
def makeBmp (plat : Platform) (p : Bytes) (d : Dib) : Checked (Option Bytes) := do
  let size ← fit plat.gMaxsize d.bmpLen
  if !plat.allocates size then return none
  let bmp := List.replicate size 0
  let bmp ← store bmp 0 0x42
  let bmp ← store bmp 1 0x4d
  let bmp ← writeU32 bmp 2 (← fit u32Max d.bmpLen)
  let bmp ← writeU32 bmp 6 0
  let bmp ← writeU32 bmp 10 d.dataOff
  let bmp ← copyInto bmp 14 (← slice p 0 (← fit plat.gMaxsize (d.hdr + d.palBytes)))
  let bmp ← writeU32 bmp (14 + 8) d.realH
  let bmp ← writeU32 bmp (14 + 20) 0
  let bmp ← copyInto bmp d.dataOff (← slice p d.pixelOff (← fit plat.gMaxsize d.xorSize))
  return some bmp

-- The body of the inner loop: a pixel is cleared where its bit of the mask is set.
def clearPixel (plat : Platform) (p : Bytes) (mrow prow x : Nat) (pix : Bytes) : Checked Bytes := do
  let m ← load p (mrow + x / 8)
  if m.toNat / 2 ^ (7 - x % 8) % 2 = 1 then
    let px ← fit plat.gMaxsize (prow + x * 4)
    let pix ← store pix px 0
    let pix ← store pix (px + 1) 0
    let pix ← store pix (px + 2) 0
    store pix (px + 3) 0
  else return pix

-- The mask behind the pixels of an entry, where there is one for every pixel of the picture.
def applyMask (plat : Platform) (p : Bytes) (d : Dib) (x : Pixels) : Checked Pixels := do
  let andRow ← fit u64Max ((d.w + 31) / 32 * 4)
  let andOff ← fit u64Max (d.pixelOff + d.xorSize)
  let andSize ← fit u64Max (andRow * d.realH)
  let andEnd ← fit u64Max (andOff + andSize)
  if x.width = d.w ∧ x.height = d.realH ∧ andEnd ≤ p.length then
    let buf ← forRange x.height (fun y buf => do
      let above ← minus (← minus d.realH 1) y
      let skipped ← fit u64Max (above * andRow)
      let mrow ← fit u64Max (andOff + skipped)
      let prow ← fit plat.gMaxsize (y * x.stride)
      forRange x.width (fun i buf => clearPixel plat p mrow prow i buf) buf) x.buf
    return { x with buf }
  else return x

-- `decode_dib_entry`
def decodeDibEntry (plat : Platform) (wuffs : Wuffs) (p : Bytes) : Checked (Option Texture) := do
  match ← readDib p with
  | none   => return none
  | some d =>
    match ← makeBmp plat p d with
    | none     => return none
    | some bmp =>
      match ← imageWuffsDecodeToBgra plat wuffs bmp with
      | none   => return none
      | some x => textureNew plat (← applyMask plat p d x)

-- The best entry of the directory so far, with its number of pixels and its depth.
structure Best where
  index : Nat
  px    : Nat
  bits  : Nat

-- The body of the loop of `ns_image_decode_ico`.
def lookAt (plat : Platform) (data : Bytes) (i : Nat) (best : Option Best) : Checked (Option Best) := do
  let e ← fit plat.gMaxsize (6 + i * 16)
  let b₀ ← load data e
  let b₁ ← load data (e + 1)
  let ew := if b₀ ≠ 0 then b₀.toNat else 256
  let eh := if b₁ ≠ 0 then b₁.toNat else 256
  let bits ← readU16 data (e + 6)
  let size ← readU32 data (e + 8)
  let off ← readU32 data (e + 12)
  let stop ← fit u64Max (off + size)
  if size = 0 ∨ stop > data.length then return best
  let px ← fit u64Max (ew * eh)
  match best with
  | none   => return some ⟨i, px, bits⟩
  | some b => return if px > b.px ∨ px = b.px ∧ bits > b.bits then some ⟨i, px, bits⟩ else some b

-- `ns_image_decode_ico`
def imageDecodeIco (plat : Platform) (wuffs : Wuffs) (data : Bytes) : Checked (Option Texture) := do
  if data.length < 6 then return none
  if (← readU16 data 0) ≠ 0 then return none
  let type ← readU16 data 2
  if type ≠ 1 ∧ type ≠ 2 then return none
  let count ← readU16 data 4
  if count = 0 ∨ count > icoMaxEntries then return none
  if (← fit plat.gMaxsize (6 + count * 16)) > data.length then return none
  match ← forRange count (fun i best => lookAt plat data i best) none with
  | none      => return none
  | some best =>
    let e ← fit plat.gMaxsize (6 + best.index * 16)
    let size ← readU32 data (e + 8)
    let off ← readU32 data (e + 12)
    let payload ← slice data off size
    if isPng payload then imageDecodeWuffs plat wuffs payload else decodeDibEntry plat wuffs payload

end Nordstjernen.Image
