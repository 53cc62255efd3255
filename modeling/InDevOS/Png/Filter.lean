import InDevOS.Lib.Bytes

/-! Unfiltering and conversion of PNG images (`png.c`).

`png_apply_filters` undoes the row filters in place, byte by byte: a byte's prediction
comes from bytes that are already restored. `png_convert_to_rgba` then packs each pixel
into 32 bits. Both stop at the first row that ends past ten mebibytes, so of a larger
image, although accepted, the last rows are never written (`last_row_unwritten`). The rows
before that are exactly the image's (`rows_decoded`), and all rows are when the filtered
image has at most ten mebibytes (`png_decodes_iff`). -/
namespace InDevOS.Png
open Lib

/-! ### The source -/

/-- The end of the last row that is looked at. -/
def rowLimit : Nat := 1024 * 1024 * 10

inductive ColorType
  | grayscale | rgb | palette | grayscaleAlpha | rgbAlpha | other
deriving DecidableEq

def paethPredictor (a b c : UInt8) : UInt8 :=
  let p : Int := a.toNat + b.toNat - c.toNat
  let pa := if p > a.toNat then p - a.toNat else a.toNat - p
  let pb := if p > b.toNat then p - b.toNat else b.toNat - p
  let pc := if p > c.toNat then p - c.toNat else c.toNat - p
  if pa ≤ pb ∧ pa ≤ pc then a else if pb ≤ pc then b else c

/-- `bytes_per_pixel` of `png_apply_filters`. -/
def ColorType.filterBytes (bitDepth : Nat) : ColorType → Nat
  | .grayscale => (bitDepth + 7) / 8
  | .rgb => 3 * ((bitDepth + 7) / 8)
  | .palette => (bitDepth + 7) / 8
  | .grayscaleAlpha => 2 * ((bitDepth + 7) / 8)
  | .rgbAlpha => 4 * ((bitDepth + 7) / 8)
  | .other => 1

/-- `bytes_per_pixel` of `png_convert_to_rgba`. -/
def ColorType.pixelBytes : ColorType → Nat
  | .rgb => 3
  | .rgbAlpha => 4
  | .grayscale => 1
  | .grayscaleAlpha => 2
  | .palette | .other => 3

/-- The loops over the bytes of a row: `n` bytes from `x` on, each increased by its
prediction. -/
def rowLoop (predict : Bytes → Nat → UInt8) (base : Nat) : (n x : Nat) → Bytes → Bytes
  | 0, _, m => m
  | n + 1, x, m =>
    rowLoop predict base n (x + 1) (Function.update m (base + x) (m (base + x) + predict m x))

/-- A row of the image data: its number and the sizes the loops use. -/
structure Row where
  bpp : Nat
  rowBytes : Nat
  y : Nat

namespace Row

def stride (r : Row) : Nat := r.rowBytes + 1
/-- The place of the row's first pixel byte. -/
def base (r : Row) : Nat := r.y * r.stride + 1
/-- The place of the previous row's first pixel byte. -/
def prevBase (r : Row) : Nat := (r.y - 1) * r.stride + 1

def left (r : Row) (m : Bytes) (x : Nat) : UInt8 :=
  if r.bpp ≤ x then m (r.base + (x - r.bpp)) else 0

def up (r : Row) (m : Bytes) (x : Nat) : UInt8 :=
  if 0 < r.y then m (r.prevBase + x) else 0

def upLeft (r : Row) (m : Bytes) (x : Nat) : UInt8 :=
  if 0 < r.y ∧ r.bpp ≤ x then m (r.prevBase + (x - r.bpp)) else 0

/-- One row of `png_apply_filters`; filter types above 4 count as none. -/
def unfilter (r : Row) (m : Bytes) : Bytes :=
  let filterType := m (r.y * r.stride)
  if filterType = 1 then
    rowLoop (fun m x => m (r.base + (x - r.bpp))) r.base (r.rowBytes - r.bpp) r.bpp m
  else if filterType = 2 then
    if 0 < r.y then rowLoop (fun m x => m (r.prevBase + x)) r.base r.rowBytes 0 m else m
  else if filterType = 3 then
    rowLoop (fun m x => UInt8.ofNat (((r.left m x).toNat + (r.up m x).toNat) / 2)) r.base
      r.rowBytes 0 m
  else if filterType = 4 then
    rowLoop (fun m x => paethPredictor (r.left m x) (r.up m x) (r.upLeft m x)) r.base r.rowBytes 0 m
  else m

end Row

/-- The rows of `png_apply_filters`, `n` rows from `y` on. -/
def filterRows (bpp rowBytes : Nat) : (n y : Nat) → Bytes → Bytes
  | 0, _, m => m
  | n + 1, y, m =>
    if rowLimit < y * (rowBytes + 1) + (rowBytes + 1) then m
    else filterRows bpp rowBytes n (y + 1) (Row.unfilter ⟨bpp, rowBytes, y⟩ m)

def pngApplyFilters (m : Bytes) (width height : Nat) (colorType : ColorType) (bitDepth : Nat) : Bytes :=
  let bpp := colorType.filterBytes bitDepth
  filterRows bpp (width * bpp) height 0 m

def packArgb (a r g b : UInt8) : UInt32 :=
  (a.toUInt32 <<< 24) ||| (r.toUInt32 <<< 16) ||| (g.toUInt32 <<< 8) ||| b.toUInt32

/-- The pixel `x` of a row whose bytes are `px`. -/
def convertPixel (colorType : ColorType) (rowBytes : Nat) (px : Nat → UInt8) (x : Nat) : UInt32 :=
  match colorType with
  | .rgb =>
    if x * 3 + 2 < rowBytes then packArgb 0xFF (px (x * 3)) (px (x * 3 + 1)) (px (x * 3 + 2))
    else 0xFF000000
  | .rgbAlpha =>
    if x * 4 + 3 < rowBytes then
      packArgb (px (x * 4 + 3)) (px (x * 4)) (px (x * 4 + 1)) (px (x * 4 + 2))
    else 0xFF000000
  | .grayscale => if x < rowBytes then packArgb 0xFF (px x) (px x) (px x) else 0xFF000000
  | .grayscaleAlpha =>
    if x * 2 + 1 < rowBytes then packArgb (px (x * 2 + 1)) (px (x * 2)) (px (x * 2)) (px (x * 2))
    else 0xFF000000
  | .palette | .other => 0xFF000000

/-- `image->pixels` -/
abbrev Pixels := Nat → UInt32

/-- The pixels of row `y`, `n` from `x` on. An index outside the buffer ends the whole
conversion, which the first component records. -/
def convertRow (colorType : ColorType) (width height rowBytes : Nat) (px : Nat → UInt8) (y : Nat) :
    (n x : Nat) → Pixels → Bool × Pixels
  | 0, _, pixels => (false, pixels)
  | n + 1, x, pixels =>
    if width * height ≤ y * width + x then (true, pixels)
    else
      convertRow colorType width height rowBytes px y n (x + 1)
        (Function.update pixels (y * width + x) (convertPixel colorType rowBytes px x))

/-- The rows of `png_convert_to_rgba`, `n` rows from `y` on. -/
def convertRows (colorType : ColorType) (width height rowBytes : Nat) (m : Bytes) :
    (n y : Nat) → Pixels → Pixels
  | 0, _, pixels => pixels
  | n + 1, y, pixels =>
    if rowLimit < y * (rowBytes + 1) + (rowBytes + 1) then pixels
    else
      let r := convertRow colorType width height rowBytes
        (fun x => m (y * (rowBytes + 1) + 1 + x)) y width 0 pixels
      if r.1 then r.2 else convertRows colorType width height rowBytes m n (y + 1) r.2

section
variable (colorType : ColorType) (width height : Nat) (m : Bytes) (alloc : Option Pixels)

/-- `png_convert_to_rgba`, given what the allocator returns. -/
def pngConvertToRgba : Option Pixels :=
  alloc.map fun fresh =>
    convertRows colorType width height (width * colorType.pixelBytes) m height 0 fresh

/-- What `png_decode` does with the inflated data of an 8-bit image. -/
def decodeRaw :
    Option Pixels :=
  pngConvertToRgba colorType width height (pngApplyFilters m width height colorType 8) alloc

end

/-! ### Images and their encoding -/

inductive Filter
  | none | sub | up | average | paeth
deriving DecidableEq

def Filter.code : Filter → UInt8
  | .none => 0
  | .sub => 1
  | .up => 2
  | .average => 3
  | .paeth => 4

/-- Of the three neighbours the one closest to `a + b - c`, the earlier one on a tie. -/
def paeth (a b c : UInt8) : UInt8 :=
  let p : Int := a.toNat + b.toNat - c.toNat
  if |p - a.toNat| ≤ |p - b.toNat| ∧ |p - a.toNat| ≤ |p - c.toNat| then a
  else if |p - b.toNat| ≤ |p - c.toNat| then b
  else c

/-- What a filter subtracts from a byte, given its left, upper and upper left neighbours. -/
def Filter.predict (left up upLeft : UInt8) : Filter → UInt8
  | .none => 0
  | .sub => left
  | .up => up
  | .average => UInt8.ofNat ((left.toNat + up.toNat) / 2)
  | .paeth => Png.paeth left up upLeft

/-- An image the decoder accepts: the samples of a row in the order they are stored. -/
structure Image where
  width : Nat
  height : Nat
  colorType : ColorType
  sample : (y x : Nat) → UInt8
  width_le : width ≤ 4096
  height_le : height ≤ 4096
  supported : colorType ≠ .palette ∧ colorType ≠ .other

namespace Image

section
variable (img : Image)

def bpp : Nat := img.colorType.pixelBytes
def rowBytes : Nat := img.width * img.bpp
def stride : Nat := img.rowBytes + 1

def left (y x : Nat) : UInt8 := if img.bpp ≤ x then img.sample y (x - img.bpp) else 0
def up (y x : Nat) : UInt8 := if 0 < y then img.sample (y - 1) x else 0
def upLeft (y x : Nat) : UInt8 :=
  if 0 < y ∧ img.bpp ≤ x then img.sample (y - 1) (x - img.bpp) else 0

/-- The byte a row filtered with `f` stores. -/
def filtered (f : Filter) (y x : Nat) : UInt8 :=
  img.sample y x - Filter.predict (img.left y x) (img.up y x) (img.upLeft y x) f

/-- The filtered rows one after the other, each behind its filter type. -/
def encode (filters : Nat → Filter) (a : Nat) : UInt8 :=
  let y := a / img.stride
  if a % img.stride = 0 then (filters y).code
  else img.filtered (filters y) y (a % img.stride - 1)

/-- The value of a pixel: alpha, red, green and blue from the high byte down. -/
def argb (a r g b : UInt8) : UInt32 :=
  UInt32.ofNat (a.toNat * 2 ^ 24 + r.toNat * 2 ^ 16 + g.toNat * 2 ^ 8 + b.toNat)

/-- The pixel of the image. -/
def pixel (y x : Nat) : UInt32 :=
  match img.colorType with
  | .grayscale => argb 255 (img.sample y x) (img.sample y x) (img.sample y x)
  | .grayscaleAlpha => argb (img.sample y (x * 2 + 1)) (img.sample y (x * 2)) (img.sample y (x * 2))
      (img.sample y (x * 2))
  | .rgb => argb 255 (img.sample y (x * 3)) (img.sample y (x * 3 + 1)) (img.sample y (x * 3 + 2))
  | .rgbAlpha => argb (img.sample y (x * 4 + 3)) (img.sample y (x * 4)) (img.sample y (x * 4 + 1))
      (img.sample y (x * 4 + 2))
  | .palette | .other => 0

/-- Memory that holds the filtered rows. -/
def Encoded (filters : Nat → Filter) (m : Bytes) : Prop :=
  ∀ a < img.height * img.stride, m a = img.encode filters a

/-- Decoding the filtered rows gives the pixels of every row, whatever the fresh buffer
holds. -/
def Decodes (filters : Nat → Filter) : Prop :=
  ∀ (m : Bytes) (fresh : Pixels), img.Encoded filters m → ∃ pixels,
    decodeRaw img.colorType img.width img.height m (some fresh) = some pixels ∧
      ∀ y < img.height, ∀ x < img.width, pixels (y * img.width + x) = img.pixel y x

end

end Image

/-! ### A row -/

theorem paethPredictor_eq (a b c : UInt8) : paethPredictor a b c = paeth a b c := by
  have habs : ∀ p q : Int, (if p > q then p - q else q - p) = |p - q| := by
    intro p q
    split
    · rw [abs_of_nonneg (by omega)]
    · rw [abs_of_nonpos (by omega)]
      omega
  simp only [paethPredictor, paeth, habs]

/-- A row loop restores the samples when each prediction, made from restored bytes on the
left and unchanged bytes elsewhere, completes its byte. -/
theorem rowLoop_restores (start : Nat) {predict : Bytes → Nat → UInt8} {base rowBytes : Nat}
    {raw : Nat → UInt8} {m₀ : Bytes}
    (hpredict : ∀ m x, start ≤ x → x < rowBytes → (∀ i < x, m (base + i) = raw i) →
      (∀ a, a < base ∨ base + x ≤ a → m a = m₀ a) → m₀ (base + x) + predict m x = raw x)
    (n x : Nat) (m : Bytes) (hx : start ≤ x) (hn : x + n = rowBytes)
    (hdone : ∀ i < x, m (base + i) = raw i) (hrest : ∀ a, a < base ∨ base + x ≤ a → m a = m₀ a) :
    (∀ i < rowBytes, rowLoop predict base n x m (base + i) = raw i) ∧
      ∀ a, a < base ∨ base + rowBytes ≤ a → rowLoop predict base n x m a = m₀ a := by
  induction n generalizing x m with
  | zero =>
    subst hn
    exact ⟨hdone, hrest⟩
  | succ n ih =>
    have hbyte : m (base + x) + predict m x = raw x := by
      rw [hrest (base + x) (.inr (Nat.le_refl _))]
      exact hpredict m x hx (by omega) hdone hrest
    refine ih (x + 1) _ (by omega) (by omega) (fun i hi => ?_) (fun a ha => ?_)
    · rcases eq_or_ne i x with rfl | hix
      · rwa [Function.update_self]
      · rw [Function.update_of_ne (by omega)]
        exact hdone i (by omega)
    · rw [Function.update_of_ne (by omega)]
      exact hrest a (by omega)

namespace Image
variable {img : Image} {filters : Nat → Filter}

theorem bpp_pos (img : Image) : 0 < img.bpp := by
  unfold bpp
  cases img.colorType <;> decide

theorem stride_pos (img : Image) : 0 < img.stride := Nat.succ_pos _

theorem filterBytes_eq (img : Image) : img.colorType.filterBytes 8 = img.bpp := by
  have hs := img.supported
  unfold bpp
  cases hc : img.colorType with
  | palette => exact absurd hc hs.1
  | other => exact absurd hc hs.2
  | grayscale | rgb | grayscaleAlpha | rgbAlpha => rfl

/-- The row `y` as the loops of the decoder see it. -/
def row (img : Image) (y : Nat) : Row := ⟨img.bpp, img.rowBytes, y⟩

theorem row_base (img : Image) (y : Nat) : (img.row y).base = y * img.stride + 1 := rfl

theorem row_prevBase (img : Image) {y : Nat} (hy : 0 < y) :
    (img.row y).prevBase + img.rowBytes + 1 = (img.row y).base := by
  obtain ⟨k, rfl⟩ : ∃ k, y = k + 1 := ⟨y - 1, by omega⟩
  show k * img.stride + 1 + img.rowBytes + 1 = (k + 1) * img.stride + 1
  rw [Nat.succ_mul]
  unfold stride
  omega

/-- What memory holds for row `y` and the row above it, before `y` is unfiltered. -/
structure Ready (img : Image) (f : Filter) (y : Nat) (m : Bytes) : Prop where
  type : m (y * img.stride) = f.code
  row : ∀ x < img.rowBytes, m ((img.row y).base + x) = img.filtered f y x
  above : 0 < y → ∀ x < img.rowBytes, m ((img.row y).prevBase + x) = img.sample (y - 1) x

theorem Ready.reads {f : Filter} {y : Nat} {m₀ m : Bytes} (h : img.Ready f y m₀) {x : Nat}
    (hx : x < img.rowBytes) (hdone : ∀ i < x, m ((img.row y).base + i) = img.sample y i)
    (hrest : ∀ a, a < (img.row y).base ∨ (img.row y).base + x ≤ a → m a = m₀ a) :
    (img.row y).left m x = img.left y x ∧ (img.row y).up m x = img.up y x ∧
      (img.row y).upLeft m x = img.upLeft y x := by
  have hbpp := img.bpp_pos
  have habove : 0 < y → ∀ i < img.rowBytes, m ((img.row y).prevBase + i) = img.sample (y - 1) i := by
    intro hy i hi
    have := img.row_prevBase hy
    rw [hrest _ (.inl (by omega))]
    exact h.above hy i hi
  refine ⟨?_, ?_, ?_⟩
  · show (if img.bpp ≤ x then _ else _) = if img.bpp ≤ x then _ else _
    exact if_ctx_congr Iff.rfl (fun hle => hdone (x - img.bpp) (by omega)) fun _ => rfl
  · show (if 0 < y then _ else _) = if 0 < y then _ else _
    exact if_ctx_congr Iff.rfl (fun hy => habove hy x hx) fun _ => rfl
  · show (if 0 < y ∧ img.bpp ≤ x then _ else _) = if 0 < y ∧ img.bpp ≤ x then _ else _
    exact if_ctx_congr Iff.rfl (fun hy => habove hy.1 (x - img.bpp) (by omega)) fun _ => rfl

/-- A row loop whose predictions are those of the row's filter restores the row. -/
theorem Ready.rowLoop {f : Filter} {y : Nat} {m : Bytes} (h : img.Ready f y m)
    {predict : Bytes → Nat → UInt8} {start : Nat} (hstart : start ≤ img.rowBytes)
    (hpredict : ∀ m' x, start ≤ x →
      (img.row y).left m' x = img.left y x → (img.row y).up m' x = img.up y x →
      (img.row y).upLeft m' x = img.upLeft y x →
      predict m' x = f.predict (img.left y x) (img.up y x) (img.upLeft y x))
    (hbefore : ∀ x < start, f.predict (img.left y x) (img.up y x) (img.upLeft y x) = 0) :
    (∀ x < img.rowBytes,
      Png.rowLoop predict (img.row y).base (img.rowBytes - start) start m ((img.row y).base + x) =
        img.sample y x) ∧
      ∀ a, a < (img.row y).base ∨ (img.row y).base + img.rowBytes ≤ a →
        Png.rowLoop predict (img.row y).base (img.rowBytes - start) start m a = m a := by
  refine rowLoop_restores start (fun m' x hx hlt hdone hrest => ?_) _ _ _ le_rfl
    (by omega) (fun x hx => ?_) (fun _ _ => rfl)
  · obtain ⟨hl, hu, hul⟩ := h.reads hlt hdone hrest
    rw [hpredict m' x hx hl hu hul, h.row x hlt, filtered]
    exact UInt8.sub_add_cancel _ _
  · rw [h.row x (by omega), filtered, hbefore x hx]
    exact UInt8.sub_zero _

/-- **One row.** Unfiltering restores the samples of the row and changes nothing else. -/
theorem Ready.unfilter {f : Filter} {y : Nat} {m : Bytes} (h : img.Ready f y m)
    (hwidth : 0 < img.width) :
    (∀ x < img.rowBytes, (img.row y).unfilter m ((img.row y).base + x) = img.sample y x) ∧
      ∀ a, a < (img.row y).base ∨ (img.row y).base + img.rowBytes ≤ a →
        (img.row y).unfilter m a = m a := by
  have htype : m ((img.row y).y * (img.row y).stride) = f.code := h.type
  have hbpp : img.bpp ≤ img.rowBytes := Nat.le_mul_of_pos_left _ hwidth
  -- A filter that predicts zero leaves the samples in place.
  have hkeep : (∀ x, f.predict (img.left y x) (img.up y x) (img.upLeft y x) = 0) →
      ∀ x < img.rowBytes, m ((img.row y).base + x) = img.sample y x := by
    intro hzero x hx
    rw [h.row x hx, filtered, hzero x]
    exact UInt8.sub_zero _
  unfold Row.unfilter
  rw [htype]
  cases f with
  | none => exact ⟨hkeep fun _ => rfl, fun _ _ => rfl⟩
  | sub =>
    refine h.rowLoop hbpp (fun m' x hx hl _ _ => ?_) (fun x hx => ?_)
    · show _ = img.left y x
      rw [← hl, Row.left, if_pos hx]
    · exact if_neg (Nat.not_le_of_lt hx)
  | up =>
    by_cases hy : 0 < (img.row y).y
    · rw [if_pos hy]
      refine h.rowLoop (Nat.zero_le _) (fun m' x _ _ hu _ => ?_) (fun x hx => absurd hx (by omega))
      show _ = img.up y x
      rw [← hu, Row.up, if_pos hy]
    · rw [if_neg hy]
      exact ⟨hkeep fun x => if_neg hy, fun _ _ => rfl⟩
  | average =>
    refine h.rowLoop (Nat.zero_le _) (fun m' x _ hl hu _ => ?_) (fun x hx => absurd hx (by omega))
    rw [hl, hu]
    rfl
  | paeth =>
    refine h.rowLoop (Nat.zero_le _) (fun m' x _ hl hu hul => ?_) (fun x hx => absurd hx (by omega))
    rw [hl, hu, hul]
    exact paethPredictor_eq _ _ _

/-! ### All rows -/

/-- Row `y` ends within the limit. -/
def Reached (img : Image) (y : Nat) : Prop := (y + 1) * img.stride ≤ rowLimit

instance (img : Image) (y : Nat) : Decidable (img.Reached y) := inferInstanceAs (Decidable (_ ≤ _))

theorem reached_iff (img : Image) (y : Nat) :
    img.Reached y ↔ ¬rowLimit < y * (img.rowBytes + 1) + (img.rowBytes + 1) := by
  unfold Reached stride
  rw [Nat.succ_mul]
  omega

theorem Reached.of_le {y y' : Nat} (h : img.Reached y') (hy : y ≤ y') : img.Reached y :=
  le_trans (Nat.mul_le_mul_right _ (by omega)) h

/-- Memory while the rows are unfiltered: rows before `y` hold samples, the others are still
filtered. -/
structure Partly (img : Image) (filters : Nat → Filter) (y : Nat) (m : Bytes) : Prop where
  type : ∀ y' < img.height, m (y' * img.stride) = (filters y').code
  done : ∀ y' < y, y' < img.height → ∀ x < img.rowBytes,
    m ((img.row y').base + x) = img.sample y' x
  rest : ∀ y', y ≤ y' → y' < img.height → ∀ x < img.rowBytes,
    m ((img.row y').base + x) = img.filtered (filters y') y' x

theorem Encoded.partly {m : Bytes} (h : img.Encoded filters m) : img.Partly filters 0 m where
  type y hy := by
    have hlt : y * img.stride < img.height * img.stride :=
      Nat.mul_lt_mul_of_pos_right hy img.stride_pos
    rw [h _ hlt, encode, Nat.mul_mod_left, if_pos rfl, Nat.mul_div_cancel _ img.stride_pos]
  done y hy := absurd hy (Nat.not_lt_zero y)
  rest y _ hy x hx := by
    have hle : (y + 1) * img.stride ≤ img.height * img.stride := Nat.mul_le_mul_right _ hy
    have hx' : x + 1 < img.stride := Nat.succ_lt_succ hx
    rw [Nat.succ_mul] at hle
    have hplace : (img.row y).base + x = (x + 1) + y * img.stride := by
      rw [row_base]
      omega
    rw [hplace, h _ (by omega), encode, Nat.add_mul_mod_self_right, Nat.mod_eq_of_lt hx',
      if_neg (Nat.succ_ne_zero x), Nat.add_mul_div_right _ _ img.stride_pos,
      Nat.div_eq_of_lt hx', Nat.zero_add, Nat.add_sub_cancel]

theorem rows_apart {y y' : Nat} (hy : y' ≠ y) (w : Nat) : y' * w + w ≤ y * w ∨ y * w + w ≤ y' * w := by
  rw [← Nat.succ_mul, ← Nat.succ_mul]
  exact (Nat.lt_or_gt_of_ne hy).imp (Nat.mul_le_mul_right w) (Nat.mul_le_mul_right w)

theorem row_apart {y y' x : Nat} (hy : y' ≠ y) (hx : x ≤ img.rowBytes) :
    y' * img.stride + x < (img.row y).base ∨
      (img.row y).base + img.rowBytes ≤ y' * img.stride + x := by
  have hstride : img.stride = img.rowBytes + 1 := rfl
  have := rows_apart hy img.stride
  rw [row_base]
  omega

theorem Partly.step {y : Nat} {m : Bytes} (h : img.Partly filters y m) (hwidth : 0 < img.width)
    (hy : y < img.height) : img.Partly filters (y + 1) ((img.row y).unfilter m) := by
  have hready : img.Ready (filters y) y m := by
    refine ⟨h.type y hy, h.rest y le_rfl hy, fun hpos => ?_⟩
    exact h.done (y - 1) (by omega) (by omega)
  obtain ⟨hrow, hother⟩ := hready.unfilter hwidth
  have hframe : ∀ y' ≠ y, ∀ x < img.rowBytes,
      (img.row y).unfilter m ((img.row y').base + x) = m ((img.row y').base + x) := by
    intro y' hne x hx
    have hplace : (img.row y').base + x = y' * img.stride + (x + 1) := by
      rw [row_base]
      omega
    rw [hplace]
    exact hother _ (row_apart hne hx)
  refine ⟨fun y' hy' => ?_, fun y' hlt hy' x hx => ?_, fun y' hle hy' x hx => ?_⟩
  · rw [← h.type y' hy']
    rcases eq_or_ne y' y with rfl | hne
    · exact hother _ (.inl (Nat.lt_succ_self _))
    · exact hother _ (row_apart hne (Nat.zero_le _))
  · rcases eq_or_ne y' y with rfl | hne
    · exact hrow x hx
    · rw [hframe y' hne x hx]
      exact h.done y' (by omega) hy' x hx
  · rw [hframe y' (by omega) x hx]
    exact h.rest y' (by omega) hy' x hx

/-- Unfiltering the remaining rows restores every row that ends within the limit. -/
theorem Partly.filterRows (hwidth : 0 < img.width) (n : Nat) {y : Nat} {m : Bytes}
    (h : img.Partly filters y m) (hn : y + n = img.height) :
    ∀ y' < img.height, img.Reached y' → ∀ x < img.rowBytes,
      Png.filterRows img.bpp img.rowBytes n y m ((img.row y').base + x) = img.sample y' x := by
  induction n generalizing y m with
  | zero =>
    intro y' hy' _ x hx
    exact h.done y' (by omega) hy' x hx
  | succ n ih =>
    intro y' hy' hreach x hx
    unfold Png.filterRows
    by_cases hrow : img.Reached y
    · rw [if_neg ((img.reached_iff y).1 hrow)]
      exact ih (h.step hwidth (by omega)) (by omega) y' hy' hreach x hx
    · rw [if_pos (not_not.1 (mt (img.reached_iff y).2 hrow))]
      -- Rows from here on end past the limit too.
      have hlt : y' < y := Nat.lt_of_not_le fun hle => hrow (hreach.of_le hle)
      exact h.done y' hlt hy' x hx

/-! ### Pixels -/

theorem or_eq_add (f : Nat) {t k : Nat} (ht : t < 2 ^ k) : f <<< k ||| t = f * 2 ^ k + t := by
  rw [← Nat.shiftLeft_add_eq_or_of_lt ht, Nat.shiftLeft_eq]

theorem toNat_shiftLeft (a : UInt8) {k : UInt32} (hk : k.toNat ≤ 24) :
    (a.toUInt32 <<< k).toNat = a.toNat <<< k.toNat := by
  have ha := a.toNat_lt
  rw [UInt32.toNat_shiftLeft, UInt8.toNat_toUInt32, Nat.mod_eq_of_lt (by omega : k.toNat < 32)]
  apply Nat.mod_eq_of_lt
  rw [Nat.shiftLeft_eq]
  calc a.toNat * 2 ^ k.toNat < 2 ^ 8 * 2 ^ 24 :=
        Nat.mul_lt_mul_of_lt_of_le ha (Nat.pow_le_pow_right (by decide) hk) (by positivity)
    _ = 2 ^ 32 := by norm_num

theorem packArgb_eq (a r g b : UInt8) : packArgb a r g b = argb a r g b := by
  have ha := a.toNat_lt
  have hr := r.toNat_lt
  have hg := g.toNat_lt
  have hb := b.toNat_lt
  apply UInt32.toNat_inj.1
  unfold packArgb argb
  rw [UInt32.toNat_or, UInt32.toNat_or, UInt32.toNat_or, UInt8.toNat_toUInt32,
    toNat_shiftLeft a (by decide), toNat_shiftLeft r (by decide), toNat_shiftLeft g (by decide)]
  simp only [UInt32.reduceToNat]
  have hgb : g.toNat <<< 8 ||| b.toNat = g.toNat * 2 ^ 8 + b.toNat := or_eq_add _ hb
  have hrgb : r.toNat <<< 16 ||| (g.toNat * 2 ^ 8 + b.toNat) =
      r.toNat * 2 ^ 16 + (g.toNat * 2 ^ 8 + b.toNat) := or_eq_add _ (by omega)
  have hargb : a.toNat <<< 24 ||| (r.toNat * 2 ^ 16 + (g.toNat * 2 ^ 8 + b.toNat)) =
      a.toNat * 2 ^ 24 + (r.toNat * 2 ^ 16 + (g.toNat * 2 ^ 8 + b.toNat)) := or_eq_add _ (by omega)
  rw [Nat.or_assoc, Nat.or_assoc, hgb, hrgb, hargb, UInt32.toNat_ofNat']
  omega

theorem convertPixel_eq {y x : Nat} {px : Nat → UInt8} (hx : x < img.width)
    (hpx : ∀ i < img.rowBytes, px i = img.sample y i) :
    convertPixel img.colorType img.rowBytes px x = img.pixel y x := by
  have hs := img.supported
  have hrow : img.rowBytes = img.width * img.colorType.pixelBytes := rfl
  unfold convertPixel pixel
  cases hc : img.colorType with
  | palette => exact absurd hc hs.1
  | other => exact absurd hc hs.2
  | grayscale =>
    rw [hc, show ColorType.grayscale.pixelBytes = 1 from rfl] at hrow
    dsimp only
    rw [if_pos (by omega), hpx x (by omega), packArgb_eq]
  | rgb =>
    rw [hc, show ColorType.rgb.pixelBytes = 3 from rfl] at hrow
    rw [if_pos (by omega), hpx (x * 3) (by omega), hpx (x * 3 + 1) (by omega),
      hpx (x * 3 + 2) (by omega), packArgb_eq]
  | grayscaleAlpha =>
    rw [hc, show ColorType.grayscaleAlpha.pixelBytes = 2 from rfl] at hrow
    dsimp only
    rw [if_pos (by omega), hpx (x * 2) (by omega), hpx (x * 2 + 1) (by omega), packArgb_eq]
  | rgbAlpha =>
    rw [hc, show ColorType.rgbAlpha.pixelBytes = 4 from rfl] at hrow
    dsimp only
    rw [if_pos (by omega), hpx (x * 4) (by omega), hpx (x * 4 + 1) (by omega),
      hpx (x * 4 + 2) (by omega), hpx (x * 4 + 3) (by omega), packArgb_eq]

theorem index_lt {y x w h : Nat} (hy : y < h) (hx : x < w) : y * w + x < w * h := by
  have := Nat.mul_le_mul_right w (Nat.succ_le_of_lt hy)
  rw [Nat.succ_mul] at this
  rw [Nat.mul_comm w h]
  omega

/-- A row's conversion writes its own pixels, without leaving early. -/
theorem convertRow_spec (colorType : ColorType) {width height y : Nat} (rowBytes : Nat)
    (px : Nat → UInt8) (hy : y < height) (n x : Nat) (pixels : Pixels) (hn : x + n = width) :
    (convertRow colorType width height rowBytes px y n x pixels).1 = false ∧
      ∀ i, (convertRow colorType width height rowBytes px y n x pixels).2 i =
        if y * width + x ≤ i ∧ i < y * width + width then
          convertPixel colorType rowBytes px (i - y * width)
        else pixels i := by
  induction n generalizing x pixels with
  | zero =>
    refine ⟨rfl, fun i => ?_⟩
    rw [if_neg (by omega)]
    rfl
  | succ n ih =>
    have hidx : ¬width * height ≤ y * width + x := Nat.not_le_of_lt (index_lt hy (by omega))
    unfold convertRow
    rw [if_neg hidx]
    obtain ⟨hstop, hpix⟩ := ih (x + 1)
      (Function.update pixels (y * width + x) (convertPixel colorType rowBytes px x)) (by omega)
    refine ⟨hstop, fun i => ?_⟩
    rw [hpix i]
    rcases eq_or_ne i (y * width + x) with rfl | hi
    · rw [if_neg (by omega), Function.update_self, if_pos (by omega), Nat.add_sub_cancel_left]
    · rw [Function.update_of_ne hi]
      exact if_congr (by omega) rfl rfl

/-- Converting the remaining rows writes the rows that end within the limit and no others. -/
theorem convertRows_spec (img : Image) (m : Bytes) (n y : Nat) (pixels : Pixels)
    (hn : y + n = img.height) {y' x : Nat} (hy' : y' < img.height) (hx : x < img.width) :
    convertRows img.colorType img.width img.height img.rowBytes m n y pixels (y' * img.width + x) =
      if y ≤ y' ∧ img.Reached y' then
        convertPixel img.colorType img.rowBytes (fun i => m ((img.row y').base + i)) x
      else pixels (y' * img.width + x) := by
  induction n generalizing y pixels with
  | zero => rw [if_neg (by omega), convertRows]
  | succ n ih =>
    unfold convertRows
    by_cases hrow : img.Reached y
    · rw [if_neg ((img.reached_iff y).1 hrow)]
      have hlt : y < img.height := by omega
      obtain ⟨hstop, hpix⟩ := convertRow_spec img.colorType img.rowBytes
        (fun i => m (y * (img.rowBytes + 1) + 1 + i)) hlt img.width 0 pixels (Nat.zero_add _)
      rw [if_neg (by rw [hstop]; decide), ih _ _ (by omega), hpix]
      by_cases hyy : y' = y
      · -- The rows after this one leave its pixels alone.
        subst hyy
        rw [if_neg (by omega), if_pos (by omega), if_pos ⟨le_rfl, hrow⟩, Nat.add_sub_cancel_left]
        rfl
      · have := rows_apart hyy img.width
        have hout : ¬(y * img.width + 0 ≤ y' * img.width + x ∧
            y' * img.width + x < y * img.width + img.width) := by omega
        rw [if_neg hout]
        exact if_congr (and_congr_left' (by omega)) rfl rfl
    · rw [if_pos (not_not.1 (mt (img.reached_iff y).2 hrow)),
        if_neg fun h => hrow (h.2.of_le h.1)]

end Image

/-! ### The decoder -/

/-- **Every row up to the limit is decoded and no row after it is written.** -/
theorem rows_decoded (img : Image) (filters : Nat → Filter) (m : Bytes) (fresh : Pixels)
    (hm : img.Encoded filters m) : ∃ pixels,
      decodeRaw img.colorType img.width img.height m (some fresh) = some pixels ∧
        ∀ y < img.height, ∀ x < img.width, pixels (y * img.width + x) =
          if img.Reached y then img.pixel y x else fresh (y * img.width + x) := by
  refine ⟨_, rfl, fun y hy x hx => ?_⟩
  have hfilter : pngApplyFilters m img.width img.height img.colorType 8 =
      filterRows img.bpp img.rowBytes img.height 0 m := by
    unfold pngApplyFilters
    rw [img.filterBytes_eq]
    rfl
  rw [hfilter]
  refine (img.convertRows_spec _ _ _ fresh (Nat.zero_add _) hy hx).trans ?_
  by_cases hreach : img.Reached y
  · rw [if_pos ⟨Nat.zero_le _, hreach⟩, if_pos hreach]
    refine Image.convertPixel_eq hx fun i hi => ?_
    exact hm.partly.filterRows (by omega) _ (Nat.zero_add _) y hy hreach i hi
  · rw [if_neg fun h => hreach h.2, if_neg hreach]

/-- **The decoder is right exactly for images of at most ten mebibytes**, filter bytes
included: for every choice of filters, unfiltering and converting gives the pixels of
every row if and only if the filtered rows end within the limit. -/
theorem png_decodes_iff (img : Image) (filters : Nat → Filter) :
    img.Decodes filters ↔ img.height * img.stride ≤ rowLimit := by
  constructor
  · intro h
    by_contra hlarge
    -- The last row is not written, so a fresh buffer shows through in it.
    have hheight : 0 < img.height := by
      by_contra h0
      rw [show img.height = 0 by omega, Nat.zero_mul] at hlarge
      exact hlarge (Nat.zero_le _)
    have hwidth : 0 < img.width := by
      by_contra h0
      have hstride : img.stride = 1 := by
        rw [Image.stride, Image.rowBytes, show img.width = 0 by omega, Nat.zero_mul]
      have := img.height_le
      rw [hstride] at hlarge
      unfold rowLimit at hlarge
      omega
    have hlast : ¬img.Reached (img.height - 1) := by
      unfold Image.Reached
      rw [Nat.sub_add_cancel hheight]
      exact hlarge
    let fresh : Pixels := fun _ => img.pixel (img.height - 1) 0 + 1
    obtain ⟨pixels, hpix, hval⟩ := rows_decoded img filters (img.encode filters) fresh fun _ _ => rfl
    obtain ⟨pixels', hpix', hval'⟩ := h (img.encode filters) fresh fun _ _ => rfl
    obtain rfl : pixels = pixels' := Option.some.inj (hpix.symm.trans hpix')
    have hshown := hval (img.height - 1) (by omega) 0 hwidth
    rw [if_neg hlast, hval' (img.height - 1) (by omega) 0 hwidth] at hshown
    exact absurd hshown.symm (by simp [fresh])
  · intro hlimit m fresh hm
    obtain ⟨pixels, hpix, hval⟩ := rows_decoded img filters m fresh hm
    refine ⟨pixels, hpix, fun y hy x hx => ?_⟩
    have hreach : img.Reached y := le_trans (Nat.mul_le_mul_right _ hy) hlimit
    rw [hval y hy x hx, if_pos hreach]

/-- A black grayscale image, 4096 by 2560. -/
def blackImage : Image where
  width := 4096
  height := 2560
  colorType := .grayscale
  sample := fun _ _ => 0
  width_le := by decide
  height_le := by decide
  supported := by decide

/-- Its last row ends past the limit: in a zeroed buffer its pixels stay transparent. -/
theorem last_row_unwritten : ∃ pixels,
    decodeRaw blackImage.colorType blackImage.width blackImage.height
        (blackImage.encode fun _ => .none) (some fun _ => 0) = some pixels ∧
      pixels (2559 * blackImage.width) = 0 ∧ blackImage.pixel 2559 0 = 0xFF000000 := by
  obtain ⟨pixels, hpix, hval⟩ := rows_decoded blackImage (fun _ => .none)
    (blackImage.encode fun _ => .none) (fun _ => 0) fun _ _ => rfl
  refine ⟨pixels, hpix, ?_, by decide⟩
  have hlast := hval 2559 (by decide) 0 (by decide)
  rw [if_neg (by decide)] at hlast
  exact hlast

end InDevOS.Png
