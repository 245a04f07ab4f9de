import RtSpark.Lcd.Bytes
import RtSpark.Lcd.ShowString
import Mathlib.Algebra.Group.Nat.Defs
/-!
# Characters with memory and without

`lcd_show_char` sends its pixels one by one, or puts their bytes in
`font_buf` and sends the buffer. The index of a pixel is computed from the
byte of the glyph and the bit in it; along the loops it counts up from 0
without a gap (`charPixels_keys`). So the buffer is written completely and
nothing else is, and what is sent from it is what is sent without it.
-/

namespace RtSpark

namespace Lcd

variable {size x y : ℕ} {f : Face} {fonts : Fonts}

/-! ## The loops -/

/-- Shifting on, as long as there are bits to come. -/
theorem shift_succ (temp : UInt8) {t : ℕ} (ht : t + 1 < 8) :
    (temp <<< UInt8.ofNat t) <<< 1 = temp <<< UInt8.ofNat (t + 1) := by
  have hone : (1 : UInt8).toNat % 8 = 1 := rfl
  have hmod : ∀ k, k < 8 → (UInt8.ofNat k).toNat % 8 = k := by
    intro k hk
    rw [UInt8.toNat_ofNat_of_lt' (Nat.lt_trans hk (by decide))]
    exact Nat.mod_eq_of_lt hk
  refine UInt8.toNat_inj.1 ?_
  rw [UInt8.toNat_shiftLeft, UInt8.toNat_shiftLeft, UInt8.toNat_shiftLeft, hone,
    hmod t (by omega), hmod (t + 1) ht, Nat.shiftLeft_eq, Nat.shiftLeft_eq, Nat.shiftLeft_eq]
  have hpow : temp.toNat * 2 ^ (t + 1) = temp.toNat * 2 ^ t * 2 := by
    rw [Nat.pow_succ, Nat.mul_assoc]
  rw [hpow]
  generalize temp.toNat * 2 ^ t = bits
  omega

/-- A byte's bits, from the top. -/
theorem bitLoop_eq {β : Type} (emit : β → ℕ → Color → β) (index : ℕ → ℕ) (fore back : Color)
    (temp : UInt8) (out : β) {n : ℕ} (hn : n ≤ 8) :
    let loop := (List.range n).foldl
      (fun (s : UInt8 × β) t =>
        (s.1 <<< 1, emit s.2 (index t) (if s.1 &&& 0x80 ≠ 0 then fore else back)))
      (temp, out)
    (n < 8 → loop.1 = temp <<< UInt8.ofNat n) ∧
      loop.2 = ((List.range n).map fun t => (index t,
        if (temp <<< UInt8.ofNat t) &&& 0x80 ≠ 0 then fore else back)).foldl
          (fun out q => emit out q.1 q.2) out := by
  induction n with
  | zero =>
    refine ⟨fun _ => ?_, rfl⟩
    show temp = temp <<< 0
    simp
  | succ n ih =>
    obtain ⟨htemp, hout⟩ := ih (by omega)
    have htemp' := htemp (by omega)
    simp only [List.range_succ, List.foldl_append, List.map_append, List.foldl_cons,
      List.foldl_nil, List.map_cons, List.map_nil]
    rw [htemp', hout]
    exact ⟨fun hlt => shift_succ temp hlt, rfl⟩

/-- **The loops go over the pixels in order.** -/
theorem charLoop_eq {β : Type} (hnum : ∀ pos, f.num pos ≤ 8) (data : UInt8) (fore back : Color)
    (emit : β → ℕ → Color → β) (out : β) :
    charLoop f data fore back emit out =
      (charPixels f data fore back).foldl (fun out q => emit out q.1 q.2) out := by
  unfold charLoop charPixels
  rw [List.foldl_flatMap]
  congr 1
  funext out pos
  exact (bitLoop_eq emit (f.index pos) fore back _ out (hnum pos)).2

theorem foldl_emitPixel (pixels : List (ℕ × Color)) (ws : List BusWrite) :
    pixels.foldl (fun ws q => emitPixel ws q.1 q.2) ws =
      ws ++ pixels.flatMap fun q => lcdWriteHalfWord q.2 := by
  induction pixels generalizing ws with
  | nil => exact (List.append_nil ws).symm
  | cons q pixels ih =>
    rw [List.foldl_cons, ih, emitPixel, List.append_assoc, List.flatMap_cons]

/-- The stores of the loops. -/
def fontBufStores (pixels : List (ℕ × Color)) : List (ℕ × UInt8) :=
  pixels.flatMap fun q => [(2 * q.1, highByte q.2), (2 * q.1 + 1, lowByte q.2)]

theorem foldl_emitStore (pixels : List (ℕ × Color)) (heap : Mem) :
    pixels.foldl (fun buf q => emitStore buf q.1 q.2) heap =
      Stores.apply heap (fontBufStores pixels) := by
  induction pixels generalizing heap with
  | nil => rfl
  | cons q pixels ih => exact ih _

/-! ## The indexes -/

/-- The pixels of a byte follow those of the byte before it, and all of
them fill the buffer. Both loops end within their counters. -/
theorem face_blocks (fonts : Fonts) (hsize : FontSize size) :
    ∃ f, ∃ start : ℕ → ℕ, face fonts size = some f ∧
      (f.count < 2 ^ 8 ∧ ∀ pos, f.num pos ≤ 8) ∧
      (∀ pos t, f.index pos t = start pos + t) ∧ start 0 = 0 ∧
      (∀ pos, start (pos + 1) = start pos + f.num pos) ∧ 2 * start f.count = size * size := by
  rcases hsize with rfl | rfl | rfl
  · exact ⟨byteFace 16 fonts.asc2_1608, fun pos => 8 * pos, rfl,
      ⟨(by decide : 16 < 2 ^ 8), fun _ => Nat.le_refl 8⟩,
      fun _ _ => rfl, rfl, fun _ => rfl, rfl⟩
  · refine ⟨face2412 24 fonts.asc2_2412, fun pos => 12 * (pos / 2) + if pos % 2 = 0 then 0 else 8,
      rfl, ⟨(by decide : 48 < 2 ^ 8), fun pos => ?_⟩, fun pos t => ?_, rfl, fun pos => ?_, ?_⟩
    · unfold face2412
      simp only
      split <;> omega
    · unfold face2412
      simp only
      split <;> omega
    · -- a whole byte, then half of one
      unfold face2412
      simp only
      split <;> split <;> omega
    · have hcount : (face2412 24 fonts.asc2_2412).count = 48 := rfl
      rw [hcount]
      rfl
  · exact ⟨byteFace 32 fonts.asc2_3216, fun pos => 8 * pos, rfl,
      ⟨(by decide : 64 < 2 ^ 8), fun _ => Nat.le_refl 8⟩,
      fun _ _ => rfl, rfl, fun _ => rfl, rfl⟩

/-- **The indexes count up from 0.** -/
theorem charPixels_keys {start : ℕ → ℕ} (hindex : ∀ pos t, f.index pos t = start pos + t)
    (h0 : start 0 = 0) (hnext : ∀ pos, start (pos + 1) = start pos + f.num pos) (data : UInt8)
    (fore back : Color) :
    (charPixels f data fore back).map Prod.fst = List.range (start f.count) := by
  rw [← flatMap_range_blocks start f.num h0 hnext, charPixels, List.map_flatMap]
  congr 1
  funext pos
  rw [List.map_map]
  refine List.map_congr_left fun t _ => ?_
  exact hindex pos t

/-- So do those of the bytes. -/
theorem fontBufStores_keys {pixels : List (ℕ × Color)} {n : ℕ}
    (h : pixels.map Prod.fst = List.range n) :
    (fontBufStores pixels).map Prod.fst = List.range (2 * n) := by
  have hblocks := flatMap_range_blocks (fun i => 2 * i) (fun _ => 2) rfl
    (fun _ => rfl) n
  rw [← hblocks, ← h, fontBufStores, List.map_flatMap, List.flatMap_map]
  rfl

/-- What is sent from the buffer are the pixels' bytes, whatever the block
held before. -/
theorem map_fontBuf {pixels : List (ℕ × Color)} {n : ℕ} (h : pixels.map Prod.fst = List.range n)
    (heap : Mem) :
    (List.range (2 * n)).map (fontBuf heap pixels) =
      (pixels.map Prod.snd).flatMap fun c => [highByte c, lowByte c] := by
  have hkeys := fontBufStores_keys h
  have hbuf : fontBuf heap pixels = Stores.apply heap (fontBufStores pixels) := rfl
  rw [← hkeys, hbuf, Stores.map_apply_keys (by rw [hkeys]; exact List.nodup_range), fontBufStores,
    List.map_flatMap, List.flatMap_map]
  rfl

/-! ## Both ways -/

/-- The checks of `lcd_show_char` let a cell on the panel through. -/
theorem not_charOutside (hsize : FontSize size) (hx : x + size / 2 ≤ lcdW)
    (hy : y + size ≤ lcdH) : ¬ charOutside x y size := by
  have hle : 16 ≤ size := by rcases hsize with rfl | rfl | rfl <;> decide
  rw [lcdW_eq] at hx
  rw [lcdH_eq] at hy
  unfold charOutside
  rw [lcdW_eq, lcdH_eq]
  omega

/-- **What is sent is what the loops come to.** -/
theorem lcdShowChar_loops (fore back : Color) (heap : Mem) (data : UInt8)
    (hsize : FontSize size) (hx : x + size / 2 ≤ lcdW) (hy : y + size ≤ lcdH)
    (hface : face fonts size = some f) :
    lcdShowChar st7789 fonts fore back none x y data size =
        lcdAddressSet st7789 x y (x + size / 2 - 1) (y + size - 1) ++
          charLoop f (data - 0x20) fore back emitPixel [] ∧
      lcdShowChar st7789 fonts fore back (some heap) x y data size =
        lcdAddressSet st7789 x y (x + size / 2 - 1) (y + size - 1) ++
          lcdWriteDataBuffer ((List.range (size * size)).map
            (charLoop f (data - 0x20) fore back emitStore heap)) := by
  obtain ⟨f', -, hface', ⟨-, hnum⟩, -⟩ := face_blocks fonts hsize
  obtain rfl : f = f' := Option.some.inj (hface.symm.trans hface')
  have hinside := not_charOutside hsize hx hy
  constructor
  · rw [lcdShowChar, if_neg hinside, hface, charLoop_eq hnum, foldl_emitPixel]
    rfl
  · rw [lcdShowChar, if_neg hinside, hface, charLoop_eq hnum, foldl_emitStore]
    rfl

/-- With the block `heap` and without one the same is sent: a byte for each
byte of the cell, all of them in `font_buf` before it is, and nothing
beside it. -/
structure BufferedAlike (fonts : Fonts) (fore back : Color) (heap : Mem) (x y : ℕ) (data : UInt8)
    (size : ℕ) (f : Face) : Prop where
  face : face fonts size = some f
  /-- `pos` and `t` are 8 bits wide. -/
  counters : f.count < 2 ^ 8 ∧ ∀ pos, f.num pos < 2 ^ 8
  alike : busBytes (lcdShowChar st7789 fonts fore back (some heap) x y data size) =
    busBytes (lcdShowChar st7789 fonts fore back none x y data size)
  sent : ∃ pixels, (pixelBytes pixels).length = size * size ∧
    busBytes (lcdShowChar st7789 fonts fore back none x y data size) =
      busBytes (lcdAddressSet st7789 x y (x + size / 2 - 1) (y + size - 1)) ++ pixelBytes pixels
  written : ∀ i, i ∈ (fontBufStores (charPixels f (data - 0x20) fore back)).map Prod.fst ↔
    i < size * size

/-- **A character is sent alike with memory and without**, wherever it is
on the panel and whatever its glyph. -/
theorem lcdShowChar_buffered_eq (fonts : Fonts) (fore back : Color) (heap : Mem) (data : UInt8)
    (hsize : FontSize size) (hx : x + size / 2 ≤ lcdW) (hy : y + size ≤ lcdH) :
    ∃ f, BufferedAlike fonts fore back heap x y data size f := by
  obtain ⟨f, start, hface, ⟨hpos, hnum⟩, hindex, h0, hnext, hcount⟩ := face_blocks fonts hsize
  have hkeys := charPixels_keys hindex h0 hnext (data - 0x20) fore back
  have hinside := not_charOutside hsize hx hy
  generalize hpixels : charPixels f (data - 0x20) fore back = pixels at hkeys
  have hsent : busBytes (lcdShowChar st7789 fonts fore back none x y data size) =
      busBytes (lcdAddressSet st7789 x y (x + size / 2 - 1) (y + size - 1)) ++
        pixelBytes (pixels.map Prod.snd) := by
    rw [lcdShowChar, if_neg hinside, hface]
    simp only [hpixels]
    rw [busBytes_append, ← busBytes_halfWords, List.flatMap_map]
  refine ⟨f, hface, ⟨hpos, fun pos => Nat.lt_of_le_of_lt (hnum pos) (by decide)⟩, ?_,
    ⟨pixels.map Prod.snd, ?_, hsent⟩, fun i => ?_⟩
  · rw [hsent, lcdShowChar, if_neg hinside, hface]
    simp only [hpixels]
    rw [busBytes_append, ← hcount, map_fontBuf hkeys, busBytes_dataBuffer]
  · have hlen := congrArg List.length hkeys
    rw [List.length_map, List.length_range] at hlen
    rw [length_pixelBytes, List.length_map, hlen, hcount]
  · rw [hpixels, fontBufStores_keys hkeys, List.mem_range, hcount]

/-- A letter in the panel's last cell. -/
theorem lcdShowChar_buffered_eq_corner :
    ∃ f, BufferedAlike ⟨fun _ => 0x5A, fun _ => 0x5A, fun _ => 0x5A⟩ 0xF800 0xFFFF Mem.zeros
      228 216 0x61 24 f :=
  lcdShowChar_buffered_eq ⟨fun _ => 0x5A, fun _ => 0x5A, fun _ => 0x5A⟩ 0xF800 0xFFFF Mem.zeros
    0x61 (Or.inr (Or.inl rfl)) (by decide) (by decide)

end Lcd

end RtSpark
