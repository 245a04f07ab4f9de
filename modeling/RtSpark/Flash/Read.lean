import RtSpark.Flash.Partition
/-!
# A failed read and its data

The status of a read crosses four layers. `falPartitionRead_w25q64` and
`falPartitionRead_onchip` say what a read of a partition comes to: on the
W25Q64 every access the check lets through reports success, because the
port drops what `sfud_read` returns. So a read is what it says it is
exactly where `sfud_read` succeeds, or the buffer held the flash's bytes
before.
-/

namespace RtSpark

namespace Flash

open Nor Lcd

variable {flash : SfudFlash} {o : ℕ → Outcome} {contents : String → Cells} {cells : Cells}
variable {part : FalPartition} {addr size : ℕ} {buf : Mem}

/-- The access a read asks for passes the check of its partition. -/
def Accepts (part : FalPartition) (addr size : ℕ) : Prop := (addr + size) % 2 ^ 32 ≤ part.len

instance (part : FalPartition) (addr size : ℕ) : Decidable (Accepts part addr size) :=
  inferInstanceAs (Decidable (_ ≤ _))

/-- The byte of the flash at an address of a partition. -/
def flashByte (flash : SfudFlash) (contents : String → Cells) (part : FalPartition) (addr : ℕ) :
    UInt8 :=
  match falFlashDeviceFind (falFlashDevTable flash) part.flashName with
  | none => 0
  | some dev => contents part.flashName (dev.cell (part.offset + addr))

/-- A partition is on one of the two devices, and within it. -/
theorem falPartTable_device (hpart : part ∈ falPartTable) :
    part.flashName = "W25Q64" ∧ part.offset + part.len ≤ w25q64Capacity ∨
      part.flashName = "onchip_flash_128k" ∧ part.offset + part.len ≤ stm32FlashSize := by
  rcases falPartTable_place hpart with ⟨hname, -, -, hlen⟩ | ⟨hname, -, -, hlen⟩
  · exact Or.inl ⟨hname, hlen⟩
  · exact Or.inr ⟨hname, hlen⟩

theorem falPartitionRead_refused (h : ¬ Accepts part addr size) :
    falPartitionRead (falFlashDevTable flash) part cells o addr buf size = (-1, buf) :=
  if_pos (Nat.not_le.1 h)

/-- **A read on the W25Q64 reports success whatever `sfud_read` does.** -/
theorem falPartitionRead_w25q64 (hname : part.flashName = "W25Q64")
    (hlen : part.offset + part.len ≤ w25q64Capacity) (h : Accepts part addr size) :
    falPartitionRead (falFlashDevTable flash) part cells o addr buf size =
      (toInt size, match o 0 with
        | .ok => fun i =>
          if i < size then cells (w25q64Cell (part.offset + addr + i)) else buf i
        | .failed _ => buf) := by
  have hcap : w25q64Capacity = 8388608 := rfl
  unfold Accepts at h
  unfold falPartitionRead
  rw [if_neg (by omega), hname, falFlashDeviceFind_w25q64]
  simp only [w25q64, sfudRead]
  rw [if_neg (by omega)]
  cases o 0 with
  | ok =>
    -- the chip decodes fewer bits than the sum has
    refine Prod.ext rfl (funext fun i => ?_)
    have hcell : w25q64Cell ((part.offset + addr) % 2 ^ 32 + i) =
        w25q64Cell (part.offset + addr + i) := by
      unfold w25q64Cell
      rw [hcap]
      omega
    simp only [hcell]
  | failed carried => rfl

/-- On the on-chip flash it delivers. -/
theorem falPartitionRead_onchip (hname : part.flashName = "onchip_flash_128k")
    (hlen : part.offset + part.len ≤ stm32FlashSize) (h : Accepts part addr size) :
    falPartitionRead (falFlashDevTable flash) part cells o addr buf size =
      (toInt size, fun i =>
        if i < size then cells (stm32Cell (stm32FlashStart + (part.offset + addr + i)))
        else buf i) := by
  have hstart : stm32FlashStart = 0x08000000 := rfl
  have hsize : stm32FlashSize = 0x100000 := rfl
  have hend : stm32FlashEnd = 0x08100000 := rfl
  unfold Accepts at h
  unfold falPartitionRead
  rw [if_neg (by omega), hname, falFlashDeviceFind_onchip]
  simp only [stm32OnchipFlash128k, stm32FlashRead]
  rw [if_neg (by omega)]
  refine Prod.ext rfl (funext fun i => ?_)
  have hcell : stm32Cell ((stm32FlashStart + (part.offset + addr) % 2 ^ 32) % 2 ^ 32 + i) =
      stm32Cell (stm32FlashStart + (part.offset + addr + i)) := by
    unfold stm32Cell
    omega
  simp only [hcell]

/-- The read of an access that passes the check: on the W25Q64 `sfud_read`
succeeds, or the buffer held the bytes before. -/
def ReallyReads (flash : SfudFlash) (contents : String → Cells) (o : ℕ → Outcome)
    (part : FalPartition) (buf : Mem) (addr size : ℕ) : Prop :=
  part.flashName = "W25Q64" → Accepts part addr size →
    o 0 = .ok ∨ ∀ i < size, buf i = flashByte flash contents part (addr + i)

variable (flash o contents buf) in
/-- **A read that passes the check delivers the flash's bytes** exactly
where it really reads, and reports success all the same. -/
theorem falPartitionRead_spec (hpart : part ∈ falPartTable) (h : Accepts part addr size) :
    (falPartitionRead (falFlashDevTable flash) part (contents part.flashName) o addr buf size).1
        = toInt size ∧
      ((∀ i < size, (falPartitionRead (falFlashDevTable flash) part (contents part.flashName) o
          addr buf size).2 i = flashByte flash contents part (addr + i)) ↔
        ReallyReads flash contents o part buf addr size) := by
  rcases falPartTable_device hpart with ⟨hname, hlen⟩ | ⟨hname, hlen⟩
  · have hbyte : ∀ i, flashByte flash contents part (addr + i)
        = contents "W25Q64" (w25q64Cell (part.offset + addr + i)) := by
      intro i
      simp only [flashByte, hname, falFlashDeviceFind_w25q64, Nat.add_assoc]
      rfl
    rw [falPartitionRead_w25q64 hname hlen h]
    refine ⟨rfl, ?_⟩
    unfold ReallyReads
    simp only [hname, h, forall_const, hbyte]
    cases o 0 with
    | ok =>
      refine iff_of_true (fun i hi => ?_) (Or.inl rfl)
      simp only [if_pos hi]
    | failed carried => exact (or_iff_right Outcome.noConfusion).symm
  · rw [falPartitionRead_onchip hname hlen h]
    refine ⟨rfl, iff_of_true (fun i hi => ?_) fun h => ?_⟩
    · simp only [if_pos hi, flashByte, hname, falFlashDeviceFind_onchip, Nat.add_assoc]
      rfl
    · rw [hname] at h
      exact absurd h (by decide)

/-! ## `hal::spi_flash_read` -/

theorem mem_of_falPartitionFind {name : String} (h : falPartitionFind name = some part) :
    part ∈ falPartTable :=
  List.mem_of_find?_eq_some h

/-- **What `spi_flash_read` returns**: success for every access its
partition's check lets through. -/
theorem spiFlashRead_eq {name : String} (hpart : falPartitionFind name = some part)
    (startOffset : UInt32) (fontLen : UInt16) :
    spiFlashRead (falFlashDevTable flash) contents o (some name) buf startOffset fontLen =
      if Accepts part startOffset.toNat fontLen.toNat then
        (0, (falPartitionRead (falFlashDevTable flash) part (contents part.flashName) o
          startOffset.toNat buf fontLen.toNat).2)
      else (-1, buf) := by
  have hmem := mem_of_falPartitionFind hpart
  obtain ⟨dev, -, hdev, -⟩ := falPartTable_borders flash hmem
  unfold spiFlashRead
  simp only [hpart, hdev]
  by_cases hacc : Accepts part startOffset.toNat fontLen.toNat
  · have hret := (falPartitionRead_spec flash o contents buf hmem hacc).1
    have hnonneg : 0 ≤ toInt fontLen.toNat := toInt_nonneg (by have := fontLen.toNat_lt; omega)
    rw [if_pos hacc, hret, if_neg (by omega)]
  · rw [if_neg hacc, falPartitionRead_refused hacc]
    rfl

/-- A read that reports success has filled the buffer from the flash. -/
def ReadHonest (flash : SfudFlash) (contents : String → Cells) (o : ℕ → Outcome)
    (partitonName : Option String) (destBuf : Mem) (startOffset : UInt32) (fontLen : UInt16) :
    Prop :=
  (spiFlashRead (falFlashDevTable flash) contents o partitonName destBuf startOffset
      fontLen).1 = 0 →
    ∃ name part, partitonName = some name ∧ falPartitionFind name = some part ∧
      ∀ i < fontLen.toNat, (spiFlashRead (falFlashDevTable flash) contents o partitonName destBuf
        startOffset fontLen).2 i = flashByte flash contents part (startOffset.toNat + i)

theorem readHonest_iff (partitonName : Option String) (destBuf : Mem) (startOffset : UInt32)
    (fontLen : UInt16) :
    ReadHonest flash contents o partitonName destBuf startOffset fontLen ↔
      ∀ name part, partitonName = some name → falPartitionFind name = some part →
        ReallyReads flash contents o part destBuf startOffset.toNat fontLen.toNat := by
  unfold ReadHonest
  cases partitonName with
  | none =>
    refine iff_of_true (fun h => ?_) fun _ _ h => ?_
    · exact absurd h (by simp [spiFlashRead])
    · cases h
  | some name =>
    cases hfind : falPartitionFind name with
    | none =>
      refine iff_of_true (fun h => ?_) fun name' part hname hpart => ?_
      · exact absurd h (by simp [spiFlashRead, hfind])
      · cases hname
        rw [hfind] at hpart
        cases hpart
    | some part =>
      rw [spiFlashRead_eq hfind]
      by_cases hacc : Accepts part startOffset.toNat fontLen.toNat
      · have hiff := (falPartitionRead_spec flash o contents destBuf (mem_of_falPartitionFind hfind)
          hacc).2
        rw [if_pos hacc]
        constructor
        · intro h name' part' hname hpart
          cases hname
          rw [hfind] at hpart
          cases hpart
          obtain ⟨name', part', hname, hpart, hbytes⟩ := h rfl
          cases hname
          rw [hfind] at hpart
          cases hpart
          exact hiff.1 hbytes
        · intro h _
          exact ⟨name, part, rfl, hfind, hiff.2 (h name part rfl hfind)⟩
      · rw [if_neg hacc]
        refine iff_of_true (fun h => absurd h (by simp)) ?_
        intro name' part' hname hpart _ hacc'
        cases hname
        rw [hfind] at hpart
        cases hpart
        exact absurd hacc' hacc

/-! ## `lcd_show_chinese` -/

section

variable (byteHigh byteLow : UInt8) (fsize : UInt8)

/-- The bytes of a glyph, and where they start. -/
def glyphUsed : ℕ := fsize.toNat * fsize.toNat / 8

def glyphAddr : ℕ := fontAddr byteHigh byteLow (glyphUsed fsize)

theorem glyphUsed_lt : glyphUsed fsize < 2 ^ 13 := by
  have h := Nat.le_of_lt_succ fsize.toNat_lt
  have hmul := Nat.mul_le_mul h h
  unfold glyphUsed
  omega

/-- Neither is cut off on its way to the read. -/
theorem glyphAddr_lt : glyphAddr byteHigh byteLow fsize < 2 ^ 32 := by
  unfold glyphAddr fontAddr
  simp only
  generalize hlow : (if byteLow < 0x7F then byteLow - 0x40 else byteLow - 0x41) = low
  have hlow' := low.toNat_lt
  have hhigh := (byteHigh - 0x81).toNat_lt
  have hused := glyphUsed_lt fsize
  have hmul := Nat.mul_le_mul
    (show 190 * (byteHigh - 0x81).toNat + low.toNat ≤ 190 * 255 + 255 by omega)
    (Nat.le_of_lt hused)
  omega

/-- Either `lcd_show_chinese` returns an error and draws nothing, or it
draws what the font partition holds of the glyph. -/
def DrawsFont (flash : SfudFlash) (contents : String → Cells) (o : ℕ → Outcome) (beyond : Mem)
    (dev : LcdDev) (x y : ℕ) : Prop :=
  let flashRead := fontRead (falFlashDevTable flash) contents o beyond
  let err := lcdShowChineseErr flashRead byteHigh byteLow fsize.toNat
  let writes := lcdShowChinese dev flashRead x y byteHigh byteLow fsize.toNat
  err = -1 ∧ writes = [] ∨
    err = 0 ∧ ∃ buf, flashRead (glyphAddr byteHigh byteLow fsize) (glyphUsed fsize) = some buf ∧
      writes = ((glyphPoints x y fsize.toNat buf).flatMap fun q => lcdDrawPoint dev q.1 q.2) ∧
      ∀ i < glyphUsed fsize, buf i = flashByte flash contents font
        (glyphAddr byteHigh byteLow fsize + i)

end

variable (flash o contents) in
/-- What `lcd_show_chinese` gets of its read. -/
theorem fontRead_eq (beyond : Mem) {addr size : ℕ} (haddr : addr < 2 ^ 32) (hsize : size < 2 ^ 16) :
    fontRead (falFlashDevTable flash) contents o beyond addr size =
      if Accepts font addr size then
        some (falPartitionRead (falFlashDevTable flash) font (contents "W25Q64") o addr
          (Mem.buffer 128 [] beyond) size).2
      else none := by
  unfold fontRead
  rw [spiFlashRead_eq falPartitionFind_font, UInt32.toNat_ofNat_of_lt' haddr,
    UInt16.toNat_ofNat_of_lt' hsize]
  by_cases hacc : Accepts font addr size
  · rw [if_pos hacc, if_pos hacc]
    rfl
  · rw [if_neg hacc, if_neg hacc]
    rfl

theorem drawsFont_iff (byteHigh byteLow fsize : UInt8) (beyond : Mem) (dev : LcdDev) (x y : ℕ) :
    DrawsFont byteHigh byteLow fsize flash contents o beyond dev x y ↔
      ReallyReads flash contents o font (Mem.buffer 128 [] beyond)
        (glyphAddr byteHigh byteLow fsize) (glyphUsed fsize) := by
  have hread := fontRead_eq flash o contents beyond (glyphAddr_lt byteHigh byteLow fsize)
    (Nat.lt_of_lt_of_le (glyphUsed_lt fsize) (by decide))
  unfold DrawsFont
  simp only [lcdShowChineseErr, lcdShowChinese]
  rw [show fontAddr byteHigh byteLow (fsize.toNat * fsize.toNat / 8)
    = glyphAddr byteHigh byteLow fsize from rfl,
    show fsize.toNat * fsize.toNat / 8 = glyphUsed fsize from rfl, hread]
  by_cases hacc : Accepts font (glyphAddr byteHigh byteLow fsize) (glyphUsed fsize)
  · have hiff := (falPartitionRead_spec flash o contents (Mem.buffer 128 [] beyond)
      (by decide : font ∈ falPartTable) hacc).2
    rw [if_pos hacc]
    refine Iff.trans ⟨?_, fun h => Or.inr ⟨rfl, _, rfl, rfl, h⟩⟩ hiff
    rintro (⟨herr, -⟩ | ⟨-, buf, hbuf, -, hbytes⟩)
    · exact absurd herr (show ¬ (0 : ℤ) = -1 by decide)
    · cases hbuf
      exact hbytes
  · rw [if_neg hacc]
    exact iff_of_true (Or.inl ⟨rfl, rfl⟩) fun _ h => absurd h hacc

/-- **A failed read is not mistaken for data exactly where `sfud_read`
really reads**, by whoever calls `spi_flash_read` and by
`lcd_show_chinese`. -/
theorem spiFlashRead_honest_iff (flash : SfudFlash) (contents : String → Cells)
    (o : ℕ → Outcome) (partitonName : Option String) (destBuf : Mem) (startOffset : UInt32)
    (fontLen : UInt16) (byteHigh byteLow fsize : UInt8) (beyond : Mem) (dev : LcdDev) (x y : ℕ) :
    (ReadHonest flash contents o partitonName destBuf startOffset fontLen ↔
      ∀ name part, partitonName = some name → falPartitionFind name = some part →
        ReallyReads flash contents o part destBuf startOffset.toNat fontLen.toNat) ∧
    (DrawsFont byteHigh byteLow fsize flash contents o beyond dev x y ↔
      ReallyReads flash contents o font (Mem.buffer 128 [] beyond)
        (glyphAddr byteHigh byteLow fsize) (glyphUsed fsize)) :=
  ⟨readHonest_iff partitonName destBuf startOffset fontLen,
    drawsFont_iff byteHigh byteLow fsize beyond dev x y⟩

/-- **A read of an erased chip that fails is a byte of zeros**, and a
success. -/
theorem spiFlashRead_not_honest :
    ¬ ∀ (flash : SfudFlash) (contents : String → Cells) (o : ℕ → Outcome)
      (partitonName : Option String) (destBuf : Mem) (startOffset : UInt32) (fontLen : UInt16),
      ReadHonest flash contents o partitonName destBuf startOffset fontLen := by
  intro h
  obtain ⟨name, part, hname, hpart, hbytes⟩ := h ⟨none⟩ (fun _ _ => 0xFF)
    (fun _ => .failed fun _ => false) (some "font") Mem.zeros 0 1 (by decide +kernel)
  cases hname
  rw [falPartitionFind_font] at hpart
  cases hpart
  exact absurd (hbytes 0 (by decide)) (by decide +kernel)

end Flash

end RtSpark
