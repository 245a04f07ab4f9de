import RtSpark.Flash.Read
/-!
# The font update

Over devices that keep the contract of a NOR flash, `norDev`: a call
either fails, having done whatever it has done, or does what it was asked.
`Copied` is the invariant of the copy loop: what has been written is the
file, and the rest of the partition is erased. It holds at every exit, so
the update is sound exactly where the loop comes to an end, and does not
leave early with something of the file still to come.
-/

namespace RtSpark

namespace Flash

open Nor

/-! ## The contract -/

/-- What a call comes to. -/
inductive NorOutcome where
  | done
  | error (ret : ℤ) (neg : ret < 0) (cells : Cells) (buf : Mem)

/-- A NOR flash as the layers above it rely on. -/
def norDev (len : ℕ) : FalFlashDev NorOutcome where
  len := len
  cell := id
  read := fun cells o offset buf size =>
    match o with
    | .done => (toInt size, fun i => if i < size then cells (offset + i) else buf i)
    | .error ret _ _ buf => (ret, buf)
  write := fun cells o offset buf size =>
    match o with
    | .done => (toInt size, program cells offset size buf)
    | .error ret _ cells _ => (ret, cells)
  erase := fun cells o offset size =>
    match o with
    | .done => (toInt size, erase cells offset size)
    | .error ret _ cells _ => (ret, cells)

/-- The board's devices, so taken. -/
def norDevTable : List (String × FalFlashDev NorOutcome) :=
  [("onchip_flash_128k", norDev stm32FlashSize), ("W25Q64", norDev w25q64Capacity)]

variable {part : FalPartition} {cells : Cells} {o : NorOutcome} {addr size : ℕ} {buf : Mem}

theorem falPartTable_norDev (hpart : part ∈ falPartTable) :
    ∃ len, falFlashDeviceFind norDevTable part.flashName = some (norDev len) ∧
      part.offset + part.len < 2 ^ 31 := by
  rcases falPartTable_device hpart with ⟨hname, hlen⟩ | ⟨hname, hlen⟩
  · rw [hname]
    exact ⟨w25q64Capacity, by simp [falFlashDeviceFind, norDevTable],
      Nat.lt_of_le_of_lt hlen (by decide)⟩
  · rw [hname]
    exact ⟨stm32FlashSize, by simp [falFlashDeviceFind, norDevTable],
      Nat.lt_of_le_of_lt hlen (by decide)⟩

variable (cells o buf) in
theorem falPartitionRead_nor (hpart : part ∈ falPartTable) (h : addr + size ≤ part.len) :
    falPartitionRead norDevTable part cells o addr buf size =
      match o with
      | .done => (toInt size, fun i =>
          if i < size then cells (part.offset + addr + i) else buf i)
      | .error ret _ _ buf => (ret, buf) := by
  obtain ⟨len, hdev, hlen⟩ := falPartTable_norDev hpart
  unfold falPartitionRead
  rw [if_neg (by omega), hdev]
  simp only [norDev]
  rw [Nat.mod_eq_of_lt (by omega)]

theorem falPartitionWrite_nor (hpart : part ∈ falPartTable) (h : addr + size ≤ part.len) :
    falPartitionWrite norDevTable part cells o addr buf size =
      match o with
      | .done => (toInt size, program cells (part.offset + addr) size buf)
      | .error ret _ cells _ => (ret, cells) := by
  obtain ⟨len, hdev, hlen⟩ := falPartTable_norDev hpart
  unfold falPartitionWrite
  rw [if_neg (by omega), hdev]
  simp only [norDev]
  rw [Nat.mod_eq_of_lt (by omega)]

theorem falPartitionWrite_refused (h : part.len < (addr + size) % 2 ^ 32) :
    falPartitionWrite norDevTable part cells o addr buf size = (-1, cells) :=
  if_pos h

theorem falPartitionEraseAll_nor (hpart : part ∈ falPartTable) :
    falPartitionEraseAll norDevTable part cells o =
      match o with
      | .done => (toInt part.len, erase cells part.offset part.len)
      | .error ret _ cells _ => (ret, cells) := by
  obtain ⟨len, hdev, hlen⟩ := falPartTable_norDev hpart
  unfold falPartitionEraseAll falPartitionErase
  rw [if_neg (by omega), hdev]
  simp only [norDev]
  rw [Nat.mod_eq_of_lt (by omega), Nat.add_zero]

/-! ## The check of the erase -/

section

variable {verify : ℕ → NorOutcome} {i : ℕ} {ret : ℤ}

theorem eraseCheck_end (h : part.len ≤ i) :
    eraseCheck norDevTable part cells verify i ret = .ok ret := by
  rw [eraseCheck, if_neg (by omega)]

theorem eraseCheck_error (hpart : part ∈ falPartTable) (hi : i < part.len)
    (h : verify i ≠ .done) : eraseCheck norDevTable part cells verify i ret = .error (-6) := by
  have hread := falPartitionRead_nor cells (verify i) Mem.zeros hpart
    (chunkLen_bounds hi).2.2
  rw [eraseCheck, if_pos hi]
  simp only [hread]
  cases ho : verify i with
  | done => exact absurd ho h
  | error ret' neg cells' buf' => exact if_pos neg

/-- A chunk of an erased partition that is read passes. -/
theorem eraseCheck_done (hpart : part ∈ falPartTable) (hi : i < part.len)
    (hcleared : Cleared part.offset (part.offset + part.len) cells) (h : verify i = .done) :
    eraseCheck norDevTable part cells verify i ret =
      eraseCheck norDevTable part cells verify (i + chunkLen part i)
        (toInt (chunkLen part i)) := by
  have hchunk := chunkLen_bounds hi
  have hbuf : bufSize = 512 := rfl
  have hread := falPartitionRead_nor cells (verify i) Mem.zeros hpart
    hchunk.2.2
  have hnonneg : 0 ≤ toInt (chunkLen part i) := toInt_nonneg (by omega)
  have herased : ¬ ∃ j ∈ List.range (chunkLen part i),
      (if j < chunkLen part i then cells (part.offset + i + j) else Mem.zeros j) ≠ 0xFF := by
    rintro ⟨j, hj, hne⟩
    have hj' := List.mem_range.1 hj
    rw [if_pos hj'] at hne
    exact hne (hcleared _ (by omega) (by omega))
  rw [h] at hread
  rw [eraseCheck, if_pos hi]
  simp only [h, hread]
  rw [if_neg (by omega), if_neg herased]

/-- **The check passes exactly where its reads do**: the erase is not in
question. -/
theorem eraseCheck_spec (hpart : part ∈ falPartTable)
    (hcleared : Cleared part.offset (part.offset + part.len) cells) (verify : ℕ → NorOutcome)
    {i : ℕ} {ret : ℤ} (hi : bufSize ∣ i) (hret : 0 ≤ ret) :
    (∃ e < 0, eraseCheck norDevTable part cells verify i ret = .error e) ∧
        (∃ k, bufSize * k < part.len ∧ i ≤ bufSize * k ∧ verify (bufSize * k) ≠ .done) ∨
      (∃ ret' ≥ 0, eraseCheck norDevTable part cells verify i ret = .ok ret') ∧
        ∀ k, bufSize * k < part.len → i ≤ bufSize * k → verify (bufSize * k) = .done := by
  have hbuf : bufSize = 512 := rfl
  simp only [hbuf] at hi ⊢
  induction hn : part.len - i using Nat.strongRecOn generalizing i ret with
  | _ n ih =>
    by_cases hlt : i < part.len
    · obtain ⟨k, rfl⟩ := hi
      by_cases hdone : verify (512 * k) = .done
      · have hchunk := chunkLen_bounds hlt
        have hnonneg : 0 ≤ toInt (chunkLen part (512 * k)) := toInt_nonneg (by omega)
        rw [eraseCheck_done hpart hlt hcleared hdone]
        by_cases hwhole : 512 < part.len - 512 * k
        · have hlen : 512 * k + chunkLen part (512 * k) = 512 * (k + 1) := by
            rw [chunkLen, hbuf, if_pos hwhole]
            omega
          rw [hlen] at hchunk ⊢
          rcases ih (part.len - 512 * (k + 1)) (by omega) hnonneg (Nat.dvd_mul_right _ _) rfl with
            ⟨herr, m, hm, hkm, hne⟩ | ⟨hok, hall⟩
          · exact Or.inl ⟨herr, m, hm, by omega, hne⟩
          · refine Or.inr ⟨hok, fun m hm hkm => ?_⟩
            by_cases heq : m = k
            · rw [heq]
              exact hdone
            · exact hall m hm (by omega)
        · -- the last chunk: there is no index past it
          have hlen : chunkLen part (512 * k) = part.len - 512 * k := by
            rw [chunkLen, hbuf, if_neg hwhole]
          rw [eraseCheck_end (by omega)]
          refine Or.inr ⟨⟨_, hnonneg, rfl⟩, fun m hm hkm => ?_⟩
          obtain rfl : m = k := by omega
          exact hdone
      · exact Or.inl ⟨⟨-6, by decide, eraseCheck_error hpart hlt hdone⟩,
          ⟨k, hlt, Nat.le_refl _, hdone⟩⟩
    · rw [eraseCheck_end (Nat.not_lt.1 hlt)]
      exact Or.inr ⟨⟨ret, hret, rfl⟩, fun k h₁ h₂ => by omega⟩

end

/-! ## The copy loop -/

/-- The partition holds the first `n` bytes of the file and is erased past
them. -/
def Copied (part : FalPartition) (file : List UInt8) (n : ℕ) (cells : Cells) : Prop :=
  ∀ i < part.len, cells (part.offset + i) = if i < n then file.getD i 0xFF else 0xFF

/-- **The partition holds the font library**, as much of it as it has room
for, and is erased past it. -/
def HoldsFile (part : FalPartition) (file : List UInt8) (cells : Cells) : Prop :=
  ∀ i < part.len, cells (part.offset + i) = file.getD i 0xFF

section

variable {file : List UInt8} {n : ℕ}

theorem copied_of_cleared (h : Cleared part.offset (part.offset + part.len) cells) :
    Copied part file 0 cells := by
  intro i hi
  rw [if_neg (by omega)]
  exact h _ (by omega) (by omega)

/-- What is missing of the file is what it has that is not `0xFF`. -/
theorem Copied.holds_iff (h : Copied part file n cells) :
    HoldsFile part file cells ↔
      ∀ i, n ≤ i → i < min file.length part.len → file.getD i 0xFF = 0xFF := by
  constructor
  · intro hholds i hn hi
    rw [← hholds i (by omega), h i (by omega), if_neg (by omega)]
  · intro hrest i hi
    rw [h i hi]
    split
    · rfl
    · by_cases hlt : i < file.length
      · exact (hrest i (by omega) (by omega)).symm
      · rw [List.getD_eq_getElem?_getD, List.getElem?_eq_none (by omega)]
        rfl

/-- **A write moves the invariant on.** -/
theorem Copied.program {k : ℕ} {buf : Mem} (h : Copied part file n cells)
    (hbuf : ∀ j < k, buf j = file.getD (n + j) 0xFF) :
    Copied part file (n + k) (Nor.program cells (part.offset + n) k buf) := by
  intro i hi
  by_cases hin : n ≤ i ∧ i < n + k
  · obtain ⟨j, rfl⟩ := Nat.exists_eq_add_of_le hin.1
    have hold := h _ hi
    rw [if_neg (by omega), ← Nat.add_assoc] at hold
    rw [if_pos hin.2, ← Nat.add_assoc, program_of_erased hold (by omega)]
    exact hbuf j (by omega)
  · rw [(frame_program (Nat.le_refl _) (Nat.le_refl _)) _ (by omega), h i hi]
    split <;> split <;> first | rfl | omega

/-- No read of the file fails before what is left of it to copy is `0xFF`
throughout, unless a write has failed by then: the file read so far is
`total` bytes long. -/
def ReadsThrough (file : List UInt8) (len : ℕ) : List (Option ℕ × NorOutcome) → ℕ → Prop
  | [], _ => True
  | (none, _) :: _, total =>
    ∀ i, total ≤ i → i < min file.length len → file.getD i 0xFF = 0xFF
  | (some count, o) :: copies, total =>
    total < min file.length len →
      let total := total + min (min count bufSize) (file.length - total)
      total ≤ len → o = .done → ReadsThrough file len copies total

/-- The reads bring the copy loop to an end: one fails, or what they deliver
is all there is to copy, unless a write has failed by then. -/
def ReadsEnd (file : List UInt8) (len : ℕ) : List (Option ℕ × NorOutcome) → ℕ → Prop
  | [], total => min file.length len ≤ total
  | (none, _) :: _, _ => True
  | (some count, o) :: copies, total =>
    total < min file.length len →
      let total := total + min (min count bufSize) (file.length - total)
      total ≤ len → o = .done → ReadsEnd file len copies total

/-- What the loop leaves is right if it reports success. -/
def Sound (part : FalPartition) (file : List UInt8) (r : Option ℤ × Cells) : Prop :=
  ∀ ret, r.1 = some ret → 0 ≤ ret → HoldsFile part file r.2

theorem sound_of_neg {ret : ℤ} (h : ret < 0) : Sound part file (some ret, cells) := by
  intro ret' heq hnonneg
  cases heq
  omega

theorem sound_iff_of_nonneg {ret : ℤ} (h : 0 ≤ ret) :
    Sound part file (some ret, cells) ↔ HoldsFile part file cells :=
  ⟨fun hs => hs ret rfl h, fun hs _ _ _ => hs⟩

theorem copyLoop_stop {ω : Type} {devTable : List (String × FalFlashDev ω)}
    (copies : List (Option ℕ × ω)) {s : CopyState}
    (h : ¬ (s.total < file.length % 2 ^ 32 ∧ s.total < part.len)) :
    copyLoop devTable part file copies s = (some s.ret, s.cells) := by
  cases copies with
  | nil => rw [copyLoop, if_neg h]
  | cons c copies =>
    obtain ⟨got, o⟩ := c
    cases got <;> rw [copyLoop, if_neg h]

theorem readsThrough_of_le {copies : List (Option ℕ × NorOutcome)} {len : ℕ}
    (h : min file.length len ≤ n) : ReadsThrough file len copies n := by
  match copies with
  | [] => trivial
  | (none, _) :: _ => exact fun i hn hi => absurd hi (by omega)
  | (some _, _) :: _ => exact fun hlt => absurd hlt (by omega)

theorem readsEnd_of_le {copies : List (Option ℕ × NorOutcome)} {len : ℕ}
    (h : min file.length len ≤ n) : ReadsEnd file len copies n := by
  match copies with
  | [] => exact h
  | (none, _) :: _ => trivial
  | (some _, _) :: _ => exact fun hlt => absurd hlt (by omega)

/-- Reads that deliver nothing bring it to no end. -/
theorem not_readsEnd_of_empty {len : ℕ} (h : 0 < min file.length len) (n : ℕ) :
    ¬ ReadsEnd file len (List.replicate n (some 0, .done)) 0 := by
  induction n with
  | zero => exact Nat.not_le_of_lt h
  | succ n ih =>
    have hnothing : 0 + min (min 0 bufSize) (file.length - 0) = 0 := by omega
    intro hends
    have hrest := hends h
    rw [hnothing] at hrest
    exact ih (hrest (Nat.zero_le len) rfl)

/-- What one `read()` of the file delivers. -/
theorem length_delivered (file : List UInt8) (pos count : ℕ) :
    ((file.drop pos).take (min count bufSize)).length
      = min (min count bufSize) (file.length - pos) := by
  rw [List.length_take, List.length_drop]

theorem getD_delivered (file : List UInt8) (pos count : ℕ) :
    ∀ j < ((file.drop pos).take (min count bufSize)).length,
      ((file.drop pos).take (min count bufSize)).getD j 0 = file.getD (pos + j) 0xFF := by
  intro j hj
  rw [length_delivered] at hj
  have hlt : pos + j < file.length := by omega
  rw [List.getD_eq_getElem?_getD, List.getD_eq_getElem?_getD, List.getElem?_take_of_lt (by omega),
    List.getElem?_drop, List.getElem?_eq_getElem hlt]
  rfl

/-- **The copy loop is sound exactly where it reads the file through.** -/
theorem copyLoop_sound_iff (hpart : part ∈ falPartTable) (hfits : file.length < 2 ^ 32)
    (copies : List (Option ℕ × NorOutcome)) (s : CopyState)
    (hcopied : Copied part file s.total s.cells) (hpos : s.pos = s.total)
    (htotal : s.total ≤ min file.length part.len) (hret : 0 ≤ s.ret) :
    Sound part file (copyLoop norDevTable part file copies s) ↔
      ReadsThrough file part.len copies s.total := by
  have hlen : part.len < 2 ^ 31 := by
    obtain ⟨_, -, h⟩ := falPartTable_norDev hpart
    omega
  induction copies generalizing s with
  | nil =>
    refine iff_of_true ?_ trivial
    by_cases hguard : s.total < file.length % 2 ^ 32 ∧ s.total < part.len
    · rw [copyLoop, if_pos hguard]
      intro ret h
      cases h
    · rw [copyLoop_stop _ hguard, sound_iff_of_nonneg hret, hcopied.holds_iff]
      exact fun i hn hi => absurd hi (by omega)
  | cons c copies ih =>
    obtain ⟨got, o⟩ := c
    by_cases hguard : s.total < file.length % 2 ^ 32 ∧ s.total < part.len
    · cases got with
      | none =>
        -- `ret` is still the one of the call before
        rw [copyLoop, if_pos hguard, sound_iff_of_nonneg hret, hcopied.holds_iff]
        rfl
      | some count =>
        rw [copyLoop, if_pos hguard]
        have hdata := length_delivered file s.total count
        have hbytes := getD_delivered file s.total count
        simp only [ReadsThrough, hpos, ← hdata]
        generalize (file.drop s.total).take (min count bufSize) = data at hdata hbytes ⊢
        have hbuf : ∀ j < data.length,
            (fun i => if i < data.length then data.getD i 0 else s.buf i) j
              = file.getD (s.total + j) 0xFF := by
          intro j hj
          simp only [if_pos hj]
          exact hbytes j hj
        generalize (fun i => if i < data.length then data.getD i 0 else s.buf i) = buf at hbuf ⊢
        have hlt : s.total < min file.length part.len := by omega
        by_cases hroom : s.total + data.length ≤ part.len
        · rw [falPartitionWrite_nor hpart hroom]
          cases o with
          | done =>
            have hnonneg : 0 ≤ toInt data.length := toInt_nonneg (by omega)
            simp only [if_neg (Int.not_lt.2 hnonneg), hlt, hroom, forall_const]
            rw [Nat.mod_eq_of_lt (by omega)]
            exact ih _ (hcopied.program hbuf) rfl (by simp only; omega) hnonneg
          | error ret neg cells' buf' =>
            simp only [if_pos neg]
            refine iff_of_true (sound_of_neg (by decide)) fun _ _ h => ?_
            cases h
        · -- a chunk of the file that runs over the partition's end is refused
          rw [falPartitionWrite_refused (by rw [Nat.mod_eq_of_lt (by omega)]; omega)]
          refine iff_of_true (sound_of_neg (by decide)) fun _ h => ?_
          exact absurd h hroom
    · rw [copyLoop_stop _ hguard, sound_iff_of_nonneg hret, hcopied.holds_iff]
      exact iff_of_true (fun i hn hi => absurd hi (by omega)) (readsThrough_of_le (by omega))

/-- **The copy loop returns exactly where its reads bring it to an end.** -/
theorem copyLoop_returns_iff (hpart : part ∈ falPartTable) (hfits : file.length < 2 ^ 32)
    (copies : List (Option ℕ × NorOutcome)) (s : CopyState) (hpos : s.pos = s.total)
    (htotal : s.total ≤ min file.length part.len) :
    (copyLoop norDevTable part file copies s).1 ≠ none ↔
      ReadsEnd file part.len copies s.total := by
  have hlen : part.len < 2 ^ 31 := by
    obtain ⟨_, -, h⟩ := falPartTable_norDev hpart
    omega
  induction copies generalizing s with
  | nil =>
    by_cases hguard : s.total < file.length % 2 ^ 32 ∧ s.total < part.len
    · rw [copyLoop, if_pos hguard, ReadsEnd]
      exact iff_of_false (fun h => h rfl) (by omega)
    · rw [copyLoop_stop _ hguard]
      exact iff_of_true (Option.some_ne_none _) (readsEnd_of_le (by omega))
  | cons c copies ih =>
    obtain ⟨got, o⟩ := c
    by_cases hguard : s.total < file.length % 2 ^ 32 ∧ s.total < part.len
    · cases got with
      | none =>
        rw [copyLoop, if_pos hguard]
        exact iff_of_true (Option.some_ne_none _) trivial
      | some count =>
        rw [copyLoop, if_pos hguard]
        have hdata := length_delivered file s.total count
        simp only [ReadsEnd, hpos, ← hdata]
        generalize (file.drop s.total).take (min count bufSize) = data at hdata ⊢
        have hlt : s.total < min file.length part.len := by omega
        by_cases hroom : s.total + data.length ≤ part.len
        · rw [falPartitionWrite_nor hpart hroom]
          cases o with
          | done =>
            have hnonneg : 0 ≤ toInt data.length := toInt_nonneg (by omega)
            simp only [if_neg (Int.not_lt.2 hnonneg), hlt, hroom, forall_const]
            rw [Nat.mod_eq_of_lt (by omega)]
            exact ih _ rfl (by simp only; omega)
          | error ret neg cells' buf' =>
            simp only [if_pos neg]
            refine iff_of_true (Option.some_ne_none _) fun _ _ h => ?_
            cases h
        · rw [falPartitionWrite_refused (by rw [Nat.mod_eq_of_lt (by omega)]; omega)]
          exact iff_of_true (Option.some_ne_none _) fun _ h => absurd h hroom
    · rw [copyLoop_stop _ hguard]
      exact iff_of_true (Option.some_ne_none _) (readsEnd_of_le (by omega))

end

/-! ## The update -/

/-- The erase and the check of it succeed. -/
def Erases (part : FalPartition) (c : UpdateCalls NorOutcome) : Prop :=
  c.erase = .done ∧ ∀ k, bufSize * k < part.len → c.verify (bufSize * k) = .done

/-- **An update of the partition found** fails, or begins to copy into a
partition that is erased. -/
theorem updatePartition_cases (hpart : part ∈ falPartTable) (cells : Cells)
    (c : UpdateCalls NorOutcome) :
    (¬ Erases part c ∧ ∃ e < 0, (updatePartition norDevTable part cells c).1 = some e) ∨
      (Erases part c ∧ ∃ ret ≥ 0, ∃ cells', Cleared part.offset (part.offset + part.len) cells' ∧
        updatePartition norDevTable part cells c =
          copyLoop norDevTable part c.file c.copies ⟨0, 0, ret, Mem.zeros, cells'⟩) := by
  obtain ⟨len, hdev, hlen⟩ := falPartTable_norDev hpart
  unfold updatePartition
  simp only [hdev]
  rw [falPartitionEraseAll_nor hpart]
  cases herase : c.erase with
  | error ret neg cells' buf' =>
    simp only [if_pos neg]
    refine Or.inl ⟨fun h => ?_, -5, by decide, rfl⟩
    have hdone := h.1
    rw [herase] at hdone
    cases hdone
  | done =>
    have hnonneg : 0 ≤ toInt part.len := toInt_nonneg (by omega)
    have hcleared : Cleared part.offset (part.offset + part.len)
        (erase cells part.offset part.len) := cleared_erase
    simp only [if_neg (Int.not_lt.2 hnonneg)]
    rcases eraseCheck_spec hpart hcleared c.verify (Nat.dvd_zero bufSize) hnonneg with
      ⟨⟨e, hneg, heq⟩, k, hk, -, hne⟩ | ⟨⟨ret, hret, heq⟩, hall⟩
    · rw [heq]
      exact Or.inl ⟨fun h => hne (h.2 k hk), e, hneg, rfl⟩
    · rw [heq]
      exact Or.inr ⟨⟨herase, fun k hk => hall k hk (Nat.zero_le _)⟩, ret, hret, _, hcleared, rfl⟩

/-- An update of the partition found, from the erase on. -/
theorem updatePartition_sound_iff (hpart : part ∈ falPartTable) (cells : Cells)
    (c : UpdateCalls NorOutcome) :
    Sound part c.file (updatePartition norDevTable part cells c) ↔
      (Erases part c → ReadsThrough c.file part.len c.copies 0) := by
  rcases updatePartition_cases hpart cells c with
    ⟨hnot, e, hneg, heq⟩ | ⟨herases, ret, hret, cells', hcleared, heq⟩
  · refine iff_of_true (fun ret h hnonneg => ?_) fun h => absurd h hnot
    rw [heq] at h
    cases h
    omega
  · rw [heq, forall_prop_of_true herases]
    exact copyLoop_sound_iff hpart c.fits c.copies _ (copied_of_cleared hcleared) rfl
      (Nat.zero_le _) hret

theorem updatePartition_returns_iff (hpart : part ∈ falPartTable) (cells : Cells)
    (c : UpdateCalls NorOutcome) :
    (updatePartition norDevTable part cells c).1 ≠ none ↔
      (Erases part c → ReadsEnd c.file part.len c.copies 0) := by
  rcases updatePartition_cases hpart cells c with
    ⟨hnot, e, -, heq⟩ | ⟨herases, ret, -, cells', -, heq⟩
  · rw [heq]
    exact iff_of_true (Option.some_ne_none e) fun h => absurd h hnot
  · rw [heq, forall_prop_of_true herases]
    exact copyLoop_returns_iff hpart c.fits c.copies _ rfl (Nat.zero_le _)

/-- What the calls of an update come to, with a read of the file and a write
for every pass of the copy loop, however many it makes. -/
structure UpdateRun (ω : Type) where
  file : List UInt8
  fits : file.length < 2 ^ 32
  opens : Bool
  erase : ω
  verify : ℕ → ω
  copies : ℕ → Option ℕ × ω

/-- The first `n` passes. -/
def UpdateRun.calls {ω : Type} (c : UpdateRun ω) (n : ℕ) : UpdateCalls ω where
  file := c.file
  fits := c.fits
  opens := c.opens
  erase := c.erase
  verify := c.verify
  copies := (List.range n).map c.copies

/-- What the update comes to in the first `n` passes. -/
def UpdateRun.after (contents : String → Cells) (argc : ℤ) (argv1 : Option String)
    (c : UpdateRun NorOutcome) (n : ℕ) : Option ℤ × (String → Cells) :=
  spiFlashFontLibUpdate norDevTable contents argc argv1 (c.calls n)

/-- **What an update is to do**: to return, and with a result that is not
negative only if the file is in the partition. -/
structure UpdateSound (contents : String → Cells) (argc : ℤ) (argv1 : Option String)
    (c : UpdateRun NorOutcome) : Prop where
  returns : ∃ n, (c.after contents argc argv1 n).1 ≠ none
  holds : ∀ n ret, (c.after contents argc argv1 n).1 = some ret → 0 ≤ ret →
    ∃ name part, argv1 = some name ∧ falPartitionFind name = some part ∧
      HoldsFile part c.file ((c.after contents argc argv1 n).2 part.flashName)

/-- The update is stopped before it copies, or its reads come to an end and
read the file through. -/
def UpdateReads (argc : ℤ) (argv1 : Option String) (c : UpdateRun NorOutcome) : Prop :=
  argc = 3 → c.opens = true →
    ∀ name part, argv1 = some name → falPartitionFind name = some part → c.erase = .done →
      (∀ k, bufSize * k < part.len → c.verify (bufSize * k) = .done) →
        (∃ n, ReadsEnd c.file part.len ((List.range n).map c.copies) 0) ∧
          ∀ n, ReadsThrough c.file part.len ((List.range n).map c.copies) 0

section

variable {contents : String → Cells} {argc : ℤ} {argv1 : Option String} {name : String}
variable {c : UpdateRun NorOutcome}

/-- What the function returns before it has found the partition. -/
theorem updateSound_of_neg {e : ℤ} (hneg : e < 0)
    (h : ∀ n, (c.after contents argc argv1 n).1 = some e) :
    UpdateSound contents argc argv1 c := by
  refine ⟨⟨0, ?_⟩, fun n ret hret hnonneg => ?_⟩
  · rw [h 0]
    exact Option.some_ne_none e
  · rw [h n] at hret
    cases hret
    omega

/-- Once the file is open and the partition found, the update is the one of
the partition. -/
theorem after_of_found (hopen : c.opens = true) (hfind : falPartitionFind name = some part)
    (n : ℕ) :
    c.after contents 3 (some name) n =
      ((updatePartition norDevTable part (contents part.flashName) (c.calls n)).1,
        Function.update contents part.flashName
          (updatePartition norDevTable part (contents part.flashName) (c.calls n)).2) := by
  have hcalls : (c.calls n).opens = true := hopen
  unfold UpdateRun.after spiFlashFontLibUpdate
  rw [if_neg (by decide), if_neg (by rw [hcalls]; decide)]
  simp only [hfind]

/-- **What is asked of it then** is asked of the reads. -/
theorem updateSound_iff_of_found (hopen : c.opens = true)
    (hfind : falPartitionFind name = some part) :
    UpdateSound contents 3 (some name) c ↔
      (c.erase = .done → (∀ k, bufSize * k < part.len → c.verify (bufSize * k) = .done) →
        (∃ n, ReadsEnd c.file part.len ((List.range n).map c.copies) 0) ∧
          ∀ n, ReadsThrough c.file part.len ((List.range n).map c.copies) 0) := by
  have hpart := mem_of_falPartitionFind hfind
  have hreturns : ∀ n, (c.after contents 3 (some name) n).1 ≠ none ↔
      (Erases part (c.calls n) → ReadsEnd c.file part.len ((List.range n).map c.copies) 0) := by
    intro n
    rw [after_of_found hopen hfind]
    exact updatePartition_returns_iff hpart _ (c.calls n)
  have hholds : ∀ n, (∀ ret, (c.after contents 3 (some name) n).1 = some ret → 0 ≤ ret →
      ∃ name' part', some name = some name' ∧ falPartitionFind name' = some part' ∧
        HoldsFile part' c.file ((c.after contents 3 (some name) n).2 part'.flashName)) ↔
      (Erases part (c.calls n) →
        ReadsThrough c.file part.len ((List.range n).map c.copies) 0) := by
    intro n
    refine Iff.trans ?_ (updatePartition_sound_iff hpart (contents part.flashName) (c.calls n))
    rw [after_of_found hopen hfind]
    constructor
    · intro h ret hret hnonneg
      obtain ⟨name', part', hname, hpart', hfile⟩ := h ret hret hnonneg
      cases hname
      rw [hfind] at hpart'
      cases hpart'
      simp only [Function.update_self] at hfile
      exact hfile
    · intro h ret hret hnonneg
      refine ⟨name, part, rfl, hfind, ?_⟩
      simp only [Function.update_self]
      exact h ret hret hnonneg
  -- the erase and its check come before the first read
  have herases : ∀ n, Erases part (c.calls n) ↔
      c.erase = .done ∧ ∀ k, bufSize * k < part.len → c.verify (bufSize * k) = .done :=
    fun _ => Iff.rfl
  constructor
  · rintro ⟨⟨n, hn⟩, hall⟩ herase hverify
    exact ⟨⟨n, (hreturns n).1 hn ⟨herase, hverify⟩⟩,
      fun m => (hholds m).1 (hall m) ⟨herase, hverify⟩⟩
  · intro h
    by_cases hboth :
        c.erase = .done ∧ ∀ k, bufSize * k < part.len → c.verify (bufSize * k) = .done
    · obtain ⟨⟨n, hn⟩, hall⟩ := h hboth.1 hboth.2
      exact ⟨⟨n, (hreturns n).2 fun _ => hn⟩, fun m => (hholds m).2 fun _ => hall m⟩
    · exact ⟨⟨0, (hreturns 0).2 fun h => absurd ((herases 0).1 h) hboth⟩,
        fun m => (hholds m).2 fun h => absurd ((herases m).1 h) hboth⟩

end

/-- **An update returns, and reports success only of a font library that is
written, exactly where its reads come to an end** and none of them fails
with something of the file still to copy. -/
theorem spiFlashFontLibUpdate_sound_iff (contents : String → Cells) (argc : ℤ)
    (argv1 : Option String) (c : UpdateRun NorOutcome) :
    UpdateSound contents argc argv1 c ↔ UpdateReads argc argv1 c := by
  unfold UpdateReads
  by_cases hargc : argc = 3
  · subst hargc
    cases hopen : c.opens with
    | false =>
      refine iff_of_true (updateSound_of_neg (e := -1) (by decide) fun n => ?_)
        fun _ h => by cases h
      have hcalls : (c.calls n).opens = false := hopen
      unfold UpdateRun.after spiFlashFontLibUpdate
      rw [if_neg (by decide), if_pos hcalls]
    | true =>
      have hcalls : ∀ n, (c.calls n).opens = true := fun _ => hopen
      cases argv1 with
      | none =>
        refine iff_of_true (updateSound_of_neg (e := -2) (by decide) fun n => ?_)
          fun _ _ _ _ h => by cases h
        unfold UpdateRun.after spiFlashFontLibUpdate
        rw [if_neg (by decide), if_neg (by rw [hcalls]; decide)]
      | some name =>
        cases hfind : falPartitionFind name with
        | none =>
          refine iff_of_true (updateSound_of_neg (e := -3) (by decide) fun n => ?_)
            fun _ _ name' part hname hpart => ?_
          · unfold UpdateRun.after spiFlashFontLibUpdate
            rw [if_neg (by decide), if_neg (by rw [hcalls]; decide)]
            simp only [hfind]
          · cases hname
            rw [hfind] at hpart
            cases hpart
        | some part =>
          rw [updateSound_iff_of_found hopen hfind]
          constructor
          · intro h _ _ name' part' hname hpart
            cases hname
            rw [hfind] at hpart
            cases hpart
            exact h
          · intro h
            exact h rfl rfl name part rfl hfind
  · refine iff_of_true (updateSound_of_neg (e := -1) (by decide) fun n => ?_)
      fun h => absurd h hargc
    unfold UpdateRun.after spiFlashFontLibUpdate
    rw [if_pos hargc]

/-- A file of one byte, on devices that do all they are asked. -/
def oneByteUpdate (got : Option ℕ) : UpdateRun NorOutcome :=
  ⟨[0xB0], by decide, true, .done, fun _ => .done, fun _ => (got, .done)⟩

/-- **A read error at the start leaves the partition erased**, and the
update reports success; reads that deliver nothing never bring it to an
end. -/
theorem spiFlashFontLibUpdate_not_sound :
    ¬ UpdateSound (fun _ _ => 0) 3 (some "font") (oneByteUpdate none) ∧
      ¬ UpdateSound (fun _ _ => 0) 3 (some "font") (oneByteUpdate (some 0)) := by
  constructor
  · intro h
    rw [updateSound_iff_of_found rfl falPartitionFind_font] at h
    have hrest := (h rfl fun _ _ => rfl).2 1 0 (Nat.le_refl _) (by decide)
    exact absurd hrest (by decide)
  · intro h
    rw [updateSound_iff_of_found rfl falPartitionFind_font] at h
    obtain ⟨n, hn⟩ := (h rfl fun _ _ => rfl).1
    have hreads : (List.range n).map (oneByteUpdate (some 0)).copies =
        List.replicate n (some 0, .done) := by
      rw [List.eq_replicate_iff]
      simp [oneByteUpdate]
    rw [hreads] at hn
    exact not_readsEnd_of_empty (by decide) n hn

end Flash

end RtSpark
