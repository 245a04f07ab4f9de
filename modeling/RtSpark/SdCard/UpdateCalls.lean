import RtSpark.SdCard.FontUpdate
import RtSpark.Flash.FontLib
/-!
# The font update and its calls

The update that writes cells and the update that keeps descriptors are
one function. `updateCalls` is what the calls of the first come to, and
what the first returns the second returns on them
(`spiFlashFontLibUpdate_returns`).
-/

namespace RtSpark

namespace SdCard

open Reader (fdAlloc)
open Flash Nor

section

variable {ω : Type} (devTable : List (String × FalFlashDev ω))

/-- The state of the copy loop after a read and its write. -/
def copyNext (part : FalPartition) (file : List UInt8) (s : CopyState) (count : ℕ) (o : ω) :
    CopyState :=
  let data := (file.drop s.pos).take (min count bufSize)
  let buf : Mem := fun i => if i < data.length then data.getD i 0 else s.buf i
  let r := falPartitionWrite devTable part s.cells o s.total buf data.length
  { total := (s.total + data.length) % 2 ^ 32
    pos := s.pos + data.length
    ret := r.1
    buf := buf
    cells := r.2 }

/-- What the read number `k` delivers, and the write after it returns. -/
def copyCalls (part : FalPartition) (file : List UInt8) :
    List (Option ℕ × ω) → CopyState → ℕ → Option ℕ × ℤ
  | (some count, o) :: _, s, 0 =>
    (some ((file.drop s.pos).take (min count bufSize)).length,
      (copyNext devTable part file s count o).ret)
  | (some count, o) :: copies, s, k + 1 =>
    copyCalls part file copies (copyNext devTable part file s count o) k
  | _, _, _ => (none, 0)

/-- The read of the erased partition at an index. -/
def verifyCall (part : FalPartition) (cells : Cells) (o : ℕ → ω) (i : ℕ) : ℤ × Bool :=
  let r := falPartitionRead devTable part cells (o i) i Mem.zeros (chunkLen part i)
  (r.1, decide (∀ j ∈ List.range (chunkLen part i), r.2 j = 0xFF))

/-- What the calls of an update on the partition found come to. -/
def partitionCalls (part : FalPartition) (cells : Cells) (argc : ℤ) (c : UpdateCalls ω) :
    FontLibCalls :=
  let r := falPartitionEraseAll devTable part cells c.erase
  let copies := copyCalls devTable part c.file c.copies
    ⟨0, 0, 0, Mem.zeros, r.2⟩
  { argc := argc
    opens := c.opens
    stSize := c.file.length
    name := true
    partition := some part.len
    device := (falFlashDeviceFind devTable part.flashName).isSome
    erase := r.1
    verify := verifyCall devTable part r.2 c.verify
    reads := fun k => (copies k).1
    writes := fun k => (copies k).2 }

/-- What the calls of an update come to. -/
def updateCalls (contents : String → Cells) (argc : ℤ) (argv1 : Option String)
    (c : UpdateCalls ω) : FontLibCalls :=
  match argv1.bind falPartitionFind with
  | some part => partitionCalls devTable part (contents part.flashName) argc c
  | none =>
    { argc := argc
      opens := c.opens
      stSize := c.file.length
      name := argv1.isSome
      partition := none
      device := false
      erase := 0
      verify := fun _ => (0, false)
      reads := fun _ => none
      writes := fun _ => 0 }

end

variable {ω : Type} {devTable : List (String × FalFlashDev ω)} {part : FalPartition}
variable {file : List UInt8} {c : FontLibCalls} {u : CmdState} {ret : ℤ} {fds : Finset ℕ}

/-- The `ret` before a read is not what the calls come to. -/
theorem copyCalls_ret (copies : List (Option ℕ × ω)) (s : CopyState) (ret : ℤ) (k : ℕ) :
    copyCalls devTable part file copies { s with ret := ret } k =
      copyCalls devTable part file copies s k := by
  rcases copies with _ | ⟨⟨_ | count, o⟩, copies⟩
  · rfl
  · rfl
  · cases k <;> rfl

/-- A pass of the copy loop whose read goes through. -/
theorem copyLoop_some {count : ℕ} {o : ω} (copies : List (Option ℕ × ω)) {s : CopyState}
    (hguard : s.total < file.length % 2 ^ 32 ∧ s.total < part.len) :
    copyLoop devTable part file ((some count, o) :: copies) s =
      if (copyNext devTable part file s count o).ret < 0 then
        (some (-8), (copyNext devTable part file s count o).cells)
      else copyLoop devTable part file copies (copyNext devTable part file s count o) := by
  rw [copyLoop, if_pos hguard]
  rfl

/-- A return. -/
theorem exits_of_pass {t : CmdState} {fd : ℕ} (h : fontLibPass c fd u = some (t.leave ret)) :
    ∃ s, Loop.Exits (fontLibPass c fd) u s ∧ s.returned = some ret :=
  ⟨_, ⟨Relation.ReflTransGen.single h, fontLibPass_returned (leave_returned_ne t ret)⟩, rfl⟩

theorem copyLoop_stop_returns (fd : ℕ) (hpart : c.partition = some part.len)
    (hsize : c.stSize = file.length) (copies : List (Option ℕ × ω)) {s : CopyState}
    (hgoes : u.returned = none) (htotal : u.total = s.total) (hret : u.ret = s.ret)
    (hguard : ¬ (s.total < file.length % 2 ^ 32 ∧ s.total < part.len))
    (h : (copyLoop devTable part file copies s).1 = some ret) :
    ∃ t, Loop.Exits (fontLibPass c fd) u t ∧ t.returned = some ret := by
  rw [copyLoop_stop copies hguard] at h
  rw [← htotal, ← hsize] at hguard
  have hpass := fontLibPass_of_done fd hpart hgoes hguard
  rw [hret, Option.some.inj h] at hpass
  exact exits_of_pass hpass

/-- **The copy loops return the same.** -/
theorem copyLoop_returns (fd : ℕ) (hpart : c.partition = some part.len)
    (hsize : c.stSize = file.length) (copies : List (Option ℕ × ω)) {s : CopyState}
    (hgoes : u.returned = none) (htotal : u.total = s.total) (hret : u.ret = s.ret)
    (hcalls : ∀ k, (c.reads (u.reads + k), c.writes (u.reads + k)) =
      copyCalls devTable part file copies s k)
    (h : (copyLoop devTable part file copies s).1 = some ret) :
    ∃ t, Loop.Exits (fontLibPass c fd) u t ∧ t.returned = some ret := by
  induction copies generalizing s u with
  | nil =>
    refine copyLoop_stop_returns fd hpart hsize [] hgoes htotal hret (fun hguard => ?_) h
    -- the update still waits for the file
    rw [copyLoop, if_pos hguard] at h
    cases h
  | cons call copies ih =>
    rcases Decidable.em (s.total < file.length % 2 ^ 32 ∧ s.total < part.len) with hguard | hguard
    · have hguard' : u.total < c.stSize % 2 ^ 32 ∧ u.total < part.len := by
        rw [htotal, hsize]
        exact hguard
      obtain ⟨_ | count, o⟩ := call
      · rw [copyLoop, if_pos hguard] at h
        have hread : c.reads u.reads = none := congrArg Prod.fst (hcalls 0)
        have hpass := fontLibPass_of_none fd hpart hgoes hguard' hread
        rw [hret, Option.some.inj h] at hpass
        exact exits_of_pass hpass
      · rw [copyLoop_some copies hguard] at h
        have hread : c.reads u.reads =
            some ((file.drop s.pos).take (min count bufSize)).length :=
          congrArg Prod.fst (hcalls 0)
        have hwrite : c.writes u.reads = (copyNext devTable part file s count o).ret :=
          congrArg Prod.snd (hcalls 0)
        split_ifs at h with hneg
        · have hpass := fontLibPass_of_failed fd hpart hgoes hguard' hread (hwrite ▸ hneg)
          rw [← Option.some.inj h]
          exact exits_of_pass hpass
        · have hpass := fontLibPass_of_written fd hpart hgoes hguard' hread
            (hwrite ▸ Int.not_lt.1 hneg)
          have hcount : min ((file.drop s.pos).take (min count bufSize)).length bufSize =
              ((file.drop s.pos).take (min count bufSize)).length := by
            rw [List.length_take]
            omega
          have htotal' : (wrote c ((file.drop s.pos).take (min count bufSize)).length u).total =
              (copyNext devTable part file s count o).total := by
            simp only [wrote, copyNext, hcount, htotal]
          -- the calls from here on are those from the next state on
          have hcalls' : ∀ k, (c.reads (u.reads + 1 + k), c.writes (u.reads + 1 + k)) =
              copyCalls devTable part file copies (copyNext devTable part file s count o) k := by
            intro k
            rw [Nat.add_assoc, Nat.add_comm 1 k]
            exact hcalls (k + 1)
          obtain ⟨t, ht, hreturned⟩ := ih (u := wrote c _ u) hgoes htotal' hwrite hcalls' h
          exact ⟨t, ⟨ht.1.head hpass, ht.2⟩, hreturned⟩
    · exact copyLoop_stop_returns fd hpart hsize _ hgoes htotal hret hguard h

/-- **The checks of the erase return the same.** -/
theorem eraseCheck_returns (devTable : List (String × FalFlashDev ω)) (part : FalPartition)
    (cells : Cells) (o : ℕ → ω) (i : ℕ) (u : CmdState) (hgoes : u.returned = none) :
    match eraseCheck devTable part cells o i u.ret with
    | .error e => (verifyLoop (verifyCall devTable part cells o) part.len i u).returned = some e
    | .ok ret => (verifyLoop (verifyCall devTable part cells o) part.len i u).returned = none ∧
        (verifyLoop (verifyCall devTable part cells o) part.len i u).ret = ret := by
  fun_induction verifyLoop (verifyCall devTable part cells o) part.len i u with
  | case1 i u hi n v hneg =>
    rw [eraseCheck, if_pos hi]
    simp only [if_pos (show (falPartitionRead _ _ _ _ _ _ _).1 < 0 from hneg)]
    rfl
  | case2 i u hi n v hneg hbad =>
    have hfound : ∃ j ∈ List.range (chunkLen part i),
        (falPartitionRead devTable part cells (o i) i Mem.zeros (chunkLen part i)).2 j ≠ 0xFF := by
      simpa [verifyCall] using hbad
    rw [eraseCheck, if_pos hi]
    simp only [if_neg (show ¬ (falPartitionRead _ _ _ _ _ _ _).1 < 0 from hneg), if_pos hfound]
    rfl
  | case3 i u hi n v hneg hbad ih =>
    have hnone : ¬ ∃ j ∈ List.range (chunkLen part i),
        (falPartitionRead devTable part cells (o i) i Mem.zeros (chunkLen part i)).2 j ≠ 0xFF := by
      simpa [verifyCall] using hbad
    rw [eraseCheck, if_pos hi]
    simp only [if_neg (show ¬ (falPartitionRead _ _ _ _ _ _ _).1 < 0 from hneg), if_neg hnone]
    exact ih hgoes
  | case4 i u hi =>
    rw [eraseCheck, if_neg hi]
    exact ⟨hgoes, rfl⟩

theorem exits_of_returned {fd : ℕ} (h : u.returned = some ret) :
    ∃ s, Loop.Exits (fontLibPass c fd) u s ∧ s.returned = some ret := by
  have hne : u.returned ≠ none := by
    rw [h]
    exact Option.some_ne_none ret
  exact ⟨u, ⟨Relation.ReflTransGen.refl, fontLibPass_returned hne⟩, h⟩

/-- An update on the partition found. -/
theorem updatePartition_returns (cells : Cells) (argc : ℤ) (calls : UpdateCalls ω)
    (h : (updatePartition devTable part cells calls).1 = some ret) :
    ∃ s, Loop.Exits (fontLibPass (partitionCalls devTable part cells argc calls) (fdAlloc fds))
        (fontLibFound (partitionCalls devTable part cells argc calls) part.len
          (CmdState.start fds).opened) s ∧ s.returned = some ret := by
  have hdevice : (partitionCalls devTable part cells argc calls).device =
      (falFlashDeviceFind devTable part.flashName).isSome := rfl
  have herase : (partitionCalls devTable part cells argc calls).erase =
      (falPartitionEraseAll devTable part cells calls.erase).1 := rfl
  have hverify : (partitionCalls devTable part cells argc calls).verify = verifyCall devTable part
      (falPartitionEraseAll devTable part cells calls.erase).2 calls.verify := rfl
  have hpart : (partitionCalls devTable part cells argc calls).partition = some part.len := rfl
  have hsize : (partitionCalls devTable part cells argc calls).stSize = calls.file.length := rfl
  have hcalls : ∀ k, ((partitionCalls devTable part cells argc calls).reads k,
      (partitionCalls devTable part cells argc calls).writes k) =
        copyCalls devTable part calls.file calls.copies ⟨0, 0, 0, Mem.zeros,
          (falPartitionEraseAll devTable part cells calls.erase).2⟩ k := fun _ => rfl
  unfold updatePartition at h
  unfold fontLibFound
  generalize partitionCalls devTable part cells argc calls = c at *
  generalize falPartitionEraseAll devTable part cells calls.erase = r at *
  rw [hdevice, herase, hverify]
  cases hfind : falFlashDeviceFind devTable part.flashName with
  | none =>
    rw [hfind] at h
    rw [if_pos Option.isSome_none, ← Option.some.inj h]
    exact exits_of_returned rfl
  | some dev =>
    rw [hfind] at h
    rw [if_neg Bool.noConfusion]
    simp only at h
    by_cases hneg : r.1 < 0
    · rw [if_pos hneg] at h
      rw [if_pos hneg, ← Option.some.inj h]
      exact exits_of_returned rfl
    rw [if_neg hneg] at h
    rw [if_neg hneg]
    have hchecks := eraseCheck_returns devTable part r.2 calls.verify 0
      { (CmdState.start fds).opened.store 0 bufSize with ret := r.1 } rfl
    obtain ⟨-, hreads, htotal⟩ := verifyLoop_frame (verifyCall devTable part r.2 calls.verify)
      part.len 0 { (CmdState.start fds).opened.store 0 bufSize with ret := r.1 }
    generalize verifyLoop (verifyCall devTable part r.2 calls.verify) part.len 0
      { (CmdState.start fds).opened.store 0 bufSize with ret := r.1 } = u at *
    show ∃ s, Loop.Exits _ (if u.returned.isSome then u else u.store 0 bufSize) s ∧ _
    cases hcheck : eraseCheck devTable part r.2 calls.verify 0 r.1 with
    | error e =>
      simp only [hcheck] at h hchecks
      rw [if_pos (by rw [hchecks]; rfl), ← Option.some.inj h]
      exact exits_of_returned hchecks
    | ok ret₁ =>
      simp only [hcheck] at h hchecks
      rw [if_neg (by rw [hchecks.1]; decide)]
      have hreads' : (u.store 0 bufSize).reads = 0 := hreads
      have htotal' : (u.store 0 bufSize).total = 0 := htotal
      refine copyLoop_returns (fdAlloc fds) hpart hsize calls.copies
        (s := ⟨0, 0, ret₁, Mem.zeros, r.2⟩) hchecks.1 htotal' hchecks.2 (fun k => ?_) h
      rw [hreads', Nat.zero_add, hcalls]
      exact (copyCalls_ret calls.copies _ ret₁ k).symm

/-- **The update returns what its calls make it return.** -/
theorem spiFlashFontLibUpdate_returns (contents : String → Cells) (argc : ℤ)
    (argv1 : Option String) (calls : UpdateCalls ω) (fds : Finset ℕ)
    (h : (spiFlashFontLibUpdate devTable contents argc argv1 calls).1 = some ret) :
    ∃ s, Loop.Exits (fontLibPass (updateCalls devTable contents argc argv1 calls) (fdAlloc fds))
        (fontLibStart (updateCalls devTable contents argc argv1 calls) fds) s ∧
      s.returned = some ret := by
  unfold spiFlashFontLibUpdate at h
  have hargc : (updateCalls devTable contents argc argv1 calls).argc = argc := by
    unfold updateCalls
    split <;> rfl
  have hopens : (updateCalls devTable contents argc argv1 calls).opens = calls.opens := by
    unfold updateCalls
    split <;> rfl
  unfold fontLibStart
  rw [hargc, hopens]
  by_cases hargs : argc ≠ 3
  · rw [if_pos hargs] at h ⊢
    rw [← Option.some.inj h]
    exact exits_of_returned rfl
  rw [if_neg hargs] at h ⊢
  by_cases hfails : calls.opens = false
  · rw [if_pos hfails] at h ⊢
    rw [← Option.some.inj h]
    exact exits_of_returned rfl
  rw [if_neg hfails] at h ⊢
  cases argv1 with
  | none =>
    rw [← Option.some.inj h]
    exact exits_of_returned rfl
  | some name =>
    simp only at h
    cases hfind : falPartitionFind name with
    | none =>
      rw [hfind] at h
      have hname : (updateCalls devTable contents argc (some name) calls).name = true := by
        rw [updateCalls, Option.bind_some, hfind]
        rfl
      have hpart : (updateCalls devTable contents argc (some name) calls).partition = none := by
        rw [updateCalls, Option.bind_some, hfind]
      rw [hname, if_neg Bool.noConfusion, hpart, ← Option.some.inj h]
      exact exits_of_returned rfl
    | some part =>
      rw [hfind] at h
      have hcalls : updateCalls devTable contents argc (some name) calls =
          partitionCalls devTable part (contents part.flashName) argc calls := by
        rw [updateCalls, Option.bind_some, hfind]
      rw [hcalls]
      exact updatePartition_returns _ argc calls h

end SdCard

end RtSpark
