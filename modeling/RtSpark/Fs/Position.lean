import RtSpark.Fs.Model.LvPortFs
import RtSpark.Common.Run
import Mathlib.Tactic.NormNum
/-!
# The position of an open file

What a file with one position owes its user, and where the port pays it.
Reads and writes do at every call. `fs_tell` asks for the position by moving
to the start, and `fs_seek` reports success whatever became of the move and
drops the offset from the end, so both do exactly on the calls `Straight`
describes.
-/

namespace RtSpark

namespace Fs

variable {seekable : List UInt8 → ℕ → Bool} {f : OpenFile}

/-! ## The plain file -/

/-- Where a seek is to take the file; positions are words of thirty-two
bits. -/
def target (f : OpenFile) (pos : UInt32) (whence : ℕ) : ℕ :=
  if whence = 0 then pos.toNat % 2 ^ 32
  else if whence = 1 then (f.pos + pos.toNat) % 2 ^ 32
  else (f.content.length + pos.toNat) % 2 ^ 32

/-- What a read owes: all the file system carries out of the bytes at the
position, and the file past them. Where it fails, to say so and to leave the
file. -/
def PaysRead (f : OpenFile) (btr : ℕ) (got : Option ℕ)
    (r : OpenFile × LvFsRes × List UInt8) : Prop :=
  match got with
  | some got =>
    r.2.1 = .ok ∧ r.2.2 = (f.content.drop f.pos).take (min got btr) ∧
      r.1 = { f with pos := f.pos + r.2.2.length }
  | none => r.2.1 ≠ .ok ∧ r.1 = f

/-- What a write owes, likewise: the bytes of its buffer that are carried
out, at the position. -/
def PaysWrite (f : OpenFile) (buf : List UInt8) (got : Option ℕ)
    (r : OpenFile × LvFsRes × ℕ) : Prop :=
  match got with
  | some got =>
    r.2.1 = .ok ∧ r.2.2 = min got buf.length ∧
      r.1 = ⟨overwrite f.content f.pos (buf.take r.2.2), f.pos + r.2.2⟩
  | none => r.2.1 ≠ .ok ∧ r.1 = f

/-- What a call owes. A seek arrives, or says that it failed and stays; to
tell the position is to leave it. -/
def Pays (seekable : List UInt8 → ℕ → Bool) (f : OpenFile) : FsCall → Prop
  | .read btr got => PaysRead f btr got (fsRead f btr got)
  | .write buf got => PaysWrite f buf got (fsWrite f buf got)
  | .seek pos whence =>
    if (lvFsSeek seekable (some fsDrv) f pos whence).2 = .ok then
      (lvFsSeek seekable (some fsDrv) f pos whence).1 = { f with pos := target f pos whence }
    else (lvFsSeek seekable (some fsDrv) f pos whence).1 = f
  | .tell => lvFsTell seekable (some fsDrv) f = (f, .ok, f.pos)

/-! ## The calls -/

/-- The file system takes the position, and `off_t` can say it. -/
def Takes (seekable : List UInt8 → ℕ → Bool) (f : OpenFile) (pos : ℕ) : Prop :=
  pos < 2 ^ 31 ∧ seekable f.content pos = true

instance (f : OpenFile) (pos : ℕ) : Decidable (Takes seekable f pos) :=
  inferInstanceAs (Decidable (_ ∧ _))

/-- A position an `lseek` is sent to. -/
def destination (f : OpenFile) (offset whence : ℕ) : ℕ :=
  if whence = seekSet then offset % 2 ^ 32
  else if whence = seekCur then (offset + f.pos) % 2 ^ 32
  else (offset + f.content.length) % 2 ^ 32

/-- **`lseek` moves or fails.** -/
theorem lseek_eq (f : OpenFile) (offset whence : ℕ) :
    lseek seekable f offset whence =
      if Takes seekable f (destination f offset whence) then
        ({ f with pos := destination f offset whence }, (destination f offset whence : ℤ))
      else (f, -1) := by
  unfold lseek
  rw [← destination]
  simp only
  by_cases hneg : 2 ^ 31 ≤ destination f offset whence
  · have hno : ¬ Takes seekable f (destination f offset whence) := fun h => absurd h.1 (by omega)
    rw [if_pos hneg, if_neg hno]
  · rw [if_neg hneg]
    by_cases hseek : seekable f.content (destination f offset whence) = true
    · have hyes : Takes seekable f (destination f offset whence) := ⟨not_le.1 hneg, hseek⟩
      rw [if_pos hseek, if_pos hyes]
    · have hno : ¬ Takes seekable f (destination f offset whence) := fun h => hseek h.2
      rw [if_neg hseek, if_neg hno]

theorem paysRead (f : OpenFile) (btr : ℕ) (got : Option ℕ) :
    PaysRead f btr got (fsRead f btr got) := by
  cases got with
  | none => exact ⟨by simp [fsRead, read], rfl⟩
  | some got => exact ⟨rfl, rfl, rfl⟩

theorem paysWrite (f : OpenFile) (buf : List UInt8) (got : Option ℕ) :
    PaysWrite f buf got (fsWrite f buf got) := by
  cases got with
  | none => exact ⟨by simp [fsWrite, write], rfl⟩
  | some got =>
    -- the length that is reported is the length of what was taken
    have htake : buf.take (buf.take got).length = buf.take got := by
      rw [List.length_take, ← List.take_eq_take_min]
    refine ⟨rfl, List.length_take, ?_⟩
    simp only [fsWrite, write, htake]

/-- A seek from the start or from the position is handed its offset, one
from the end is not. -/
theorem lvFsSeek_eq (f : OpenFile) (pos : UInt32) {whence : ℕ} (hwhence : whence ≤ 2) :
    lvFsSeek seekable (some fsDrv) f pos whence =
      ((lseek seekable f (if whence = 2 then 0 else pos.toNat) whence).1, .ok) := by
  have hcases : whence = 0 ∨ whence = 1 ∨ whence = 2 := by omega
  rcases hcases with rfl | rfl | rfl
  · rfl
  · rfl
  · rfl

/-- Anywhere but from the end the seek is sent to its target. -/
theorem destination_eq_target (f : OpenFile) (pos : UInt32) {whence : ℕ} (hwhence : whence < 2) :
    destination f pos.toNat whence = target f pos whence := by
  have hcases : whence = 0 ∨ whence = 1 := by omega
  rcases hcases with rfl | rfl
  · rfl
  · exact congrArg (· % 2 ^ 32) (Nat.add_comm _ _)

/-- From the end it is sent to the end, which is the target when it was
given no offset. -/
theorem destination_end (f : OpenFile) : destination f 0 2 = f.content.length % 2 ^ 32 :=
  congrArg (· % 2 ^ 32) (Nat.zero_add _)

theorem end_eq_target_iff (f : OpenFile) (pos : UInt32) :
    destination f 0 2 = target f pos 2 ↔ pos = 0 := by
  have hpos : pos.toNat < 2 ^ 32 := pos.toNat_lt
  have hzero : pos = 0 ↔ pos.toNat = 0 := by rw [← UInt32.toNat_inj]; rfl
  have htarget : target f pos 2 = (f.content.length + pos.toNat) % 2 ^ 32 := rfl
  rw [destination_end, htarget, hzero]
  omega

/-! ## When they pay -/

/-- The calls on which the port pays. A seek that is not from the end must
be taken, or lead nowhere new; one from the end must be given no offset, or
not be taken with the file already where it leads; and the position is told
only at the start. -/
def Straight (seekable : List UInt8 → ℕ → Bool) (f : OpenFile) : FsCall → Prop
  | .read _ _ => True
  | .write _ _ => True
  | .seek pos whence =>
    if whence < 2 then Takes seekable f (target f pos whence) ∨ f.pos = target f pos whence
    else if whence = 2 then
      if Takes seekable f (f.content.length % 2 ^ 32) then pos = 0 else f.pos = target f pos 2
    else True
  | .tell => Takes seekable f 0 ∧ f.pos = 0

/-- Arriving is all that counts of a seek that reports success. -/
theorem moved_iff (f : OpenFile) (d t : ℕ) :
    (if Takes seekable f d then ({ f with pos := d }, (d : ℤ)) else (f, -1)).1 =
      { f with pos := t } ↔ if Takes seekable f d then d = t else f.pos = t := by
  split
  · simp
  · obtain ⟨content, pos⟩ := f
    simp

theorem pays_seek_iff (f : OpenFile) (pos : UInt32) (whence : ℕ) :
    Pays seekable f (.seek pos whence) ↔ Straight seekable f (.seek pos whence) := by
  simp only [Pays, Straight]
  by_cases hle : whence ≤ 2
  · rw [lvFsSeek_eq f pos hle]
    simp only [if_true, lseek_eq, moved_iff]
    by_cases hlt : whence < 2
    · rw [if_pos hlt, if_neg (show whence ≠ 2 by omega), destination_eq_target f pos hlt]
      split
      · rename_i htakes
        exact iff_of_true rfl (Or.inl htakes)
      · rename_i htakes
        exact ⟨Or.inr, fun h => h.resolve_left htakes⟩
    · -- from the end the offset is dropped
      obtain rfl : whence = 2 := by omega
      rw [if_neg hlt, if_pos rfl, if_pos rfl, end_eq_target_iff, destination_end]
  · have hunknown : lvFsSeek seekable (some fsDrv) f pos whence = (f, .unknown) := by
      simp only [lvFsSeek, fsDrv, fsSeek, if_true]
      rw [if_neg (by omega), if_neg (by omega), if_neg (by omega)]
    rw [hunknown, if_neg (show ¬ whence < 2 by omega), if_neg (show whence ≠ 2 by omega)]
    simp

theorem pays_tell_iff (f : OpenFile) :
    Pays seekable f .tell ↔ Straight seekable f .tell := by
  have hzero : destination f 0 seekSet = 0 := rfl
  have htell : lvFsTell seekable (some fsDrv) f = fsTell seekable f := rfl
  simp only [Pays, Straight, htell, fsTell, lseek_eq, hzero]
  obtain ⟨content, pos⟩ := f
  by_cases htakes : Takes seekable ⟨content, pos⟩ 0
  · rw [if_pos htakes]
    simp [htakes, eq_comm]
  · rw [if_neg htakes]
    simp [htakes]

/-- **The port is a file with one position exactly on straight calls.** Over
every history of reads, writes, seeks and tells on an open file, whatever
the file system takes and carries out, each call pays what it owes if and
only if each is straight. -/
theorem port_pays_iff (seekable : List UInt8 → ℕ → Bool) (f : OpenFile) (calls : List FsCall) :
    Run.AlongRun (fsStep seekable) (fun f call _ => Pays seekable f call) f calls ↔
      Run.AlongRun (fsStep seekable) (fun f call _ => Straight seekable f call) f calls := by
  refine Run.alongRun_iff (I := fun _ => True) (Q := fun _ _ _ => True) ?_ (fun _ _ _ _ => trivial)
    trivial (Run.alongRun_of_forall fun _ _ => trivial)
  rintro f call - -
  cases call with
  | read btr got => exact iff_of_true (paysRead f btr got) trivial
  | write buf got => exact iff_of_true (paysWrite f buf got) trivial
  | seek pos whence => exact pays_seek_iff f pos whence
  | tell => exact pays_tell_iff f

/-- **Telling the position loses it.** -/
theorem port_not_pays :
    ¬ ∀ (seekable : List UInt8 → ℕ → Bool) (f : OpenFile) (calls : List FsCall),
      Run.AlongRun (fsStep seekable) (fun f call _ => Pays seekable f call) f calls := by
  intro h
  have hrun := h (fun _ _ => true) ⟨[1, 2], 0⟩ [.read 1 (some 1), .tell]
  have hpos : ((⟨[1, 2], 0⟩, .ok, 0) : OpenFile × LvFsRes × ℕ) = (⟨[1, 2], 1⟩, .ok, 1) := hrun.2.1
  exact absurd (congrArg (fun r => r.2.2) hpos) (by decide)

end Fs

end RtSpark
