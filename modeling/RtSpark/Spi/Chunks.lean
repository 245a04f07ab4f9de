import RtSpark.Spi.Model.DrvSpi
import RtSpark.Common.Tiling
import Mathlib.Data.List.Range
import Mathlib.Tactic.Linarith
/-!
# The chunks of a message

The offset of a chunk is worked out from `message->length`, and a chunk
that fails sets that to zero while the loop goes on. In closed form the
chunk `j` starts at its place, `65535 * j`, as long as no chunk before it
failed, and otherwise as far before the buffer as bytes are left
(`chunkOffset`). So the message is covered exactly when at most its last
chunk fails.
-/

namespace RtSpark

namespace Spi

open Word Tiling

variable {ok : ℕ → Bool} {msg : SpiMessage} {s s' : XferState}

/-! ## The chunks in closed form -/

/-- How many chunks a message has. -/
def chunks (length : ℕ) : ℕ := (length + 65534) / 65535

/-- The bytes left when `j` chunks were started. -/
def bytesLeft (length j : ℕ) : ℕ := length - 65535 * j

def chunkLength (length j : ℕ) : ℕ := min 65535 (bytesLeft length j)

/-- A chunk before the chunk `j` failed. -/
def FailedBefore (ok : ℕ → Bool) (j : ℕ) : Prop := ∃ i, i < j ∧ ok i = false

instance (ok : ℕ → Bool) (j : ℕ) : Decidable (FailedBefore ok j) := by
  unfold FailedBefore
  infer_instance

theorem failedBefore_succ {j : ℕ} :
    FailedBefore ok (j + 1) ↔ FailedBefore ok j ∨ ok j = false := by
  constructor
  · rintro ⟨i, hi, hfail⟩
    rcases Nat.lt_succ_iff_lt_or_eq.1 hi with hlt | rfl
    · exact Or.inl ⟨i, hlt, hfail⟩
    · exact Or.inr hfail
  · rintro (⟨i, hi, hfail⟩ | hfail)
    · exact ⟨i, Nat.lt_succ_of_lt hi, hfail⟩
    · exact ⟨j, Nat.lt_succ_self j, hfail⟩

/-- Where the chunk `j` starts: at its place, or before the buffer. -/
def chunkOffset (ok : ℕ → Bool) (length j : ℕ) : ℕ :=
  if FailedBefore ok j then 2 ^ 32 - bytesLeft length j else 65535 * j

/-- The call of the chunk `j`. -/
def chunkCall (ok : ℕ → Bool) (msg : SpiMessage) (j : ℕ) : SpiCall :=
  startCall msg (chunkOffset ok msg.length j) (chunkLength msg.length j)

/-- The head of the loop after `j` chunks. -/
def xferAt (ok : ℕ → Bool) (msg : SpiMessage) (j : ℕ) : XferState where
  messageLength := bytesLeft msg.length j
  length := if FailedBefore ok j then 0 else msg.length
  calls := (List.range j).map (chunkCall ok msg)

/-- What the source works out of the two lengths is where a chunk starts. -/
theorem chunkOffset_eq {length j : ℕ} (hlength : length < 2 ^ 32)
    (hpos : 0 < bytesLeft length j) :
    sub32 (sub32 (if FailedBefore ok j then 0 else length) (chunkLength length j))
      (bytesLeft length (j + 1)) = chunkOffset ok length j := by
  have hsplit : chunkLength length j + bytesLeft length (j + 1) = bytesLeft length j := by
    unfold chunkLength bytesLeft at *
    omega
  have hpos' : 0 < chunkLength length j := by
    unfold chunkLength
    omega
  have hle : bytesLeft length j ≤ length := Nat.sub_le _ _
  unfold chunkOffset
  split_ifs
  · rw [sub32_of_lt (by omega) hpos', sub32_of_le (by omega) (by omega)]
    omega
  · rw [sub32_of_le hlength (by omega), sub32_of_le (by omega) (by omega)]
    unfold bytesLeft at *
    omega

/-- **A pass starts the next chunk.** -/
theorem spixferPass_xferAt (hlength : msg.length < 2 ^ 32) (j : ℕ) :
    spixferPass ok msg (xferAt ok msg j) =
      if bytesLeft msg.length j = 0 then none else some (xferAt ok msg (j + 1)) := by
  have hcount : (xferAt ok msg j).calls.length = j := by
    rw [xferAt, List.length_map, List.length_range]
  unfold spixferPass
  rw [hcount]
  change (if bytesLeft msg.length j = 0 then _ else _) = _
  rcases Nat.eq_zero_or_pos (bytesLeft msg.length j) with hzero | hpos
  · rw [if_pos hzero, if_pos hzero]
  rw [if_neg hpos.ne', if_neg hpos.ne']
  have hsend : (if 65535 < bytesLeft msg.length j then 65535 else bytesLeft msg.length j) =
      chunkLength msg.length j := by
    unfold chunkLength
    split_ifs <;> omega
  have hrest : (if 65535 < bytesLeft msg.length j then bytesLeft msg.length j - 65535 else 0) =
      bytesLeft msg.length (j + 1) := by
    unfold bytesLeft
    split_ifs <;> omega
  have hfails : (if ok j = true then (if FailedBefore ok j then 0 else msg.length) else 0) =
      if FailedBefore ok (j + 1) then 0 else msg.length := by
    simp only [failedBefore_succ]
    cases ok j <;> simp
  change some (XferState.mk
    (if 65535 < bytesLeft msg.length j then bytesLeft msg.length j - 65535 else 0)
    (if ok j = true then (if FailedBefore ok j then 0 else msg.length) else 0)
    ((List.range j).map (chunkCall ok msg) ++ [startCall msg
      (sub32 (sub32 (if FailedBefore ok j then 0 else msg.length)
          (if 65535 < bytesLeft msg.length j then 65535 else bytesLeft msg.length j))
        (if 65535 < bytesLeft msg.length j then bytesLeft msg.length j - 65535 else 0))
      (if 65535 < bytesLeft msg.length j then 65535 else bytesLeft msg.length j)])) = _
  rw [hsend, hrest, hfails, chunkOffset_eq hlength hpos, xferAt, List.range_succ,
    List.map_append, List.map_singleton, chunkCall]

theorem bytesLeft_eq_zero_iff (length j : ℕ) : bytesLeft length j = 0 ↔ chunks length ≤ j := by
  unfold bytesLeft chunks
  omega

/-- **The loop ends** behind the last chunk. -/
theorem spixfer_exits (ok : ℕ → Bool) (hlength : msg.length < 2 ^ 32) :
    Loop.Exits (spixferPass ok msg) (spixferInit msg) (xferAt ok msg (chunks msg.length)) := by
  constructor
  · have hreach : ∀ j, j ≤ chunks msg.length →
        Loop.Reaches (spixferPass ok msg) (xferAt ok msg 0) (xferAt ok msg j) := by
      intro j
      induction j with
      | zero => exact fun _ => Relation.ReflTransGen.refl
      | succ j ih =>
        intro hj
        refine (ih (by omega)).tail ?_
        rw [spixferPass_xferAt hlength, if_neg (by rw [bytesLeft_eq_zero_iff]; omega)]
    have hinit : spixferInit msg = xferAt ok msg 0 := by
      have hnone : ¬ FailedBefore ok 0 := fun ⟨i, hi, _⟩ => Nat.not_lt_zero i hi
      simp [spixferInit, xferAt, bytesLeft, hnone]
    rw [hinit]
    exact hreach _ (Nat.le_refl _)
  · rw [spixferPass_xferAt hlength, if_pos ((bytesLeft_eq_zero_iff _ _).2 (Nat.le_refl _))]

theorem spixfer_eq (hlength : msg.length < 2 ^ 32) :
    spixfer ok msg = ((xferAt ok msg (chunks msg.length)).length,
      (xferAt ok msg (chunks msg.length)).calls) := by
  have hrun : Loop.Exits (spixferPass ok msg) (spixferInit msg)
      (Loop.run (spixferPass ok msg) (msg.length + 1) (spixferInit msg)) := by
    refine Loop.run_exits (I := fun _ => True) (μ := XferState.messageLength) ?_ trivial
      (Nat.lt_succ_self _)
    intro s s' _ hpass
    refine ⟨trivial, ?_⟩
    unfold spixferPass at hpass
    split at hpass
    · cases hpass
    · rw [← Option.some.inj hpass]
      simp only
      split_ifs <;> omega
  rw [spixfer, hrun.unique (spixfer_exits ok hlength)]

/-! ## What the calls cover -/

/-- The bytes a call sends, by address. -/
def SpiCall.sent : SpiCall → Option (ℕ × ℕ)
  | .transmitReceive sendBuf _ n => some (sendBuf, n)
  | .transmit sendBuf n => some (sendBuf, n)
  | .receive _ _ => none

/-- The bytes a call receives. -/
def SpiCall.received : SpiCall → Option (ℕ × ℕ)
  | .transmitReceive _ recvBuf n => some (recvBuf, n)
  | .transmit _ _ => none
  | .receive recvBuf n => some (recvBuf, n)

def SpiCall.sendLength : SpiCall → ℕ
  | .transmitReceive _ _ n => n
  | .transmit _ n => n
  | .receive _ n => n

theorem startCall_sent (o n : ℕ) : (startCall msg o n).sent =
    if msg.sendBuf = 0 then none else some (u32 (msg.sendBuf + o), n) := by
  unfold startCall
  split_ifs <;> first | rfl | omega

theorem startCall_received (o n : ℕ) : (startCall msg o n).received =
    if msg.sendBuf ≠ 0 ∧ msg.recvBuf = 0 then none else some (u32 (msg.recvBuf + o), n) := by
  unfold startCall
  split_ifs <;> first | rfl | omega

theorem startCall_sendLength (o n : ℕ) : (startCall msg o n).sendLength = n := by
  unfold startCall
  split_ifs <;> rfl

/-- The pieces lie in the buffer and cover it once; where there is no
buffer there are none. -/
def Covers (buf length : ℕ) (pieces : List (ℕ × ℕ)) : Prop :=
  (∀ p ∈ pieces, buf ≤ p.1 ∧ p.1 + p.2 ≤ buf + length) ∧
    if buf = 0 then pieces = [] else Tiles buf (buf + length) pieces

/-- The pieces of a buffer, where the chunks start. -/
def chunkPieces (ok : ℕ → Bool) (length buf : ℕ) : List (ℕ × ℕ) :=
  (List.range (chunks length)).map fun j =>
    (u32 (buf + chunkOffset ok length j), chunkLength length j)

theorem filterMap_sent : ((xferAt ok msg (chunks msg.length)).calls).filterMap SpiCall.sent =
    if msg.sendBuf = 0 then [] else chunkPieces ok msg.length msg.sendBuf := by
  rw [xferAt, List.filterMap_map]
  split_ifs with hnone
  · rw [List.filterMap_eq_nil_iff]
    intro j _
    rw [Function.comp_apply, chunkCall, startCall_sent, if_pos hnone]
  · rw [chunkPieces, ← List.filterMap_eq_map]
    refine congrArg (fun f => List.filterMap f _) (funext fun j => ?_)
    rw [Function.comp_apply, chunkCall, startCall_sent, if_neg hnone]
    rfl

theorem filterMap_received :
    ((xferAt ok msg (chunks msg.length)).calls).filterMap SpiCall.received =
      if msg.sendBuf ≠ 0 ∧ msg.recvBuf = 0 then []
      else chunkPieces ok msg.length msg.recvBuf := by
  rw [xferAt, List.filterMap_map]
  split_ifs with hnone
  · rw [List.filterMap_eq_nil_iff]
    intro j _
    rw [Function.comp_apply, chunkCall, startCall_received, if_pos hnone]
  · rw [chunkPieces, ← List.filterMap_eq_map]
    refine congrArg (fun f => List.filterMap f _) (funext fun j => ?_)
    rw [Function.comp_apply, chunkCall, startCall_received, if_neg hnone]
    rfl

/-- A chunk starts at its place if none before it failed; otherwise it
starts before the buffer, or behind its end. -/
theorem chunkStart_iff {length buf j : ℕ} (hlength : length < 2 ^ 32)
    (hbuf : buf + length ≤ 2 ^ 32) (hj : j < chunks length) :
    u32 (buf + chunkOffset ok length j) = buf + min (65535 * j) length ↔
      ¬ FailedBefore ok j := by
  have hleft : 0 < bytesLeft length j := by
    have := bytesLeft_eq_zero_iff length j
    omega
  unfold chunkOffset u32
  unfold bytesLeft at *
  split_ifs with hfailed
  · refine iff_of_false ?_ (not_not.2 hfailed)
    omega
  · refine iff_of_true ?_ hfailed
    omega

/-- **The chunks of a buffer tile it** if none before the last fails. -/
theorem tiles_chunkPieces_iff {length buf : ℕ} (hlength : length < 2 ^ 32)
    (hbuf : buf + length ≤ 2 ^ 32) :
    Tiles buf (buf + length) (chunkPieces ok length buf) ↔
      ∀ j, j < chunks length → ¬ FailedBefore ok j := by
  have hborders := tiles_range_iff (fun j => buf + min (65535 * j) length)
    (fun j => u32 (buf + chunkOffset ok length j)) (chunkLength length) (chunks length) (by
      intro j hj
      have hleft : 0 < bytesLeft length j := by
        have := bytesLeft_eq_zero_iff length j
        omega
      unfold chunkLength
      unfold bytesLeft at *
      omega)
  have hfirst : buf + min (65535 * 0) length = buf := by omega
  have hlast : buf + min (65535 * chunks length) length = buf + length := by
    unfold chunks
    omega
  simp only [hfirst, hlast] at hborders
  rw [chunkPieces, hborders]
  exact forall_congr' fun j => imp_congr_right fun hj => chunkStart_iff hlength hbuf hj

theorem covers_chunkPieces_iff {length buf : ℕ} (hlength : length < 2 ^ 32)
    (hbuf : buf + length ≤ 2 ^ 32) (hne : buf ≠ 0) :
    Covers buf length (chunkPieces ok length buf) ↔
      ∀ j, j < chunks length → ¬ FailedBefore ok j := by
  rw [← tiles_chunkPieces_iff hlength hbuf, Covers, if_neg hne]
  exact ⟨fun h => h.2, fun h => ⟨fun p hp => h.bounds hp, h⟩⟩

theorem covers_nil {length buf : ℕ} (hnone : buf = 0) : Covers buf length [] :=
  ⟨fun _ hp => absurd hp List.not_mem_nil, by rw [if_pos hnone]⟩

/-! ## The message -/

/-- A message whose buffers lie in the address space. -/
structure WellPlaced (msg : SpiMessage) : Prop where
  length : msg.length < 2 ^ 32
  send : msg.sendBuf + msg.length ≤ 2 ^ 32
  recv : msg.recvBuf + msg.length ≤ 2 ^ 32

/-- What a transfer is to do: each call takes as many bytes as the HAL can
count, the calls cover each buffer once, and zero is returned for a
message of which a chunk failed. -/
structure CoversOnce (ok : ℕ → Bool) (msg : SpiMessage) (result : ℕ) (calls : List SpiCall) :
    Prop where
  lengths : ∀ c ∈ calls, 1 ≤ c.sendLength ∧ c.sendLength ≤ 65535
  sent : Covers msg.sendBuf msg.length (calls.filterMap SpiCall.sent)
  received : Covers msg.recvBuf msg.length (calls.filterMap SpiCall.received)
  result : msg.length ≠ 0 → (result = 0 ↔ ∃ i, i < calls.length ∧ ok i = false)

theorem failedBefore_last_iff {k : ℕ} :
    (∀ j, j < k → ¬ FailedBefore ok j) ↔ ∀ i, i + 1 < k → ok i = true := by
  constructor
  · intro h i hi
    rcases hok : ok i with _ | _
    · exact absurd ⟨i, Nat.lt_succ_self i, hok⟩ (h (i + 1) hi)
    · rfl
  · rintro h j hj ⟨i, hi, hfail⟩
    rw [h i (by omega)] at hfail
    cases hfail

/-- The send buffer is covered if there is none, or no chunk before the
last fails. -/
theorem sent_covers_iff (hm : WellPlaced msg) :
    Covers msg.sendBuf msg.length
        ((xferAt ok msg (chunks msg.length)).calls.filterMap SpiCall.sent) ↔
      msg.sendBuf = 0 ∨ ∀ j, j < chunks msg.length → ¬ FailedBefore ok j := by
  rw [filterMap_sent]
  split_ifs with hnone
  · exact iff_of_true (covers_nil hnone) (Or.inl hnone)
  · rw [covers_chunkPieces_iff hm.length hm.send hnone, or_iff_right hnone]

/-- So is the receive buffer; but a message without any buffer is received
at the address zero. -/
theorem received_covers_iff (hm : WellPlaced msg) :
    Covers msg.recvBuf msg.length
        ((xferAt ok msg (chunks msg.length)).calls.filterMap SpiCall.received) ↔
      if msg.recvBuf = 0 then msg.sendBuf ≠ 0 ∨ msg.length = 0
      else ∀ j, j < chunks msg.length → ¬ FailedBefore ok j := by
  rw [filterMap_received]
  by_cases hrecv : msg.recvBuf = 0
  · rw [if_pos hrecv]
    by_cases hsend : msg.sendBuf = 0
    · have hchunks : chunks msg.length = 0 ↔ msg.length = 0 := by
        unfold chunks
        omega
      rw [if_neg (fun h => h.1 hsend), or_iff_right (not_not.2 hsend), ← hchunks]
      constructor
      · intro h
        have hpieces := h.2
        rwa [if_pos hrecv, chunkPieces, List.map_eq_nil_iff, List.range_eq_nil] at hpieces
      · intro hzero
        rw [chunkPieces, hzero]
        exact covers_nil hrecv
    · rw [if_pos ⟨hsend, hrecv⟩]
      exact iff_of_true (covers_nil hrecv) (Or.inl hsend)
  · rw [if_neg hrecv, if_neg (fun h => hrecv h.2)]
    exact covers_chunkPieces_iff hm.length hm.recv hrecv

theorem xferAt_sendLength : ∀ c ∈ (xferAt ok msg (chunks msg.length)).calls,
    1 ≤ c.sendLength ∧ c.sendLength ≤ 65535 := by
  intro c hc
  obtain ⟨j, hj, rfl⟩ := List.mem_map.1 hc
  have hj' := List.mem_range.1 hj
  have hleft := bytesLeft_eq_zero_iff msg.length j
  rw [chunkCall, startCall_sendLength, chunkLength]
  omega

/-- Zero is returned for a message of which a chunk failed. -/
theorem xferAt_result (hne : msg.length ≠ 0) :
    (xferAt ok msg (chunks msg.length)).length = 0 ↔
      ∃ i, i < (xferAt ok msg (chunks msg.length)).calls.length ∧ ok i = false := by
  have hcount : (xferAt ok msg (chunks msg.length)).calls.length = chunks msg.length := by
    rw [xferAt, List.length_map, List.length_range]
  rw [hcount]
  change (if FailedBefore ok (chunks msg.length) then 0 else msg.length) = 0 ↔ FailedBefore ok _
  split_ifs with hfailed
  · exact iff_of_true rfl hfailed
  · exact iff_of_false hne hfailed

/-- **A message is covered once** if it has a buffer and no chunk but its
last fails. -/
theorem spixfer_coversOnce_iff (hm : WellPlaced msg) (ok : ℕ → Bool) :
    (∃ s, Loop.Exits (spixferPass ok msg) (spixferInit msg) s ∧
        spixfer ok msg = (s.length, s.calls) ∧ CoversOnce ok msg s.length s.calls) ↔
      msg.length = 0 ∨ ((msg.sendBuf ≠ 0 ∨ msg.recvBuf ≠ 0) ∧
        ∀ i, i + 1 < chunks msg.length → ok i = true) := by
  have hexit := spixfer_exits ok hm.length
  rw [← failedBefore_last_iff]
  constructor
  · rintro ⟨s, hs, -, hcovers⟩
    obtain rfl := hs.unique hexit
    have hsent := (sent_covers_iff hm).1 hcovers.sent
    have hreceived := (received_covers_iff hm).1 hcovers.received
    by_cases hrecv : msg.recvBuf = 0
    · rw [if_pos hrecv] at hreceived
      rcases hreceived with hsend | hzero
      · exact Or.inr ⟨Or.inl hsend, hsent.resolve_left hsend⟩
      · exact Or.inl hzero
    · rw [if_neg hrecv] at hreceived
      exact Or.inr ⟨Or.inr hrecv, hreceived⟩
  · intro h
    have hfailed : ∀ j, j < chunks msg.length → ¬ FailedBefore ok j := by
      rcases h with hzero | ⟨-, hok⟩
      · intro j hj
        rw [hzero] at hj
        exact absurd hj (Nat.not_lt_zero j)
      · exact hok
    refine ⟨_, hexit, spixfer_eq hm.length, xferAt_sendLength,
      (sent_covers_iff hm).2 (Or.inr hfailed), (received_covers_iff hm).2 ?_, xferAt_result⟩
    split_ifs with hrecv
    · exact h.symm.imp (fun ⟨hbuf, _⟩ => hbuf.resolve_right (not_not.2 hrecv)) id
    · exact hfailed

/-- Both chunks of a message of 65536 bytes. -/
theorem spixfer_coversOnce_iff_two_chunks :
    WellPlaced ⟨0x20000000, 0, 65536⟩ ∧
      ((∃ s, Loop.Exits (spixferPass (fun _ => true) ⟨0x20000000, 0, 65536⟩)
            (spixferInit ⟨0x20000000, 0, 65536⟩) s ∧
          spixfer (fun _ => true) ⟨0x20000000, 0, 65536⟩ = (s.length, s.calls) ∧
          CoversOnce (fun _ => true) ⟨0x20000000, 0, 65536⟩ s.length s.calls) ↔
        65536 = 0 ∨ ((0x20000000 ≠ 0 ∨ 0 ≠ 0) ∧
          ∀ i, i + 1 < chunks 65536 → (fun _ => true) i = true)) :=
  ⟨⟨by decide, by decide, by decide⟩,
    spixfer_coversOnce_iff ⟨by decide, by decide, by decide⟩ fun _ => true⟩

/-- **A chunk that fails displaces the next one**: the second chunk of a
message of 65536 bytes is sent from the byte before the buffer. -/
theorem spixfer_not_coversOnce :
    ¬ ∀ (msg : SpiMessage) (ok : ℕ → Bool), WellPlaced msg →
      ∃ s, Loop.Exits (spixferPass ok msg) (spixferInit msg) s ∧
        spixfer ok msg = (s.length, s.calls) ∧ CoversOnce ok msg s.length s.calls := by
  intro h
  have hm : WellPlaced ⟨0x20000000, 0, 65536⟩ := ⟨by decide, by decide, by decide⟩
  obtain ⟨s, hs, -, hcovers⟩ := h ⟨0x20000000, 0, 65536⟩ (fun k => decide (0 < k)) hm
  obtain rfl := hs.unique (spixfer_exits (fun k => decide (0 < k)) hm.length)
  have hsent := hcovers.sent.1 (0x1FFFFFFF, 1) (by
    rw [filterMap_sent]
    decide)
  exact absurd hsent.1 (by decide)

end Spi

end RtSpark
