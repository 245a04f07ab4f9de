import RtSpark.Uart.Model.Serial
import RtSpark.Common.Backlog
import RtSpark.Common.Ring
/-!
# The fifo is a backlog

Byte by byte, the fifo of a serial device is a backlog of one byte less than
its buffer: over any interleaving of receive interrupts and reads, the reads
get the bytes in the order they came, and only the oldest are lost, where
more wait than it holds. `Waits` relates the indices to the bytes that wait;
each byte stored and each byte read keeps it.
-/

namespace RtSpark

namespace Uart

open RxFifo

/-- The bytes `q` wait in the fifo. -/
structure Waits (f : RxFifo) (q : List UInt8) : Prop where
  size : 2 ≤ f.bufsz
  get : f.getIndex < f.bufsz
  length : q.length < f.bufsz
  put : f.putIndex = (f.getIndex + q.length) % f.bufsz
  full : f.isFull = true → q ≠ []
  data : ∀ i (hi : i < q.length), f.buffer ((f.getIndex + i) % f.bufsz) = q[i]

variable {f : RxFifo} {q : List UInt8} {ch : UInt8} {bufsz n : ℕ}

theorem Waits.put_lt (h : Waits f q) : f.putIndex < f.bufsz := by
  have := h.get
  rw [h.put]
  exact Nat.mod_lt _ (by omega)

/-- The indices meet where nothing waits, and nowhere else. -/
theorem Waits.put_eq_get_iff (h : Waits f q) : f.putIndex = f.getIndex ↔ q = [] := by
  have hget := h.get
  have hlen := h.length
  rw [h.put]
  constructor
  · intro heq
    have h0 : (f.getIndex + q.length) % f.bufsz = (f.getIndex + 0) % f.bufsz := by
      rw [heq, Nat.add_zero, Nat.mod_eq_of_lt hget]
    exact List.length_eq_zero_iff.1 (Ring.add_mod_inj hlen (by omega) h0)
  · rintro rfl
    rw [List.length_nil, Nat.add_zero, Nat.mod_eq_of_lt hget]

/-- **A byte stored** joins the others, and the oldest makes room for it
where there is none. -/
theorem Waits.rxChar (h : Waits f q) (ch : UInt8) :
    Waits (f.rxChar ch) (Backlog.offer (f.bufsz - 1) q [ch]) := by
  have hsize := h.size
  have hget := h.get
  have hlen := h.length
  have hlt := h.put_lt
  have hwrap := Ring.wrap_succ hlt
  have hnext : (f.putIndex + 1) % f.bufsz = (f.getIndex + (q.length + 1)) % f.bufsz := by
    rw [h.put, Nat.mod_add_mod, Nat.add_assoc]
  -- what waited is still in its place, and the byte behind it
  have hdata : ∀ i (hi : i < (q ++ [ch]).length),
      Function.update f.buffer f.putIndex ch ((f.getIndex + i) % f.bufsz) = (q ++ [ch])[i] := by
    intro i hi
    rw [List.length_append, List.length_singleton] at hi
    by_cases hiq : i < q.length
    · have hne : (f.getIndex + i) % f.bufsz ≠ f.putIndex := fun heq => by
        rw [h.put] at heq
        have := Ring.add_mod_inj (by omega) hlen heq
        omega
      rw [Function.update_of_ne hne, h.data i hiq, List.getElem_append_left hiq]
    · have heq : i = q.length := by omega
      subst heq
      rw [← h.put, Function.update_self, List.getElem_append_right (le_refl _)]
      simp
  unfold RxFifo.rxChar
  simp only [hwrap, Ring.wrap_succ hget]
  by_cases hroom : q.length + 1 < f.bufsz
  · have hne : (f.putIndex + 1) % f.bufsz ≠ f.getIndex := fun heq => by
      have h0 : (f.getIndex + (q.length + 1)) % f.bufsz = (f.getIndex + 0) % f.bufsz := by
        rw [← hnext, heq, Nat.add_zero, Nat.mod_eq_of_lt hget]
      have := Ring.add_mod_inj hroom (by omega) h0
      omega
    rw [if_neg hne, Backlog.offer_of_le (by rw [List.length_singleton]; omega)]
    refine ⟨hsize, hget, ?_, ?_, fun _ => by simp, hdata⟩
    · rw [List.length_append, List.length_singleton]
      exact hroom
    · rw [List.length_append, List.length_singleton]
      exact hnext
  · have hfull : q.length + 1 = f.bufsz := by omega
    have heq : (f.putIndex + 1) % f.bufsz = f.getIndex := by
      rw [hnext, hfull, Nat.add_mod_right, Nat.mod_eq_of_lt hget]
    have hoffer : Backlog.offer (f.bufsz - 1) q [ch] = (q ++ [ch]).drop 1 := by
      unfold Backlog.offer
      congr 1
      rw [List.length_append, List.length_singleton]
      omega
    rw [if_pos heq, hoffer]
    refine ⟨hsize, Nat.mod_lt _ (by omega), ?_, ?_, fun _ => ?_, fun i hi => ?_⟩
    · rw [List.length_drop, List.length_append, List.length_singleton]
      show q.length + 1 - 1 < f.bufsz
      omega
    · rw [List.length_drop, List.length_append, List.length_singleton, Nat.add_sub_cancel]
      show (f.putIndex + 1) % f.bufsz = ((f.getIndex + 1) % f.bufsz + q.length) % f.bufsz
      rw [Nat.mod_add_mod, hnext, Nat.add_assoc, Nat.add_comm 1]
    · refine List.ne_nil_of_length_pos ?_
      rw [List.length_drop, List.length_append, List.length_singleton]
      omega
    · rw [List.length_drop] at hi
      rw [List.getElem_drop]
      show Function.update f.buffer f.putIndex ch
        (((f.getIndex + 1) % f.bufsz + i) % f.bufsz) = _
      rw [Nat.mod_add_mod, Nat.add_assoc]
      exact hdata (1 + i) (by omega)

theorem rxChar_bufsz (f : RxFifo) (ch : UInt8) : (f.rxChar ch).bufsz = f.bufsz := by
  unfold RxFifo.rxChar
  dsimp only
  split_ifs <;> rfl

/-- **A receive interrupt** stores what the line gives, byte by byte. -/
theorem Waits.isrRxInd (h : Waits f q) (chs : List UInt8) :
    Waits (f.isrRxInd chs) (Backlog.offer (f.bufsz - 1) q chs) ∧
      (f.isrRxInd chs).bufsz = f.bufsz := by
  induction chs generalizing f q with
  | nil =>
    have hlen := h.length
    rw [Backlog.offer_nil (by omega)]
    exact ⟨h, rfl⟩
  | cons ch chs ih =>
    obtain ⟨hw, hb⟩ := ih (h.rxChar ch)
    rw [rxChar_bufsz, Backlog.offer_offer] at hw
    exact ⟨hw, hb.trans (rxChar_bufsz f ch)⟩

/-- **A read** takes what waits, as far as it asks for it. -/
theorem Waits.serialIntRx (h : Waits f q) (n : ℕ) :
    (f.serialIntRx n).2 = q.take n ∧ Waits (f.serialIntRx n).1 (q.drop n) ∧
      (f.serialIntRx n).1.bufsz = f.bufsz := by
  induction n generalizing f q with
  | zero => exact ⟨rfl, h, rfl⟩
  | succ n ih =>
    have hget := h.get
    have hlen := h.length
    cases q with
    | nil =>
      have hempty : f.getIndex = f.putIndex ∧ f.isFull = false :=
        ⟨(h.put_eq_get_iff.2 rfl).symm, Bool.eq_false_iff.2 fun hf => h.full hf rfl⟩
      rw [RxFifo.serialIntRx, if_pos hempty]
      exact ⟨rfl, h, rfl⟩
    | cons c cs =>
      have hmore : ¬ (f.getIndex = f.putIndex ∧ f.isFull = false) := fun hc =>
        List.cons_ne_nil c cs (h.put_eq_get_iff.1 hc.1.symm)
      have hfirst : f.buffer f.getIndex = c := by
        have := h.data 0 (Nat.zero_lt_succ _)
        rwa [Nat.add_zero, Nat.mod_eq_of_lt hget] at this
      rw [List.length_cons] at hlen
      have hrest : Waits { f with getIndex := (f.getIndex + 1) % f.bufsz, isFull := false } cs := by
        refine ⟨h.size, Nat.mod_lt _ (by omega), ?_, ?_, fun hf => Bool.noConfusion hf,
          fun i hi => ?_⟩
        · show cs.length < f.bufsz
          omega
        · show f.putIndex = ((f.getIndex + 1) % f.bufsz + cs.length) % f.bufsz
          rw [h.put, Nat.mod_add_mod, List.length_cons, Nat.add_assoc, Nat.add_comm 1]
        · show f.buffer (((f.getIndex + 1) % f.bufsz + i) % f.bufsz) = cs[i]
          have := h.data (i + 1) (by rw [List.length_cons]; omega)
          rw [Nat.mod_add_mod, Nat.add_assoc, Nat.add_comm 1, this]
          rfl
      obtain ⟨hout, hw, hb⟩ := ih hrest
      rw [RxFifo.serialIntRx, if_neg hmore]
      simp only [Ring.wrap_succ hget]
      refine ⟨?_, hw, hb⟩
      rw [hout, hfirst]
      rfl

/-! ## Runs -/

/-- A device opened with `RT_DEVICE_FLAG_INT_RX`, and what its reads got. -/
structure IntSerial where
  fifo : RxFifo
  delivered : List UInt8

/-- A receive interrupt, or a read. -/
def IntSerial.step (s : IntSerial) : Backlog.Event UInt8 → IntSerial
  | .come chs => { s with fifo := s.fifo.isrRxInd chs }
  | .take n =>
    let r := s.fifo.serialIntRx n
    ⟨r.1, s.delivered ++ r.2⟩

end Uart

end RtSpark
