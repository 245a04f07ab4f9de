import RtSpark.Uart.DmaReceive
import RtSpark.Uart.Model.Serial
/-!
# From the line to the reader

With the DMA behind it the fifo is told of lengths only. `Counts` relates
its indices to the bytes that have left it and the bytes that wait; a report
and a read keep it, and a report that does not fit drops the oldest. From
this and what the handlers report, `reception_delivers` follows the bytes
from the line to the reader.
-/

namespace RtSpark

namespace Uart

open RxFifo

/-- `d` bytes have left the fifo, and `u` wait in it. Two buffers fit into
the sixteen bits of an index. -/
structure Counts (f : RxFifo) (d u : ℕ) : Prop where
  pos : 0 < f.bufsz
  small : f.bufsz ≤ 2 ^ 15
  le : u ≤ f.bufsz
  put : f.putIndex = (d + u) % f.bufsz
  get : f.getIndex = d % f.bufsz
  full : f.isFull = true ↔ u = f.bufsz

variable {f : RxFifo} {d u n len bufsz : ℕ} {serial : Uart}

/-- Where the fifo is told bytes go, seen from where they are read. -/
theorem Counts.put_eq (h : Counts f d u) : f.putIndex =
    if f.getIndex + u < f.bufsz then f.getIndex + u else f.getIndex + u - f.bufsz := by
  rw [h.put, h.get, ← Nat.mod_add_mod]
  exact Ring.add_mod_split (Nat.mod_lt _ h.pos) h.le

theorem Counts.get_lt (h : Counts f d u) : f.getIndex < f.bufsz := by
  rw [h.get]
  exact Nat.mod_lt _ h.pos

theorem Counts.calcRecvedLen (h : Counts f d u) : f.calcRecvedLen = u := by
  have hput := h.put_eq
  have hget := h.get_lt
  have hle := h.le
  have hfull := h.full
  unfold RxFifo.calcRecvedLen
  by_cases hu : u = f.bufsz
  · rw [if_neg (by omega)] at hput
    rw [if_pos (by omega), if_neg (by rw [hfull.2 hu]; exact Bool.noConfusion), hu]
  · have hnot : f.isFull = false := Bool.eq_false_iff.2 fun hc => hu (hfull.1 hc)
    split_ifs at hput with hround
    · split_ifs <;> omega
    · split_ifs <;> omega

/-- An index and a length of at most a buffer do not wrap. -/
theorem Counts.add16 (h : Counts f d u) {i : ℕ} (hi : i < f.bufsz) (hlen : len ≤ f.bufsz) :
    RxFifo.add16 i len = i + len := by
  have hsmall := h.small
  unfold RxFifo.add16
  exact Nat.mod_eq_of_lt (by omega)

/-- The index after a report, and whether the fifo is full then. -/
theorem Counts.report_fields (h : Counts f d u) (hlen : len ≤ f.bufsz) :
    (f.recvUpdatePutIndex len).bufsz = f.bufsz ∧
    (f.recvUpdatePutIndex len).buffer = f.buffer ∧
    (f.recvUpdatePutIndex len).putIndex = (f.putIndex + len) % f.bufsz ∧
    ((f.recvUpdatePutIndex len).isFull = true ↔ f.bufsz ≤ u + len) ∧
    (f.recvUpdatePutIndex len).getIndex =
      if f.bufsz ≤ u + len then (f.putIndex + len) % f.bufsz else f.getIndex := by
  have hput := h.put_eq
  have hget := h.get_lt
  have hle := h.le
  have hfull := h.full
  have hlt : f.putIndex < f.bufsz := by
    split_ifs at hput <;> omega
  have hwrap := Ring.add_mod_split hlt hlen
  unfold RxFifo.recvUpdatePutIndex RxFifo.readOldest
  simp only [h.add16 hlt hlen]
  -- a fifo that is full stays so, and any other is as full as its count says
  have hkeep : ¬ u = f.bufsz → f.isFull = false := fun hu =>
    Bool.eq_false_iff.2 fun hc => hu (hfull.1 hc)
  by_cases hfirst : f.getIndex ≤ f.putIndex
  · rw [if_pos hfirst]
    by_cases hround : f.bufsz ≤ f.putIndex + len
    · rw [if_neg (by omega)] at hwrap
      rw [if_pos hround, hwrap]
      by_cases hover : f.getIndex ≤ f.putIndex + len - f.bufsz
      · have hno : f.bufsz ≤ u + len := by split_ifs at hput <;> omega
        simp [hover, hno]
      · by_cases hu : u = f.bufsz
        · have hno : f.bufsz ≤ u + len := by omega
          simp [hfull.2 hu, hno]
        · have hno : ¬ f.bufsz ≤ u + len := by split_ifs at hput <;> omega
          simp [hover, hno, hkeep hu]
    · rw [if_pos (by omega)] at hwrap
      rw [if_neg hround, hwrap]
      by_cases hu : u = f.bufsz
      · have hno : f.bufsz ≤ u + len := by omega
        simp [hfull.2 hu, hno]
      · have hno : ¬ f.bufsz ≤ u + len := by split_ifs at hput <;> omega
        simp [hno, hkeep hu]
  · rw [if_neg hfirst]
    have hu : ¬ u = f.bufsz := by split_ifs at hput <;> omega
    by_cases hover : f.getIndex ≤ f.putIndex + len
    · have hno : f.bufsz ≤ u + len := by split_ifs at hput <;> omega
      have hmod : (if f.bufsz ≤ f.putIndex + len then (f.putIndex + len) % f.bufsz
          else f.putIndex + len) = (f.putIndex + len) % f.bufsz := by
        split_ifs with hr
        · rfl
        · exact (Nat.mod_eq_of_lt (by omega)).symm
      simp [hover, hno, hmod]
    · have hno : ¬ f.bufsz ≤ u + len := by split_ifs at hput <;> omega
      rw [if_neg hover, Nat.mod_eq_of_lt (by omega)]
      simp [hno, hkeep hu]

/-- **A report** of at most a buffer adds what came, and drops the oldest of
what does not fit. -/
theorem Counts.report (h : Counts f d u) (hlen : len ≤ f.bufsz) :
    Counts (f.recvUpdatePutIndex len) (d + (u + len - f.bufsz)) (min f.bufsz (u + len)) := by
  obtain ⟨hb, -, hput, hfull, hget⟩ := h.report_fields hlen
  have hle := h.le
  have hsum : (f.putIndex + len) % f.bufsz = (d + (u + len)) % f.bufsz := by
    rw [h.put, Nat.mod_add_mod, Nat.add_assoc]
  refine ⟨by rw [hb]; exact h.pos, by rw [hb]; exact h.small, by rw [hb]; exact min_le_left _ _,
    ?_, ?_, ?_⟩
  · rw [hb, hput, hsum]
    congr 1
    omega
  · rw [hb, hget]
    split_ifs with hover
    · rw [hsum, show d + (u + len) = d + (u + len - f.bufsz) + f.bufsz by omega, Nat.add_mod_right]
    · rw [h.get, Nat.sub_eq_zero_of_le (by omega), Nat.add_zero]
  · rw [hb, hfull]
    omega

@[simp] theorem length_bytes (f : RxFifo) (i n : ℕ) : (f.bytes i n).length = n := by
  simp [RxFifo.bytes]

@[simp] theorem getElem_bytes (f : RxFifo) (i n j : ℕ) (hj : j < (f.bytes i n).length) :
    (f.bytes i n)[j] = f.buffer (i + j) := by
  simp [RxFifo.bytes]

/-- **A read** takes the first of what waits, whichever way it copies, and
its assertion holds. -/
theorem Counts.serialDmaRx (h : Counts f d u) (n : ℕ) :
    ∃ f', f.serialDmaRx n =
        some (f', (List.range (min n u)).map fun i => f.buffer ((d + i) % f.bufsz)) ∧
      Counts f' (d + min n u) (u - min n u) ∧ f'.bufsz = f.bufsz ∧ f'.buffer = f.buffer := by
  have hget := h.get_lt
  have hle := h.le
  have hpos := h.pos
  have hcalc := h.calcRecvedLen
  have hmin : (if n < f.calcRecvedLen then n else f.calcRecvedLen) = min n u := by
    rw [hcalc]
    split_ifs <;> omega
  have hmod : ∀ i, (d + i) % f.bufsz = (f.getIndex + i) % f.bufsz := fun i => by
    rw [h.get, Nat.mod_add_mod]
  have hstep : (if f.bufsz ≤ f.getIndex + min n u then (f.getIndex + min n u) % f.bufsz
      else f.getIndex + min n u) = (d + min n u) % f.bufsz := by
    rw [hmod]
    split_ifs with hr
    · rfl
    · exact (Nat.mod_eq_of_lt (by omega)).symm
  have hdata : (if f.getIndex + min n u < f.bufsz then f.bytes f.getIndex (min n u)
      else f.bytes f.getIndex (f.bufsz - f.getIndex) ++
        f.bytes 0 (min n u + f.getIndex - f.bufsz)) =
      (List.range (min n u)).map fun i => f.buffer ((d + i) % f.bufsz) := by
    split_ifs with hround
    · refine List.map_congr_left fun i hi => ?_
      rw [List.mem_range] at hi
      rw [hmod, Nat.mod_eq_of_lt (by omega)]
    · -- the copy in two parts
      refine List.ext_getElem (by simp; omega) fun i hi hi' => ?_
      rw [List.length_map, List.length_range] at hi'
      rw [List.getElem_map, List.getElem_range, hmod, Ring.add_mod_split hget (by omega)]
      by_cases hpart : i < f.bufsz - f.getIndex
      · rw [List.getElem_append_left (by simpa using hpart), getElem_bytes, if_pos (by omega)]
      · rw [List.getElem_append_right (by simpa using hpart), getElem_bytes, if_neg (by omega),
          length_bytes]
        congr 1
        omega
  have hadd : RxFifo.add16 f.getIndex (min n u) = f.getIndex + min n u :=
    h.add16 hget ((min_le_right n u).trans hle)
  unfold RxFifo.serialDmaRx RxFifo.recvUpdateGetIndex
  dsimp only
  rw [hmin, hdata, if_pos (by rw [hcalc]; exact min_le_right _ _), hadd]
  refine ⟨_, rfl, ⟨hpos, h.small, le_trans (Nat.sub_le ..) hle, ?_, hstep, ?_⟩, rfl, rfl⟩
  · show f.putIndex = (d + min n u + (u - min n u)) % f.bufsz
    rw [h.put]
    congr 1
    omega
  · show (if f.isFull = true ∧ min n u ≠ 0 then false else f.isFull) = true ↔ u - min n u = f.bufsz
    have hfull := h.full
    split_ifs with hclear
    · exact iff_of_false (by simp) (by omega)
    · rw [hfull]
      constructor
      · intro hu
        by_contra hne
        exact hclear ⟨hfull.2 hu, by omega⟩
      · intro hu
        omega

/-! ## From the line to the reader -/

/-- The receiver, the fifo behind it, and as ghosts the bytes the line has
brought and those the reads have got. -/
structure Line where
  uart : Uart
  fifo : RxFifo
  arrived : List UInt8
  delivered : List UInt8

/-- An event of the receiver, with the byte where it is one, or a read. -/
inductive LineEvent where
  | rx (e : RxEvent) (b : UInt8)
  | read (length : ℕ)

namespace Line

/-- A device opened with `RT_DEVICE_FLAG_DMA_RX`. -/
def opened (bufsz : ℕ) : Line := ⟨dmaConfig bufsz, RxFifo.opened bufsz, [], []⟩

/-- The DMA stores a byte where the stream stands. -/
def storeByte (s : Line) (b : UInt8) : Line :=
  { s with
    uart := s.uart.rxStep .byte
    fifo := { s.fifo with buffer := Function.update s.fifo.buffer s.uart.index b }
    arrived := s.arrived ++ [b] }

/-- What a handler reports is passed on to the fifo. -/
def serve (s : Line) (e : RxEvent) : Line :=
  { s with
    uart := s.uart.rxStep e
    fifo := ((s.uart.rxStep e).events.drop s.uart.events.length).foldl
      RxFifo.rtHwSerialIsr s.fifo }

/-- One event; a read the assertion of which fails changes nothing. -/
def step (s : Line) : LineEvent → Line
  | .rx .byte b => s.storeByte b
  | .rx e _ => s.serve e
  | .read length =>
    match s.fifo.serialDmaRx length with
    | none => s
    | some (fifo, data) => { s with fifo := fifo, delivered := s.delivered ++ data }

/-- The reader keeps up: no byte is stored over one that is not read yet. -/
def KeepsUp (s : Line) : LineEvent → Prop
  | .rx .byte _ => s.uart.stored < s.delivered.length + s.uart.bufsz
  | _ => True

/-- The handlers are in time, and the right one takes each interrupt. -/
def Handled (s : Line) : LineEvent → Prop
  | .rx e _ => s.uart.Timely ∧ s.uart.RightHandler e
  | .read _ => True

instance (s : Line) (ev : LineEvent) : Decidable (s.KeepsUp ev) := by
  rcases ev with ⟨⟨⟩, b⟩ | n <;> unfold KeepsUp <;> infer_instance

instance (s : Line) (ev : LineEvent) : Decidable (s.Handled ev) := by
  cases ev <;> unfold Handled <;> infer_instance

end Line

/-- **What links the line to the reader.** -/
structure Linked (s : Line) : Prop where
  receiving : Receiving s.uart
  accounts : Accounts s.uart
  size : s.fifo.bufsz = s.uart.bufsz
  stored : s.arrived.length = s.uart.stored
  keeps : s.uart.stored ≤ s.delivered.length + s.uart.bufsz
  le : s.delivered.length ≤ s.uart.served
  counts : Counts s.fifo s.delivered.length (s.uart.served - s.delivered.length)
  ring : ∀ i (hi : i < s.arrived.length), s.uart.stored ≤ i + s.uart.bufsz →
    s.fifo.buffer (i % s.uart.bufsz) = s.arrived[i]
  text : s.delivered = s.arrived.take s.delivered.length

variable {s : Line} {e : RxEvent} {b : UInt8}

/-- What an event that stores nothing does besides: one length is reported
or none, and the bytes served are as before or all that are stored. -/
structure Serviced (serial serial' : Uart) : Prop where
  bufsz : serial'.bufsz = serial.bufsz
  stored : serial'.stored = serial.stored
  served : serial.served ≤ serial'.served
  events : serial'.events = serial.events ∨
    ∃ recvLen, serial'.events = serial.events ++ [SerialEvent.rxDmadone recvLen]

theorem report_cases (k : Uart) (recvLen : ℕ) : k.report recvLen = k ∨
    ∃ n, k.report recvLen = { k with events := k.events ++ [SerialEvent.rxDmadone n] } := by
  unfold Uart.report
  split_ifs
  · exact Or.inr ⟨_, rfl⟩
  · exact Or.inl rfl

theorem serviced_rxStep (h : Receiving serial) (he : e ≠ .byte) :
    Serviced serial (serial.rxStep e) := by
  have hsame : Serviced serial serial := ⟨rfl, rfl, le_refl _, Or.inl rfl⟩
  have hdma : ∀ ht tc : Bool, Serviced serial
      (dmaIsr { serial with flagHt := ht, flagTc := tc }).serve := fun ht tc => by
    have hk : Receiving { serial with flagHt := ht, flagTc := tc } :=
      ⟨h.pos, h.lt, h.dma, h.sources, h.counter, h.last, h.le⟩
    rw [dmaIsr_eq hk]
    rcases report_cases { serial with
        flagHt := ht, flagTc := tc, lastIndex := index { serial with flagHt := ht, flagTc := tc } }
      (serial.bufsz - serial.lastIndex + index { serial with flagHt := ht, flagTc := tc })
      with hr | ⟨n, hr⟩
    · rw [hr]
      exact ⟨rfl, rfl, h.le, Or.inl rfl⟩
    · rw [hr]
      exact ⟨rfl, rfl, h.le, Or.inr ⟨n, rfl⟩⟩
  cases e with
  | byte => exact absurd rfl he
  | lineIdle => exact ⟨rfl, rfl, le_refl _, Or.inl rfl⟩
  | idleIrq =>
    simp only [rxStep]
    split_ifs with hidle
    · rw [uartIsr_eq h hidle]
      rcases report_cases { serial with lastIndex := serial.index }
        (sub32 serial.index serial.lastIndex) with hr | ⟨n, hr⟩
      · rw [hr]
        exact ⟨rfl, rfl, h.le, Or.inl rfl⟩
      · rw [hr]
        exact ⟨rfl, rfl, h.le, Or.inr ⟨n, rfl⟩⟩
    · exact hsame
  | halfIrq =>
    simp only [rxStep]
    split_ifs
    · exact hdma false serial.flagTc
    · exact hsame
  | completeIrq =>
    simp only [rxStep]
    split_ifs
    · exact hdma serial.flagHt false
    · exact hsame

theorem store_fields (serial : Uart) :
    serial.store.bufsz = serial.bufsz ∧ serial.store.stored = serial.stored + 1 ∧
      serial.store.served = serial.served := by
  unfold Uart.store
  split_ifs <;> exact ⟨rfl, rfl, rfl⟩

/-- **A byte stored** joins the text, in a place that nothing unread needs. -/
theorem Linked.storeByte (h : Linked s) (ht : s.uart.Timely)
    (hkeep : s.uart.stored < s.delivered.length + s.uart.bufsz) : Linked (s.storeByte b) := by
  obtain ⟨hb, hs, hd⟩ := store_fields s.uart
  have hlen := h.stored
  have hle := h.le
  have hserved := h.receiving.le
  have hindex := h.receiving.index_eq
  have hcounts := h.counts
  refine ⟨h.receiving.step .byte, (accounts_step_iff h.receiving h.accounts ht .byte).2 trivial,
    h.size.trans hb.symm, ?_, ?_, ?_, ?_, ?_, ?_⟩
  · show (s.arrived ++ [b]).length = s.uart.store.stored
    rw [List.length_append, List.length_singleton, hs, hlen]
  · show s.uart.store.stored ≤ s.delivered.length + s.uart.store.bufsz
    rw [hs, hb]
    exact hkeep
  · show s.delivered.length ≤ s.uart.store.served
    rw [hd]
    exact hle
  · show Counts _ s.delivered.length (s.uart.store.served - s.delivered.length)
    rw [hd]
    exact ⟨hcounts.pos, hcounts.small, hcounts.le, hcounts.put, hcounts.get, hcounts.full⟩
  · intro i hi hlow
    change i < (s.arrived ++ [b]).length at hi
    change s.uart.store.stored ≤ i + s.uart.store.bufsz at hlow
    rw [List.length_append, List.length_singleton, hlen] at hi
    rw [hs, hb] at hlow
    show Function.update s.fifo.buffer s.uart.index b (i % s.uart.store.bufsz) = (s.arrived ++ [b])[i]
    rw [hb, hindex]
    by_cases hlast : i = s.uart.stored
    · subst hlast
      rw [Function.update_self, List.getElem_append_right (by omega)]
      simp [hlen]
    · have hne : i % s.uart.bufsz ≠ s.uart.stored % s.uart.bufsz := fun heq => by
        have h0 : (i + 0) % s.uart.bufsz = (i + (s.uart.stored - i)) % s.uart.bufsz := by
          rw [Nat.add_zero, Nat.add_sub_cancel' (by omega), heq]
        have := Ring.add_mod_inj (by omega) (by omega) h0
        omega
      rw [Function.update_of_ne hne, List.getElem_append_left (by omega)]
      exact h.ring i (by omega) (by omega)
  · show s.delivered = (s.arrived ++ [b]).take s.delivered.length
    rw [List.take_append_of_le_length (by omega)]
    exact h.text

/-- **A service** tells the fifo of just the bytes that came. -/
theorem Linked.serve (h : Linked s) (he : e ≠ .byte) (ht : s.uart.Timely)
    (hright : s.uart.RightHandler e) : Linked (s.serve e) := by
  have hsv := serviced_rxStep h.receiving he
  have hrec := h.receiving.step e
  have hacc := (accounts_step_iff h.receiving h.accounts ht e).2 hright
  have hle := h.le
  have hserved := hrec.le
  have hmono := hsv.served
  have hkeep := h.keeps
  rw [hsv.stored] at hserved
  have hsum := hacc.sum
  -- the lengths of the fifo's indices and its buffer
  have hfifo : Counts (s.serve e).fifo s.delivered.length
        ((s.uart.rxStep e).served - s.delivered.length) ∧
      (s.serve e).fifo.bufsz = s.fifo.bufsz ∧ (s.serve e).fifo.buffer = s.fifo.buffer := by
    show Counts (((s.uart.rxStep e).events.drop s.uart.events.length).foldl
      RxFifo.rtHwSerialIsr s.fifo) _ _ ∧ _
    rcases hsv.events with hev | ⟨n, hev⟩
    · have hrep : (s.uart.rxStep e).reported = s.uart.reported := by
        unfold reported
        rw [hev]
      rw [hrep, h.accounts.sum] at hsum
      have hfold : (s.serve e).fifo = s.fifo := by
        show ((s.uart.rxStep e).events.drop s.uart.events.length).foldl
          RxFifo.rtHwSerialIsr s.fifo = s.fifo
        rw [hev, List.drop_length]
        rfl
      rw [hfold, hev, List.drop_length, ← hsum]
      exact ⟨h.counts, rfl, rfl⟩
    · have hrep : (s.uart.rxStep e).reported = s.uart.reported ++ [n] := by
        unfold reported
        rw [hev, List.filterMap_append]
        rfl
      have hn : n ≤ s.fifo.bufsz := by
        rw [h.size, ← hsv.bufsz]
        exact hacc.le n (by rw [hrep]; exact List.mem_append_right _ (List.mem_singleton_self n))
      rw [hrep, List.sum_append, h.accounts.sum, List.sum_singleton] at hsum
      have hfold : (s.serve e).fifo = s.fifo.recvUpdatePutIndex n := by
        show ((s.uart.rxStep e).events.drop s.uart.events.length).foldl
          RxFifo.rtHwSerialIsr s.fifo = _
        rw [hev, List.drop_left]
        rfl
      have hcounts := h.counts.report hn
      have hroom : s.uart.served - s.delivered.length + n ≤ s.fifo.bufsz := by
        rw [h.size]
        omega
      rw [Nat.sub_eq_zero_of_le hroom, Nat.add_zero, min_eq_right hroom] at hcounts
      obtain ⟨hb, hbuf, -⟩ := h.counts.report_fields hn
      rw [hfold, hev, List.drop_left]
      refine ⟨?_, hb, hbuf⟩
      rw [show (s.uart.rxStep e).served - s.delivered.length =
        s.uart.served - s.delivered.length + n by omega]
      exact hcounts
  obtain ⟨hcounts, hb, hbuf⟩ := hfifo
  refine ⟨hrec, hacc, ?_, ?_, ?_, le_trans hle hmono, hcounts, ?_, h.text⟩
  · rw [hb, h.size]
    exact hsv.bufsz.symm
  · show s.arrived.length = (s.uart.rxStep e).stored
    rw [hsv.stored, h.stored]
  · show (s.uart.rxStep e).stored ≤ s.delivered.length + (s.uart.rxStep e).bufsz
    rw [hsv.stored, hsv.bufsz]
    exact hkeep
  · intro i hi hlow
    change (s.uart.rxStep e).stored ≤ i + (s.uart.rxStep e).bufsz at hlow
    rw [hsv.stored, hsv.bufsz] at hlow
    show (s.serve e).fifo.buffer (i % (s.uart.rxStep e).bufsz) = s.arrived[i]
    rw [hsv.bufsz, hbuf]
    exact h.ring i hi hlow

/-- **A read** gets the text from where the last one left off. -/
theorem Linked.read (h : Linked s) (n : ℕ) :
    ∃ f', s.fifo.serialDmaRx n = some (f', (s.arrived.drop s.delivered.length).take
        (min n (s.uart.served - s.delivered.length))) ∧
      Linked { s with
        fifo := f'
        delivered := s.delivered ++ (s.arrived.drop s.delivered.length).take
          (min n (s.uart.served - s.delivered.length)) } := by
  obtain ⟨f', hread, hcounts, hb, hbuf⟩ := h.counts.serialDmaRx n
  have hlen := h.stored
  have hle := h.le
  have hserved := h.receiving.le
  have hkeep := h.keeps
  have hsize := h.size
  generalize hk : min n (s.uart.served - s.delivered.length) = k at hread hcounts ⊢
  have hkle : k ≤ s.uart.served - s.delivered.length := by omega
  have hdata : ((List.range k).map fun i => s.fifo.buffer ((s.delivered.length + i) % s.fifo.bufsz)) =
      (s.arrived.drop s.delivered.length).take k := by
    refine List.ext_getElem (by simp; omega) fun i hi hi' => ?_
    rw [List.length_map, List.length_range] at hi
    rw [List.getElem_map, List.getElem_range, List.getElem_take, List.getElem_drop, hsize]
    exact h.ring _ (by omega) (by omega)
  have hlen' : (s.delivered ++ (s.arrived.drop s.delivered.length).take k).length =
      s.delivered.length + k := by
    rw [List.length_append, List.length_take, List.length_drop]
    omega
  rw [hdata] at hread
  refine ⟨f', hread, h.receiving, h.accounts, hb.trans hsize, hlen, ?_, ?_, ?_, ?_, ?_⟩
  · show s.uart.stored ≤ (s.delivered ++ _).length + s.uart.bufsz
    rw [hlen']
    omega
  · show (s.delivered ++ _).length ≤ s.uart.served
    rw [hlen']
    omega
  · show Counts f' (s.delivered ++ _).length (s.uart.served - (s.delivered ++ _).length)
    rw [hlen', ← Nat.sub_sub]
    exact hcounts
  · intro i hi hlow
    show f'.buffer (i % s.uart.bufsz) = s.arrived[i]
    rw [hbuf]
    exact h.ring i hi hlow
  · show s.delivered ++ _ = s.arrived.take (s.delivered ++ _).length
    rw [hlen', List.take_add]
    exact congrArg (· ++ _) h.text

/-- **Every event keeps the link.** -/
theorem Linked.step (h : Linked s) (ev : LineEvent) (hh : s.Handled ev) (hk : s.KeepsUp ev) :
    Linked (s.step ev) := by
  cases ev with
  | rx e b =>
    cases e with
    | byte => exact h.storeByte hh.1 hk
    | lineIdle => exact h.serve RxEvent.noConfusion hh.1 hh.2
    | idleIrq => exact h.serve RxEvent.noConfusion hh.1 hh.2
    | halfIrq => exact h.serve RxEvent.noConfusion hh.1 hh.2
    | completeIrq => exact h.serve RxEvent.noConfusion hh.1 hh.2
  | read n =>
    obtain ⟨f', hread, hlinked⟩ := h.read n
    show Linked (match s.fifo.serialDmaRx n with
      | none => s
      | some (fifo, data) => { s with fifo := fifo, delivered := s.delivered ++ data })
    rw [hread]
    exact hlinked

theorem linked_opened (hpos : 0 < bufsz) (hle : bufsz ≤ 2 ^ 15) :
    Linked (Line.opened bufsz) where
  receiving := receiving_dmaConfig hpos (by omega)
  accounts := ⟨rfl, by simp [reported, dmaConfig, Line.opened]⟩
  size := rfl
  stored := rfl
  keeps := Nat.zero_le _
  le := le_refl _
  counts := ⟨hpos, hle, Nat.zero_le _, (Nat.zero_mod bufsz).symm, (Nat.zero_mod bufsz).symm,
    iff_of_false Bool.noConfusion (by show ¬ 0 = bufsz; omega)⟩
  ring i hi := absurd hi (Nat.not_lt_zero i)
  text := rfl

/-- The bytes an event brings. -/
def LineEvent.bytes : LineEvent → List UInt8
  | .rx .byte b => [b]
  | _ => []

theorem arrived_stateAfter (evs : List LineEvent) (s : Line) :
    (Run.stateAfter Line.step s evs).arrived = s.arrived ++ evs.flatMap LineEvent.bytes := by
  induction evs generalizing s with
  | nil => exact (List.append_nil _).symm
  | cons ev evs ih =>
    rw [Run.stateAfter_cons, ih, List.flatMap_cons, ← List.append_assoc]
    congr 1
    cases ev with
    | rx e b => cases e <;> first | rfl | exact (List.append_nil _).symm
    | read n =>
      show (match s.fifo.serialDmaRx n with
        | none => s
        | some (fifo, data) => { s with fifo := fifo, delivered := s.delivered ++ data }).arrived = _
      rw [show LineEvent.bytes (.read n) = [] from rfl, List.append_nil]
      split <;> rfl

/-- **The reader gets what the line brought.** With a buffer of up to half
of what an index counts, in every run in which the handlers are in time, the
right one takes each interrupt, and no byte is stored over one not read yet,
the reads have got the bytes of the line from the first on, in order and each
once; what waits are the bytes served and not read yet, and a read gets them,
as far as it asks for them. -/
theorem reception_delivers (hpos : 0 < bufsz) (hhalf : bufsz ≤ 2 ^ 15) (evs : List LineEvent)
    (h : Run.AlongRun Line.step (fun s ev _ => s.Handled ev ∧ s.KeepsUp ev)
      (Line.opened bufsz) evs) :
    let s := Run.stateAfter Line.step (Line.opened bufsz) evs
    s.delivered = (evs.flatMap LineEvent.bytes).take s.delivered.length ∧
      s.delivered.length + s.fifo.calcRecvedLen = s.uart.served ∧
      ∀ n, ∃ f', s.fifo.serialDmaRx n =
        some (f', ((evs.flatMap LineEvent.bytes).drop s.delivered.length).take
          (min n s.fifo.calcRecvedLen)) := by
  intro s
  have hlinked : Linked s :=
    Run.invariant_of_alongRun (linked_opened hpos hhalf) (fun s ev hs hq => hs.step ev hq.1 hq.2) h
  have harr : s.arrived = evs.flatMap LineEvent.bytes := arrived_stateAfter evs _
  have hcalc := hlinked.counts.calcRecvedLen
  have hle := hlinked.le
  refine ⟨?_, by omega, fun n => ?_⟩
  · rw [← harr]
    exact hlinked.text
  · obtain ⟨f', hread, -⟩ := hlinked.read n
    rw [← harr, hcalc]
    exact ⟨f', hread⟩

/-- Three bytes into a buffer of four, served on the idle line, and two of
them read; two more, over the end of the buffer. -/
theorem reception_delivers_four :
    let evs := [LineEvent.rx .byte 1, .rx .byte 2, .rx .byte 3, .rx .lineIdle 0, .rx .idleIrq 0,
      .read 2, .rx .byte 4, .rx .completeIrq 0, .rx .byte 5]
    let s := Run.stateAfter Line.step (Line.opened 4) evs
    s.delivered = [1, 2] ∧ s.delivered.length + s.fifo.calcRecvedLen = s.uart.served := by
  intro evs s
  have h := reception_delivers (show 0 < 4 by omega) (by omega) evs (by decide)
  refine ⟨?_, h.2.1⟩
  rw [h.1]
  rfl

end Uart

end RtSpark
