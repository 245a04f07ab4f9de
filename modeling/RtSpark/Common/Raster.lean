import Mathlib.Logic.Function.Basic
import Mathlib.Logic.Nontrivial.Defs
import Mathlib.Tactic.ByContra
import Mathlib.Data.Nat.Notation
import Mathlib.Data.List.Nodup
/-!
# Stores, and rasters filled through a window

A memory that receives a list of stores is its contents with each of
them made in turn; what it holds in the end is, key by key, either the
last value stored there or what it held before.

A window is a rectangle of cells filled row by row by a pointer that
moves on at every store and starts over behind the last cell. `pos` is
where the pointer stands after a number of stores.
-/

namespace RtSpark

/-! ## Stores -/

namespace Stores

variable {κ α : Type*} [DecidableEq κ] {f g : κ → α} {k : κ} {ws : List (κ × α)}

/-- The memory once the stores are made, in order. -/
def apply (f : κ → α) (ws : List (κ × α)) : κ → α :=
  ws.foldl (fun f w => Function.update f w.1 w.2) f

theorem apply_cons (f : κ → α) (w : κ × α) (ws : List (κ × α)) :
    apply f (w :: ws) = apply (Function.update f w.1 w.2) ws := rfl

/-- Where nothing is stored the memory is what it was. -/
theorem apply_of_notMem (h : k ∉ ws.map Prod.fst) : apply f ws k = f k := by
  induction ws generalizing f with
  | nil => rfl
  | cons w ws ih =>
    rw [List.map_cons, List.mem_cons, not_or] at h
    rw [apply_cons, ih h.2, Function.update_of_ne h.1]

/-- Where something is, what it was does not show. -/
theorem apply_of_mem (h : k ∈ ws.map Prod.fst) : apply f ws k = apply g ws k := by
  induction ws generalizing f g with
  | nil => cases h
  | cons w ws ih =>
    rw [apply_cons, apply_cons]
    by_cases hrest : k ∈ ws.map Prod.fst
    · exact ih hrest
    · rcases List.mem_cons.1 h with rfl | hmem
      · rw [apply_of_notMem hrest, apply_of_notMem hrest, Function.update_self,
          Function.update_self]
      · exact absurd hmem hrest

/-- **Lists of stores that leave every memory the same at a cell store
there alike.** -/
theorem mem_keys_iff_of_apply_eq [Nontrivial α] {vs : List (κ × α)}
    (h : ∀ f, apply f ws k = apply f vs k) : k ∈ ws.map Prod.fst ↔ k ∈ vs.map Prod.fst := by
  obtain ⟨a, b, hab⟩ := exists_pair_ne α
  constructor
  · intro hmem
    by_contra hnot
    have ha := h fun _ => a
    have hb := h fun _ => b
    rw [apply_of_notMem hnot] at ha hb
    exact hab (ha.symm.trans ((apply_of_mem hmem).trans hb))
  · intro hmem
    by_contra hnot
    have ha := h fun _ => a
    have hb := h fun _ => b
    rw [apply_of_notMem hnot] at ha hb
    exact hab (ha.trans ((apply_of_mem hmem).trans hb.symm))

/-- Distinct stores are all there in the end. -/
theorem apply_of_nodup {v : α} (hnd : (ws.map Prod.fst).Nodup) (h : (k, v) ∈ ws) :
    apply f ws k = v := by
  induction ws generalizing f with
  | nil => cases h
  | cons w ws ih =>
    rw [List.map_cons, List.nodup_cons] at hnd
    rw [apply_cons]
    rcases List.mem_cons.1 h with rfl | hmem
    · rw [apply_of_notMem hnd.1, Function.update_self]
    · exact ih hnd.2 hmem

/-- So where they are is what they stored, in their order. -/
theorem map_apply_keys (hnd : (ws.map Prod.fst).Nodup) :
    (ws.map Prod.fst).map (apply f ws) = ws.map Prod.snd := by
  rw [List.map_map]
  refine List.map_congr_left fun w hw => ?_
  exact apply_of_nodup hnd hw

/-- Stores of one value. -/
theorem apply_const (f : κ → α) (c : α) (ks : List κ) (k : κ) :
    apply f (ks.map fun k => (k, c)) k = if k ∈ ks then c else f k := by
  induction ks generalizing f with
  | nil => rw [if_neg List.not_mem_nil]; rfl
  | cons k' ks ih =>
    rw [List.map_cons, apply_cons, ih]
    by_cases hmem : k ∈ ks
    · rw [if_pos hmem, if_pos (List.mem_cons_of_mem _ hmem)]
    · rw [if_neg hmem]
      by_cases heq : k = k'
      · rw [heq, Function.update_self, if_pos (List.mem_cons_self ..)]
      · rw [Function.update_of_ne heq, if_neg]
        exact fun h => (List.mem_cons.1 h).elim heq hmem

end Stores

/-- Indexes in blocks, each where the one before it ends. -/
theorem flatMap_range_blocks (start len : ℕ → ℕ) (h0 : start 0 = 0)
    (hnext : ∀ i, start (i + 1) = start i + len i) (n : ℕ) :
    ((List.range n).flatMap fun i => (List.range (len i)).map fun t => start i + t) =
      List.range (start n) := by
  induction n with
  | zero => rw [h0]; rfl
  | succ n ih =>
    rw [List.range_succ, List.flatMap_append, ih, hnext, List.range_add]
    simp

/-! ## Windows -/

/-- The cells from column `x0` to `x1` and row `y0` to `y1`. -/
structure Window where
  x0 : ℕ
  x1 : ℕ
  y0 : ℕ
  y1 : ℕ
  cols : x0 ≤ x1
  rows : y0 ≤ y1

namespace Window

variable {w : Window} {q : ℕ × ℕ} {n : ℕ}

def width (w : Window) : ℕ := w.x1 - w.x0 + 1

def height (w : Window) : ℕ := w.y1 - w.y0 + 1

/-- The cell lies in the window. -/
def Has (w : Window) (q : ℕ × ℕ) : Prop :=
  (w.x0 ≤ q.1 ∧ q.1 ≤ w.x1) ∧ w.y0 ≤ q.2 ∧ q.2 ≤ w.y1

instance (w : Window) (q : ℕ × ℕ) : Decidable (w.Has q) :=
  inferInstanceAs (Decidable (_ ∧ _))

/-- The cell the pointer moves on to. -/
def next (w : Window) (q : ℕ × ℕ) : ℕ × ℕ :=
  if q.1 = w.x1 then (w.x0, if q.2 = w.y1 then w.y0 else q.2 + 1) else (q.1 + 1, q.2)

/-- Where the pointer stands after `k` stores from the window's origin. -/
def pos (w : Window) (k : ℕ) : ℕ × ℕ :=
  (w.x0 + k % w.width, w.y0 + k / w.width % w.height)

/-- The stores the values make through the window, from the `k`-th on. -/
def stores {α : Type*} (w : Window) (k : ℕ) : List α → List ((ℕ × ℕ) × α)
  | [] => []
  | v :: vs => (w.pos k, v) :: stores w (k + 1) vs

theorem width_pos (w : Window) : 0 < w.width := Nat.succ_pos _

theorem height_pos (w : Window) : 0 < w.height := Nat.succ_pos _

@[simp] theorem pos_zero (w : Window) : w.pos 0 = (w.x0, w.y0) := by
  simp [pos]

/-- Counting on within a row, and from a full row to the next one. -/
theorem succ_divMod {b : ℕ} (hb : 0 < b) (k : ℕ) :
    (k % b + 1 = b ∧ (k + 1) / b = k / b + 1 ∧ (k + 1) % b = 0) ∨
      (k % b + 1 < b ∧ (k + 1) / b = k / b ∧ (k + 1) % b = k % b + 1) := by
  have hlt := Nat.mod_lt k hb
  have hk := Nat.mod_add_div k b
  rcases Nat.lt_or_ge (k % b + 1) b with h | h
  · exact Or.inr ⟨h, (Nat.div_mod_unique hb).2 ⟨by omega, h⟩⟩
  · refine Or.inl ⟨by omega, (Nat.div_mod_unique hb).2 ⟨?_, hb⟩⟩
    rw [Nat.mul_succ]
    omega

theorem next_of_col (h : q.1 ≠ w.x1) : w.next q = (q.1 + 1, q.2) := if_neg h

theorem next_of_row (h : q.1 = w.x1) (h' : q.2 ≠ w.y1) : w.next q = (w.x0, q.2 + 1) := by
  rw [next, if_pos h, if_neg h']

theorem next_of_end (h : q.1 = w.x1) (h' : q.2 = w.y1) : w.next q = (w.x0, w.y0) := by
  rw [next, if_pos h, if_pos h']

/-- **Each store moves the pointer to the next cell.** -/
theorem next_pos (w : Window) (k : ℕ) : w.next (w.pos k) = w.pos (k + 1) := by
  have hcols : w.width = w.x1 - w.x0 + 1 := rfl
  have hrows : w.height = w.y1 - w.y0 + 1 := rfl
  have hx := w.cols
  have hy := w.rows
  rcases succ_divMod w.width_pos k with ⟨hfull, hdiv, hmod⟩ | ⟨hlt, hdiv, hmod⟩
  · have hcol : (w.pos k).1 = w.x1 := by simp only [pos]; omega
    rcases succ_divMod w.height_pos (k / w.width) with ⟨hend, -, hmod'⟩ | ⟨hlt', -, hmod'⟩
    · rw [next_of_end hcol (by simp only [pos]; omega), pos, hdiv, hmod, hmod']
      rfl
    · rw [next_of_row hcol (by simp only [pos]; omega), pos, pos, hdiv, hmod, hmod']
      rfl
  · rw [next_of_col (by simp only [pos]; omega), pos, pos, hdiv, hmod]
    rfl

/-- The pointer stays in the window. -/
theorem has_pos (w : Window) (k : ℕ) : w.Has (w.pos k) := by
  have hmod := Nat.mod_lt k w.width_pos
  have hmod' := Nat.mod_lt (k / w.width) w.height_pos
  have hcols := w.cols
  have hrows := w.rows
  simp only [Has, pos]
  unfold width height at *
  omega

/-- As many stores as the window has cells come to each of them. -/
theorem exists_pos (h : w.Has q) : ∃ k < w.width * w.height, w.pos k = q := by
  obtain ⟨⟨hx, hx'⟩, hy, hy'⟩ := h
  have hcol : q.1 - w.x0 < w.width := by unfold width; omega
  have hrow : q.2 - w.y0 < w.height := by unfold height; omega
  have hdivmod := (Nat.div_mod_unique w.width_pos
    (a := q.1 - w.x0 + w.width * (q.2 - w.y0))).2 ⟨rfl, hcol⟩
  refine ⟨q.1 - w.x0 + w.width * (q.2 - w.y0), ?_, ?_⟩
  · have hle : w.width * (q.2 - w.y0 + 1) ≤ w.width * w.height :=
      Nat.mul_le_mul_left _ hrow
    rw [Nat.mul_succ] at hle
    omega
  · simp only [pos, hdivmod.1, hdivmod.2, Nat.mod_eq_of_lt hrow]
    exact Prod.ext (by simp only; omega) (by simp only; omega)

/-- In its first row the pointer just moves right. -/
theorem pos_of_lt {k : ℕ} (h : k < w.width) : w.pos k = (w.x0 + k, w.y0) := by
  simp [pos, Nat.mod_eq_of_lt h, Nat.div_eq_of_lt h]

/-- A whole number of rows on it is as far in its row. -/
theorem pos_of_cell {i j : ℕ} (hi : i < w.width) (hj : j < w.height) :
    w.pos (j * w.width + i) = (w.x0 + i, w.y0 + j) := by
  have hdivmod := (Nat.div_mod_unique w.width_pos (a := j * w.width + i)).2
    ⟨by rw [Nat.add_comm, Nat.mul_comm], hi⟩
  rw [pos, hdivmod.1, hdivmod.2, Nat.mod_eq_of_lt hj]

theorem index_lt {i j : ℕ} (hi : i < w.width) (hj : j < w.height) :
    j * w.width + i < w.width * w.height := calc
  j * w.width + i < j * w.width + w.width := Nat.add_lt_add_left hi _
  _ = (j + 1) * w.width := (Nat.succ_mul j w.width).symm
  _ ≤ w.height * w.width := Nat.mul_le_mul_right _ hj
  _ = w.width * w.height := Nat.mul_comm ..

/-- Past the last cell it is back at the first. -/
theorem pos_full (w : Window) : w.pos (w.width * w.height) = (w.x0, w.y0) := by
  rw [pos, Nat.mul_mod_right, Nat.mul_div_cancel_left _ w.width_pos, Nat.mod_self]
  rfl

/-- And before it comes to no cell twice. -/
theorem pos_inj {k l : ℕ} (hk : k < w.width * w.height) (hl : l < w.width * w.height)
    (h : w.pos k = w.pos l) : k = l := by
  have hk' : k / w.width < w.height := Nat.div_lt_of_lt_mul hk
  have hl' : l / w.width < w.height := Nat.div_lt_of_lt_mul hl
  have hcol := (Prod.mk.inj h).1
  have hrow := (Prod.mk.inj h).2
  rw [Nat.mod_eq_of_lt hk', Nat.mod_eq_of_lt hl'] at hrow
  rw [← Nat.mod_add_div k w.width, ← Nat.mod_add_div l w.width, Nat.add_left_cancel hcol,
    Nat.add_left_cancel hrow]

/-! ## Stores through a window -/

section Stores

variable {α : Type*}

theorem stores_keys (w : Window) (k : ℕ) (vs : List α) :
    (w.stores k vs).map Prod.fst = (List.range' k vs.length).map w.pos := by
  induction vs generalizing k with
  | nil => rfl
  | cons v vs ih =>
    rw [stores, List.map_cons, ih, List.length_cons, List.range'_succ, List.map_cons]

/-- Values enough to fill the window reach exactly its cells. -/
theorem mem_keys_iff {vs : List α} (h : w.width * w.height ≤ vs.length) :
    q ∈ (w.stores 0 vs).map Prod.fst ↔ w.Has q := by
  rw [stores_keys]
  constructor
  · intro hmem
    obtain ⟨k, -, rfl⟩ := List.mem_map.1 hmem
    exact w.has_pos k
  · intro hhas
    obtain ⟨k, hk, rfl⟩ := exists_pos hhas
    exact List.mem_map.2 ⟨k, List.mem_range'_1.2 ⟨Nat.zero_le k, by omega⟩, rfl⟩

/-- No more values than the window has cells are stored apart. -/
theorem nodup_stores_keys {vs : List α} (h : vs.length ≤ w.width * w.height) :
    ((w.stores 0 vs).map Prod.fst).Nodup := by
  rw [stores_keys]
  refine List.Nodup.map_on (fun k hk l hl heq => ?_) List.nodup_range'
  have hk' := (List.mem_range'_1.1 hk).2
  have hl' := (List.mem_range'_1.1 hl).2
  exact pos_inj (by omega) (by omega) heq

/-- Each value is stored where the pointer stands when it comes. -/
theorem mem_stores {vs : List α} {v : α} {i : ℕ} (h : vs[i]? = some v) (k : ℕ) :
    (w.pos (k + i), v) ∈ w.stores k vs := by
  induction vs generalizing i k with
  | nil => cases h
  | cons u vs ih =>
    cases i with
    | zero =>
      cases h
      exact List.mem_cons_self ..
    | succ i =>
      have hrest := ih (i := i) h (k + 1)
      rw [Nat.add_assoc, Nat.add_comm 1 i] at hrest
      exact List.mem_cons_of_mem _ hrest

/-- The cells outside of the window stay as they are. -/
theorem apply_stores_of_not_has (f : ℕ × ℕ → α) (k : ℕ) (vs : List α) (hq : ¬ w.Has q) :
    Stores.apply f (w.stores k vs) q = f q := by
  refine Stores.apply_of_notMem fun hmem => hq ?_
  rw [stores_keys] at hmem
  obtain ⟨l, -, rfl⟩ := List.mem_map.1 hmem
  exact w.has_pos l

/-- **As many values as the window has cells fill it row by row.** -/
theorem apply_stores_cell (f : ℕ × ℕ → α) {vs : List α} (hlen : vs.length = w.width * w.height)
    {i j : ℕ} (hi : i < w.width) (hj : j < w.height) {v : α}
    (hv : vs[j * w.width + i]? = some v) :
    Stores.apply f (w.stores 0 vs) (w.x0 + i, w.y0 + j) = v := by
  have hmem := mem_stores (w := w) hv 0
  rw [Nat.zero_add, pos_of_cell hi hj] at hmem
  exact Stores.apply_of_nodup (nodup_stores_keys (Nat.le_of_eq hlen)) hmem

theorem stores_replicate (w : Window) (k n : ℕ) (v : α) :
    w.stores k (List.replicate n v) = ((List.range' k n).map w.pos).map fun q => (q, v) := by
  induction n generalizing k with
  | zero => rfl
  | succ n ih => rw [List.replicate_succ, stores, ih, List.range'_succ, List.map_cons,
      List.map_cons]

/-- Values that fit the first row lie along it. -/
theorem stores_of_le {vs : List α} (h : vs.length ≤ w.width) :
    w.stores 0 vs = vs.zipIdx.map fun v => ((w.x0 + v.2, w.y0), v.1) := by
  suffices hgen : ∀ k, k + vs.length ≤ w.width →
      w.stores k vs = (vs.zipIdx k).map fun v => ((w.x0 + v.2, w.y0), v.1) from
    hgen 0 (by omega)
  clear h
  induction vs with
  | nil => exact fun _ _ => rfl
  | cons v vs ih =>
    intro k hk
    rw [List.length_cons] at hk
    rw [stores, List.zipIdx_cons, List.map_cons, ih (k + 1) (by omega), pos_of_lt (by omega)]

end Stores

end Window

end RtSpark
