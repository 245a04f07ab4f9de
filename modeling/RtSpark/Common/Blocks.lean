import Mathlib.Algebra.Order.Group.Nat
import Mathlib.Data.List.Pairwise
import Mathlib.Data.List.Chain
import Mathlib.Tactic.Common
/-!
# A line cut into blocks

An allocator cuts its memory into blocks that follow one another, each in
use or free. Here such a line is the list of its blocks, and where a block
begins is the length of what stands before it. `live` lists the blocks in
use with the places they begin at, `lowest` is where the first free one
begins, and `coalesce` joins every free block to a free block behind it.
Joining leaves no two free blocks side by side (`tidy_coalesce`) and moves
no block in use (`live_coalesce`).
-/

namespace RtSpark

namespace Blocks

/-- A block: its length, and whether it is in use. -/
structure Block where
  len : ℕ
  used : Bool
  deriving DecidableEq, Repr

/-- The length of a line of blocks. -/
def total : List Block → ℕ
  | [] => 0
  | b :: bs => b.len + total bs

/-- The length in use. -/
def usedLen : List Block → ℕ
  | [] => 0
  | b :: bs => (if b.used then b.len else 0) + usedLen bs

/-- The blocks in use of a line that begins at `p`, as the place each
begins at and its length. -/
def live : ℕ → List Block → List (ℕ × ℕ)
  | _, [] => []
  | p, b :: bs => if b.used then (p, b.len) :: live (p + b.len) bs else live (p + b.len) bs

/-- Where the first free block of a line that begins at `p` begins; the end
of the line where none is free. -/
def lowest : ℕ → List Block → ℕ
  | p, [] => p
  | p, b :: bs => if b.used then lowest (p + b.len) bs else p

/-- Where the last block of a line that begins at `p` begins; `q` where the
line is empty. -/
def lastAt : ℕ → ℕ → List Block → ℕ
  | q, _, [] => q
  | _, p, b :: bs => lastAt p (p + b.len) bs

/-- Two neighbours of which one is in use. -/
def Apart (a b : Block) : Prop := a.used = true ∨ b.used = true

instance (a b : Block) : Decidable (Apart a b) := inferInstanceAs (Decidable (_ ∨ _))

/-- No two free blocks side by side. -/
def Tidy (bs : List Block) : Prop := bs.IsChain Apart

instance (bs : List Block) : Decidable (Tidy bs) := inferInstanceAs (Decidable (bs.IsChain Apart))

/-- A block put before a line, joined to the first block of it where both
are free. -/
def push (b : Block) : List Block → List Block
  | [] => [b]
  | c :: cs => if b.used || c.used then b :: c :: cs else ⟨b.len + c.len, false⟩ :: cs

/-- A free block taken for `cut` bytes: cut there where at least `least` are
left over, taken whole otherwise. -/
def carve (cut least : ℕ) (b : Block) : List Block :=
  if cut + least ≤ b.len then [⟨cut, true⟩, ⟨b.len - cut, false⟩] else [⟨b.len, true⟩]

/-- Every free block joined to the free blocks behind it. -/
def coalesce (bs : List Block) : List Block := bs.foldr push []

variable {p q x : ℕ} {b c : Block} {as bs cs : List Block} {e e' : ℕ × ℕ}

/-! ## Lengths -/

@[simp] theorem total_nil : total [] = 0 := rfl

@[simp] theorem total_cons : total (b :: bs) = b.len + total bs := rfl

@[simp] theorem total_append : total (as ++ bs) = total as + total bs := by
  induction as with
  | nil => rw [List.nil_append, total_nil, Nat.zero_add]
  | cons a as ih => rw [List.cons_append, total_cons, total_cons, ih, Nat.add_assoc]

@[simp] theorem usedLen_nil : usedLen [] = 0 := rfl

theorem usedLen_cons : usedLen (b :: bs) = (if b.used then b.len else 0) + usedLen bs := rfl

@[simp] theorem usedLen_append : usedLen (as ++ bs) = usedLen as + usedLen bs := by
  induction as with
  | nil => rw [List.nil_append, usedLen_nil, Nat.zero_add]
  | cons a as ih => rw [List.cons_append, usedLen_cons, usedLen_cons, ih, Nat.add_assoc]

/-- Free blocks count for nothing. -/
theorem usedLen_of_free (h : ∀ b ∈ bs, b.used = false) : usedLen bs = 0 := by
  induction bs with
  | nil => rfl
  | cons b bs ih =>
    rw [usedLen_cons, h b (List.mem_cons_self ..), ih fun c hc => h c (List.mem_cons_of_mem _ hc)]
    rfl

theorem len_le_total (h : b ∈ bs) : b.len ≤ total bs := by
  induction bs with
  | nil => cases h
  | cons c cs ih =>
    rw [total_cons]
    rcases List.mem_cons.1 h with rfl | h
    · exact Nat.le_add_right ..
    · exact le_trans (ih h) (Nat.le_add_left ..)

/-- Blocks of at least `k` make a line of at least `k` times as many. -/
theorem length_le_total {k : ℕ} (h : ∀ b ∈ bs, k ≤ b.len) : k * bs.length ≤ total bs := by
  induction bs with
  | nil => simp
  | cons b bs ih =>
    have hb := h b (List.mem_cons_self ..)
    have hbs := ih fun c hc => h c (List.mem_cons_of_mem _ hc)
    rw [total_cons, List.length_cons, Nat.mul_succ]
    omega

/-! ## The blocks in use -/

theorem live_used (h : b.used = true) : live p (b :: bs) = (p, b.len) :: live (p + b.len) bs := by
  rw [live, if_pos h]

theorem live_free (h : b.used = false) : live p (b :: bs) = live (p + b.len) bs := by
  rw [live, if_neg (by rw [h]; exact Bool.false_ne_true)]

theorem live_append : live p (as ++ bs) = live p as ++ live (p + total as) bs := by
  induction as generalizing p with
  | nil => rfl
  | cons a as ih =>
    rw [List.cons_append, live, live, ih, total_cons, Nat.add_assoc]
    cases a.used <;> rfl

/-- A block in use lies on the line. -/
theorem bounds_of_mem_live (h : e ∈ live p bs) : p ≤ e.1 ∧ e.1 + e.2 ≤ p + total bs := by
  induction bs generalizing p with
  | nil => cases h
  | cons b bs ih =>
    rw [total_cons]
    have hrest : e ∈ live (p + b.len) bs → p ≤ e.1 ∧ e.1 + e.2 ≤ p + (b.len + total bs) := by
      intro h
      obtain ⟨h1, h2⟩ := ih h
      omega
    cases hb : b.used with
    | false => exact hrest (live_free hb ▸ h)
    | true =>
      rw [live_used hb] at h
      rcases List.mem_cons.1 h with rfl | h
      · exact ⟨le_refl _, by show p + b.len ≤ _; omega⟩
      · exact hrest h

/-- **The blocks in use follow one another.** -/
theorem pairwise_live : (live p bs).Pairwise fun e e' => e.1 + e.2 ≤ e'.1 := by
  induction bs generalizing p with
  | nil => exact List.Pairwise.nil
  | cons b bs ih =>
    cases hb : b.used with
    | false => rw [live_free hb]; exact ih
    | true =>
      rw [live_used hb]
      exact List.Pairwise.cons (fun _ he => (bounds_of_mem_live he).1) ih

/-- A block in use cuts the line in two. -/
theorem split_of_mem_live (h : (x, q) ∈ live p bs) :
    ∃ pre post, bs = pre ++ ⟨q, true⟩ :: post ∧ x = p + total pre := by
  induction bs generalizing p with
  | nil => cases h
  | cons b bs ih =>
    have hrest : (x, q) ∈ live (p + b.len) bs →
        ∃ pre post, b :: bs = pre ++ ⟨q, true⟩ :: post ∧ x = p + total pre := by
      intro h
      obtain ⟨pre, post, hbs, hx⟩ := ih h
      exact ⟨b :: pre, post, by rw [hbs]; rfl, by rw [total_cons, hx]; omega⟩
    cases hb : b.used with
    | false => exact hrest (live_free hb ▸ h)
    | true =>
      rw [live_used hb] at h
      rcases List.mem_cons.1 h with h | h
      · obtain ⟨rfl, rfl⟩ := Prod.mk.inj h
        exact ⟨[], bs, by rw [← hb]; rfl, rfl⟩
      · exact hrest h

theorem mem_live_middle : (p + total as, q) ∈ live p (as ++ ⟨q, true⟩ :: bs) := by
  rw [live_append, live_used rfl]
  exact List.mem_append_right _ (List.mem_cons_self ..)

theorem len_of_mem_live {k : ℕ} (hlen : ∀ b ∈ bs, k ≤ b.len) (h : e ∈ live p bs) : k ≤ e.2 := by
  obtain ⟨pre, post, rfl, -⟩ := split_of_mem_live h
  exact hlen ⟨e.2, true⟩ (by simp)

/-- Of two blocks in use one ends before the other begins. -/
theorem disjoint_of_mem_live (he : e ∈ live p bs) (he' : e' ∈ live p bs) (hne : e ≠ e') :
    e.1 + e.2 ≤ e'.1 ∨ e'.1 + e'.2 ≤ e.1 := by
  let R : ℕ × ℕ → ℕ × ℕ → Prop := fun e e' => e.1 + e.2 ≤ e'.1 ∨ e'.1 + e'.2 ≤ e.1
  have : Std.Symm R := ⟨fun _ _ h => h.symm⟩
  have h : (live p bs).Pairwise R := pairwise_live.imp Or.inl
  exact h.forall he he' hne

/-- Free blocks are not among them. -/
theorem live_append_of_free (h : ∀ a ∈ as, a.used = false) :
    live p (as ++ bs) = live (p + total as) bs := by
  induction as generalizing p with
  | nil => rfl
  | cons a as ih =>
    rw [List.cons_append, live_free (h a (List.mem_cons_self ..)),
      ih fun c hc => h c (List.mem_cons_of_mem _ hc), total_cons, Nat.add_assoc]

/-- **Giving a block back takes its own entry out** and no other. -/
theorem mem_live_middle_free (as bs : List Block) (hpos : ∀ a ∈ as ++ ⟨q, true⟩ :: bs, 0 < a.len) :
    e ∈ live p (as ++ ⟨q, false⟩ :: bs) ↔
      e ∈ live p (as ++ ⟨q, true⟩ :: bs) ∧ e.1 ≠ p + total as := by
  have hq : 0 < q := hpos ⟨q, true⟩ (by simp)
  rw [live_append, live_append, live_free rfl, live_used rfl]
  simp only [List.mem_append, List.mem_cons]
  constructor
  · rintro (h | h)
    · have hb := bounds_of_mem_live h
      have hlen := len_of_mem_live (fun a ha => hpos a (List.mem_append_left _ ha)) h
      exact ⟨Or.inl h, by omega⟩
    · have hb := bounds_of_mem_live h
      change p + total as + q ≤ e.1 ∧ _ at hb
      exact ⟨Or.inr (Or.inr h), by omega⟩
  · rintro ⟨h | rfl | h, hne⟩
    · exact Or.inl h
    · exact absurd rfl hne
    · exact Or.inr h

/-! ## The first free block -/

theorem lowest_used (h : b.used = true) : lowest p (b :: bs) = lowest (p + b.len) bs := by
  rw [lowest, if_pos h]

theorem lowest_free (h : b.used = false) : lowest p (b :: bs) = p := by
  rw [lowest, if_neg (by rw [h]; exact Bool.false_ne_true)]

theorem le_lowest : p ≤ lowest p bs := by
  induction bs generalizing p with
  | nil => exact le_refl _
  | cons b bs ih =>
    cases hb : b.used with
    | false => rw [lowest_free hb]
    | true => rw [lowest_used hb]; exact le_trans (Nat.le_add_right ..) ih

/-- Past blocks in use the first free one is sought behind them. -/
theorem lowest_append_of_used (h : ∀ a ∈ as, a.used = true) :
    lowest p (as ++ bs) = lowest (p + total as) bs := by
  induction as generalizing p with
  | nil => rfl
  | cons a as ih =>
    rw [List.cons_append, lowest_used (h a (List.mem_cons_self ..)),
      ih fun c hc => h c (List.mem_cons_of_mem _ hc), total_cons, Nat.add_assoc]

/-- A free block before settles it. -/
theorem lowest_append_of_free (ha : b ∈ as) (hb : b.used = false) :
    lowest p (as ++ bs) = lowest p (as ++ cs) := by
  induction as generalizing p with
  | nil => cases ha
  | cons a as ih =>
    rw [List.cons_append, List.cons_append]
    cases hau : a.used with
    | false => rw [lowest_free hau, lowest_free hau]
    | true =>
      rw [lowest_used hau, lowest_used hau]
      refine ih ((List.mem_cons.1 ha).resolve_left ?_)
      rintro rfl
      rw [hb] at hau
      cases hau

/-- A free block before begins before. -/
theorem lowest_lt_of_free (bs : List Block) (ha : b ∈ as) (hb : b.used = false) (hlen : ∀ a ∈ as, 0 < a.len) :
    lowest p (as ++ bs) < p + total as := by
  induction as generalizing p with
  | nil => cases ha
  | cons a as ih =>
    have hpos := hlen a (List.mem_cons_self ..)
    rw [List.cons_append, total_cons]
    cases hau : a.used with
    | false => rw [lowest_free hau]; omega
    | true =>
      rw [lowest_used hau]
      have hb' : b ∈ as := by
        refine (List.mem_cons.1 ha).resolve_left ?_
        rintro rfl
        rw [hb] at hau
        cases hau
      have := ih (p := p + a.len) hb' fun c hc => hlen c (List.mem_cons_of_mem _ hc)
      omega

/-- The line splits before its first free block. -/
theorem exists_lowest_split (p : ℕ) (bs : List Block) :
    ∃ pre post, bs = pre ++ post ∧ (∀ a ∈ pre, a.used = true) ∧ lowest p bs = p + total pre ∧
      ∀ c ∈ post.head?, c.used = false := by
  induction bs generalizing p with
  | nil =>
    exact ⟨[], [], rfl, fun _ h => absurd h List.not_mem_nil, rfl, fun c hc => by cases hc⟩
  | cons b bs ih =>
    cases hb : b.used with
    | false =>
      refine ⟨[], b :: bs, rfl, fun _ h => absurd h List.not_mem_nil, lowest_free hb, fun c hc => ?_⟩
      rw [← Option.some.inj hc, hb]
    | true =>
      obtain ⟨pre, post, hbs, hpre, hlow, hpost⟩ := ih (p + b.len)
      refine ⟨b :: pre, post, by rw [hbs]; rfl, fun a ha => ?_, ?_, hpost⟩
      · rcases List.mem_cons.1 ha with rfl | ha
        · exact hb
        · exact hpre a ha
      · rw [lowest_used hb, hlow, total_cons, Nat.add_assoc]

/-- A block given back lies at the first free place or behind it. -/
theorem lowest_middle_free (hlen : ∀ a ∈ as, 0 < a.len) :
    lowest p (as ++ ⟨q, false⟩ :: bs) = min (lowest p (as ++ ⟨q, true⟩ :: bs)) (p + total as) := by
  by_cases h : ∃ a ∈ as, a.used = false
  · obtain ⟨a, ha, hau⟩ := h
    have hlt := lowest_lt_of_free (p := p) (⟨q, true⟩ :: bs) ha hau hlen
    have heq : lowest p (as ++ ⟨q, false⟩ :: bs) = lowest p (as ++ ⟨q, true⟩ :: bs) :=
      lowest_append_of_free ha hau
    rw [heq, min_eq_left hlt.le]
  · have hall : ∀ a ∈ as, a.used = true := fun a ha => by
      by_contra hau
      exact h ⟨a, ha, Bool.eq_false_iff.2 hau⟩
    rw [lowest_append_of_used hall, lowest_append_of_used hall, lowest_free rfl, lowest_used rfl,
      min_eq_right]
    exact le_trans (Nat.le_add_right ..) le_lowest

/-- The first free block is no later than any. -/
theorem lowest_le_of_free (as bs : List Block) (hlen : ∀ a ∈ as, 0 < a.len) (hb : b.used = false) :
    lowest p (as ++ b :: bs) ≤ p + total as := by
  obtain ⟨n, u⟩ := b
  subst hb
  rw [lowest_middle_free hlen]
  exact min_le_right _ _

/-! ## The last block -/

theorem lastAt_append : lastAt q p (as ++ bs) = lastAt (lastAt q p as) (p + total as) bs := by
  induction as generalizing q p with
  | nil => rfl
  | cons a as ih => rw [List.cons_append, lastAt, lastAt, ih, total_cons, Nat.add_assoc]

/-! ## Joining -/

theorem push_used (h : b.used = true ∨ c.used = true) : push b (c :: bs) = b :: c :: bs := by
  rw [push, if_pos (by rcases h with h | h <;> simp [h])]

theorem push_free (hb : b.used = false) (hc : c.used = false) :
    push b (c :: bs) = ⟨b.len + c.len, false⟩ :: bs := by
  rw [push, if_neg (by simp [hb, hc])]

theorem live_push : live p (push b bs) = live p (b :: bs) := by
  cases bs with
  | nil => rfl
  | cons c cs =>
    by_cases h : b.used = true ∨ c.used = true
    · rw [push_used h]
    · rw [not_or, Bool.not_eq_true, Bool.not_eq_true] at h
      rw [push_free h.1 h.2, live_free rfl, live_free h.1, live_free h.2, Nat.add_assoc]

theorem lowest_push : lowest p (push b bs) = lowest p (b :: bs) := by
  cases bs with
  | nil => rfl
  | cons c cs =>
    by_cases h : b.used = true ∨ c.used = true
    · rw [push_used h]
    · rw [not_or, Bool.not_eq_true, Bool.not_eq_true] at h
      rw [push_free h.1 h.2, lowest_free rfl, lowest_free h.1]

theorem usedLen_push : usedLen (push b bs) = usedLen (b :: bs) := by
  cases bs with
  | nil => rfl
  | cons c cs =>
    by_cases h : b.used = true ∨ c.used = true
    · rw [push_used h]
    · rw [not_or, Bool.not_eq_true, Bool.not_eq_true] at h
      simp [push_free h.1 h.2, usedLen_cons, h.1, h.2]

/-- The block at the head keeps its use. -/
theorem exists_push (b : Block) (bs : List Block) :
    ∃ n cs, push b bs = ⟨n, b.used⟩ :: cs ∧ b.len ≤ n := by
  cases bs with
  | nil => exact ⟨b.len, [], rfl, le_refl _⟩
  | cons c cs =>
    by_cases h : b.used = true ∨ c.used = true
    · exact ⟨b.len, c :: cs, push_used h, le_refl _⟩
    · rw [not_or, Bool.not_eq_true, Bool.not_eq_true] at h
      exact ⟨b.len + c.len, cs, by rw [push_free h.1 h.2, h.1], Nat.le_add_right ..⟩

theorem tidy_push (h : Tidy bs) : Tidy (push b bs) := by
  cases bs with
  | nil => exact List.isChain_singleton _
  | cons c cs =>
    by_cases hbc : b.used = true ∨ c.used = true
    · rw [push_used hbc]
      exact List.isChain_cons_cons.2 ⟨hbc, h⟩
    · rw [not_or, Bool.not_eq_true, Bool.not_eq_true] at hbc
      rw [push_free hbc.1 hbc.2]
      cases cs with
      | nil => exact List.isChain_singleton _
      | cons d ds =>
        obtain ⟨hcd, hds⟩ := List.isChain_cons_cons.1 h
        refine List.isChain_cons_cons.2 ⟨Or.inr (hcd.resolve_left ?_), hds⟩
        rw [hbc.2]
        exact Bool.false_ne_true

theorem coalesce_cons : coalesce (b :: bs) = push b (coalesce bs) := rfl

theorem tidy_coalesce : Tidy (coalesce bs) := by
  induction bs with
  | nil => exact List.isChain_nil
  | cons b bs ih => exact tidy_push ih

/-- **Joining moves no block in use.** -/
theorem live_coalesce : live p (coalesce bs) = live p bs := by
  induction bs generalizing p with
  | nil => rfl
  | cons b bs ih => rw [coalesce_cons, live_push, live, live, ih]

theorem lowest_coalesce : lowest p (coalesce bs) = lowest p bs := by
  induction bs generalizing p with
  | nil => rfl
  | cons b bs ih => rw [coalesce_cons, lowest_push, lowest, lowest, ih]

theorem usedLen_coalesce : usedLen (coalesce bs) = usedLen bs := by
  induction bs with
  | nil => rfl
  | cons b bs ih => rw [coalesce_cons, usedLen_push, usedLen_cons, usedLen_cons, ih]

/-- A tidy line is joined already. -/
theorem coalesce_of_tidy (h : Tidy bs) : coalesce bs = bs := by
  induction bs with
  | nil => rfl
  | cons b bs ih =>
    cases bs with
    | nil => rfl
    | cons c cs =>
      obtain ⟨hbc, hcs⟩ := List.isChain_cons_cons.1 h
      rw [coalesce_cons, ih hcs, push_used hbc]

/-- **A block given back joins its two neighbours** and no other. -/
theorem coalesce_middle (has : Tidy (as ++ [c])) (hbs : Tidy bs) :
    coalesce (as ++ c :: b :: bs) = as ++ push c (push b bs) := by
  have htail : coalesce (c :: b :: bs) = push c (push b bs) := by
    rw [coalesce_cons, coalesce_cons, coalesce_of_tidy hbs]
  induction as with
  | nil => exact htail
  | cons a as ih =>
    have hrest : Tidy (as ++ [c]) := has.tail
    rw [List.cons_append, coalesce_cons, ih hrest, List.cons_append]
    cases as with
    | nil =>
      obtain ⟨n, cs, hpush, -⟩ := exists_push c (push b bs)
      have hac : Apart a c := (List.isChain_cons_cons.1 has).1
      rw [List.nil_append, hpush]
      exact push_used hac
    | cons d ds =>
      have had : Apart a d := (List.isChain_cons_cons.1 has).1
      exact push_used had

/-! ## Taking -/

/-- What is taken of a block: the first of the pieces, in use, and of `cut`
bytes at least. -/
theorem exists_carve {cut : ℕ} (least : ℕ) (h : cut ≤ b.len) : ∃ n rest,
    carve cut least b = ⟨n, true⟩ :: rest ∧ cut ≤ n ∧ n + total rest = b.len ∧
      ∀ a ∈ rest, a.used = false ∧ least ≤ a.len := by
  unfold carve
  by_cases hcut : cut + least ≤ b.len
  · refine ⟨cut, [⟨b.len - cut, false⟩], if_pos hcut, le_refl _, by simp; omega, fun a ha => ?_⟩
    rw [List.mem_singleton] at ha
    subst ha
    exact ⟨rfl, by show least ≤ b.len - cut; omega⟩
  · exact ⟨b.len, [], if_neg hcut, h, by simp, fun a ha => absurd ha List.not_mem_nil⟩

/-- **Taking a free block adds one block in use.** -/
theorem live_carve {cut : ℕ} (as bs : List Block) (least : ℕ) (h : cut ≤ b.len) (hb : b.used = false) :
    ∃ n, cut ≤ n ∧ n ≤ b.len ∧
      live p (as ++ (carve cut least b ++ bs)) =
        live p as ++ (p + total as, n) :: live (p + total as + b.len) bs ∧
      live p (as ++ b :: bs) = live p as ++ live (p + total as + b.len) bs ∧
      usedLen (as ++ (carve cut least b ++ bs)) = usedLen (as ++ b :: bs) + n ∧
      total (carve cut least b) = b.len := by
  obtain ⟨n, rest, hcarve, hn, htotal, hrest⟩ := exists_carve least h
  refine ⟨n, hn, by omega, ?_, by rw [live_append, live_free hb], ?_, ?_⟩
  · rw [hcarve, List.cons_append, live_append, live_used rfl,
      live_append_of_free fun a ha => (hrest a ha).1, ← htotal]
    simp only [Nat.add_assoc]
  · rw [hcarve, List.cons_append, usedLen_append, usedLen_append, usedLen_cons, usedLen_cons,
      usedLen_append, usedLen_of_free fun a ha => (hrest a ha).1, hb]
    simp only [if_true, Bool.false_eq_true, if_false]
    omega
  · rw [hcarve, total_cons, ← htotal]

/-- A tidy line keeps its tidiness in its parts. -/
theorem Tidy.left (h : Tidy (as ++ bs)) : Tidy as := h.left_of_append

theorem Tidy.right (h : Tidy (as ++ bs)) : Tidy bs := h.right_of_append

/-- A block in use makes any two tidy lines one. -/
theorem Tidy.join (has : Tidy as) (hbs : Tidy bs) (hb : b.used = true) :
    Tidy (as ++ b :: bs) := by
  refine List.IsChain.append has (hbs.cons fun c _ => Or.inl hb) fun a _ c hc => Or.inr ?_
  rw [← Option.some.inj hc, hb]

/-- **Taking a free block keeps the line tidy.** -/
theorem tidy_carve (cut least : ℕ) (h : Tidy (as ++ b :: bs)) (hb : b.used = false) :
    Tidy (as ++ (carve cut least b ++ bs)) := by
  have has := h.left
  have hbs : Tidy (b :: bs) := h.right
  unfold carve
  split_ifs
  · show Tidy (as ++ ⟨cut, true⟩ :: ⟨b.len - cut, false⟩ :: bs)
    refine has.join ?_ rfl
    refine hbs.tail.cons fun c hc => Or.inr ?_
    obtain ⟨cs, rfl⟩ : ∃ cs, bs = c :: cs := by
      cases bs with
      | nil => cases hc
      | cons d ds => exact ⟨ds, by rw [Option.some.inj hc]⟩
    exact ((List.isChain_cons_cons.1 hbs).1).resolve_left (by simp [hb])
  · exact has.join (b := ⟨b.len, true⟩) hbs.tail rfl

/-- A tidy line with nothing in use is one free block. -/
theorem eq_singleton_of_live_nil (htidy : Tidy bs) (hpos : 0 < total bs) (h : live p bs = []) :
    bs = [⟨total bs, false⟩] := by
  cases bs with
  | nil => cases hpos
  | cons b bs =>
    cases hb : b.used with
    | true => rw [live_used hb] at h; cases h
    | false =>
      cases bs with
      | nil => simp [← hb]
      | cons c cs =>
        have hc : c.used = true := ((List.isChain_cons_cons.1 htidy).1).resolve_left (by simp [hb])
        rw [live_free hb, live_used hc] at h
        cases h

end Blocks

end RtSpark
