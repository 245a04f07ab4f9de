import RtSpark.Kernel.Heap
import RtSpark.Kernel.Model.Objects
/-!
# The heap keeps what the program holds

`Holds` relates the line of blocks to what the program holds: every block in
use backs one pointer, with room for the words asked for and with what the
program left in them. Each call keeps the relation, so it holds throughout
every run, and the program may forget that the allocator writes its headers
between its objects.
-/

namespace RtSpark

namespace Kernel

open Blocks RtSmallMem

/-- The heap is the line `bs`, and backs what the program holds. -/
structure Holds (m : RtSmallMem) (o : Objects) (bs : List Block) : Prop where
  represents : Represents m bs
  known : ∀ p, o p ≠ none ↔ ∃ e ∈ live 0 bs, p = e.1 + 12
  room : ∀ e ∈ live 0 bs, ∀ ws, o (e.1 + 12) = some ws → 0 < ws.length ∧ 12 + 4 * ws.length ≤ e.2
  data : ∀ p ws, o p = some ws → ∀ i (hi : i < ws.length), m.heap (p + 4 * i) = ws[i]

variable {m m' : RtSmallMem} {o o' : Objects} {bs pre post : List Block} {b : Block} {n p k i : ℕ}
  {ws old : List ℕ} {heap heap' : ℕ → ℕ}

@[simp] theorem length_held : (held old heap p k).length = k := by simp [held]

theorem getElem_held (hi : i < (held old heap p k).length) :
    (held old heap p k)[i] = (old[i]?).getD (heap (p + 4 * i)) := by simp [held]

theorem Holds.wide (h : Holds m o bs) {e : ℕ × ℕ} (he : e ∈ live 0 bs) : 12 ≤ e.2 :=
  len_of_mem_live h.represents.wide he

/-- A block in use is told by where it begins. -/
theorem Holds.eq_of_fst (h : Holds m o bs) {e e' : ℕ × ℕ} (he : e ∈ live 0 bs)
    (he' : e' ∈ live 0 bs) (heq : e.1 = e'.1) : e = e' := by
  by_contra hne
  have hdis := disjoint_of_mem_live he he' hne
  have h1 := h.wide he
  have h2 := h.wide he'
  omega

/-- The block behind a pointer. -/
theorem Holds.exists_block (h : Holds m o bs) (hp : o p = some ws) :
    ∃ pre n post, bs = pre ++ ⟨n, true⟩ :: post ∧ p = Blocks.total pre + 12 ∧
      0 < ws.length ∧ 12 + 4 * ws.length ≤ n := by
  obtain ⟨e, he, rfl⟩ := (h.known p).1 (by rw [hp]; exact Option.some_ne_none _)
  obtain ⟨pre, post, hbs, hfst⟩ := split_of_mem_live (p := 0) (x := e.1) (q := e.2) he
  obtain ⟨hpos, hroom⟩ := h.room e he ws hp
  exact ⟨pre, e.2, post, hbs, by rw [hfst, Nat.zero_add], hpos, hroom⟩

/-! ## Words of the program's own -/

/-- The headers do not lie in the data of a block. -/
theorem Headers.of_data {addr q p : ℕ} (h : Headers addr heap q p bs)
    (hwide : ∀ b ∈ bs, 12 ≤ b.len)
    (hsame : ∀ a, p ≤ a → a < p + Blocks.total bs →
      (∀ e ∈ live p bs, ¬ (e.1 + 12 ≤ a ∧ a < e.1 + e.2)) → heap' a = heap a) :
    Headers addr heap' q p bs := by
  induction bs generalizing q p with
  | nil => trivial
  | cons b bs ih =>
    obtain ⟨hb, hbs⟩ := h
    have hlen := hwide b (List.mem_cons_self ..)
    have hlive : ∀ e ∈ live p (b :: bs), e = (p, b.len) ∨ e ∈ live (p + b.len) bs := by
      intro e he
      cases hu : b.used with
      | false => exact Or.inr (live_free hu ▸ he)
      | true =>
        rw [live_used hu] at he
        exact List.mem_cons.1 he
    have hcell : ∀ a, p ≤ a → a < p + 12 → heap' a = heap a := by
      intro a h1 h2
      refine hsame a h1 (by rw [total_cons]; omega) fun e he => ?_
      rcases hlive e he with rfl | he
      · rintro ⟨h3, -⟩
        change p + 12 ≤ a at h3
        omega
      · have := bounds_of_mem_live he
        omega
    refine ⟨⟨?_, ?_, ?_⟩, ih hbs (fun c hc => hwide c (List.mem_cons_of_mem _ hc)) ?_⟩
    · rw [hcell p (by omega) (by omega), hb.poolPtr]
    · rw [hcell (p + 4) (by omega) (by omega), hb.next]
    · rw [hcell (p + 8) (by omega) (by omega), hb.prev]
    · intro a h1 h2 h3
      refine hsame a (by omega) (by rw [total_cons]; omega) fun e he => ?_
      rcases hlive e he with rfl | he
      · rintro ⟨-, h4⟩
        change a < p + b.len at h4
        omega
      · exact h3 e he

/-- Writing into the data of blocks in use leaves the line alone. -/
theorem Represents.of_data (h : Represents m bs)
    (hsame : ∀ a, (∀ e ∈ live 0 bs, ¬ (e.1 + 12 ≤ a ∧ a < e.1 + e.2)) → heap' a = m.heap a) :
    Represents { m with heap := heap' } bs where
  headers := h.headers.of_data h.wide fun a _ _ ha => hsame a ha
  endUsed := by
    have htot := h.total
    refine (hsame _ fun e he => ?_).trans h.endUsed
    have := bounds_of_mem_live he
    show ¬ (e.1 + 12 ≤ m.heapEnd ∧ m.heapEnd < e.1 + e.2)
    omega
  total := h.total
  heapEnd := h.heapEnd
  wide := h.wide
  aligned := h.aligned
  base := h.base
  addr := h.addr
  tidy := h.tidy
  lfree := h.lfree
  used := h.used
  max := h.max

/-- **The program writes into an object of its own.** -/
theorem Holds.write (h : Holds m o bs) (heap' : ℕ → ℕ) (hp : o p = some ws) (hk : ws.length = k)
    (hout : ∀ a, a < p ∨ p + 4 * k ≤ a → heap' a = m.heap a) :
    Holds { m with heap := heap' } (Function.update o p (some (held [] heap' p k))) bs := by
  obtain ⟨pre, n, post, rfl, rfl, hpos, hroom⟩ := h.exists_block hp
  have hmem : (Blocks.total pre, n) ∈ live 0 (pre ++ ⟨n, true⟩ :: post) := by
    rw [live_middle_used]
    exact List.mem_append_right _ (List.mem_cons_self ..)
  refine ⟨h.represents.of_data fun a ha => hout a ?_, fun p => ?_, fun e he vs hvs => ?_,
    fun p vs hvs i hi => ?_⟩
  · have := ha _ hmem
    change ¬ (Blocks.total pre + 12 ≤ a ∧ a < Blocks.total pre + n) at this
    omega
  · rw [← h.known p, Function.update_apply]
    split_ifs with heq
    · rw [heq, hp]
      exact iff_of_true (Option.some_ne_none _) (Option.some_ne_none _)
    · exact Iff.rfl
  · rw [Function.update_apply] at hvs
    split_ifs at hvs with heq
    · cases hvs
      rw [length_held]
      have := h.room e he ws (by rw [heq, hp])
      omega
    · exact h.room e he vs hvs
  · rw [Function.update_apply] at hvs
    split_ifs at hvs with heq
    · cases hvs
      rw [getElem_held, heq]
      rfl
    · -- another object lies elsewhere
      obtain ⟨e, he, rfl⟩ := (h.known p).1 (by rw [hvs]; exact Option.some_ne_none _)
      have hroom' := h.room e he vs hvs
      have hne : e ≠ (Blocks.total pre, n) := fun hc => heq (by rw [hc])
      have hdis := disjoint_of_mem_live he hmem hne
      change e.1 + e.2 ≤ Blocks.total pre ∨ Blocks.total pre + n ≤ e.1 at hdis
      rw [← h.data _ vs hvs i hi]
      exact hout _ (by omega)

/-! ## The calls -/

theorem wordsOf_pos (hn : 0 < n) : 0 < wordsOf n := by unfold wordsOf; omega

/-- Short of the wrap, rounding up is rounding to whole words. -/
theorem rtAlign_eq (hn : n + 3 < 2 ^ 32) : rtAlign n = 4 * wordsOf n := by
  unfold rtAlign rtAlignSize Word.u32 wordsOf
  omega

theorem le_request_of_lt (hn : n + 3 < 2 ^ 32) : 4 * wordsOf n ≤ request n := by
  rw [← rtAlign_eq hn]
  exact le_max_left _ _

/-- An object whose block kept its data still holds what it held. -/
theorem Holds.data_of_same (h : Holds m o bs) {es : List (ℕ × ℕ)}
    (hsame : SameData es m.heap heap') {e : ℕ × ℕ} (he : (e.1, k) ∈ es) (hp : o (e.1 + 12) = some ws) (hi : i < ws.length)
    (hik : 12 + 4 * i < k) : heap' (e.1 + 12 + 4 * i) = ws[i] := by
  rw [← h.data _ ws hp i hi]
  refine hsame _ he _ ?_ ?_
  · show e.1 + 12 ≤ _
    omega
  · show _ < e.1 + k
    omega

/-- **One block in use is new, or of a new length**; the others stay. The
pointer to it is held from now on, for `k` words, of which the first are
those of `old`. -/
theorem Holds.replace (h : Holds m o bs) (old : List ℕ) {bs' : List Block} {c : ℕ} (hrep : Represents m' bs')
    (hmem : ∀ e, e ∈ live 0 bs' ↔ e = (p, c) ∨ e ∈ live 0 bs ∧ e.1 ≠ p)
    (hsame : SameData (live 0 bs') m.heap m'.heap) (hk : 0 < k) (hkc : 12 + 4 * k ≤ c)
    (hold : ∀ i (hi : i < old.length), i < k → m'.heap (p + 12 + 4 * i) = old[i]) :
    Holds m' (Function.update o (p + 12) (some (held old m'.heap (p + 12) k))) bs' := by
  refine ⟨hrep, fun q => ?_, fun e he vs hvs => ?_, fun q vs hvs i hi => ?_⟩
  · rw [Function.update_apply]
    split_ifs with heq
    · exact iff_of_true (Option.some_ne_none _) ⟨_, (hmem _).2 (Or.inl rfl), heq⟩
    · rw [h.known q]
      constructor
      · rintro ⟨e, he, rfl⟩
        exact ⟨e, (hmem e).2 (Or.inr ⟨he, fun hc => heq (by rw [hc])⟩), rfl⟩
      · rintro ⟨e, he, rfl⟩
        rcases (hmem e).1 he with rfl | ⟨he, -⟩
        · exact absurd rfl heq
        · exact ⟨e, he, rfl⟩
  · rw [Function.update_apply] at hvs
    rcases (hmem e).1 he with rfl | ⟨he, hne⟩
    · rw [if_pos rfl] at hvs
      cases hvs
      rw [length_held]
      exact ⟨hk, hkc⟩
    · rw [if_neg (by omega)] at hvs
      exact h.room e he vs hvs
  · rw [Function.update_apply] at hvs
    split_ifs at hvs with heq
    · cases hvs
      rw [getElem_held, heq]
      rw [length_held] at hi
      by_cases hio : i < old.length
      · rw [List.getElem?_eq_getElem hio, Option.getD_some]
        exact hold i hio hi
      · rw [List.getElem?_eq_none (Nat.not_lt.1 hio), Option.getD_none]
    · obtain ⟨e, he, rfl⟩ := (h.known q).1 (by rw [hvs]; exact Option.some_ne_none _)
      have hroom' := h.room e he vs hvs
      have he' : e ∈ live 0 bs' := (hmem e).2 (Or.inr ⟨he, fun hc => heq (by rw [hc])⟩)
      exact h.data_of_same hsame he' hvs hi (by omega)

/-- **`malloc`**: a pointer that was not held, with room for the request. -/
theorem Holds.alloc (h : Holds m o bs) (hn : 0 < n) (hk : 0 < k) (hkn : 4 * k ≤ request n) :
    (∃ m' p bs', rtSmemAlloc m n = some (m', some p) ∧ o p = none ∧
      Holds m' (Function.update o p (some (held [] m'.heap p k))) bs' ∧
      SameHeap m m' ∧ (∀ e ∈ live 0 bs, e ∈ live 0 bs') ∧
      SameData (live 0 bs) m.heap m'.heap) ∨
    rtSmemAlloc m n = some (m, none) := by
  rcases h.represents.alloc hn with
    ⟨pre, b, post, rfl, ⟨hb, hroom⟩, -, m', hm', hsm, hrep, hsame⟩ | ⟨-, hfail⟩
  · obtain ⟨c, hc, hcb, hlive, hlive0, -, -⟩ :=
      live_carve (p := 0) pre post 24 hroom hb
    rw [Nat.zero_add] at hlive hlive0
    have hfst : ∀ e ∈ live 0 (pre ++ b :: post), e.1 ≠ Blocks.total pre := by
      intro e he
      have hlen := h.wide he
      rw [hlive0] at he
      rcases List.mem_append.1 he with he | he
      · have := bounds_of_mem_live he
        omega
      · have := bounds_of_mem_live he
        omega
    have hmem : ∀ e, e ∈ live 0 (pre ++ (carve (request n + 12) 24 b ++ post)) ↔
        e = (Blocks.total pre, c) ∨ e ∈ live 0 (pre ++ b :: post) ∧ e.1 ≠ Blocks.total pre := by
      intro e
      rw [and_iff_left_of_imp (hfst e), hlive, hlive0]
      simp only [List.mem_append, List.mem_cons]
      tauto
    have hnone : o (Blocks.total pre + 12) = none := by
      by_contra hne
      obtain ⟨e, he, heq⟩ := (h.known _).1 hne
      exact hfst e he (by omega)
    have hkeep : ∀ e ∈ live 0 (pre ++ b :: post),
        e ∈ live 0 (pre ++ (carve (request n + 12) 24 b ++ post)) :=
      fun e he => (hmem e).2 (Or.inr ⟨he, hfst e he⟩)
    exact Or.inl ⟨m', _, _, hm', hnone,
      h.replace [] hrep hmem hsame hk (by omega) (fun i hi => absurd hi (Nat.not_lt_zero i)),
      hsm, hkeep, hsame.mono hkeep⟩
  · exact Or.inr hfail

/-- **`free`**: the pointer is held no longer. -/
theorem Holds.free (h : Holds m o bs) (hp : o p ≠ none) :
    ∃ m' bs', rtSmemFree m (some p) = some m' ∧ Holds m' (Function.update o p none) bs' ∧
      SameHeap m m' := by
  obtain ⟨ws, hws⟩ := Option.ne_none_iff_exists'.1 hp
  obtain ⟨pre, n, post, rfl, rfl, hpos, hroom⟩ := h.exists_block hws
  obtain ⟨m', hm', hsm, hrep, hsame⟩ := h.represents.free (by omega)
  have hmem : ∀ e, e ∈ live 0 (coalesce (pre ++ ⟨n, false⟩ :: post)) ↔
      e ∈ live 0 (pre ++ ⟨n, true⟩ :: post) ∧ e.1 ≠ Blocks.total pre := by
    intro e
    rw [live_coalesce, mem_live_middle_free _ _ fun a ha => ?_, Nat.zero_add]
    have := h.represents.wide a ha
    omega
  rw [← live_coalesce] at hsame
  refine ⟨m', _, hm', ⟨hrep, fun q => ?_, fun e he vs hvs => ?_, fun q vs hvs i hi => ?_⟩, hsm⟩
  · rw [Function.update_apply]
    split_ifs with heq
    · refine iff_of_false (fun hc => hc rfl) ?_
      rintro ⟨e, he, rfl⟩
      exact ((hmem e).1 he).2 (by omega)
    · rw [h.known q]
      constructor
      · rintro ⟨e, he, rfl⟩
        exact ⟨e, (hmem e).2 ⟨he, fun hc => heq (by rw [hc])⟩, rfl⟩
      · rintro ⟨e, he, rfl⟩
        exact ⟨e, ((hmem e).1 he).1, rfl⟩
  · obtain ⟨he, hne⟩ := (hmem e).1 he
    rw [Function.update_of_ne (by omega)] at hvs
    exact h.room e he vs hvs
  · rw [Function.update_apply] at hvs
    split_ifs at hvs with heq
    obtain ⟨e, he, rfl⟩ := (h.known q).1 (by rw [hvs]; exact Option.some_ne_none _)
    have hroom' := h.room e he vs hvs
    have he' := (hmem e).2 ⟨he, fun hc => heq (by rw [hc])⟩
    exact h.data_of_same hsame he' hvs hi (by omega)

/-- **Shrinking**: the pointer stays, with the first of its words. -/
theorem Holds.shrink {pre post : List Block} (h : Holds m o (pre ++ ⟨n, true⟩ :: post))
    (hp : o (Blocks.total pre + 12) = some ws) (hk : 0 < k) (hroom : 4 * k + 36 < n) :
    ∃ m' bs', m.shrink (Blocks.total pre) (n - 12) (4 * k) = some m' ∧
      Holds m' (Function.update o (Blocks.total pre + 12)
        (some (held ws m'.heap (Blocks.total pre + 12) k))) bs' ∧ SameHeap m m' := by
  obtain ⟨m', hm', hsm, hrep, hsame⟩ := h.represents.shrink (show 4 * k % 4 = 0 by omega) hroom
  have hlive : live 0 (pre ++ ⟨4 * k + 12, true⟩ :: ⟨n - (4 * k + 12), false⟩ :: post) =
      live 0 pre ++ (Blocks.total pre, 4 * k + 12) :: live (Blocks.total pre + n) post := by
    rw [live_middle_used, live_free rfl, Nat.add_assoc]
    show live 0 pre ++ (_, _) :: live (Blocks.total pre + (4 * k + 12 + (n - (4 * k + 12)))) post = _
    rw [Nat.add_sub_cancel' (by omega)]
  have hmem : ∀ e, e ∈ live 0 (coalesce
        (pre ++ ⟨4 * k + 12, true⟩ :: ⟨n - (4 * k + 12), false⟩ :: post)) ↔
      e = (Blocks.total pre, 4 * k + 12) ∨
        e ∈ live 0 (pre ++ ⟨n, true⟩ :: post) ∧ e.1 ≠ Blocks.total pre := by
    intro e
    have hfree := mem_live_middle_free (p := 0) (q := n) (e := e) pre post
      fun a ha => by
        have := h.represents.wide a ha
        omega
    rw [Nat.zero_add] at hfree
    rw [live_coalesce, hlive, ← hfree, live_middle_free]
    simp only [List.mem_append, List.mem_cons]
    tauto
  have hin : (Blocks.total pre, 4 * k + 12) ∈
      live 0 (pre ++ ⟨4 * k + 12, true⟩ :: ⟨n - (4 * k + 12), false⟩ :: post) := by
    rw [hlive]
    exact List.mem_append_right _ (List.mem_cons_self ..)
  refine ⟨m', _, hm', h.replace ws hrep hmem (by rwa [live_coalesce]) hk (by omega) fun i hi hik => ?_,
    hsm⟩
  exact h.data_of_same (e := (Blocks.total pre, n)) hsame hin hp hi (by omega)

/-- What `realloc` answers data moved to. -/
theorem Holds.move (h : Holds m o bs) (hp : o p = some ws) (size : ℕ) (hn : 0 < n) (hk : 0 < k)
    (hkn : 4 * k ≤ request n) (hsize : 4 * ws.length ≤ size) :
    (∃ m1 m' q bs', rtSmemAlloc m n = some (m1, some q) ∧
      rtSmemFree { m1 with heap := memcpy m1.heap q p (min size (4 * k)) } (some p) = some m' ∧
      Holds m' (Function.update (Function.update o p none) q (some (held ws m'.heap q k))) bs' ∧
      SameHeap m m' ∧ o q = none) ∨
    rtSmemAlloc m n = some (m, none) := by
  rcases h.alloc hn hk hkn with ⟨m1, q, bs1, hm1, hq, h1, hsm1, -, hsame1⟩ | hfail
  · have hne : p ≠ q := fun hc => by
      rw [hc, hq] at hp
      cases hp
    -- the copy stays within the new object
    have h2 := h1.write (p := q) (k := k) (memcpy m1.heap q p (min size (4 * k)))
      (Function.update_self ..) length_held fun a ha => if_neg (by omega)
    obtain ⟨m', bs', hm', h3, hsm2⟩ := h2.free (p := p) (by
      rw [Function.update_of_ne hne, Function.update_of_ne hne, hp]
      exact Option.some_ne_none _)
    rw [Function.update_idem, Function.update_comm (Ne.symm hne)] at h3
    refine Or.inl ⟨m1, m', q, bs', hm1, hm', ?_,
      hsm1.trans ⟨hsm2.addr, hsm2.heapPtr, hsm2.heapEnd, hsm2.memSizeAligned⟩, hq⟩
    have hheld : held [] (memcpy m1.heap q p (min size (4 * k))) q k = held ws m'.heap q k := by
      refine List.ext_getElem (by simp) fun i hi hi' => ?_
      have hik : i < k := by simpa using hi
      have hdata : m'.heap (q + 4 * i) = memcpy m1.heap q p (min size (4 * k)) (q + 4 * i) := by
        rw [h3.data q _ (Function.update_self ..) i hi, getElem_held]
        rfl
      rw [getElem_held, getElem_held, hdata]
      by_cases hio : i < ws.length
      · obtain ⟨e, he, rfl⟩ := (h.known p).1 (by rw [hp]; exact Option.some_ne_none _)
        have hroom := h.room e he ws hp
        have hold := h.data_of_same hsame1 he hp hio (by omega)
        have hcopy : memcpy m1.heap q (e.1 + 12) (min size (4 * k)) (q + 4 * i) =
            m1.heap (q + 4 * i - q + (e.1 + 12)) := if_pos (by omega)
        rw [List.getElem?_eq_getElem hio]
        show memcpy m1.heap q (e.1 + 12) (min size (4 * k)) (q + 4 * i) = ws[i]
        rw [hcopy, ← hold]
        congr 1
        omega
      · rw [List.getElem?_eq_none (Nat.not_lt.1 hio)]
        rfl
    rwa [hheld] at h3
  · exact Or.inr hfail

theorem drop_some (o : Objects) (p : ℕ) : o.drop (some p) = Function.update o p none := rfl

/-- **`realloc`**. -/
theorem Holds.realloc (h : Holds m o bs) (hn : n + 3 < 2 ^ 32) {rmem : Option ℕ}
    (hp : ∀ p ∈ rmem, o p ≠ none) :
    ∃ m' ans bs', rtSmemRealloc m rmem n = some (m', ans) ∧
      Holds m' (track o m'.heap (.realloc rmem n) ans) bs' ∧ SameHeap m m' ∧
      ∀ p ∈ ans, o p = none ∨ rmem = some p := by
  have hal := rtAlign_eq hn
  unfold rtSmemRealloc track
  rw [hal]
  by_cases hbig : m.memSizeAligned < 4 * wordsOf n
  · simp only [if_pos hbig, if_neg (show ¬ wordsOf n = 0 by omega)]
    exact ⟨m, none, bs, rfl, h, SameHeap.refl, fun _ hans => by cases hans⟩
  by_cases hzero : wordsOf n = 0
  · simp only [hzero, Nat.mul_zero, if_true]
    cases rmem with
    | none => exact ⟨m, none, bs, rfl, h, SameHeap.refl, fun _ hans => by cases hans⟩
    | some p =>
      obtain ⟨m', bs', hm', hh, hsm⟩ := h.free (hp p rfl)
      exact ⟨m', none, bs', by rw [hm']; rfl, hh, hsm, fun _ hans => by cases hans⟩
  have hpos : 0 < wordsOf n := Nat.pos_of_ne_zero hzero
  have hwords : wordsOf (4 * wordsOf n) = wordsOf n := by unfold wordsOf; omega
  have hreq : 4 * wordsOf n ≤ request (4 * wordsOf n) := by
    have := le_request_of_lt (n := 4 * wordsOf n) (by unfold wordsOf; omega)
    rwa [hwords] at this
  simp only [if_neg hbig, if_neg hzero, if_neg (show ¬ 4 * wordsOf n = 0 by omega)]
  cases rmem with
  | none =>
    rcases h.alloc (by omega) hpos hreq with ⟨m1, q, bs1, hm1, hq, h1, hsm, -⟩ | hfail
    · refine ⟨m1, some q, bs1, hm1, h1, hsm, fun p hans => Or.inl ?_⟩
      rwa [← Option.some.inj hans]
    · exact ⟨m, none, bs, hfail, h, SameHeap.refl, fun _ hans => by cases hans⟩
  | some p =>
    obtain ⟨ws, hws⟩ := Option.ne_none_iff_exists'.1 (hp p rfl)
    obtain ⟨pre, n0, post, rfl, rfl, hwpos, hroom⟩ := h.exists_block hws
    have hch := h.represents.toChained
    have htot := hch.total_split
    have hbase := hch.base
    have hmod := hch.total_mod
    change Blocks.total pre + n0 + Blocks.total post = m.heapEnd at htot
    have hptr : Blocks.total pre + 12 - sizeofStructMem = Blocks.total pre := rfl
    have hsize : m.next (Blocks.total pre) - Blocks.total pre - sizeofStructMem = n0 - 12 := by
      rw [hch.next]
      unfold sizeofStructMem
      show Blocks.total pre + n0 - Blocks.total pre - 12 = n0 - 12
      omega
    have hguard : (m.heapPtr + (Blocks.total pre + 12)) % rtAlignSize = 0 ∧
        Blocks.total pre + 12 < m.heapEnd := by
      unfold rtAlignSize
      omega
    simp only [if_pos hguard, hptr, hsize]
    have hold : (((some (Blocks.total pre + 12)).bind o).getD []) = ws := by
      show (o (Blocks.total pre + 12)).getD [] = ws
      rw [hws]
      rfl
    by_cases hsame : n0 - 12 = 4 * wordsOf n
    · -- the size it has
      have hmem : ∀ e, e ∈ live 0 (pre ++ ⟨n0, true⟩ :: post) ↔ e = (Blocks.total pre, n0) ∨
          e ∈ live 0 (pre ++ ⟨n0, true⟩ :: post) ∧ e.1 ≠ Blocks.total pre := by
        intro e
        have hin : (0 + Blocks.total pre, n0) ∈ live 0 (pre ++ ⟨n0, true⟩ :: post) :=
          mem_live_middle
        rw [Nat.zero_add] at hin
        constructor
        · intro he
          by_cases hfst : e.1 = Blocks.total pre
          · exact Or.inl (h.eq_of_fst he hin hfst)
          · exact Or.inr ⟨he, hfst⟩
        · rintro (rfl | ⟨he, -⟩)
          · exact hin
          · exact he
      have hh := h.replace ws h.represents hmem SameData.refl hpos (by omega)
        fun i hi _ => h.data _ ws hws i hi
      refine ⟨m, some (Blocks.total pre + 12), pre ++ ⟨n0, true⟩ :: post, if_pos hsame, ?_,
        SameHeap.refl, fun _ hans => Or.inr hans⟩
      simpa only [hold, drop_some, Function.update_idem] using hh
    · rw [if_neg hsame]
      by_cases hshrink : 4 * wordsOf n + sizeofStructMem + minSizeAligned < n0 - 12
      · obtain ⟨m', bs', hm', hh, hsm⟩ := h.shrink hws hpos (by
          unfold sizeofStructMem minSizeAligned at hshrink
          omega)
        refine ⟨m', some (Blocks.total pre + 12), bs', by rw [if_pos hshrink, hm']; rfl,
          ?_, hsm, fun _ hans => Or.inr hans⟩
        simpa only [hold, drop_some, Function.update_idem] using hh
      · rw [if_neg hshrink]
        rcases h.move hws (n0 - 12) (by omega) hpos hreq (by omega) with
          ⟨m1, m', q, bs', hm1, hm', hh, hsm, hq⟩ | hfail
        · refine ⟨m', some q, bs', by rw [hm1]; simp only [hm']; rfl, ?_, hsm, fun p hans => Or.inl ?_⟩
          · simpa only [hold, drop_some] using hh
          · rwa [← Option.some.inj hans]
        · exact ⟨m, none, _, by rw [hfail], h, SameHeap.refl, fun _ hans => by cases hans⟩

/-- **Every call that may be made is answered**, and keeps the relation. A
pointer answered is one that was not held, or the one resized. -/
theorem Holds.exec (h : Holds m o bs) {c : HeapCall} (hc : Allowed o c) :
    ∃ m' ans bs', exec m c = some (m', ans) ∧ Holds m' (track o m'.heap c ans) bs' ∧
      SameHeap m m' ∧ ∀ p ∈ ans, o p = none ∨ ∃ n, c = .realloc (some p) n := by
  cases c with
  | malloc n =>
    rcases Nat.eq_zero_or_pos n with rfl | hn
    · exact ⟨m, none, bs, rfl, h, SameHeap.refl, fun _ hans => by cases hans⟩
    · rcases h.alloc hn (wordsOf_pos hn) (le_request_of_lt hc) with
        ⟨m1, q, bs1, hm1, hq, h1, hsm, -⟩ | hfail
      · refine ⟨m1, some q, bs1, hm1, h1, hsm, fun p hans => Or.inl ?_⟩
        rwa [← Option.some.inj hans]
      · exact ⟨m, none, bs, hfail, h, SameHeap.refl, fun _ hans => by cases hans⟩
  | free rmem =>
    cases rmem with
    | none => exact ⟨m, none, bs, rfl, h, SameHeap.refl, fun _ hans => by cases hans⟩
    | some p =>
      obtain ⟨m', bs', hm', hh, hsm⟩ := h.free (hc p rfl)
      refine ⟨m', none, bs', ?_, hh, hsm, fun _ hans => by cases hans⟩
      show (rtSmemFree m (some p)).map _ = _
      rw [hm']
      rfl
  | realloc rmem n =>
    obtain ⟨m', ans, bs', hexec, hh, hsm, hans⟩ := h.realloc hc.1 hc.2
    refine ⟨m', ans, bs', hexec, hh, hsm, fun p hp => (hans p hp).imp_right fun hr => ⟨n, ?_⟩⟩
    rw [hr]
  | write p i v =>
    obtain ⟨ws, hws, hi⟩ := hc
    have hh := h.write (m.store (p + 4 * i) v).heap hws rfl fun a ha =>
      Function.update_of_ne (by omega) _ _
    refine ⟨m.store (p + 4 * i) v, none, bs, rfl, ?_, ⟨rfl, rfl, rfl, rfl⟩,
      fun _ hans => by cases hans⟩
    have hset : held [] (m.store (p + 4 * i) v).heap p ws.length = ws.set i v := by
      refine List.ext_getElem (by simp) fun j hj hj' => ?_
      rw [length_held] at hj
      rw [getElem_held, List.getElem_set]
      show Function.update m.heap (p + 4 * i) v (p + 4 * j) = _
      split_ifs with hij
      · rw [hij, Function.update_self]
      · rw [Function.update_of_ne (by omega), h.data p ws hws j hj]
    show Holds _ (Function.update o p ((o p).map fun ws => ws.set i v)) bs
    rw [hws, Option.map_some, ← hset]
    exact hh

/-- **The relation holds in every run**, and the heap stays where it is. -/
theorem Runs.exists_holds {m0 : RtSmallMem} (h0 : ∃ bs, Holds m0 (fun _ => none) bs)
    (h : Runs m0 m o) : ∃ bs, Holds m o bs ∧ SameHeap m0 m := by
  induction h with
  | init =>
    obtain ⟨bs, hh⟩ := h0
    exact ⟨bs, hh, SameHeap.refl⟩
  | call _ hallow hexec ih =>
    obtain ⟨bs, hh, hsm⟩ := ih
    obtain ⟨m', ans, bs', hexec', hh', hsm', -⟩ := hh.exec hallow
    obtain ⟨rfl, rfl⟩ := Prod.mk.inj (Option.some.inj (hexec.symm.trans hexec'))
    exact ⟨bs', hh', hsm.trans hsm'⟩

end Kernel

end RtSpark
