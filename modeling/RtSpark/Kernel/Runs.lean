import RtSpark.Kernel.Objects
/-!
# The heap over whole runs

What holds after any sequence of `malloc`, `free`, `realloc` and writes of
the program to what it holds, from `rt_smem_init` on.
-/

namespace RtSpark

namespace Kernel

open Blocks RtSmallMem

/-- The items of the heap, as the walk from its start to `heap_end` meets
them. -/
def RtSmallMem.items (m : RtSmallMem) : List Block :=
  (m.walk (m.heapEnd + 1) 0).map fun e => ⟨e.1, e.2⟩

variable {m m0 m' : RtSmallMem} {o : Objects} {bs pre post : List Block} {b : Block}
  {n p q k : ℕ} {ws vs : List ℕ} {beginAddr size : ℕ} {heap : ℕ → ℕ}

theorem Chained.walk_eq (h : Chained m (pre ++ bs)) (hfuel : bs.length < n) :
    m.walk n (Blocks.total pre) = bs.map fun b => (b.len, b.used) := by
  induction bs generalizing pre n with
  | nil =>
    have htot := h.total
    rw [List.append_nil] at htot
    obtain ⟨k, rfl⟩ : ∃ k, n = k + 1 := ⟨n - 1, by omega⟩
    exact if_pos htot
  | cons b bs ih =>
    have htot := h.total_split
    have hlen := h.len_middle.1
    have h' : Chained m ((pre ++ [b]) ++ bs) := by rwa [List.append_assoc]
    obtain ⟨k, rfl⟩ : ∃ k, n = k + 1 := ⟨n - 1, by omega⟩
    have hrest := ih h' (Nat.lt_of_succ_lt_succ hfuel)
    rw [total_append, total_cons, total_nil, Nat.add_zero] at hrest
    rw [RtSmallMem.walk, if_neg (by omega), h.next, h.memIsUsed, hrest, Nat.add_sub_cancel_left]
    rfl

/-- The walk meets the line the heap represents. -/
theorem Chained.items_eq (h : Chained m bs) : m.items = bs := by
  have h' : Chained m ([] ++ bs) := h
  have hlen := h'.length_lt
  have hwalk := h'.walk_eq (n := m.heapEnd + 1) (by omega)
  unfold RtSmallMem.items
  rw [total_nil] at hwalk
  rw [hwalk, List.map_map]
  exact List.map_id' bs

/-- What is set up is one free item. -/
theorem smemSetUp_represents {smallMem beginAlign memSize : ℕ} (h1 : smallMem % 2 = 0)
    (h2 : beginAlign % 4 = 0) (h3 : memSize % 4 = 0) :
    Represents (smemSetUp smallMem beginAlign memSize heap) [⟨memSize + 12, false⟩] := by
  have hheap : ∀ a, (smemSetUp smallMem beginAlign memSize heap).heap a =
      if a = memSize + 20 then memSize + 12 else if a = memSize + 16 then memSize + 12
      else if a = memSize + 12 then smallMem / 2 * 2 + 1 else if a = 8 then 0
      else if a = 4 then memSize + 12 else if a = 0 then smallMem / 2 * 2 else heap a := by
    intro a
    show Function.update (Function.update (Function.update (Function.update (Function.update
      (Function.update heap 0 _) 4 _) 8 0) (memSize + 12) _) (memSize + 12 + 4) _)
      (memSize + 12 + 8) _ a = _
    simp only [Function.update_apply, Nat.add_assoc, Nat.reduceAdd]
    rfl
  refine ⟨⟨⟨⟨?_, ?_, ?_⟩, trivial⟩, ?_, rfl, rfl, fun b hb => ?_, fun b hb => ?_, h2, h1⟩,
    List.isChain_singleton _, rfl, rfl, le_refl _⟩
  · rw [hheap, if_neg (by omega), if_neg (by omega), if_neg (by omega), if_neg (by omega),
      if_neg (by omega), if_pos rfl]
    rfl
  · rw [hheap, if_neg (by omega), if_neg (by omega), if_neg (by omega), if_neg (by omega),
      if_pos rfl, Nat.zero_add]
  · rw [hheap, if_neg (by omega), if_neg (by omega), if_neg (by omega), if_pos rfl]
  · show (smemSetUp smallMem beginAlign memSize heap).heap (memSize + 12) = smallMem / 2 * 2 + 1
    rw [hheap, if_neg (by omega), if_neg (by omega), if_pos rfl]
  · rw [List.mem_singleton] at hb
    subst hb
    exact Nat.le_add_left ..
  · rw [List.mem_singleton] at hb
    subst hb
    show (memSize + 12) % 4 = 0
    omega

/-- **Initialisation** leaves one free item, and a heap that is short of the
address space. -/
theorem rtSmemInit_represents (h : rtSmemInit beginAddr size heap = some m0) :
    Represents m0 [⟨m0.heapEnd, false⟩] ∧ m0.heapEnd + 12 < 2 ^ 32 := by
  have h1 := rtAlign_mod beginAddr
  have h2 := rtAlign_mod (Word.u32 (rtAlign beginAddr + sizeofSmallMem))
  have h3 : rtAlignDown (Word.u32 (beginAddr + size)) % 4 = 0 ∧
      rtAlignDown (Word.u32 (beginAddr + size)) < 2 ^ 32 := by
    unfold rtAlignDown rtAlignSize Word.u32
    omega
  have hh : sizeofStructMem = 12 := rfl
  simp only [rtSmemInit] at h
  generalize rtAlign (Word.u32 (rtAlign beginAddr + sizeofSmallMem)) = beginAlign at h h2
  generalize rtAlignDown (Word.u32 (beginAddr + size)) = endAlign at h h3
  by_cases hroom : 2 * sizeofStructMem < endAlign ∧
      Word.u32 (rtAlign beginAddr + sizeofSmallMem) ≤ endAlign - 2 * sizeofStructMem
  · rw [if_pos hroom] at h
    cases h
    refine ⟨smemSetUp_represents (by omega) h2 (by omega), ?_⟩
    show endAlign - beginAlign - 2 * sizeofStructMem + sizeofStructMem + 12 < 2 ^ 32
    omega
  · rw [if_neg hroom] at h
    cases h

theorem rtSmemInit_holds (h : rtSmemInit beginAddr size heap = some m0) :
    Holds m0 (fun _ => none) [⟨m0.heapEnd, false⟩] where
  represents := (rtSmemInit_represents h).1
  known p := iff_of_false (fun hc => hc rfl) fun ⟨_, he, _⟩ => by cases he
  room e he := by cases he
  data p ws hp := by cases hp

/-- The line behind a run. -/
theorem Runs.holds (h0 : rtSmemInit beginAddr size heap = some m0) (h : Runs m0 m o) :
    Holds m o m.items ∧ SameHeap m0 m := by
  obtain ⟨bs, hh, hsm⟩ := h.exists_holds ⟨_, rtSmemInit_holds h0⟩
  rw [hh.represents.toChained.items_eq]
  exact ⟨hh, hsm⟩

/-- A heap of a kilobyte. -/
def kilobyte : RtSmallMem := smemSetUp 8192 8248 944 fun _ => 0

theorem kilobyte_init : rtSmemInit 8192 1024 (fun _ => 0) = some kilobyte := rfl

/-- What a list of calls leads to is a state of the program. -/
theorem Runs.runCalls {s s' : RtSmallMem × Objects} {cs : List HeapCall} (h : Runs m0 s.1 s.2)
    (hrun : runCalls s cs = some s') : Runs m0 s'.1 s'.2 := by
  induction cs generalizing s with
  | nil =>
    cases hrun
    exact h
  | cons c cs ih =>
    simp only [Kernel.runCalls] at hrun
    split_ifs at hrun with hallowed
    obtain ⟨r, hexec, hrest⟩ := Option.bind_eq_some_iff.1 hrun
    exact ih (h.call hallowed hexec) hrest

/-- What is evaluated of a list of calls holds of a run. -/
theorem exists_runs {α : Type} (m0 : RtSmallMem) (cs : List HeapCall)
    (f : RtSmallMem × Objects → α) (v : α)
    (h : (Kernel.runCalls (m0, fun _ => none) cs).map f = some v) :
    ∃ m o, Runs m0 m o ∧ f (m, o) = v := by
  obtain ⟨⟨m, o⟩, hrun, hf⟩ := Option.map_eq_some_iff.1 h
  exact ⟨m, o, Runs.runCalls .init hrun, hf⟩

/-! ## What every run keeps -/

/-- **The heap keeps what the program holds.** After any run the words at
every pointer held are those the program left there, they lie in the heap,
aligned, no two objects held share a word, and what a call answers is a
pointer not held, or the one it was to resize. -/
theorem heap_keeps_objects (h0 : rtSmemInit beginAddr size heap = some m0) (h : Runs m0 m o) :
    (∀ p ws, o p = some ws → (∀ i (hi : i < ws.length), m.heap (p + 4 * i) = ws[i]) ∧
      p + 4 * ws.length ≤ m0.heapEnd ∧ (m0.heapPtr + p) % rtAlignSize = 0) ∧
    (∀ p q ws vs, o p = some ws → o q = some vs → p ≠ q →
      p + 4 * ws.length ≤ q ∨ q + 4 * vs.length ≤ p) ∧
    ∀ c, Allowed o c → ∀ m' p, exec m c = some (m', some p) →
      o p = none ∨ ∃ n, c = .realloc (some p) n := by
  obtain ⟨hh, hsm⟩ := h.holds h0
  refine ⟨fun p ws hp => ⟨hh.data p ws hp, ?_⟩, fun p q ws vs hp hq hne => ?_,
    fun c hc m' p hexec => ?_⟩
  · obtain ⟨pre, n, post, hbs, rfl, -, hroom⟩ := hh.exists_block hp
    have hch := hh.represents.toChained
    rw [hbs] at hch
    have htot := hch.total_split
    have hmod := hch.total_mod
    have hbase := hch.base
    rw [hsm.heapEnd] at htot
    rw [hsm.heapPtr] at hbase
    change Blocks.total pre + n + Blocks.total post = m0.heapEnd at htot
    unfold rtAlignSize
    omega
  · obtain ⟨e, he, rfl⟩ := (hh.known p).1 (by rw [hp]; exact Option.some_ne_none _)
    obtain ⟨e', he', rfl⟩ := (hh.known q).1 (by rw [hq]; exact Option.some_ne_none _)
    have hroom := hh.room e he ws hp
    have hroom' := hh.room e' he' vs hq
    have hdis := disjoint_of_mem_live he he' fun hc => hne (by rw [hc])
    omega
  · obtain ⟨m1, ans, -, hexec', -, -, hans⟩ := hh.exec hc
    have heq := Option.some.inj (hexec.symm.trans hexec')
    exact hans p (by rw [← (Prod.mk.inj heq).2]; rfl)

/-- Two objects, one of them written to, and the other given back. -/
theorem heap_keeps_objects_kilobyte :
    ∃ m o, Runs kilobyte m o ∧ o 12 = none ∧ o 36 = some [7, 0] ∧
      (∀ p ws, o p = some ws → (∀ i (hi : i < ws.length), m.heap (p + 4 * i) = ws[i]) ∧
        p + 4 * ws.length ≤ 956 ∧ (8248 + p) % 4 = 0) ∧
      (∀ p q ws vs, o p = some ws → o q = some vs → p ≠ q →
        p + 4 * ws.length ≤ q ∨ q + 4 * vs.length ≤ p) ∧
      ∀ c, Allowed o c → ∀ m' p, exec m c = some (m', some p) →
        o p = none ∨ ∃ n, c = .realloc (some p) n := by
  obtain ⟨m, o, h, hheld⟩ := exists_runs kilobyte
    [.malloc 8, .malloc 8, .write 36 0 7, .free (some 12)] (fun s => (s.2 12, s.2 36))
    (none, some [7, 0]) (by decide +kernel)
  exact ⟨m, o, h, congrArg Prod.fst hheld, congrArg Prod.snd hheld,
    heap_keeps_objects kilobyte_init h⟩

/-- **The items stay in order**, and no call that may be made fails an
assertion. After any run the walk from the start of the heap meets items
that fill it, no two free ones side by side; `lfree` is the first free one,
`used` the bytes in use, and `max` has not been passed. -/
theorem heap_stays_in_order (h0 : rtSmemInit beginAddr size heap = some m0) (h : Runs m0 m o) :
    (Blocks.total m.items = m0.heapEnd ∧ Tidy m.items ∧ m.lfree = lowest 0 m.items ∧
      m.used = usedLen m.items ∧ m.used ≤ m.max) ∧
    ∀ c, Allowed o c → ∃ m' ans, exec m c = some (m', ans) := by
  obtain ⟨hh, hsm⟩ := h.holds h0
  have hrep := hh.represents
  refine ⟨⟨?_, hrep.tidy, hrep.lfree, hrep.used, hrep.max⟩, fun c hc => ?_⟩
  · rw [hrep.total, hsm.heapEnd]
  · obtain ⟨m', ans, -, hexec, -⟩ := hh.exec hc
    exact ⟨m', ans, hexec⟩

/-- One object given back in front of one that is held: two free items. -/
theorem heap_stays_in_order_kilobyte :
    ∃ m o, Runs kilobyte m o ∧ m.items = [⟨24, false⟩, ⟨24, true⟩, ⟨908, false⟩] ∧
      (Blocks.total m.items = 956 ∧ Tidy m.items ∧ m.lfree = lowest 0 m.items ∧
        m.used = usedLen m.items ∧ m.used ≤ m.max) ∧
      ∀ c, Allowed o c → ∃ m' ans, exec m c = some (m', ans) := by
  obtain ⟨m, o, h, hitems⟩ := exists_runs kilobyte [.malloc 8, .malloc 8, .free (some 12)]
    (fun s => s.1.items) [⟨24, false⟩, ⟨24, true⟩, ⟨908, false⟩] (by decide +kernel)
  exact ⟨m, o, h, hitems, heap_stays_in_order kilobyte_init h⟩

/-- **`malloc` fails only where it must**, and takes the first place there
is. After any run a request is refused exactly when no free item has room
for it, and the heap is then left alone; otherwise the data of the first
item with room is answered, and that item alone is marked or cut. -/
theorem malloc_first_fit (h0 : rtSmemInit beginAddr size heap = some m0) (h : Runs m0 m o)
    (hn : 0 < n) :
    ((∀ c ∈ m.items, ¬ (c.used = false ∧ request n + 12 ≤ c.len)) ∧
      rtSmemAlloc m n = some (m, none)) ∨
    ∃ pre b post m', m.items = pre ++ b :: post ∧ (b.used = false ∧ request n + 12 ≤ b.len) ∧
      (∀ c ∈ pre, ¬ (c.used = false ∧ request n + 12 ≤ c.len)) ∧
      rtSmemAlloc m n = some (m', some (Blocks.total pre + 12)) ∧
      m'.items = pre ++ (carve (request n + 12) 24 b ++ post) := by
  rcases (h.holds h0).1.represents.alloc hn with
    ⟨pre, b, post, hbs, hb, hpre, m', hm', -, hrep, -⟩ | hfail
  · exact Or.inr ⟨pre, b, post, m', hbs, hb, hpre, hm', hrep.toChained.items_eq⟩
  · exact Or.inl hfail

/-- The first free item is too small for forty bytes, and the one behind two
used ones is cut. -/
theorem malloc_first_fit_kilobyte :
    ∃ m o m', Runs kilobyte m o ∧
      m.items = [⟨24, false⟩, ⟨112, true⟩, ⟨24, true⟩, ⟨796, false⟩] ∧
      rtSmemAlloc m 40 = some (m', some 172) ∧
      m'.items = [⟨24, false⟩, ⟨112, true⟩, ⟨24, true⟩, ⟨52, true⟩, ⟨744, false⟩] := by
  obtain ⟨m, o, h, hitems⟩ := exists_runs kilobyte
    [.malloc 8, .malloc 100, .malloc 8, .free (some 12)] (fun s => s.1.items)
    [⟨24, false⟩, ⟨112, true⟩, ⟨24, true⟩, ⟨796, false⟩] (by decide +kernel)
  rcases malloc_first_fit (n := 40) kilobyte_init h (by decide) with
    ⟨hno, -⟩ | ⟨pre, b, post, m', hbs, hb, hpre, hm', hitems'⟩
  · exact absurd (by decide) (hno ⟨796, false⟩ (by rw [hitems]; simp))
  · rw [hitems] at hbs
    -- the item that is taken has room, so it is the last
    have hsplit : pre = [⟨24, false⟩, ⟨112, true⟩, ⟨24, true⟩] ∧ b = ⟨796, false⟩ ∧ post = [] := by
      rcases pre with _ | ⟨c1, _ | ⟨c2, _ | ⟨c3, _ | ⟨c4, pre⟩⟩⟩⟩
      · cases hbs
        exact absurd hb (by decide)
      · cases hbs
        exact absurd hb (by decide)
      · cases hbs
        exact absurd hb (by decide)
      · cases hbs
        exact ⟨rfl, rfl, rfl⟩
      · simp at hbs
    obtain ⟨rfl, rfl, rfl⟩ := hsplit
    exact ⟨m, o, m', h, hitems, hm', hitems'⟩

/-- **Nothing leaks.** Once all is given back the heap is one free item
again, nothing counts as used, and a request for the whole of it is met. -/
theorem heap_leaks_nothing (h0 : rtSmemInit beginAddr size heap = some m0) (h : Runs m0 m o)
    (hall : ∀ p, o p = none) :
    m.items = [⟨m0.heapEnd, false⟩] ∧ m.used = 0 ∧
      ∀ n, 0 < n → request n ≤ m0.memSizeAligned → ∃ m', rtSmemAlloc m n = some (m', some 12) := by
  obtain ⟨hh, hsm⟩ := h.holds h0
  have hrep := hh.represents
  have hend := hrep.heapEnd
  have hlive : live 0 m.items = [] := by
    refine List.eq_nil_iff_forall_not_mem.2 fun e he => ?_
    exact (hh.known (e.1 + 12)).2 ⟨e, he, rfl⟩ (hall _)
  have hone : m.items = [⟨m0.heapEnd, false⟩] := by
    rw [← hsm.heapEnd, ← hrep.total]
    exact eq_singleton_of_live_nil hrep.tidy (by rw [hrep.total]; omega) hlive
  refine ⟨hone, by rw [hrep.used, hone]; rfl, fun n hn hreq => ?_⟩
  rw [← hsm.memSizeAligned] at hreq
  rcases hrep.alloc hn with ⟨pre, b, post, hbs, -, -, m', hm', -⟩ | ⟨hno, -⟩
  · rw [hone] at hbs
    cases pre with
    | nil => exact ⟨m', hm'⟩
    | cons c cs =>
      have hcons := (List.cons.inj hbs).2
      cases cs <;> cases hcons
  · refine absurd ⟨rfl, ?_⟩ (hno ⟨m0.heapEnd, false⟩ (by rw [hone]; exact List.mem_singleton_self _))
    show request n + 12 ≤ m0.heapEnd
    rw [← hsm.heapEnd]
    omega

/-- Two objects, given back in the order they were asked for. -/
theorem heap_leaks_nothing_kilobyte :
    ∃ m o, Runs kilobyte m o ∧ m.max = 136 ∧ m.items = [⟨956, false⟩] ∧ m.used = 0 ∧
      ∀ n, 0 < n → request n ≤ 944 → ∃ m', rtSmemAlloc m n = some (m', some 12) := by
  obtain ⟨m, o, h, hmax⟩ := exists_runs kilobyte
    [.malloc 8, .malloc 100, .free (some 12), .free (some 36)]
    (fun s => (s.1.max, live 0 s.1.items)) (136, []) (by decide +kernel)
  have hlive : live 0 m.items = [] := congrArg Prod.snd hmax
  have hall : ∀ p, o p = none := fun p => by
    by_contra hp
    obtain ⟨e, he, -⟩ := ((h.holds kilobyte_init).1.known p).1 hp
    rw [hlive] at he
    cases he
  exact ⟨m, o, h, congrArg Prod.fst hmax, heap_leaks_nothing kilobyte_init h hall⟩

/-- **Requests near the top of the address space are cut short.** Rounded up
they leave thirty-two bits and come out as the least there is, so what is
answered has room for the request exactly when it is short of that. -/
theorem malloc_room_iff (h0 : rtSmemInit beginAddr size heap = some m0) (h : Runs m0 m o)
    (hn : 0 < n) (hn' : n < 2 ^ 32) (hans : rtSmemAlloc m n = some (m', some p)) :
    n ≤ m'.next (p - 12) - p ↔ n + 3 < 2 ^ 32 := by
  obtain ⟨hh, hsm⟩ := h.holds h0
  have hsize := (rtSmemInit_represents h0).2
  rw [← hsm.heapEnd] at hsize
  rcases hh.represents.alloc hn with ⟨pre, b, post, hbs, hb, -, m1, hm1, -, hrep, -⟩ | ⟨-, hfail⟩
  · obtain ⟨rfl, hp⟩ := Prod.mk.inj (Option.some.inj (hans.symm.trans hm1))
    cases hp
    obtain ⟨c, rest, hcarve, hc, htot, -⟩ := exists_carve 24 hb.2
    have hlen : b.len ≤ m.heapEnd := by
      rw [← hh.represents.total]
      exact len_le_total (by rw [hbs]; simp)
    have hch := hrep.toChained
    rw [hcarve] at hch
    have hnext := hch.next
    change m'.next (Blocks.total pre) = Blocks.total pre + c at hnext
    rw [Nat.add_sub_cancel, hnext]
    constructor
    · intro hroom
      omega
    · intro hlt
      have hreq := le_request_of_lt hlt
      unfold wordsOf at hreq
      omega
  · rw [hans] at hfail
    cases hfail

theorem malloc_room_iff_wrapped :
    ¬ 4294967295 ≤ (kilobyte.take 0 12).next 0 - 12 := fun hroom =>
  absurd ((malloc_room_iff (n := 4294967295) (p := 12) kilobyte_init .init (by decide) (by decide)
    rfl).1 hroom) (by decide)

end Kernel

end RtSpark
