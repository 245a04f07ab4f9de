import RtSpark.Kernel.Model.Mem
/-!
# What the program holds of the heap

The heap as the code that calls it sees it: for every pointer it was given
and has not given back, the words it asked for and what it left in them.
The offsets, headers and free items of the allocator do not appear.
-/

namespace RtSpark

namespace Kernel

/-- The words a request of `n` bytes comes to. -/
def wordsOf (n : ℕ) : ℕ := (n + 3) / 4

/-- What the program holds, by pointer. -/
abbrev Objects := ℕ → Option (List ℕ)

/-- What the program does with the heap: the three calls, and a word of its
own written at a pointer it holds. -/
inductive HeapCall where
  | malloc (size : ℕ)
  | free (rmem : Option ℕ)
  | realloc (rmem : Option ℕ) (newsize : ℕ)
  | write (p i v : ℕ)

/-- The call, as the allocator carries it out; `none` where an assertion of
it fails. -/
def exec (m : RtSmallMem) : HeapCall → Option (RtSmallMem × Option ℕ)
  | .malloc size => rtSmemAlloc m size
  | .free rmem => (rtSmemFree m rmem).map fun m => (m, none)
  | .realloc rmem newsize => rtSmemRealloc m rmem newsize
  | .write p i v => some (m.store (p + 4 * i) v, none)

/-- What may be done: pointers are given back or resized while they are held,
and the words written are those asked for. A request may not be so large
that it leaves thirty-two bits when it is rounded up. -/
def Allowed (o : Objects) : HeapCall → Prop
  | .malloc size => size + 3 < 2 ^ 32
  | .free rmem => ∀ p ∈ rmem, o p ≠ none
  | .realloc rmem newsize => newsize + 3 < 2 ^ 32 ∧ ∀ p ∈ rmem, o p ≠ none
  | .write p i _ => ∃ ws, o p = some ws ∧ i < ws.length

instance (o : Objects) (c : HeapCall) : Decidable (Allowed o c) :=
  match c with
  | .malloc size => inferInstanceAs (Decidable (size + 3 < 2 ^ 32))
  | .free rmem => inferInstanceAs (Decidable (∀ p ∈ rmem, o p ≠ none))
  | .realloc rmem newsize =>
    inferInstanceAs (Decidable (newsize + 3 < 2 ^ 32 ∧ ∀ p ∈ rmem, o p ≠ none))
  | .write p i _ =>
    match h : o p with
    | none => isFalse fun ⟨_, hws, _⟩ => nomatch h.symm.trans hws
    | some ws => decidable_of_iff (i < ws.length)
        ⟨fun hi => ⟨ws, h, hi⟩, fun ⟨_, hws, hi⟩ => Option.some.inj (h.symm.trans hws) ▸ hi⟩

/-- `k` words at `p`: those of `old` first, and then what the memory holds. -/
def held (old : List ℕ) (heap : ℕ → ℕ) (p k : ℕ) : List ℕ :=
  (List.range k).map fun i => (old[i]?).getD (heap (p + 4 * i))

/-- A pointer given back. -/
def Objects.drop (o : Objects) : Option ℕ → Objects
  | none => o
  | some p => Function.update o p none

/-- What the program holds after a call that answered `ans`. Memory it was
just given holds what `heap` has there. -/
def track (o : Objects) (heap : ℕ → ℕ) : HeapCall → Option ℕ → Objects
  | .malloc _, none => o
  | .malloc size, some p => Function.update o p (some (held [] heap p (wordsOf size)))
  | .free rmem, _ => o.drop rmem
  | .realloc rmem newsize, ans =>
    if wordsOf newsize = 0 then o.drop rmem
    else
      match ans with
      | none => o
      | some p => Function.update (o.drop rmem) p
          (some (held ((rmem.bind o).getD []) heap p (wordsOf newsize)))
  | .write p i v, _ => Function.update o p ((o p).map fun ws => ws.set i v)

/-- The states a program takes the heap `m0` to. -/
inductive Runs (m0 : RtSmallMem) : RtSmallMem → Objects → Prop
  | init : Runs m0 m0 fun _ => none
  | call {m m' : RtSmallMem} {o : Objects} {c : HeapCall} {ans : Option ℕ} :
      Runs m0 m o → Allowed o c → exec m c = some (m', ans) → Runs m0 m' (track o m'.heap c ans)

/-- A list of calls, one after the other; `none` where one may not be made,
or an assertion fails. -/
def runCalls : RtSmallMem × Objects → List HeapCall → Option (RtSmallMem × Objects)
  | s, [] => some s
  | (m, o), c :: cs =>
    if Allowed o c then
      (exec m c).bind fun (m', ans) => runCalls (m', track o m'.heap c ans) cs
    else none

end Kernel

end RtSpark
