import Mathlib.Data.List.Basic
import Mathlib.Data.Nat.Notation
/-!
# Marks on a level

A level is watched tick by tick, and events are raised along the way. A
trace is `Marked` when exactly the changes of the level raise one, `up` or
`down`. `oneEach_iff_marked` compares this with what a user asks of the
events: that they alternate, and that every active period has one of each.
-/

namespace RtSpark

namespace Edge

variable {α : Type*} [DecidableEq α] {up down : α} {last : Bool} {trace : List (Bool × List α)}

/-- The events of one change of level. -/
def mark (up down : α) : Bool → Bool → List α
  | false, true => [up]
  | true, false => [down]
  | _, _ => []

/-- Every tick raises the mark of its change. -/
def Marked (up down : α) : Bool → List (Bool × List α) → Prop
  | _, [] => True
  | last, (level, es) :: trace => es = mark up down last level ∧ Marked up down level trace

/-- The events alternate, the next one being `up` unless the level was left
active. -/
def Alternates (up down : α) : Bool → List α → Prop
  | _, [] => True
  | last, e :: es => e = (if last then down else up) ∧ Alternates up down (!last) es

/-- All events of a trace, in order. -/
def events (trace : List (Bool × List α)) : List α := trace.flatMap Prod.snd

/-- A stretch of active ticks that neither side extends. -/
structure Period (before period after : List (Bool × List α)) : Prop where
  ne : period ≠ []
  active : ∀ t ∈ period, t.1 = true
  starts : ∀ t, before.getLast? = some t → t.1 = false
  ends : ∀ t, after.head? = some t → t.1 = false

/-- **One of each.** The events alternate from `up` on, every active period
has exactly one `up`, and the tick after it exactly one `down`. -/
structure OneEach (up down : α) (trace : List (Bool × List α)) : Prop where
  alternates : Alternates up down false (events trace)
  one_up : ∀ before period after, trace = before ++ period ++ after →
    Period before period after → (events period).count up = 1
  one_down : ∀ before t t' after, trace = before ++ t :: t' :: after → t.1 = true →
    t'.1 = false → t'.2.count down = 1

/-! ## From marks to periods -/

omit [DecidableEq α] in
theorem marked_append {xs ys : List (Bool × List α)} (h : Marked up down last (xs ++ ys)) :
    Marked up down last xs ∧ Marked up down ((xs.map Prod.fst).getLastD last) ys := by
  induction xs generalizing last with
  | nil => exact ⟨trivial, h⟩
  | cons t xs ih =>
    obtain ⟨hmark, hrest⟩ := h
    obtain ⟨hxs, hys⟩ := ih hrest
    refine ⟨⟨hmark, hxs⟩, ?_⟩
    rw [List.map_cons, List.getLastD_cons]
    exact hys

omit [DecidableEq α] in
theorem alternates_of_marked (h : Marked up down last trace) :
    Alternates up down last (events trace) := by
  induction trace generalizing last with
  | nil => trivial
  | cons t trace ih =>
    obtain ⟨level, es⟩ := t
    obtain ⟨rfl, hrest⟩ := h
    have hrest := ih hrest
    cases last with
    | false =>
      cases level with
      | false => exact hrest
      | true => exact ⟨rfl, hrest⟩
    | true =>
      cases level with
      | false => exact ⟨rfl, hrest⟩
      | true => exact hrest

omit [DecidableEq α] in
/-- Where the level stays active nothing is raised. -/
theorem events_of_active (h : Marked up down true trace) (hact : ∀ t ∈ trace, t.1 = true) :
    events trace = [] := by
  induction trace with
  | nil => rfl
  | cons t trace ih =>
    obtain ⟨level, es⟩ := t
    obtain rfl : level = true := hact _ (List.mem_cons_self ..)
    obtain ⟨rfl, hrest⟩ := h
    exact ih hrest fun t ht => hact t (List.mem_cons_of_mem _ ht)

theorem oneEach_of_marked (h : Marked up down false trace) : OneEach up down trace where
  alternates := alternates_of_marked h
  one_up := by
    rintro before period after rfl hp
    obtain ⟨hbefore, -⟩ := marked_append h
    obtain ⟨-, hperiod⟩ := marked_append hbefore
    have hlast : (before.map Prod.fst).getLastD false = false := by
      rw [List.getLastD_eq_getLast?, List.getLast?_map]
      cases hl : before.getLast? with
      | none => rfl
      | some t => exact hp.starts t hl
    rw [hlast] at hperiod
    obtain ⟨t, rest, rfl⟩ := List.exists_cons_of_ne_nil hp.ne
    obtain ⟨level, es⟩ := t
    obtain rfl : level = true := hp.active _ (List.mem_cons_self ..)
    obtain ⟨rfl, hrest⟩ := hperiod
    have hnone := events_of_active hrest fun t ht => hp.active t (List.mem_cons_of_mem _ ht)
    have hev : events ((true, mark up down false true) :: rest) = up :: events rest := rfl
    rw [hev, hnone, List.count_singleton_self]
  one_down := by
    rintro before ⟨level, es⟩ ⟨level', es'⟩ after rfl hact hend
    obtain rfl : level = true := hact
    obtain rfl : level' = false := hend
    obtain ⟨-, -, rfl, -⟩ := marked_append h
    exact List.count_singleton_self ..

/-! ## From periods to marks -/

/-- A tick raises the mark of its change, or forgets that the level was
active. -/
def Forgetful (up down : α) : Bool → List (Bool × List α) → Prop
  | _, [] => True
  | last, (level, es) :: trace =>
    (es = mark up down last level ∨ es = mark up down false level) ∧
      Forgetful up down level trace

/-- Every end of an active period has its `down`, the first tick included. -/
def Ends (down : α) : Bool → List (Bool × List α) → Prop
  | _, [] => True
  | last, (level, es) :: trace =>
    (last = true → level = false → es.count down = 1) ∧ Ends down level trace

theorem ends_of_one_down {t : Bool × List α}
    (h : ∀ before u u' after, t :: trace = before ++ u :: u' :: after → u.1 = true →
      u'.1 = false → u'.2.count down = 1) : Ends down t.1 trace := by
  induction trace generalizing t with
  | nil => trivial
  | cons t' trace ih =>
    refine ⟨h [] t t' trace rfl, ih fun before u u' after heq => ?_⟩
    exact h (t :: before) u u' after (by rw [heq, List.cons_append])

/-- **Where the events alternate and every period ends, nothing was
forgotten.** -/
theorem marked_of_alternates (hne : up ≠ down) (hf : Forgetful up down last trace)
    (ha : Alternates up down last (events trace)) (he : Ends down last trace) :
    Marked up down last trace := by
  induction trace generalizing last with
  | nil => trivial
  | cons t trace ih =>
    obtain ⟨level, es⟩ := t
    obtain ⟨hes, hf⟩ := hf
    obtain ⟨hend, he⟩ := he
    have hev : events ((level, es) :: trace) = es ++ events trace := rfl
    rw [hev] at ha
    have hmark : es = mark up down last level := by
      rcases hes with hes | hes
      · exact hes
      · subst hes
        cases last with
        | false => rfl
        | true =>
          cases level with
          | false => exact absurd (hend rfl rfl) (by simp [mark])
          | true => exact absurd ha.1 hne
    subst hmark
    refine ⟨rfl, ih hf ?_ he⟩
    cases last with
    | false =>
      cases level with
      | false => exact ha
      | true => exact ha.2
    | true =>
      cases level with
      | false => exact ha.2
      | true => exact ha

/-- **Alternation with one of each is marking.** -/
theorem oneEach_iff_marked (hne : up ≠ down) (hf : Forgetful up down false trace) :
    OneEach up down trace ↔ Marked up down false trace := by
  refine ⟨fun h => marked_of_alternates hne hf h.alternates ?_, oneEach_of_marked⟩
  cases trace with
  | nil => trivial
  | cons t trace =>
    exact ⟨fun h' => absurd h' Bool.false_ne_true, ends_of_one_down h.one_down⟩

end Edge

end RtSpark
