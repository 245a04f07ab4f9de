import RtSpark.SdCard.Model.FileInfos
import Mathlib.Data.List.DropRight
import Mathlib.Data.List.GetD
/-!
# The name of a file

The name is looked for backwards from the first dot, which is the right
place only for a path that has its last slash before its first dot. Split
at the first dot and, before it, at the last slash, every path says what
the function does with it.
-/

namespace RtSpark

namespace SdCard

variable {path a b r : List UInt8} {k n size : ℕ} {stSize : Int32}

/-! ## The last slash -/

/-- The suffix after the last slash, all of it where there is none. -/
def baseName (path : List UInt8) : List UInt8 := path.rtakeWhile (· ≠ slash)

/-- The pages a file of that size needs. -/
def pagesNeeded (size : ℕ) : ℕ := (size + 31) / 32

theorem exists_last_slash (h : slash ∈ path) : ∃ a b, path = a ++ slash :: b ∧ slash ∉ b := by
  obtain ⟨b, a, heq, hb⟩ := List.eq_append_cons_of_mem (List.mem_reverse.2 h)
  refine ⟨a.reverse, b.reverse, ?_, fun hmem => hb (List.mem_reverse.1 hmem)⟩
  rw [← List.reverse_reverse path, heq, List.reverse_append, List.reverse_cons, List.append_assoc]
  rfl

theorem baseName_append (hb : slash ∉ b) : baseName (a ++ slash :: b) = b := by
  have hrev : (a ++ slash :: b).reverse = b.reverse ++ slash :: a.reverse := by simp
  rw [baseName, List.rtakeWhile, hrev, List.takeWhile_append_of_pos]
  · simp
  · intro c hc
    have hmem := List.mem_reverse.1 hc
    exact decide_eq_true fun heq => hb (heq ▸ hmem)

/-- A slash behind leaves the name shorter than what is behind. -/
theorem length_baseName_lt (h : slash ∈ b) : (baseName (a ++ b)).length < b.length := by
  obtain ⟨c, d, rfl, hd⟩ := exists_last_slash h
  rw [← List.append_assoc, baseName_append hd, List.length_append, List.length_cons]
  omega

/-! ## The scan -/

/-- The first dot, found by `rt_strstr`. -/
theorem rtStrstr_dot (path : List UInt8) :
    rtStrstr [dot] path =
      if dot ∈ path then some (path.takeWhile (· ≠ dot)).length else none := by
  induction path with
  | nil => rfl
  | cons c path ih =>
    rw [rtStrstr, ih]
    rcases Decidable.em (c = dot) with rfl | hne
    · simp
    · have hne' : dot ≠ c := fun h => hne h.symm
      have hhead :
          ¬ ([dot].length ≤ (c :: path).length ∧ (c :: path).take [dot].length = [dot]) := by
        rintro ⟨-, htake⟩
        exact hne (List.cons.inj htake).1
      have hkeep : (c :: path).takeWhile (· ≠ dot) = c :: path.takeWhile (· ≠ dot) :=
        List.takeWhile_cons_of_pos (decide_eq_true hne)
      rw [if_neg hhead, hkeep]
      simp only [List.mem_cons, hne', false_or]
      split_ifs <;> rfl

/-- **The scan stops at the last slash** before its start. -/
theorem scanBack_last (hr : ∀ i, i < k → r.getD i 0 ≠ slash) :
    scanBack (a ++ slash :: r) (a.length + k) = .ok a.length := by
  induction k with
  | zero =>
    have hhere : (a ++ slash :: r).getD a.length 0 = slash := by simp [List.getD]
    cases ha : a.length with
    | zero =>
      rw [ha] at hhere
      rw [scanBack, if_pos hhere]
    | succ n =>
      rw [ha] at hhere
      rw [Nat.add_zero, scanBack, if_pos hhere]
  | succ k ih =>
    have hthere : (a ++ slash :: r).getD (a.length + k + 1) 0 = r.getD k 0 := by
      simp [List.getD, List.getElem?_append_right, Nat.add_assoc]
    rw [← Nat.add_assoc, scanBack, hthere, if_neg (hr k (Nat.lt_succ_self k))]
    exact ih fun i hi => hr i (Nat.lt_succ_of_lt hi)

/-- Without a slash before its start the scan leaves the string. -/
theorem scanBack_none (h : ∀ i, i ≤ n → path.getD i 0 ≠ slash) :
    scanBack path n = .error .beforeString := by
  induction n with
  | zero => rw [scanBack, if_neg (h 0 (Nat.le_refl 0))]
  | succ n ih =>
    rw [scanBack, if_neg (h (n + 1) (Nat.le_refl _))]
    exact ih fun i hi => h i (Nat.le_succ_of_le hi)

/-! ## The infos -/

/-- What lies before the first dot. -/
def beforeDot (path : List UInt8) : List UInt8 := path.takeWhile (· ≠ dot)

/-- The first dot and what lies behind it. -/
def fromDot (path : List UInt8) : List UInt8 := path.dropWhile (· ≠ dot)

theorem beforeDot_append_fromDot (path : List UInt8) : beforeDot path ++ fromDot path = path :=
  List.takeWhile_append_dropWhile

theorem fromDot_cons (hdot : dot ∈ path) : ∃ t, fromDot path = dot :: t := by
  induction path with
  | nil => cases hdot
  | cons c path ih =>
    rcases Decidable.em (c = dot) with rfl | hne
    · exact ⟨path, List.dropWhile_cons_of_neg (by simp)⟩
    · obtain ⟨t, ht⟩ := ih ((List.mem_cons.1 hdot).resolve_left fun h => hne h.symm)
      have hdrop : fromDot (c :: path) = fromDot path :=
        List.dropWhile_cons_of_pos (decide_eq_true hne)
      exact ⟨t, hdrop.trans ht⟩

/-- Up to the dot there is no slash. -/
theorem getD_ne_slash {u t : List UInt8} {i : ℕ} (hu : slash ∉ u) (hi : i ≤ u.length) :
    (u ++ dot :: t).getD i 0 ≠ slash := by
  rcases Nat.lt_or_ge i u.length with hlt | hge
  · rw [List.getD_append _ _ _ _ hlt, List.getD_eq_getElem _ _ hlt]
    exact fun heq => hu (heq ▸ List.getElem_mem hlt)
  · obtain rfl : i = u.length := Nat.le_antisymm hi hge
    rw [List.getD_append_right _ _ _ _ (Nat.le_refl _), Nat.sub_self]
    exact show dot ≠ slash by decide

theorem bind_ok_iff {α β : Type} {x : Except Fault α} {f : α → Except Fault β} {v : β} :
    (x >>= f) = .ok v ↔ ∃ u, x = .ok u ∧ f u = .ok v := by
  cases x with
  | error fault => exact ⟨fun h => (nomatch h), fun ⟨_, h, _⟩ => (nomatch h)⟩
  | ok u => exact ⟨fun h => ⟨u, rfl, h⟩, fun ⟨_, hu, h⟩ => Except.ok.inj hu ▸ h⟩

theorem rtStrcpy_ok_iff {cap : ℕ} {fault : Fault} {src dst : List UInt8} :
    rtStrcpy cap fault src = .ok dst ↔ src.length < cap ∧ src = dst := by
  unfold rtStrcpy
  split_ifs with hfits
  · exact ⟨fun h => ⟨hfits, Except.ok.inj h⟩, fun h => congrArg _ h.2⟩
  · exact ⟨fun h => (nomatch h), fun h => absurd h.1 hfits⟩

/-- **What the function needs**, and what it then collects. -/
theorem fileInfo_ok_iff {file : FileInfo} :
    fileInfo path stSize = .ok file ↔
      path.length < 64 ∧ ∃ i, rtStrstr [dot] path = some i ∧ ∃ p, scanBack path i = .ok p ∧
        (path.drop (p + 1)).length < 32 ∧
          (⟨path, path.drop (p + 1), stSize, stSize / lcdMaxNum + 1, 0⟩ : FileInfo) = file := by
  have hfound : ∀ {i : ℕ}, (rtStrstr [dot] path).elim (.error .nullPointer) .ok =
      (.ok i : Except Fault ℕ) ↔ rtStrstr [dot] path = some i := by
    intro i
    cases rtStrstr [dot] path with
    | none => exact ⟨fun h => (nomatch h), fun h => (nomatch h)⟩
    | some j =>
      exact ⟨fun h => congrArg some (Except.ok.inj h), fun h => congrArg _ (Option.some.inj h)⟩
  unfold fileInfo
  simp only [bind_ok_iff, rtStrcpy_ok_iff, hfound, and_assoc, exists_and_left, exists_eq_left']
  constructor
  · rintro ⟨hfits, i, hi, p, hp, hname, hfile⟩
    exact ⟨hfits, i, hi, p, hp, hname, Except.ok.inj hfile⟩
  · rintro ⟨hfits, i, hi, p, hp, hname, rfl⟩
    exact ⟨hfits, i, hi, p, hp, hname, rfl⟩

/-- A path without a slash before its first dot is left. -/
theorem scanBack_of_no_slash (hdot : dot ∈ path) (hslash : slash ∉ beforeDot path) :
    scanBack path (beforeDot path).length = .error .beforeString := by
  obtain ⟨t, ht⟩ := fromDot_cons hdot
  have hpath : path = beforeDot path ++ dot :: t := by
    rw [← ht, beforeDot_append_fromDot]
  refine scanBack_none fun i hi => ?_
  rw [hpath]
  exact getD_ne_slash hslash hi

/-- **The name that is found** lies behind the last slash before the first
dot. -/
theorem scanBack_of_slash (hdot : dot ∈ path) (heq : beforeDot path = a ++ slash :: b)
    (hb : slash ∉ b) :
    scanBack path (beforeDot path).length = .ok a.length ∧
      path.drop (a.length + 1) = b ++ fromDot path := by
  obtain ⟨t, ht⟩ := fromDot_cons hdot
  have hpath : path = a ++ slash :: (b ++ fromDot path) := by
    rw [← List.cons_append, ← List.append_assoc, ← heq, beforeDot_append_fromDot]
  constructor
  · have hstart : (beforeDot path).length = a.length + (b.length + 1) := by
      rw [heq, List.length_append, List.length_cons]
    rw [hstart]
    conv_lhs => rw [hpath, ht]
    exact scanBack_last fun i hi => getD_ne_slash hb (Nat.le_of_lt_succ hi)
  · have hsplit : path = (a ++ [slash]) ++ (b ++ fromDot path) := by
      rw [List.append_assoc]
      exact hpath
    conv_lhs => rw [hsplit]
    exact List.drop_left' (by rw [List.length_append, List.length_singleton])

/-- The name found is the name of the file if no slash lies behind the
first dot. -/
theorem baseName_eq_iff (heq : beforeDot path = a ++ slash :: b) (hb : slash ∉ b) :
    b ++ fromDot path = baseName path ↔ slash ∉ fromDot path := by
  have hpath : path = (a ++ slash :: b) ++ fromDot path := by
    rw [← heq, beforeDot_append_fromDot]
  constructor
  · intro hname hslash
    have hlt := length_baseName_lt (a := a ++ slash :: b) hslash
    rw [← hpath, ← hname, List.length_append] at hlt
    omega
  · intro hslash
    have hname : slash ∉ b ++ fromDot path := fun h => (List.mem_append.1 h).elim hb hslash
    conv_rhs => rw [hpath, List.append_assoc, List.cons_append, baseName_append hname]

/-! ## Sizes of thirty-two bits -/

theorem toInt_size_iff : (Int32.ofNat size).toInt = size ↔ size < 2 ^ 31 := by
  constructor
  · intro h
    have := (Int32.ofNat size).toInt_lt
    omega
  · exact Int32.toInt_ofNat_of_lt

/-- The pages the function counts, where the size is not negative. -/
theorem toInt_pages (hsize : size < 2 ^ 31) :
    (Int32.ofNat size / lcdMaxNum + 1).toInt = (size / 32 + 1 : ℕ) := by
  have hmax : lcdMaxNum.toInt = 32 := by decide
  have hdiv : (Int32.ofNat size / lcdMaxNum).toInt = (size / 32 : ℕ) := by
    rw [Int32.toInt_div_of_ne_right _ _ (by decide), Int32.toInt_ofNat_of_lt hsize, hmax]
    exact Int.ofNat_tdiv size 32
  rw [Int32.toInt_add, hdiv, Int32.toInt_one]
  exact Int.bmod_eq_of_le (by omega) (by omega)

theorem pages_eq_iff (size : ℕ) : size / 32 + 1 = pagesNeeded size ↔ size % 32 ≠ 0 := by
  rw [pagesNeeded]
  omega

theorem sizeAndPages_iff :
    (Int32.ofNat size).toInt = size ∧
        (Int32.ofNat size / lcdMaxNum + 1).toInt = pagesNeeded size ↔
      size % 32 ≠ 0 ∧ size < 2 ^ 31 := by
  rw [toInt_size_iff, and_comm (a := size % 32 ≠ 0)]
  refine and_congr_right fun hsize => ?_
  rw [toInt_pages hsize, Int.ofNat_inj, pages_eq_iff]

/-! ## When the infos are right -/

/-- The infos of a file of that size: its path, the name behind the last
slash, its size and the pages it needs. -/
structure FileInfo.Right (file : FileInfo) (argv : List UInt8) (stSize : ℕ) : Prop where
  path : file.path = argv
  name : file.name = baseName argv
  size : file.size.toInt = stSize
  pages : file.pages.toInt = pagesNeeded stSize
  offset : file.offset = 0

/-- The function collects them of a file that can be opened. -/
def InfosRight (path : List UInt8) (size : ℕ) : Prop :=
  ∃ file : FileInfo, file.Right path size ∧
    ∀ cmd, sdGetFileInfos [cmd, path] (some size) = .ok (0, some file)

theorem sdGetFileInfos_ok_iff {file : FileInfo} :
    (∀ cmd, sdGetFileInfos [cmd, path] (some size) = .ok (0, some file)) ↔
      fileInfo path (Int32.ofNat size) = .ok file := by
  have hmap : ∀ cmd, sdGetFileInfos [cmd, path] (some size) =
      (fileInfo path (Int32.ofNat size)).map fun file => (0, some file) := fun _ => rfl
  simp only [hmap]
  cases fileInfo path (Int32.ofNat size) with
  | error fault => exact ⟨fun h => (nomatch h []), fun h => (nomatch h)⟩
  | ok file' =>
    constructor
    · intro h
      rw [Option.some.inj (Prod.mk.inj (Except.ok.inj (h []))).2]
    · intro h _
      rw [Except.ok.inj h]
      rfl

/-- The path fits its array, and the scan ends at its last slash. -/
def NameFound (path : List UInt8) : Prop :=
  path.length < 64 ∧ ∃ i, rtStrstr [dot] path = some i ∧ ∃ p, scanBack path i = .ok p ∧
    path.drop (p + 1) = baseName path

/-- They are right where the name is found and fits, and the two numbers are
right. -/
theorem infosRight_iff : InfosRight path size ↔
    NameFound path ∧ (baseName path).length < 32 ∧ size % 32 ≠ 0 ∧ size < 2 ^ 31 := by
  simp only [InfosRight, sdGetFileInfos_ok_iff, fileInfo_ok_iff]
  rw [← sizeAndPages_iff]
  constructor
  · rintro ⟨file, hright, hfits, i, hi, p, hp, hname, rfl⟩
    have hbase : path.drop (p + 1) = baseName path := hright.name
    exact ⟨⟨hfits, i, hi, p, hp, hbase⟩, hbase ▸ hname, hright.size, hright.pages⟩
  · rintro ⟨⟨hfits, i, hi, p, hp, hbase⟩, hname, hsize, hpages⟩
    exact ⟨_, ⟨rfl, hbase, hsize, hpages, rfl⟩, hfits, i, hi, p, hp, hbase ▸ hname, rfl⟩

/-- **For which paths the name is found.** -/
theorem nameFound_iff : NameFound path ↔
    dot ∈ path ∧ slash ∈ beforeDot path ∧ slash ∉ fromDot path ∧ path.length < 64 := by
  rw [NameFound, rtStrstr_dot]
  rcases Decidable.em (dot ∈ path) with hdot | hdot
  · rw [if_pos hdot]
    change (_ ∧ ∃ i, some (beforeDot path).length = some i ∧ _) ↔ _
    rcases Decidable.em (slash ∈ beforeDot path) with hslash | hslash
    · obtain ⟨a, b, heq, hb⟩ := exists_last_slash hslash
      obtain ⟨hscan, hdrop⟩ := scanBack_of_slash hdot heq hb
      constructor
      · rintro ⟨hfits, i, hi, p, hp, hbase⟩
        rw [← Option.some.inj hi, hscan] at hp
        rw [← Except.ok.inj hp, hdrop] at hbase
        exact ⟨hdot, hslash, (baseName_eq_iff heq hb).1 hbase, hfits⟩
      · rintro ⟨-, -, hbehind, hfits⟩
        have hbase := (baseName_eq_iff heq hb).2 hbehind
        exact ⟨hfits, _, rfl, _, hscan, hdrop.trans hbase⟩
    · constructor
      · rintro ⟨-, i, hi, p, hp, -⟩
        rw [← Option.some.inj hi, scanBack_of_no_slash hdot hslash] at hp
        cases hp
      · exact fun h => absurd h.2.1 hslash
  · rw [if_neg hdot]
    exact ⟨fun ⟨_, i, hi, _⟩ => (nomatch hi), fun h => absurd h.1 hdot⟩

/-- **For which paths and sizes the infos are right.** -/
theorem sdGetFileInfos_right_iff (path : List UInt8) (size : ℕ) :
    InfosRight path size ↔
      dot ∈ path ∧ slash ∈ path.takeWhile (· ≠ dot) ∧ slash ∉ path.dropWhile (· ≠ dot) ∧
        path.length < 64 ∧ (baseName path).length < 32 ∧ size % 32 ≠ 0 ∧ size < 2 ^ 31 := by
  rw [infosRight_iff, nameFound_iff]
  simp only [and_assoc, beforeDot, fromDot]

/-- **A relative path, a path without a dot, a dot in the name of a
directory, a file of one page, and one too long for an `off_t`.** -/
theorem sdGetFileInfos_not_right :
    ¬ InfosRight [0x61, dot, 0x62] 1 ∧ ¬ InfosRight [slash, 0x61] 1 ∧
      ¬ InfosRight [slash, 0x61, dot, 0x62, slash, 0x63] 1 ∧
        ¬ InfosRight [slash, 0x61, dot, 0x62] 32 ∧
          ¬ InfosRight [slash, 0x61, dot, 0x62] (2 ^ 31 + 1) := by
  refine ⟨fun h => ?_, fun h => ?_, fun h => ?_, fun h => ?_, fun h => ?_⟩
  · exact absurd (nameFound_iff.1 (infosRight_iff.1 h).1) (by decide)
  · exact absurd (nameFound_iff.1 (infosRight_iff.1 h).1) (by decide)
  · exact absurd (nameFound_iff.1 (infosRight_iff.1 h).1) (by decide)
  · exact absurd (infosRight_iff.1 h).2 (by decide)
  · exact absurd (infosRight_iff.1 h).2 (by decide)

end SdCard

end RtSpark
