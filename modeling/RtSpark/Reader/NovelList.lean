import RtSpark.Reader.Load
/-!
# The novel list over whole runs

`Load` numbers an entry by the length of the list and a page by what the
cache held. `Consistent` is what both rest on: the cache is empty between
calls, and the duplicate check has kept the names apart. `Select` is then
a lookup in a list of distinct names, and finds what some earlier `Load`
returned `true` for.
-/

namespace RtSpark

namespace Reader

variable {r : Reader} {fds : Finset ℕ} {path name : String} {c : LoadCalls}

/-! ## What is loaded -/

/-- The duplicate check, without its case of the empty list. -/
theorem isLoad_iff : r.isLoad name = true ↔ name ∈ r.novelList.map (·.name) := by
  unfold isLoad
  by_cases hempty : r.novelList.isEmpty ∧ r.isFirst = false
  · rw [if_pos hempty, List.isEmpty_iff.1 hempty.1]
    simp
  · rw [if_neg hempty, List.any_eq_true, List.mem_map]
    simp only [decide_eq_true_eq]
    exact exists_congr fun novel => and_congr_right fun _ => eq_comm

theorem isLoad_eq_false_iff : r.isLoad name = false ↔ name ∉ r.novelList.map (·.name) := by
  rw [← isLoad_iff, Bool.not_eq_true]

/-! ## The invariant -/

/-- The list between two calls. -/
structure Consistent (r : Reader) : Prop where
  cache : r.pageCache = []
  ids : ∀ i (hi : i < r.novelList.length), i < 2 ^ 15 → r.novelList[i].id = i
  names : (r.novelList.map (·.name)).Nodup
  pages : ∀ novel ∈ r.novelList, ∀ k (hk : k < novel.pagelist.length), PageOK k novel.pagelist[k]

theorem consistent_new : Consistent new where
  cache := rfl
  ids := fun i hi => absurd hi (Nat.not_lt_zero i)
  names := List.nodup_nil
  pages := fun _ hnovel => absurd hnovel List.not_mem_nil

/-- **The pages of a `Load` that starts on an empty cache**, wherever its
`Read` stops. -/
theorem loadRead_pages (hcache : r.pageCache = []) :
    ∀ k (hk : k < (loadRead r c).state.pageCache.length),
      PageOK k (loadRead r c).state.pageCache[k] := by
  unfold loadRead
  cases hopen : c.openRead with
  | false =>
    rw [read_of_not_open hopen, hcache]
    exact fun k hk => absurd hk (Nat.not_lt_zero k)
  | true =>
    rw [read_fst_of_open hopen, hcache]
    obtain ⟨⟨-, -, added, hadded, -, hok⟩, -⟩ :=
      readLoop_spec (loadFileSize c) c.fits c.reads ⟨0, 0, []⟩ (paged_init [])
    rw [List.nil_append] at hadded
    intro k hk
    have := hok k (by rw [← hadded]; exact hk)
    rw [List.length_nil, Nat.zero_add] at this
    simpa only [hadded] using this

/-- What a `Load` that returns does to the list: nothing, and it returns
`false`; or it appends the entry, whose name was not in it. -/
theorem load_list (fds : Finset ℕ) (path : String)
    (hret : (load r fds path name c).ret ≠ none) :
    ((load r fds path name c).ret = some false ∧ (load r fds path name c).reader = r) ∨
    ((load r fds path name c).ret = some true ∧ name ∉ r.novelList.map (·.name) ∧
      ∃ n, (load r fds path name c).reader
        = ⟨[], r.novelList ++ [loadNovel r path name c n], false, 0, 0⟩) := by
  cases hopen : c.openLoad with
  | false =>
    rw [load_of_not_open hopen]
    exact Or.inl ⟨rfl, rfl⟩
  | true =>
    cases hload : r.isLoad name with
    | true =>
      rw [load_of_isLoad hopen hload]
      exact Or.inl ⟨rfl, rfl⟩
    | false =>
      obtain ⟨-, ⟨-, hnone⟩ | ⟨n, -, htrue, hreader, -⟩⟩ := load_of_read fds path hopen hload
      · exact absurd hnone hret
      · exact Or.inr ⟨htrue, isLoad_eq_false_iff.1 hload, n, hreader⟩

/-- The length of the list fits a `short` up to 32767. -/
theorem loadNovel_id (n : ℤ) (hlen : r.novelList.length < 2 ^ 15) :
    (loadNovel r path name c n).id = r.novelList.length := by
  unfold loadNovel
  simp only [Int.bmod_def]
  split <;> omega

/-- **A `Load` that returns keeps the invariant.** -/
theorem consistent_load (h : Consistent r) (hret : (load r fds path name c).ret ≠ none) :
    Consistent (load r fds path name c).reader := by
  rcases load_list fds path hret with ⟨-, hsame⟩ | ⟨-, hnew, n, hreader⟩
  · rw [hsame]
    exact h
  -- one entry more, whose name was not in the list
  rw [hreader]
  refine ⟨rfl, fun i hi hsmall => ?_, ?_, fun novel hnovel => ?_⟩
  · simp only [List.length_append, List.length_singleton] at hi
    rcases Nat.lt_succ_iff_lt_or_eq.1 hi with hlt | rfl
    · simp only [List.getElem_append_left hlt]
      exact h.ids i hlt hsmall
    · simp only [List.getElem_concat_length]
      exact loadNovel_id n hsmall
  · rw [List.map_append, List.nodup_append]
    refine ⟨h.names, List.nodup_singleton _, fun a ha b hb heq => ?_⟩
    have hb' : b = name := List.mem_singleton.1 hb
    rw [heq, hb'] at ha
    exact hnew ha
  · rcases List.mem_append.1 hnovel with hold | hlast
    · exact h.pages novel hold
    · rw [List.mem_singleton.1 hlast]
      exact loadRead_pages h.cache

/-- An entry once in the list stays as it is. -/
theorem load_extends (fds : Finset ℕ) (path : String)
    (hret : (load r fds path name c).ret ≠ none) :
    r.novelList <+: (load r fds path name c).reader.novelList := by
  rcases load_list fds path hret with ⟨-, hsame⟩ | ⟨-, -, n, hreader⟩
  · rw [hsame]
  · rw [hreader]
    exact List.prefix_append _ _

/-! ## `Select` -/

theorem select_of_notMem (h : name ∉ r.novelList.map (·.name)) : select r name = unselected := by
  unfold select
  rw [if_pos (isLoad_eq_false_iff.2 h)]

/-- A name in the list is looked up, and what is found has it. -/
theorem select_of_mem (h : name ∈ r.novelList.map (·.name)) :
    select r name ∈ r.novelList ∧ (select r name).name = name := by
  have hload : ¬ r.isLoad name = false := by
    rw [isLoad_eq_false_iff]
    exact not_not_intro h
  unfold select
  rw [if_neg hload]
  cases hfind : r.novelList.find? fun novel => decide (name = novel.name) with
  | none =>
    obtain ⟨novel, hnovel, heq⟩ := List.mem_map.1 h
    exact absurd heq.symm (by simpa using List.find?_eq_none.1 hfind novel hnovel)
  | some novel =>
    have hname : name = novel.name := by simpa using List.find?_some hfind
    exact ⟨List.mem_of_find?_eq_some hfind, hname.symm⟩

/-- **`Select` returns the entry of that name**, the only one there is. -/
theorem select_eq (h : Consistent r) {novel : NovelInfo} (hnovel : novel ∈ r.novelList) :
    select r novel.name = novel := by
  obtain ⟨hmem, hname⟩ := select_of_mem (List.mem_map_of_mem hnovel)
  exact List.inj_on_of_nodup_map h.names hmem hnovel hname

/-- `ID` is -1 where the name is not in the list, and only there. -/
theorem select_id_iff (h : Consistent r) (hfew : r.novelList.length < 2 ^ 15) :
    (select r name).id = -1 ↔ name ∉ r.novelList.map (·.name) := by
  constructor
  · intro hid hmem
    obtain ⟨i, hi, heq⟩ := List.getElem_of_mem (select_of_mem hmem).1
    have hi' := h.ids i hi (by omega)
    rw [heq, hid] at hi'
    omega
  · intro hmem
    rw [select_of_notMem hmem]
    rfl

/-! ## Runs -/

/-- Some `Load` of the run was asked for that name and returned `true`. -/
def Loaded (s : Reader × Finset ℕ) (requests : List LoadRequest) (name : String) : Prop :=
  ∃ before q after, requests = before ++ q :: after ∧ q.name = name ∧
    (load (Run.stateAfter loadStep s before).1 (Run.stateAfter loadStep s before).2
      q.path q.name q.calls).ret = some true

theorem not_loaded_nil {s : Reader × Finset ℕ} : ¬ Loaded s [] name := by
  rintro ⟨before, q, after, h, -⟩
  cases before <;> cases h

/-- The first `Load` is this one, or it is one of the rest. -/
theorem loaded_cons {s : Reader × Finset ℕ} {q : LoadRequest} {qs : List LoadRequest} :
    Loaded s (q :: qs) name ↔
      (q.name = name ∧ (load s.1 s.2 q.path q.name q.calls).ret = some true) ∨
        Loaded (loadStep s q) qs name := by
  constructor
  · rintro ⟨before, q', after, h, hname, htrue⟩
    cases before with
    | nil =>
      obtain ⟨rfl, -⟩ := List.cons.inj h
      exact Or.inl ⟨hname, htrue⟩
    | cons p before =>
      obtain ⟨rfl, hqs⟩ := List.cons.inj h
      exact Or.inr ⟨before, q', after, hqs, hname, htrue⟩
  · rintro (⟨hname, htrue⟩ | ⟨before, q', after, hqs, hname, htrue⟩)
    · exact ⟨[], q, qs, rfl, hname, htrue⟩
    · exact ⟨q :: before, q', after, by rw [hqs]; rfl, hname, htrue⟩

/-- **The names in the list** are those it held and those `Load` has
returned `true` for since. -/
theorem names_after (requests : List LoadRequest) (s : Reader × Finset ℕ)
    (hret : Run.AlongRun loadStep (fun s q _ => LoadReturns s q) s requests) :
    name ∈ (Run.stateAfter loadStep s requests).1.novelList.map (·.name) ↔
      name ∈ s.1.novelList.map (·.name) ∨ Loaded s requests name := by
  induction requests generalizing s with
  | nil => exact (or_iff_left not_loaded_nil).symm
  | cons q qs ih =>
    rw [Run.stateAfter_cons, ih _ hret.2, loaded_cons]
    rcases load_list s.2 q.path hret.1 with ⟨hfalse, hsame⟩ | ⟨htrue, -, n, hreader⟩
    · have hs : (loadStep s q).1 = s.1 := hsame
      rw [hs, hfalse]
      simp
    · have hs : (loadStep s q).1.novelList.map (·.name)
          = s.1.novelList.map (·.name) ++ [q.name] := by
        simp only [loadStep, hreader, List.map_append]
        rfl
      rw [hs, htrue, List.mem_append, List.mem_singleton, or_assoc]
      simp [eq_comm]

theorem consistent_after (requests : List LoadRequest) (s : Reader × Finset ℕ)
    (h : Consistent s.1)
    (hret : Run.AlongRun loadStep (fun s q _ => LoadReturns s q) s requests) :
    Consistent (Run.stateAfter loadStep s requests).1 ∧
      s.1.novelList <+: (Run.stateAfter loadStep s requests).1.novelList := by
  induction requests generalizing s with
  | nil => exact ⟨h, List.prefix_rfl⟩
  | cons q qs ih =>
    obtain ⟨hend, hprefix⟩ := ih _ (consistent_load h hret.1) hret.2
    exact ⟨hend, (load_extends s.2 q.path hret.1).trans hprefix⟩

/-- **The novel list stays consistent** after every call of a run of
`Load`s that return, from a new reader: up to 32767 entries an entry's
`ID` is its index, the names are distinct, an entry stays as `Load` left
it, and `Select` finds exactly what a `Load` has returned `true` for. -/
theorem novelList_consistent (fds : Finset ℕ) (requests : List LoadRequest)
    (hret : Run.AlongRun loadStep (fun s q _ => LoadReturns s q) (new, fds) requests)
    (hfew : (Run.stateAfter loadStep (new, fds) requests).1.novelList.length < 2 ^ 15) :
    ∀ before after, requests = before ++ after →
      let r := (Run.stateAfter loadStep (new, fds) before).1
      r.pageCache = [] ∧
      (∀ i (hi : i < r.novelList.length), r.novelList[i].id = i) ∧
      (r.novelList.map (·.name)).Nodup ∧
      r.novelList <+: (Run.stateAfter loadStep (new, fds) requests).1.novelList ∧
      (∀ novel ∈ r.novelList, ∀ k (hk : k < novel.pagelist.length),
        PageOK k novel.pagelist[k]) ∧
      ∀ name,
        ((select r name).id = -1 ↔ ¬ Loaded (new, fds) before name) ∧
        (Loaded (new, fds) before name →
          select r name ∈ r.novelList ∧ (select r name).name = name ∧
          ∀ novel ∈ r.novelList, novel.name = name → novel = select r name) := by
  rintro before after rfl r
  obtain ⟨hret₁, hret₂⟩ := Run.alongRun_append.1 hret
  obtain ⟨hr, -⟩ := consistent_after before (new, fds) consistent_new hret₁
  obtain ⟨-, hprefix⟩ := consistent_after after _ hr hret₂
  rw [Run.stateAfter_append] at hfew ⊢
  have hlen : r.novelList.length < 2 ^ 15 := Nat.lt_of_le_of_lt hprefix.length_le hfew
  refine ⟨hr.cache, fun i hi => hr.ids i hi (by omega), hr.names, hprefix, hr.pages,
    fun name => ?_⟩
  have hnames : name ∈ r.novelList.map (·.name) ↔ Loaded (new, fds) before name :=
    (names_after before (new, fds) hret₁).trans (or_iff_right List.not_mem_nil)
  refine ⟨by rw [select_id_iff hr hlen, hnames], fun hloaded => ?_⟩
  obtain ⟨hmem, hname⟩ := select_of_mem (hnames.2 hloaded)
  refine ⟨hmem, hname, ?_⟩
  rintro novel hnovel rfl
  exact (select_eq hr hnovel).symm

/-- Two files, and the first one asked for again: the second request leaves
the list. -/
theorem novelList_consistent_two_files :
    let requests : List LoadRequest := [⟨"/sdcard/a.txt", "a", oneByteCalls⟩,
      ⟨"/sdcard/a.txt", "a", oneByteCalls⟩, ⟨"/sdcard/b.txt", "b", oneByteCalls⟩]
    (select (Run.stateAfter loadStep (new, ∅) requests).1 "c").id = -1 ↔
      ¬ Loaded (new, ∅) requests "c" :=
  ((novelList_consistent ∅ [⟨"/sdcard/a.txt", "a", oneByteCalls⟩,
    ⟨"/sdcard/a.txt", "a", oneByteCalls⟩, ⟨"/sdcard/b.txt", "b", oneByteCalls⟩]
    ⟨by unfold LoadReturns; decide +kernel, by unfold LoadReturns; decide +kernel,
      by unfold LoadReturns; decide +kernel, trivial⟩
    (by decide +kernel) _ [] (List.append_nil _).symm).2.2.2.2.2 "c").1

end Reader

end RtSpark
