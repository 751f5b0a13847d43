import MpuPasses.Lib.Chars
import MpuPasses.Lib.Loop
import MpuPasses.Lib.Packing

/-!
# The region layout of `function_size.py`

The script sorts the functions by size, rounds every size up to a power of two from 32 on
(`regionSize`) and lays the regions end to end from `0x08004000` (`layout`). The ARMv7-M MPU wants
every region on a multiple of its own size; the script never computes an alignment, and
`layout_spec` says when it holds: the sizes descend and divide one another, so all regions are
aligned as soon as the first one is.
-/

namespace MpuPasses

open Chars

def mainName : Str := "main".toList

theorem newline_notMem_main : '\n' ∉ "main".toList := by decide

theorem newline_notMem_sum : '\n' ∉ "Sum".toList := by decide

/-- `class Func`. A name is read from a line, so it holds no line break. -/
structure Func where
  name : Str
  oneLine : '\n' ∉ name := by decide
  functionSize : ℤ := 0
  regionStart : ℕ := 0
  regionSize : ℕ := 0
  deriving DecidableEq

/-- The part of a record that the layout does not touch. -/
def Func.key (f : Func) : Str × ℤ := (f.name, f.functionSize)

/-- The addresses of a region. -/
def Func.region (f : Func) : Set ℕ := Set.Ico f.regionStart (f.regionStart + f.regionSize)

/-! ## `region_size` -/

/-- `mini = 32; while size > mini: mini = mini*2`. -/
def regionSizeRun (size : ℤ) : Loop.Outcome ℕ :=
  Loop.run (fun mini => decide (size > mini)) (fun mini => some (mini * 2)) (size.toNat + 1) 32

theorem regionSizeRun_ends (size : ℤ) : (regionSizeRun size).final?.isSome := by
  refine Loop.run_final?_isSome (fun mini : ℕ => 0 < mini) (fun mini => (size - mini).toNat)
    (fun _ => rfl) (fun s t hs hg hb => ?_) (by omega) (by omega)
  obtain rfl := Option.some.inj hb
  have hlt := of_decide_eq_true hg
  constructor <;> omega

/-- `region_size`. -/
def regionSize (size : ℤ) : ℕ := (regionSizeRun size).final?.get (regionSizeRun_ends size)

theorem regionSizeRun_eq (size : ℤ) : regionSizeRun size = .done (regionSize size) :=
  Loop.run_eq_done_get (regionSizeRun_ends size)

/-- The loop ends at the first power of two from 32 on that holds the size. -/
theorem exists_regionSize_eq (size : ℤ) : ∃ k, regionSize size = 2 ^ (k + 5) ∧
    size ≤ regionSize size ∧ (k = 0 ∨ (2 ^ (k + 4) : ℕ) < size) := by
  obtain ⟨⟨k, hk, hlow⟩, hexit⟩ := Loop.run_invariant
    (fun mini : ℕ => ∃ k, mini = 2 ^ (k + 5) ∧ (k = 0 ∨ (2 ^ (k + 4) : ℕ) < size))
    (fun s t ⟨k, hk, _⟩ hg hb => by
      obtain rfl := Option.some.inj hb
      have hlt := of_decide_eq_true hg
      exact ⟨k + 1, by rw [hk]; ring, .inr (by rw [hk] at hlt; exact hlt)⟩)
    ⟨0, rfl, .inl rfl⟩ (regionSizeRun_eq size)
  exact ⟨k, hk, by simpa using hexit, hlow⟩

theorem regionSize_isLeast (size : ℤ) :
    IsLeast {m : ℕ | (∃ k, m = 2 ^ k) ∧ 32 ≤ m ∧ size ≤ m} (regionSize size) := by
  obtain ⟨k, hk, hle, hlow⟩ := exists_regionSize_eq size
  refine ⟨⟨⟨k + 5, hk⟩, ?_, hle⟩, ?_⟩
  · rw [hk, show 32 = 2 ^ 5 by rfl]
    exact Nat.pow_le_pow_right Nat.two_pos (by omega)
  · rintro m ⟨⟨j, rfl⟩, h32, hm⟩
    rw [hk]
    refine Nat.pow_le_pow_right Nat.two_pos ?_
    rcases hlow with rfl | hlow
    · exact (Nat.pow_le_pow_iff_right Nat.one_lt_two).mp h32
    · have hlt : 2 ^ (k + 4) < 2 ^ j := by exact_mod_cast hlow.trans_le hm
      exact (Nat.pow_lt_pow_iff_right Nat.one_lt_two).mp hlt

theorem le_regionSize (size : ℤ) : size ≤ regionSize size := (regionSize_isLeast size).1.2.2

theorem regionSize_mono {s t : ℤ} (h : s ≤ t) : regionSize s ≤ regionSize t :=
  let ⟨hp, h32, ht⟩ := (regionSize_isLeast t).1
  (regionSize_isLeast s).2 ⟨hp, h32, h.trans ht⟩

/-- Powers of two: the smaller region size divides the larger one. -/
theorem regionSize_dvd {s t : ℤ} (h : s ≤ t) : regionSize s ∣ regionSize t := by
  obtain ⟨⟨j, hj⟩, -⟩ := (regionSize_isLeast s).1
  obtain ⟨⟨k, hk⟩, -⟩ := (regionSize_isLeast t).1
  have hle := regionSize_mono h
  rw [hj, hk] at hle ⊢
  exact Nat.pow_dvd_pow 2 ((Nat.pow_le_pow_iff_right Nat.one_lt_two).mp hle)

theorem dvd_32_regionSize (size : ℤ) : 32 ∣ regionSize size := by
  obtain ⟨k, hk, -⟩ := exists_regionSize_eq size
  exact hk ▸ ⟨2 ^ k, by ring⟩

/-! ## Sorting and the running start -/

/-- `CODE_start`. -/
def codeStart : ℕ := 0x08004000

/-- `sorted(funcs, key=…function_size, reverse=True)`: stable, by descending size. -/
def sortFuncs (fs : List Func) : List Func :=
  fs.insertionSort fun f g => g.functionSize ≤ f.functionSize

/-- The loop over `funcs`: every record gets its size and hands the next start on. -/
def assign : ℕ → List Func → List Func
  | _, [] => []
  | start, f :: fs =>
    { f with regionStart := start, regionSize := regionSize f.functionSize } ::
      assign (start + regionSize f.functionSize) fs

/-- The layout; an empty list fails at `funcs[0]`. -/
def layout (fs : List Func) : Option (List Func) :=
  match sortFuncs fs with
  | [] => none
  | f :: sorted => some (assign codeStart (f :: sorted))

theorem perm_sortFuncs (fs : List Func) : (sortFuncs fs).Perm fs :=
  List.perm_insertionSort _ fs

theorem pairwise_sortFuncs (fs : List Func) :
    (sortFuncs fs).Pairwise fun f g => g.functionSize ≤ f.functionSize := by
  have : Std.Total fun f g : Func => g.functionSize ≤ f.functionSize :=
    ⟨fun f g => le_total g.functionSize f.functionSize⟩
  have : IsTrans Func fun f g => g.functionSize ≤ f.functionSize :=
    ⟨fun f g h hfg hgh => hgh.trans hfg⟩
  exact List.pairwise_insertionSort _ fs

@[simp] theorem assign_map_key (b : ℕ) (fs : List Func) :
    (assign b fs).map Func.key = fs.map Func.key := by
  induction fs generalizing b with
  | nil => rfl
  | cons f fs ih => rw [assign, List.map_cons, ih]; rfl

theorem assign_map_regionSize (b : ℕ) (fs : List Func) :
    (assign b fs).map Func.regionSize = fs.map fun f => regionSize f.functionSize := by
  induction fs generalizing b with
  | nil => rfl
  | cons f fs ih => rw [assign, List.map_cons, ih]; rfl

theorem assign_map_regionStart (b : ℕ) (fs : List Func) :
    (assign b fs).map Func.regionStart =
      Packing.starts b (fs.map fun f => regionSize f.functionSize) := by
  induction fs generalizing b with
  | nil => rfl
  | cons f fs ih => rw [assign, List.map_cons, ih]; rfl

theorem regionSize_of_mem_assign {b : ℕ} {fs : List Func} {f : Func} (h : f ∈ assign b fs) :
    f.regionSize = regionSize f.functionSize := by
  induction fs generalizing b with
  | nil => cases h
  | cons g fs ih =>
    rcases List.mem_cons.mp h with rfl | h
    · rfl
    · exact ih h

theorem le_regionStart_of_mem_assign {b : ℕ} {fs : List Func} {f : Func} (h : f ∈ assign b fs) :
    b ≤ f.regionStart := by
  have hmem := List.mem_map_of_mem (f := Func.regionStart) h
  rw [assign_map_regionStart] at hmem
  exact Packing.le_of_mem_starts hmem

theorem isChain_assign (b : ℕ) (fs : List Func) :
    (assign b fs).IsChain fun f g => g.regionStart = f.regionStart + f.regionSize := by
  induction fs generalizing b with
  | nil => exact .nil
  | cons f fs ih =>
    cases fs with
    | nil => exact .singleton _
    | cons g fs => exact .cons_cons rfl (ih _)

theorem pairwise_disjoint_assign (b : ℕ) (fs : List Func) :
    (assign b fs).Pairwise fun f g => Disjoint f.region g.region := by
  induction fs generalizing b with
  | nil => exact .nil
  | cons f fs ih =>
    refine .cons (fun g hg => ?_) (ih _)
    have hle := le_regionStart_of_mem_assign hg
    exact Set.disjoint_left.mpr fun a ha hb => absurd (hle.trans hb.1) (not_le.mpr ha.2)

/-! ## The result -/

theorem two_pow_dvd_codeStart_iff (k : ℕ) : 2 ^ k ∣ codeStart ↔ k ≤ 14 := by
  constructor
  · intro h
    by_contra hk
    have h15 : 2 ^ 15 ∣ codeStart := (Nat.pow_dvd_pow 2 (by omega)).trans h
    revert h15; decide
  · intro hk
    exact (Nat.pow_dvd_pow 2 hk).trans (by decide)

/-- A first region starts on a multiple of its size exactly if the function has at most 16384
bytes: `0x08004000` is an odd multiple of `2^14`. -/
theorem regionSize_dvd_codeStart_iff (size : ℤ) : regionSize size ∣ codeStart ↔ size ≤ 16384 := by
  obtain ⟨k, hk, hle, hlow⟩ := exists_regionSize_eq size
  rw [hk, two_pow_dvd_codeStart_iff]
  constructor
  · intro h14
    have : 2 ^ (k + 5) ≤ 2 ^ 14 := Nat.pow_le_pow_right Nat.two_pos h14
    rw [hk] at hle
    exact hle.trans (by exact_mod_cast this)
  · intro hs
    rcases hlow with rfl | hlow
    · decide
    · have hlt : 2 ^ (k + 4) < 2 ^ 14 := by exact_mod_cast hlow.trans_le hs
      have := (Nat.pow_lt_pow_iff_right Nat.one_lt_two).mp hlt
      omega

/-- Sizes that descend give region sizes that divide those before them. -/
theorem pairwise_dvd_regionSize {fs : List Func}
    (h : fs.Pairwise fun f g => g.functionSize ≤ f.functionSize) :
    (fs.map fun g => regionSize g.functionSize).Pairwise fun x y => y ∣ x :=
  List.pairwise_map.mpr (h.imp regionSize_dvd)

/-- For a list in descending order the first size bounds all of them. -/
theorem head_le_iff_of_pairwise {f : Func} {fs : List Func} {n : ℤ}
    (h : (f :: fs).Pairwise fun f g => g.functionSize ≤ f.functionSize) :
    f.functionSize ≤ n ↔ ∀ g ∈ f :: fs, g.functionSize ≤ n := by
  constructor
  · intro hf g hg
    rcases List.mem_cons.mp hg with rfl | hg
    · exact hf
    · exact ((List.pairwise_cons.mp h).1 g hg).trans hf
  · exact fun hg => hg f List.mem_cons_self

/-- Every region of a layout is aligned exactly if the largest function has at most 16384 bytes. -/
theorem aligned_assign_iff {f : Func} {fs : List Func}
    (h : (f :: fs).Pairwise fun f g => g.functionSize ≤ f.functionSize) :
    (∀ g ∈ assign codeStart (f :: fs), g.regionSize ∣ g.regionStart) ↔
      ∀ g ∈ f :: fs, g.functionSize ≤ 16384 := by
  have hall : (∀ g ∈ assign codeStart (f :: fs), g.regionSize ∣ g.regionStart) ↔
      List.Forall₂ (· ∣ ·) ((f :: fs).map fun g => regionSize g.functionSize)
        (Packing.starts codeStart ((f :: fs).map fun g => regionSize g.functionSize)) := by
    rw [← assign_map_regionStart, ← assign_map_regionSize codeStart, List.forall₂_map_left_iff,
      List.forall₂_map_right_iff, List.forall₂_same]
  rw [hall, List.map_cons, Packing.forall₂_dvd_starts_iff (pairwise_dvd_regionSize h),
    regionSize_dvd_codeStart_iff, head_le_iff_of_pairwise h]

theorem sortFuncs_ne_nil {fs : List Func} (h : fs ≠ []) : sortFuncs fs ≠ [] :=
  fun hnil => h ((hnil ▸ perm_sortFuncs fs : List.Perm [] fs).nil_eq.symm)

theorem layout_eq {fs : List Func} (h : fs ≠ []) :
    layout fs = some (assign codeStart (sortFuncs fs)) := by
  unfold layout
  split
  · next hnil => exact absurd hnil (sortFuncs_ne_nil h)
  · next hcons => rw [hcons]

theorem ne_nil_of_layout {fs out : List Func} (h : layout fs = some out) : fs ≠ [] := by
  rintro rfl
  cases h

theorem perm_key_of_layout {fs out : List Func} (h : layout fs = some out) :
    (out.map Func.key).Perm (fs.map Func.key) := by
  rw [layout_eq (ne_nil_of_layout h)] at h
  cases h
  rw [assign_map_key]
  exact (perm_sortFuncs fs).map Func.key

theorem perm_name_of_layout {fs out : List Func} (h : layout fs = some out) :
    (out.map Func.name).Perm (fs.map Func.name) := by
  have hperm := (perm_key_of_layout h).map Prod.fst
  rw [List.map_map, List.map_map] at hperm
  exact hperm

/-- **The layout.** For a non-empty list the script reorders the records without changing names
and sizes, gives every one the least power of two from 32 on that holds it, and lays the regions
end to end in descending size; they are all aligned to their sizes exactly if the largest function
has at most 16384 bytes. -/
theorem layout_spec {fs : List Func} (h : fs ≠ []) :
    ∃ out, layout fs = some out ∧
      (out.map Func.key).Perm (fs.map Func.key) ∧
      (∀ f ∈ out, IsLeast {m : ℕ | (∃ k, m = 2 ^ k) ∧ 32 ≤ m ∧ f.functionSize ≤ m} f.regionSize) ∧
      out.head?.map Func.regionStart = some 0x08004000 ∧
      (out.IsChain fun f g => g.regionStart = f.regionStart + f.regionSize) ∧
      (out.Pairwise fun f g => Disjoint f.region g.region) ∧
      (out.Pairwise fun f g => g.regionSize ≤ f.regionSize) ∧
      ((∀ f ∈ out, f.regionSize ∣ f.regionStart) ↔ ∀ f ∈ fs, f.functionSize ≤ 16384) := by
  have hperm := perm_sortFuncs fs
  have hsort := pairwise_sortFuncs fs
  refine ⟨assign codeStart (sortFuncs fs), layout_eq h, perm_key_of_layout (layout_eq h),
    fun f hf => ?_, ?_, isChain_assign _ _, pairwise_disjoint_assign _ _, ?_, ?_⟩
  · rw [regionSize_of_mem_assign hf]
    exact regionSize_isLeast f.functionSize
  · obtain ⟨f, sorted, hs⟩ := List.exists_cons_of_ne_nil (sortFuncs_ne_nil h)
    rw [hs]; rfl
  · have hsizes : ((sortFuncs fs).map fun f => regionSize f.functionSize).Pairwise fun x y => y ≤ x :=
      List.pairwise_map.mpr (hsort.imp regionSize_mono)
    rw [← assign_map_regionSize codeStart] at hsizes
    exact List.pairwise_map.mp hsizes
  · have hmem : (∀ f ∈ fs, f.functionSize ≤ 16384) ↔ ∀ f ∈ sortFuncs fs, f.functionSize ≤ 16384 :=
      forall_congr' fun f => by rw [hperm.mem_iff]
    rw [hmem]
    cases hs : sortFuncs fs with
    | nil => simp [assign]
    | cons f sorted => exact aligned_assign_iff (hs ▸ hsort)

/-- Two functions of the benchmark with the sizes of `function_size.txt`. -/
def benchmarkPair : List Func :=
  [{ name := "main".toList, oneLine := newline_notMem_main, functionSize := 162 },
    { name := "Sum".toList, oneLine := newline_notMem_sum, functionSize := 258 }]

/-- Their regions in `Link_addr.txt`. -/
def benchmarkLayout : List Func :=
  [{ name := "Sum".toList, functionSize := 258, regionStart := 134234112, regionSize := 512 },
    { name := "main".toList, functionSize := 162, regionStart := 134234624, regionSize := 256 }]

theorem layout_benchmarkPair : layout benchmarkPair = some benchmarkLayout := by decide

/-- Both regions of the benchmark are aligned. -/
theorem layout_spec_pair : ∃ out, layout benchmarkPair = some out ∧
    (∀ f ∈ out, f.regionSize ∣ f.regionStart) := by
  have hne : benchmarkPair ≠ [] := by decide
  obtain ⟨out, hout, -, -, -, -, -, -, haligned⟩ := layout_spec hne
  exact ⟨out, hout, haligned.mpr (by decide)⟩

end MpuPasses
