import MpuPasses.Layout

/-!
# The linker script of `function_size.py`

Besides `Link_addr.txt` the script writes `tmp.ld`: for every function one input section and one
`ALIGN` of its region size. The linker walks these lines with a location counter, so it rounds a
running address up where the layout adds rounded sizes. `layoutsAgree_iff` says exactly when both
give every function the same address: when the first region is aligned, or nothing follows it.
-/

namespace MpuPasses

open Chars

/-! ## The lines of the script -/

/-- An input section as the script names it. -/
inductive Pattern
  | textAll
  | f (k : ℕ)
  deriving DecidableEq, Repr

/-- A line that the script adds. -/
inductive LdLine
  | section (p : Pattern)
  | align (n : ℕ)
  deriving DecidableEq, Repr

def Pattern.text : Pattern → Str
  | textAll => ".text.*".toList
  | f k => ".f".toList ++ pyStr k

/-- The line as it is written. -/
def LdLine.text : LdLine → Str
  | .section p => "\t*(".toList ++ p.text ++ ")\n".toList
  | align n => "\t. = ALIGN(".toList ++ pyStr n ++ ");\n".toList

/-- The loop that fills `add_lines`; `tmp` is 1 once `main` has been seen. -/
def addLines : ℕ → ℕ → List Func → List LdLine
  | _, _, [] => []
  | i, tmp, f :: fs =>
    if f.name = mainName then
      .section .textAll :: .align f.regionSize :: addLines (i + 1) 1 fs
    else .section (.f (i + 1 - tmp)) :: .align f.regionSize :: addLines (i + 1) tmp fs

/-- `link_function_section`. -/
def linkFunctionSection : Str := ".function 0x08004000 :".toList

/-- `tmp.ld`: the lines of the template up to the brace after the section's head, the added lines,
the rest of the template. -/
def createdScript (template : List Str) (funcs : List Func) : List Str :=
  let lineNum := countTo (fun line => decide (linkFunctionSection <:+: line)) template
  template.take (lineNum + 1) ++ (addLines 0 0 funcs).map LdLine.text ++
    template.drop (lineNum + 1)

/-! ## The linker -/

/-- The input section that the source puts a function in. -/
inductive Section
  | text (name : Str)
  | f (k : ℕ)
  deriving DecidableEq

def Pattern.matches : Pattern → Section → Bool
  | textAll, .text _ => true
  | f k, .f j => k == j
  | _, _ => false

/-- The sections of the source: `main` in `.text.main`, the others in `.f1`, `.f2`, … by
descending size. -/
def sourceSections : ℕ → List Func → List (Section × Func)
  | _, [] => []
  | k, f :: fs =>
    if f.name = mainName then (.text f.name, f) :: sourceSections k fs
    else (.f k, f) :: sourceSections (k + 1) fs

/-- Put functions one after the other from `loc` on. -/
def place : ℕ → List Func → List (Str × ℕ)
  | _, [] => []
  | loc, f :: fs => (f.name, loc) :: place (loc + f.functionSize.toNat) fs

/-- The walk over the lines of an output section: an input section takes the bytes of the functions
in it, `ALIGN` rounds the location counter up. -/
def link (objs : List (Section × Func)) : ℕ → List LdLine → List (Str × ℕ)
  | _, [] => []
  | loc, .align n :: ls => link objs (Packing.alignUp loc n) ls
  | loc, .section p :: ls =>
    let fs := (objs.filter fun o => p.matches o.1).map Prod.snd
    place loc fs ++ link objs (loc + (fs.map fun f => f.functionSize.toNat).sum) ls

/-- Where the linker places the functions under the generated script, each with as many bytes as its
record says. -/
def linkAddresses (funcs : List Func) : List (Str × ℕ) :=
  link (sourceSections 1 funcs) codeStart (addLines 0 0 funcs)

/-- The two layouts give every function the same address. -/
def LayoutsAgree (fs : List Func) : Prop :=
  ∀ out, layout fs = some out → linkAddresses out = out.map fun f => (f.name, f.regionStart)

/-! ## Every line takes one function -/

/-- The pattern the script writes for a section. -/
def Section.pattern : Section → Pattern
  | text _ => .textAll
  | f k => .f k

/-- The two lines of a function. -/
def linesOf (o : Section × Func) : List LdLine := [.section o.1.pattern, .align o.2.regionSize]

theorem Section.pattern_matches_self (s : Section) : s.pattern.matches s = true := by
  cases s <;> simp [Section.pattern, Pattern.matches]

/-- The numbers of the script are those of the source: `tmp` makes up for `main`. -/
theorem addLines_eq {i tmp k : ℕ} {fs : List Func} (hk : k + tmp = i + 1)
    (hnd : (fs.map Func.name).Nodup) (htmp : tmp = 0 ∨ tmp = 1 ∧ mainName ∉ fs.map Func.name) :
    addLines i tmp fs = (sourceSections k fs).flatMap linesOf := by
  induction fs generalizing i tmp k with
  | nil => rfl
  | cons f fs ih =>
    obtain ⟨hf, hnd⟩ := List.nodup_cons.mp hnd
    by_cases hmain : f.name = mainName
    · obtain rfl : tmp = 0 := by
        rcases htmp with h | ⟨-, h⟩
        · exact h
        · exact absurd (by simp [hmain]) h
      rw [addLines, sourceSections, if_pos hmain, if_pos hmain, List.flatMap_cons,
        ih (k := k) (by omega) hnd (.inr ⟨rfl, hmain ▸ hf⟩)]
      rfl
    · rw [addLines, sourceSections, if_neg hmain, if_neg hmain, List.flatMap_cons,
        ih (k := k + 1) (by omega) hnd (htmp.imp_right fun h => ⟨h.1, fun hm => h.2 (by simp [hm])⟩),
        show i + 1 - tmp = k by omega]
      rfl

theorem sourceSections_map_snd (k : ℕ) (fs : List Func) :
    (sourceSections k fs).map Prod.snd = fs := by
  induction fs generalizing k with
  | nil => rfl
  | cons f fs ih => rw [sourceSections]; split_ifs <;> simp [ih]

theorem le_of_mem_sourceSections {k j : ℕ} {f : Func} {fs : List Func}
    (h : (Section.f j, f) ∈ sourceSections k fs) : k ≤ j := by
  induction fs generalizing k with
  | nil => cases h
  | cons g fs ih =>
    rw [sourceSections] at h
    split_ifs at h
    · rcases List.mem_cons.mp h with h | h
      · cases h
      · exact ih h
    · rcases List.mem_cons.mp h with h | h
      · cases h; exact le_rfl
      · exact (Nat.le_succ k).trans (ih h)

theorem name_of_mem_sourceSections {k : ℕ} {n : Str} {f : Func} {fs : List Func}
    (h : (Section.text n, f) ∈ sourceSections k fs) : mainName ∈ fs.map Func.name := by
  induction fs generalizing k with
  | nil => cases h
  | cons g fs ih =>
    rw [sourceSections] at h
    split_ifs at h with hg
    · exact List.mem_cons.mpr (.inl hg.symm)
    · rcases List.mem_cons.mp h with h | h
      · cases h
      · exact List.mem_cons_of_mem _ (ih h)

/-- The line of one function takes no other function. -/
theorem pairwise_sourceSections (k : ℕ) {fs : List Func} (hnd : (fs.map Func.name).Nodup) :
    (sourceSections k fs).Pairwise fun a b =>
      a.1.pattern.matches b.1 = false ∧ b.1.pattern.matches a.1 = false := by
  induction fs generalizing k with
  | nil => exact .nil
  | cons f fs ih =>
    obtain ⟨hf, hnd⟩ := List.nodup_cons.mp hnd
    rw [sourceSections]
    split_ifs with hmain
    · refine .cons (fun b hb => ?_) (ih k hnd)
      obtain ⟨s, g⟩ := b
      cases s with
      | text n => exact absurd (name_of_mem_sourceSections hb) (hmain ▸ hf)
      | f j => exact ⟨rfl, rfl⟩
    · refine .cons (fun b hb => ?_) (ih (k + 1) hnd)
      obtain ⟨s, g⟩ := b
      cases s with
      | text n => exact ⟨rfl, rfl⟩
      | f j =>
        have := le_of_mem_sourceSections hb
        simp only [Section.pattern, Pattern.matches, beq_eq_false_iff_ne]
        omega

theorem filter_eq_singleton_of_pairwise {α : Type*} {r : α → α → Bool} {l : List α}
    (h : l.Pairwise fun a b => r a b = false ∧ r b a = false) {x : α} (hx : x ∈ l)
    (hr : r x x = true) : l.filter (r x) = [x] := by
  obtain ⟨pre, post, rfl⟩ := List.append_of_mem hx
  obtain ⟨-, hpost, hcross⟩ := List.pairwise_append.mp h
  have hpre : pre.filter (r x) = [] := List.filter_eq_nil_iff.mpr fun a ha => by
    simp [(hcross a ha x List.mem_cons_self).2]
  have hpost : post.filter (r x) = [] := List.filter_eq_nil_iff.mpr fun a ha => by
    simp [((List.pairwise_cons.mp hpost).1 a ha).1]
  rw [List.filter_append, List.filter_cons_of_pos hr, hpre, hpost, List.nil_append]

/-- The walk gives the `i`-th function the `i`-th start of the aligned walk. -/
theorem link_flatMap_linesOf {objs l : List (Section × Func)}
    (hobjs : objs.Pairwise fun a b =>
      a.1.pattern.matches b.1 = false ∧ b.1.pattern.matches a.1 = false)
    (hl : l ⊆ objs) (b : ℕ) :
    link objs b (l.flatMap linesOf) = (l.map fun o => o.2.name).zip
      (Packing.alignedStarts b (l.map fun o => (o.2.functionSize.toNat, o.2.regionSize))) := by
  induction l generalizing b with
  | nil => rfl
  | cons o l ih =>
    obtain ⟨ho, hl⟩ := List.cons_subset.mp hl
    have hone : (objs.filter fun p => o.1.pattern.matches p.1) = [o] :=
      filter_eq_singleton_of_pairwise hobjs ho o.1.pattern_matches_self
    simp only [List.flatMap_cons, linesOf, List.cons_append, List.nil_append, link, hone,
      List.map_cons, List.map_nil, place, List.sum_cons, List.sum_nil, Nat.add_zero,
      Packing.alignedStarts, List.zip_cons_cons]
    rw [ih hl]

theorem linkAddresses_eq {fs : List Func} (hnd : (fs.map Func.name).Nodup) :
    linkAddresses fs = (fs.map Func.name).zip
      (Packing.alignedStarts codeStart (fs.map fun f => (f.functionSize.toNat, f.regionSize))) := by
  have hmap := sourceSections_map_snd 1 fs
  have hname : (sourceSections 1 fs).map (fun o => o.2.name) = fs.map Func.name := by
    conv_rhs => rw [← hmap, List.map_map]
    rfl
  have hsize : (sourceSections 1 fs).map (fun o => (o.2.functionSize.toNat, o.2.regionSize)) =
      fs.map fun f => (f.functionSize.toNat, f.regionSize) := by
    conv_rhs => rw [← hmap, List.map_map]
    rfl
  rw [linkAddresses, show addLines 0 0 fs = _ from addLines_eq (k := 1) rfl hnd (.inl rfl),
    link_flatMap_linesOf (pairwise_sourceSections 1 hnd) (List.Subset.refl _), hname, hsize]

/-! ## When the layouts agree -/

theorem zip_left_cancel {α β : Type*} {l : List α} {m m' : List β} (hm : l.length = m.length)
    (hm' : l.length = m'.length) : l.zip m = l.zip m' ↔ m = m' := by
  constructor
  · intro h
    have h2 := congrArg (List.map Prod.snd) h
    rwa [List.map_snd_zip hm.ge, List.map_snd_zip hm'.ge] at h2
  · exact congrArg _

/-- The addresses agree exactly if the two walks over the region sizes do. -/
theorem linkAddresses_assign_iff {fs : List Func} (hnd : (fs.map Func.name).Nodup) :
    linkAddresses (assign codeStart fs) =
        (assign codeStart fs).map (fun f => (f.name, f.regionStart)) ↔
      Packing.alignedStarts codeStart
          (fs.map fun f => (f.functionSize.toNat, regionSize f.functionSize)) =
        Packing.starts codeStart (fs.map fun f => regionSize f.functionSize) := by
  have hname : (assign codeStart fs).map Func.name = fs.map Func.name := by
    have h := congrArg (List.map Prod.fst) (assign_map_key codeStart fs)
    rwa [List.map_map, List.map_map] at h
  have hsizes : (assign codeStart fs).map (fun f => (f.functionSize.toNat, f.regionSize)) =
      fs.map fun f => (f.functionSize.toNat, regionSize f.functionSize) := by
    have h := congrArg (List.map fun p => (p.2.toNat, regionSize p.2)) (assign_map_key codeStart fs)
    rw [List.map_map, List.map_map] at h
    refine (List.map_congr_left fun f hf => ?_).trans h
    rw [regionSize_of_mem_assign hf]
    rfl
  have hstarts : (assign codeStart fs).map (fun f => (f.name, f.regionStart)) =
      (fs.map Func.name).zip
        (Packing.starts codeStart (fs.map fun f => regionSize f.functionSize)) := by
    rw [← assign_map_regionStart, ← hname, List.zip_map']
  rw [linkAddresses_eq (hname ▸ hnd), hsizes, hname, hstarts]
  exact zip_left_cancel (by simp) (by simp)

/-- **The two layouts.** For functions of distinct names and positive sizes the linker places every
function at its region start exactly if there is at most one function or none has more than 16384
bytes. -/
theorem layoutsAgree_iff {fs : List Func} (hnd : (fs.map Func.name).Nodup)
    (hpos : ∀ f ∈ fs, 0 < f.functionSize) :
    LayoutsAgree fs ↔ fs.length ≤ 1 ∨ ∀ f ∈ fs, f.functionSize ≤ 16384 := by
  by_cases hne : fs = []
  · subst hne
    exact ⟨fun _ => .inl (by simp), fun _ out h => by cases h⟩
  have hperm := perm_sortFuncs fs
  have hnd' : ((sortFuncs fs).map Func.name).Nodup := (hperm.map Func.name).nodup_iff.mpr hnd
  have hagree : LayoutsAgree fs ↔ _ := Iff.trans
    ⟨fun h => h _ (layout_eq hne), fun h out hout => by
      rw [layout_eq hne] at hout; cases hout; exact h⟩ (linkAddresses_assign_iff hnd')
  have hmem : (∀ f ∈ fs, f.functionSize ≤ 16384) ↔ ∀ f ∈ sortFuncs fs, f.functionSize ≤ 16384 :=
    forall_congr' fun f => by rw [hperm.mem_iff]
  have hpos' : ∀ f ∈ sortFuncs fs, 0 < f.functionSize := fun f hf => hpos f (hperm.mem_iff.mp hf)
  have hsort := pairwise_sortFuncs fs
  rw [hagree, hmem, ← hperm.length_eq]
  obtain ⟨f, rest, hs⟩ := List.exists_cons_of_ne_nil (sortFuncs_ne_nil hne)
  rw [hs] at hpos' hsort ⊢
  have hdvd := pairwise_dvd_regionSize hsort
  have hfit : ∀ p ∈ (f :: rest).map fun f => (f.functionSize.toNat, regionSize f.functionSize),
      0 < p.1 ∧ p.1 ≤ p.2 := by
    intro p hp
    obtain ⟨g, hg, rfl⟩ := List.mem_map.mp hp
    have h0 := hpos' g hg
    have hle := le_regionSize g.functionSize
    constructor <;> dsimp only <;> omega
  have hcmp : ((f :: rest).map fun g => regionSize g.functionSize) =
      ((f :: rest).map fun g => (g.functionSize.toNat, regionSize g.functionSize)).map Prod.snd := by
    rw [List.map_map]; rfl
  rw [hcmp] at hdvd ⊢
  rw [List.map_cons] at hdvd hfit ⊢
  rw [Packing.alignedStarts_eq_starts_iff hdvd hfit, List.map_eq_nil_iff,
    regionSize_dvd_codeStart_iff, head_le_iff_of_pairwise hsort]
  simp

/-- Two functions, the first of them of more than 16384 bytes. -/
def largeFuncs : List Func :=
  [{ name := "main".toList, oneLine := newline_notMem_main, functionSize := 20000 },
    { name := "Sum".toList, oneLine := newline_notMem_sum, functionSize := 258 }]

/-- The linker places `Sum` at `0x08010000`, the layout at `0x0800C000`. -/
theorem layouts_differ_large : (largeFuncs.map Func.name).Nodup ∧
    (∀ f ∈ largeFuncs, 0 < f.functionSize) ∧ ¬ LayoutsAgree largeFuncs := by
  refine ⟨by decide, by decide, fun h => ?_⟩
  have hout := h _ (layout_eq (by decide))
  revert hout; decide

/-- The functions of the benchmark fit. -/
theorem layoutsAgree_pair : LayoutsAgree benchmarkPair :=
  (layoutsAgree_iff (by decide) (by decide)).mpr (.inr (by decide))

/-- The first lines of the repository's own `tmp.ld`. -/
example : (layout [{ name := mainName, functionSize := 162 },
      { name := "Sum".toList, functionSize := 258 },
      { name := "Initialize".toList, functionSize := 162 }]).map
    (createdScript ["  .function 0x08004000 : \n".toList, "  \x7b\n".toList, "  \x7d\n".toList]) =
    some (["  .function 0x08004000 : \n", "  \x7b\n", "\t*(.f1)\n", "\t. = ALIGN(512);\n",
      "\t*(.text.*)\n", "\t. = ALIGN(256);\n", "\t*(.f2)\n", "\t. = ALIGN(256);\n",
      "  \x7d\n"].map String.toList) := by decide

end MpuPasses
