import MpuPasses.InsertNop

/-!
# Which stores and which places `Insert_Nop` uses

On a labelled module with a record for every block the pass gets to the end, past stores through an
unset `A` (`nopModule_spec`). Every block but the first hands `A` to `fill_nop` without a value, so the
stores go where they should just in the functions of one block. What the pass reads and changes in
`Funcs` is there just if the adjustments find their functions.
-/

namespace MpuPasses

open Chars

variable {ι : Type}

/-! ## The run on a labelled module -/

/-- The blocks bear the labels of `BB_label`, whose counter is an `int`. -/
def LabelledModule (M : List (NopFunction ι)) : Prop :=
  ∀ F ∈ M, Labelled F.name (F.blocks.map NopBlock.name) ∧ F.blocks.length ≤ 2 ^ 31 - 1

/-- The record of a function has at least as many blocks as the function. -/
def RecordsCover (funcs : List NopFunc) (M : List (NopFunction ι)) : Prop :=
  ∀ F ∈ M, ∀ f, funcs.find? (fun f => decide (f.name = F.name)) = some f →
    F.blocks.length ≤ f.bbNeedSize.length

theorem recordsCover_singleton {funcs : List NopFunc} {F : NopFunction ι} {g : NopFunc}
    (hfind : funcs.find? (fun f => decide (f.name = F.name)) = some g)
    (hlen : F.blocks.length ≤ g.bbNeedSize.length) : RecordsCover funcs [F] := by
  intro F' hF' f hf
  obtain rfl := List.mem_singleton.mp hF'
  obtain rfl := Option.some.inj (hfind.symm.trans hf)
  exact hlen

/-- What a labelled function becomes, block by block. -/
def FunctionSpec (funcs : List NopFunc) (F : NopFunction ι) (G : List (NopOut ι)) : Prop :=
  List.Forall₂ (fun p out => NopSpec (isListed funcs F.name) p.2 out) F.blocks.zipIdx G

/-- The block in place `pos` bears the label of block number `pos + 1`. -/
theorem label_of_mem_zipIdx {F : NopFunction ι} (hlab : Labelled F.name (F.blocks.map NopBlock.name))
    {b : NopBlock ι} {pos : ℕ} (hmem : (b, pos) ∈ F.blocks.zipIdx) :
    pos < F.blocks.length ∧ b.name = bbName F.name (pos + 1) := by
  obtain ⟨hlt, hb⟩ := List.getElem?_eq_some_iff.mp (List.mem_zipIdx_iff_getElem?.mp hmem)
  have hget := labelled_iff_getElem?.mp hlab pos (by rwa [List.length_map])
  rw [List.getElem?_map, List.getElem?_eq_getElem hlt, hb, Option.map_some] at hget
  exact ⟨hlt, Option.some.inj hget⟩

theorem nopFunction_spec {funcs : List NopFunc} {F : NopFunction ι}
    (hlab : Labelled F.name (F.blocks.map NopBlock.name)) (hmax : F.blocks.length ≤ 2 ^ 31 - 1)
    (hcov : ∀ f, funcs.find? (fun f => decide (f.name = F.name)) = some f →
      F.blocks.length ≤ f.bbNeedSize.length) :
    ∃ G, nopFunction funcs F = some G ∧ FunctionSpec funcs F G := by
  apply Loop.exists_mapM_eq_some
  rintro ⟨b, pos⟩ hmem
  obtain ⟨hlt, hname⟩ := label_of_mem_zipIdx hlab hmem
  exact nopBlock_spec hname (by omega) fun f hf => hlt.trans_le (hcov f hf)

/-- On a labelled module with a record for every block the pass runs through. -/
theorem nopModule_spec {funcs : List NopFunc} {M : List (NopFunction ι)} (hlab : LabelledModule M)
    (hcov : RecordsCover funcs M) :
    ∃ out, nopModule funcs M = some out ∧ List.Forall₂ (FunctionSpec funcs) M out := by
  apply Loop.exists_mapM_eq_some
  intro F hF
  exact nopFunction_spec (hlab F hF).1 (hlab F hF).2 (hcov F hF)

/-! ## Where the stores go -/

/-- Whenever `A` is handed over it has a value, and every store goes to the alloca of the first
block. -/
def StoresFirst (G : List (NopOut ι)) : Prop :=
  ∀ out ∈ G, out.passed ≠ some none ∧ ∀ A, .store A ∈ out.insts →
    A = some 0 ∧ ∃ first, G[0]? = some first ∧ .alloca ∈ first.insts

/-- A function with a record is filled through its own alloca just if it has no second block. -/
theorem storesFirst_iff {funcs : List NopFunc} {F : NopFunction ι} {G : List (NopOut ι)}
    (h : FunctionSpec funcs F G) :
    StoresFirst G ↔ (isListed funcs F.name = true → F.blocks.length ≤ 1) := by
  have hlen : G.length = F.blocks.length := by
    rw [← h.length_eq, List.length_zipIdx]
  have hget : ∀ pos out, G[pos]? = some out → NopSpec (isListed funcs F.name) pos out := by
    intro pos out hout
    obtain ⟨hlt, rfl⟩ := List.getElem?_eq_some_iff.mp hout
    have hspec := (List.forall₂_iff_get.mp h).2 pos (by rw [List.length_zipIdx]; omega) hlt
    simpa using hspec
  constructor
  · intro hfirst hlisted
    by_contra hmany
    obtain ⟨out, hout⟩ : ∃ out, G[1]? = some out := ⟨_, List.getElem?_eq_getElem (by omega)⟩
    have hpassed := (hget 1 out hout).passed
    rw [if_pos hlisted] at hpassed
    exact (hfirst out (List.mem_of_getElem? hout)).1 hpassed
  · intro hone out hout
    obtain ⟨pos, hpos⟩ := List.mem_iff_getElem?.mp hout
    have hspec := hget pos out hpos
    have hlt := (List.getElem?_eq_some_iff.mp hpos).1
    cases hlisted : isListed funcs F.name with
    | false =>
      rw [hlisted] at hspec
      have hnone : out.passed = none := hspec.passed
      refine ⟨by rw [hnone]; nofun, fun A hA => ?_⟩
      rw [hspec.store A hA] at hnone
      cases hnone
    | true =>
      have hzero : pos = 0 := by
        have := hone hlisted
        omega
      subst hzero
      rw [hlisted] at hspec
      have hpassed : out.passed = some (some 0) := hspec.passed
      refine ⟨by rw [hpassed]; nofun, fun A hA => ?_⟩
      have hstore := hspec.store A hA
      rw [hpassed, Option.some.injEq] at hstore
      exact ⟨hstore.symm, out, hpos, hspec.alloca rfl⟩

theorem forall_mem_iff_of_forall₂ {α β : Type*} {R : α → β → Prop} {P : α → Prop} {Q : β → Prop}
    (h : ∀ x y, R x y → (P x ↔ Q y)) {l : List α} {l' : List β} (hl : List.Forall₂ R l l') :
    (∀ x ∈ l, P x) ↔ ∀ y ∈ l', Q y := by
  induction hl with
  | nil => simp
  | cons hxy _ ih => rw [List.forall_mem_cons, List.forall_mem_cons, h _ _ hxy, ih]

/-- What the pass makes of a labelled module. -/
theorem storesFirst_nopModule_iff {funcs : List NopFunc} {M : List (NopFunction ι)}
    {out : List (List (NopOut ι))} (hlab : LabelledModule M) (hcov : RecordsCover funcs M)
    (hout : nopModule funcs M = some out) : (∀ G ∈ out, StoresFirst G) ↔
      ∀ F ∈ M, isListed funcs F.name = true → F.blocks.length ≤ 1 := by
  obtain ⟨out', hout', hspec⟩ := nopModule_spec hlab hcov
  obtain rfl := Option.some.inj (hout.symm.trans hout')
  exact (forall_mem_iff_of_forall₂
    (P := fun F => isListed funcs F.name = true → F.blocks.length ≤ 1) (Q := StoresFirst)
    (fun F G hFG => (storesFirst_iff hFG).symm) hspec).symm

/-- **Where the stores go.** All stores go to the alloca of the function's first block, and `A` is
never used without a value, just if no function with a record has a second block. -/
theorem insertNop_storesFirst_iff {text : Str} {funcs : List NopFunc} {M : List (NopFunction ι)}
    (hload : loadFuncs text = some funcs) (hlab : LabelledModule M) (hcov : RecordsCover funcs M) :
    (∃ out, insertNop text M = some out ∧ ∀ G ∈ out, StoresFirst G) ↔
      ∀ F ∈ M, isListed funcs F.name = true → F.blocks.length ≤ 1 := by
  obtain ⟨out, hout, -⟩ := nopModule_spec hlab hcov
  have hrun : insertNop text M = some out := by
    unfold insertNop
    rw [hload]
    exact hout
  rw [← storesFirst_nopModule_iff hlab hcov hout]
  constructor
  · rintro ⟨out', hout', hall⟩
    rw [hrun, Option.some.injEq] at hout'
    exact hout' ▸ hall
  · exact fun hall => ⟨out, hrun, hall⟩

/-- The record of function `f<i>` with `n` blocks. -/
def fileRecord (i n : ℕ) : SizeRecord where
  name := 'f' :: pyStr i
  sizes := List.replicate n 124
  noDigit := rfl
  oneLine := by
    rw [List.mem_cons, not_or]
    exact ⟨by decide, newline_notMem_pyStr i⟩
  small := fun size hsize => by
    rw [List.eq_of_mem_replicate hsize]
    decide

/-- A file with seven functions, the first of two blocks. -/
def sevenRecords : List SizeRecord :=
  fileRecord 0 2 :: (List.range 6).map fun i => fileRecord (i + 1) 1

/-- What is read from it, after the adjustments. -/
def sevenFuncs : List NopFunc :=
  [{ name := ['f', '0'], bbCount := 2, bbSize := [124, 124], bbNeedSize := [6, 4] },
   { name := ['f', '1'], bbCount := 1, bbSize := [124], bbNeedSize := [0] },
   { name := ['f', '2'], bbCount := 1, bbSize := [124], bbNeedSize := [0] },
   { name := ['f', '3'], bbCount := 1, bbSize := [124], bbNeedSize := [6] },
   { name := ['f', '4'], bbCount := 1, bbSize := [124], bbNeedSize := [4] },
   { name := ['f', '5'], bbCount := 1, bbSize := [124], bbNeedSize := [0] },
   { name := ['f', '6'], bbCount := 1, bbSize := [124], bbNeedSize := [0] }]

theorem readMiddle_sevenRecords :
    readMiddle (middleText sevenRecords) = some (sevenRecords.map SizeRecord.toFunc) := by
  unfold readMiddle
  rw [getlines_middleText, forEach_readMiddleLine_records, List.nil_append]

theorem loadFuncs_sevenRecords : loadFuncs (middleText sevenRecords) = some sevenFuncs := by
  rw [loadFuncs_eq readMiddle_sevenRecords]
  decide

/-- A labelled function of `n` blocks with one instruction each. -/
def plainFunction (name : Str) (n : ℕ) : NopFunction ℕ where
  name := name
  blocks := (List.range n).map fun k =>
    { name := bbName name (k + 1), phis := [], first := k, rest := [] }

theorem labelled_plainFunction {name : Str} {n : ℕ} (hn : n ≤ 2 ^ 31 - 1) :
    LabelledModule [plainFunction name n] := by
  intro F hF
  obtain rfl := List.mem_singleton.mp hF
  unfold plainFunction Labelled
  rw [List.length_map, List.map_map, List.length_map, List.length_range]
  exact ⟨rfl, hn⟩

/-- With one block all is well. -/
theorem storesFirst_oneBlock : ∃ out,
    insertNop (middleText sevenRecords) [plainFunction ['f', '3'] 1] = some out ∧
      ∀ G ∈ out, StoresFirst G := by
  have hfind : sevenFuncs.find? (fun f => decide (f.name = ['f', '3'])) =
      some { name := ['f', '3'], bbCount := 1, bbSize := [124], bbNeedSize := [6] } := by decide
  have hcov : RecordsCover sevenFuncs [plainFunction ['f', '3'] 1] :=
    recordsCover_singleton hfind (by decide)
  apply (insertNop_storesFirst_iff loadFuncs_sevenRecords (labelled_plainFunction (by omega)) hcov).mpr
  intro F hF _
  obtain rfl := List.mem_singleton.mp hF
  decide

/-- The second block of a function hands over a pointer without a value. -/
theorem not_storesFirst_twoBlocks : LabelledModule [plainFunction ['f', '0'] 2] ∧
    RecordsCover sevenFuncs [plainFunction ['f', '0'] 2] ∧
    loadFuncs (middleText sevenRecords) = some sevenFuncs ∧
    ¬ ∃ out, insertNop (middleText sevenRecords) [plainFunction ['f', '0'] 2] = some out ∧
      ∀ G ∈ out, StoresFirst G := by
  refine ⟨labelled_plainFunction (by omega), ?_, loadFuncs_sevenRecords, ?_⟩
  · have hfind : sevenFuncs.find? (fun f => decide (f.name = ['f', '0'])) =
        some { name := ['f', '0'], bbCount := 2, bbSize := [124, 124], bbNeedSize := [6, 4] } := by
      decide
    exact recordsCover_singleton hfind (by decide)
  · rintro ⟨out, hout, hall⟩
    have hrun : insertNop (middleText sevenRecords) [plainFunction ['f', '0'] 2] =
        nopModule sevenFuncs [plainFunction ['f', '0'] 2] := by
      unfold insertNop
      rw [loadFuncs_sevenRecords]
      rfl
    have hpassed : (nopModule sevenFuncs [plainFunction ['f', '0'] 2]).map
        (fun out => out.map fun G => G.map NopOut.passed) = some [[some (some 0), some none]] := by
      decide
    rw [← hrun, hout, Option.map_some, Option.some.injEq] at hpassed
    obtain ⟨G, hG, hGpassed⟩ : ∃ G ∈ out, G.map NopOut.passed = [some (some 0), some none] := by
      apply List.mem_map.mp
      rw [hpassed]
      exact List.mem_cons_self
    obtain ⟨second, hsecond, hnone⟩ : ∃ second ∈ G, second.passed = some none := by
      apply List.mem_map.mp
      rw [hGpassed]
      simp
    exact (hall G hG second hsecond).1 hnone

/-! ## Which places are there -/

theorem RecordsCover.of_shape {funcs funcs' : List NopFunc} {M : List (NopFunction ι)}
    (hshape : funcs'.map NopFunc.shape = funcs.map NopFunc.shape) (h : RecordsCover funcs M) :
    RecordsCover funcs' M := by
  intro F hF f hf
  have hfind : ∀ l : List NopFunc, (l.map NopFunc.shape).find? (fun s => decide (s.1 = F.name)) =
      (l.find? fun f => decide (f.name = F.name)).map NopFunc.shape := fun l => List.find?_map
  have hsame := hfind funcs'
  rw [hshape, hfind funcs, hf, Option.map_some] at hsame
  obtain ⟨g, hg, hgf⟩ := Option.map_eq_some_iff.mp hsame
  have hlen : g.bbNeedSize.length = f.bbNeedSize.length := congrArg Prod.snd hgf
  rw [← hlen]
  exact h F hF g hg

/-- **The places in `Funcs`.** On a labelled module with the functions and blocks of the file the
pass uses only places that are there just if the adjustments find their functions with a block. -/
theorem insertNop_isSome_iff {text : Str} {funcs : List NopFunc} {M : List (NopFunction ι)}
    (hread : readMiddle text = some funcs) (hlab : LabelledModule M) (hcov : RecordsCover funcs M) :
    (insertNop text M).isSome ↔ HasAdjusted funcs := by
  rw [← adjustNeed_isSome_iff, ← loadFuncs_eq hread]
  unfold insertNop
  cases hload : loadFuncs text with
  | none => rfl
  | some funcs' =>
    rw [loadFuncs_eq hread] at hload
    obtain ⟨out, hout, -⟩ := nopModule_spec hlab (hcov.of_shape (adjustNeed_shape hload))
    rw [Option.bind_eq_bind, Option.bind_some, hout]
    rfl

/-- A file with seven functions that have blocks is one for which the adjustments are there. -/
theorem insertNop_sevenRecords :
    (insertNop (middleText sevenRecords) [plainFunction ['f', '0'] 2]).isSome := by
  have hfind : (sevenRecords.map SizeRecord.toFunc).find? (fun f => decide (f.name = ['f', '0'])) =
      some (fileRecord 0 2).toFunc := by decide
  have hcov : RecordsCover (sevenRecords.map SizeRecord.toFunc) [plainFunction ['f', '0'] 2] :=
    recordsCover_singleton hfind (by decide)
  apply (insertNop_isSome_iff readMiddle_sevenRecords (labelled_plainFunction (by omega)) hcov).mpr
  unfold HasAdjusted
  decide

/-- A file with one function makes the second adjustment leave the vector. -/
theorem not_insertNop_oneRecord :
    readMiddle (middleText [fileRecord 0 1]) = some [(fileRecord 0 1).toFunc] ∧
      LabelledModule [plainFunction ['f', '0'] 1] ∧
      RecordsCover [(fileRecord 0 1).toFunc] [plainFunction ['f', '0'] 1] ∧
      ¬ (insertNop (middleText [fileRecord 0 1]) [plainFunction ['f', '0'] 1]).isSome := by
  have hread : readMiddle (middleText [fileRecord 0 1]) = some [(fileRecord 0 1).toFunc] := by
    unfold readMiddle
    rw [getlines_middleText, forEach_readMiddleLine_records]
    rfl
  refine ⟨hread, labelled_plainFunction (by omega), ?_, ?_⟩
  · have hfind : [(fileRecord 0 1).toFunc].find? (fun f => decide (f.name = ['f', '0'])) =
        some (fileRecord 0 1).toFunc := by decide
    exact recordsCover_singleton hfind (by decide)
  · have hadjust : adjustNeed [(fileRecord 0 1).toFunc] = none := by decide
    unfold insertNop
    rw [loadFuncs_eq hread, hadjust]
    nofun

end MpuPasses
