import MpuPasses.NopStores

/-!
# How far `Insert_Nop` fills the blocks

A store is meant to take two bytes, and two more are left for a branch: a block of `size` bytes should
come to 128 with its stores. `insertNop_padded` follows the sizes from the text of the file through the
adjustments, which change the need of the first block of six functions, and the number at the end of
the label to the stores of every block. Apart from its alloca and its stores the module is as before.
The functions of the file have one block: in a second one the stores go through a pointer without a
value.
-/

namespace MpuPasses

open Chars

variable {ι : Type}

/-! ## The adjustments -/

/-- What the adjustments of the list add to the need of block `j` of function `i`. -/
def total (l : List (ℕ × ℕ × ℤ)) (i j : ℕ) : ℤ :=
  ((l.filter fun a => decide (a.1 = i ∧ a.2.1 = j)).map fun a => a.2.2).sum

/-- A function with all its needs adjusted. -/
def NopFunc.adjusted (l : List (ℕ × ℕ × ℤ)) (i : ℕ) (f : NopFunc) : NopFunc :=
  { f with bbNeedSize := f.bbNeedSize.mapIdx fun j need => need + total l i j }

theorem total_cons_of_pos {a : ℕ × ℕ × ℤ} {i j : ℕ} (h : a.1 = i ∧ a.2.1 = j)
    (l : List (ℕ × ℕ × ℤ)) : total (a :: l) i j = a.2.2 + total l i j := by
  unfold total
  rw [List.filter_cons, if_pos (by simpa using h), List.map_cons, List.sum_cons]

theorem total_cons_of_neg {a : ℕ × ℕ × ℤ} {i j : ℕ} (h : ¬ (a.1 = i ∧ a.2.1 = j))
    (l : List (ℕ × ℕ × ℤ)) : total (a :: l) i j = total l i j := by
  unfold total
  rw [List.filter_cons, if_neg (by simpa using h)]

/-- The first of the adjustments changes one need, the others come after it. -/
theorem NopFunc.adjusted_set {a : ℕ × ℕ × ℤ} {f : NopFunc} {need : ℤ}
    (hneed : f.bbNeedSize[a.2.1]? = some need) (l : List (ℕ × ℕ × ℤ)) :
    NopFunc.adjusted l a.1 { f with bbNeedSize := f.bbNeedSize.set a.2.1 (need + a.2.2) } =
      NopFunc.adjusted (a :: l) a.1 f := by
  unfold adjusted
  congr 1
  apply List.ext_getElem?
  intro j
  rw [List.getElem?_mapIdx, List.getElem?_mapIdx, List.getElem?_set]
  obtain ⟨hlt, -⟩ := List.getElem?_eq_some_iff.mp hneed
  by_cases hj : a.2.1 = j
  · subst hj
    rw [if_pos rfl, if_pos hlt, hneed, Option.map_some, Option.map_some,
      total_cons_of_pos ⟨rfl, rfl⟩, add_assoc]
  · rw [if_neg hj, total_cons_of_neg fun h => hj h.2]

theorem mapIdx_self {α : Type*} {f : ℕ → α → α} (h : ∀ i x, f i x = x) (l : List α) :
    l.mapIdx f = l := by
  apply List.ext_getElem?
  intro i
  rw [List.getElem?_mapIdx, show f i = id from funext (h i), Option.map_id, id]

/-- **The adjustments.** They add to every need what the list has for it. -/
theorem forEach_adjustOne {l : List (ℕ × ℕ × ℤ)} {funcs funcs' : List NopFunc}
    (h : Loop.forEach adjustOne funcs l = some funcs') :
    funcs' = funcs.mapIdx (NopFunc.adjusted l) := by
  induction l generalizing funcs with
  | nil =>
    cases h
    refine (mapIdx_self (fun i f => ?_) _).symm
    show { f with bbNeedSize := f.bbNeedSize.mapIdx fun j need => need + 0 } = f
    rw [mapIdx_self (fun _ need => Int.add_zero need)]
  | cons a l ih =>
    rw [Loop.forEach_cons] at h
    obtain ⟨now, hnow, hrest⟩ := Option.bind_eq_some_iff.mp h
    obtain ⟨f, hf, hnow⟩ := Option.bind_eq_some_iff.mp hnow
    obtain ⟨need, hneed, hnow⟩ := Option.bind_eq_some_iff.mp hnow
    cases hnow
    rw [ih hrest]
    apply List.ext_getElem?
    intro i
    rw [List.getElem?_mapIdx, List.getElem?_mapIdx, List.getElem?_set]
    obtain ⟨hlt, -⟩ := List.getElem?_eq_some_iff.mp hf
    by_cases hi : a.1 = i
    · subst hi
      rw [if_pos rfl, if_pos hlt, hf, Option.map_some, Option.map_some, NopFunc.adjusted_set hneed]
    · have hsame : NopFunc.adjusted (a :: l) i = NopFunc.adjusted l i := by
        funext g
        unfold NopFunc.adjusted
        simp only [total_cons_of_neg fun h : a.1 = i ∧ a.2.1 = _ => hi h.1]
      rw [if_neg hi, hsame]

/-! ## The need of a block -/

/-- The recorded size of a block and what the adjustments add to its need; the function is the first one
of the file with the name. -/
def recorded (rs : List SizeRecord) (fName : Str) (pos : ℕ) : Option (ℕ × ℤ) := do
  let i ← rs.findIdx? fun r => decide (r.name = fName)
  let r ← rs[i]?
  let size ← r.sizes[pos]?
  return (size, total adjustments i pos)

theorem SizeRecord.bbNeedSize_toFunc (r : SizeRecord) :
    r.toFunc.bbNeedSize = r.sizes.map fun size : ℕ => 128 - (size : ℤ) := by
  unfold toFunc
  simp [← List.map_eq_flatMap]

/-- The functions of the file after the adjustments. -/
def adjustedFuncs (rs : List SizeRecord) : List NopFunc :=
  (rs.map SizeRecord.toFunc).mapIdx (NopFunc.adjusted adjustments)

theorem getElem?_adjustedFuncs (rs : List SizeRecord) (i : ℕ) :
    (adjustedFuncs rs)[i]? = (rs[i]?).map fun r => NopFunc.adjusted adjustments i r.toFunc := by
  unfold adjustedFuncs
  rw [List.getElem?_mapIdx, List.getElem?_map, Option.map_map]
  rfl

theorem adjustedFuncs_map_name (rs : List SizeRecord) :
    (adjustedFuncs rs).map NopFunc.name = rs.map SizeRecord.name := by
  apply List.ext_getElem?
  intro i
  rw [List.getElem?_map, getElem?_adjustedFuncs, List.getElem?_map, Option.map_map]
  rfl

/-- A function of the list has a record in the file. -/
theorem exists_record_of_isListed {rs : List SizeRecord} {fName : Str}
    (h : isListed (adjustedFuncs rs) fName = true) : ∃ r ∈ rs, r.name = fName := by
  obtain ⟨f, hf, hname⟩ := List.find?_isSome.mp h
  apply List.mem_map.mp
  rw [← adjustedFuncs_map_name, ← of_decide_eq_true hname]
  exact List.mem_map_of_mem hf

theorem find?_adjustedFuncs (rs : List SizeRecord) (fName : Str) :
    (adjustedFuncs rs).find? (fun f => decide (f.name = fName)) =
      (rs.findIdx? fun r => decide (r.name = fName)).bind fun i =>
        (rs[i]?).map fun r => NopFunc.adjusted adjustments i r.toFunc := by
  have hidx : (adjustedFuncs rs).findIdx? (fun f => decide (f.name = fName)) =
      rs.findIdx? fun r => decide (r.name = fName) := by
    have hcongr := congrArg (List.findIdx? fun name => decide (name = fName))
      (adjustedFuncs_map_name rs)
    rw [List.findIdx?_map, List.findIdx?_map] at hcongr
    exact hcongr
  rw [List.find?_eq_bind_findIdx?_getElem?, hidx]
  simp only [getElem?_adjustedFuncs]

/-- The record of the file that a function has, and its need. -/
theorem getElem?_need {rs : List SizeRecord} {fName : Str} {pos : ℕ} {f : NopFunc}
    (hf : (adjustedFuncs rs).find? (fun f => decide (f.name = fName)) = some f) :
    f.bbNeedSize[pos]? = (recorded rs fName pos).map fun p => 128 - (p.1 : ℤ) + p.2 := by
  rw [find?_adjustedFuncs] at hf
  obtain ⟨i, hi, hf⟩ := Option.bind_eq_some_iff.mp hf
  obtain ⟨r, hr, rfl⟩ := Option.map_eq_some_iff.mp hf
  unfold recorded
  rw [hi, Option.bind_eq_bind, Option.bind_some, hr, Option.bind_eq_bind, Option.bind_some]
  unfold NopFunc.adjusted
  rw [List.getElem?_mapIdx, r.bbNeedSize_toFunc, List.getElem?_map]
  cases r.sizes[pos]? with
  | none => rfl
  | some size => rfl

/-! ## The blocks -/

/-- The instruction of the source, if it is one. -/
def NopInst.old? : NopInst ι → Option ι
  | .old i => some i
  | _ => none

/-- The instructions of a block. -/
def NopBlock.insts (b : NopBlock ι) : List ι := b.phis ++ b.first :: b.rest

theorem NopBlock.filterMap_filled (b : NopBlock ι) {made : List (NopInst ι)}
    (h : ∀ x ∈ made, x.old? = none) : (b.filled made).filterMap NopInst.old? = b.insts := by
  have hold : ∀ l : List ι, (l.map NopInst.old).filterMap NopInst.old? = l := fun l => by
    rw [List.filterMap_map]
    exact List.filterMap_some
  have hmade : made.filterMap NopInst.old? = [] := List.filterMap_eq_nil_iff.mpr h
  unfold filled insts
  rw [List.filterMap_append, List.filterMap_append, hold, hmade, List.append_nil,
    List.filterMap_cons]
  show b.phis ++ b.first :: (b.rest.map NopInst.old).filterMap NopInst.old? = _
  rw [hold]

/-- The number of stores fills a block of the size up to 128 bytes, or one more when the gap is odd, with
two bytes left for a branch; a block that is larger gets none. -/
def Fills (size : ℕ) (adjust : ℤ) (n : ℕ) : Prop :=
  if (size : ℤ) + 2 ≤ 128 + adjust then
    (size : ℤ) + 2 * n + 2 = 128 + adjust ∨ (size : ℤ) + 2 * n + 2 = 128 + adjust + 1
  else n = 0

/-- The alloca of the first block, and the stores. -/
def madeAt (pos n : ℕ) : List (NopInst ι) :=
  allocasAt pos ++ List.replicate n (.store (pointerAt pos))

/-- What becomes of a block: behind its PHI nodes stand the alloca, in the first block, and the stores. -/
structure Padded (record : Option (ℕ × ℤ)) (pos : ℕ) (b : NopBlock ι) (out : NopOut ι) : Prop where
  name : out.name = b.name
  kept : out.insts.filterMap NopInst.old? = b.insts
  filled : ∃ n, out.insts = b.filled (madeAt pos n) ∧
    match record with
    | none => n = 0
    | some (size, adjust) => Fills size adjust n

theorem fills_need (size : ℕ) (adjust : ℤ) :
    Fills size adjust ((128 - (size : ℤ) + adjust - 2 + 1) / 2).toNat := by
  unfold Fills
  split_ifs with hroom
  · omega
  · omega

theorem old?_madeAt {pos n : ℕ} : ∀ x ∈ (madeAt pos n : List (NopInst ι)), x.old? = none := by
  intro x hx
  rcases List.mem_append.mp hx with hx | hx
  · unfold allocasAt at hx
    split_ifs at hx
    · obtain rfl := List.mem_singleton.mp hx
      rfl
    · cases hx
  · obtain rfl := (List.mem_replicate.mp hx).2
    rfl

/-- A labelled block, with its record in the file. -/
theorem nopBlock_padded {rs : List SizeRecord} {fName : Str} {pos : ℕ} {b : NopBlock ι}
    (hname : b.name = bbName fName (pos + 1)) (hpos : pos + 1 ≤ 2 ^ 31 - 1)
    (hneed : ∀ f, (adjustedFuncs rs).find? (fun f => decide (f.name = fName)) = some f →
      pos < f.bbNeedSize.length) :
    ∃ out, nopBlock (adjustedFuncs rs) fName pos b = some out ∧
      Padded (recorded rs fName pos) pos b out := by
  cases hfind : (adjustedFuncs rs).find? fun f => decide (f.name = fName) with
  | none =>
    have hmade : madeAt pos 0 = (allocasAt pos : List (NopInst ι)) := List.append_nil _
    refine ⟨_, nopBlock_of_unlisted hname hpos hfind, rfl, ?_, 0, ?_, ?_⟩
    · rw [← hmade]
      exact b.filterMap_filled old?_madeAt
    · rw [hmade]
    · have hrecord : recorded rs fName pos = none := by
        rw [find?_adjustedFuncs] at hfind
        unfold recorded
        cases hidx : rs.findIdx? fun r => decide (r.name = fName) with
        | none => rfl
        | some i =>
          rw [hidx, Option.bind_some, Option.map_eq_none_iff] at hfind
          rw [Option.bind_eq_bind, Option.bind_some, hfind]
          rfl
      rw [hrecord]
  | some f =>
    obtain ⟨need, hget⟩ : ∃ need, f.bbNeedSize[pos]? = some need :=
      ⟨_, List.getElem?_eq_getElem (hneed f hfind)⟩
    have hrecord : f.bbNeedSize[pos]? = _ := getElem?_need hfind
    rw [hget] at hrecord
    obtain ⟨⟨size, adjust⟩, hrec, rfl⟩ := Option.map_eq_some_iff.mp hrecord.symm
    let need := 128 - (size : ℤ) + adjust
    obtain ⟨left, hfill⟩ := fillNop_eq (ι := ι) (pointerAt pos) (need - 2)
    let out : NopOut ι :=
      { name := b.name, passed := some (pointerAt pos)
        insts := b.filled (madeAt pos ((need - 2 + 1) / 2).toNat) }
    refine ⟨out, ?_, rfl, b.filterMap_filled old?_madeAt, _, rfl, ?_⟩
    · rw [nopBlock_eq hname hpos, bbNeed_succ, hfind, Option.elim_some, hget, Option.map_some,
        Option.bind_some]
      dsimp only
      rw [hfill]
      rfl
    · rw [hrec]
      exact fills_need size adjust

/-- A labelled function, block by block. -/
abbrev PaddedFunction (record : Str → ℕ → Option (ℕ × ℤ)) (F : NopFunction ι) (G : List (NopOut ι)) :
    Prop :=
  List.Forall₂ (fun p block => Padded (record F.name p.2) p.2 p.1 block) F.blocks.zipIdx G

/-- The loop over a labelled module, with the functions of the file after the adjustments. -/
theorem nopModule_padded {rs : List SizeRecord} {M : List (NopFunction ι)} (hlab : LabelledModule M)
    (hcov : RecordsCover (adjustedFuncs rs) M) :
    ∃ out, nopModule (adjustedFuncs rs) M = some out ∧
      List.Forall₂ (PaddedFunction (recorded rs)) M out := by
  apply Loop.exists_mapM_eq_some
  intro F hF
  obtain ⟨hlabels, hmax⟩ := hlab F hF
  apply Loop.exists_mapM_eq_some
  rintro ⟨b, pos⟩ hmem
  obtain ⟨hlt, hname⟩ := label_of_mem_zipIdx hlabels hmem
  exact nopBlock_padded hname (by omega) fun f hf => hlt.trans_le (hcov F hF f hf)

/-- The pass on a file in the format of `BB_check1.py`. -/
theorem insertNop_middleText {rs : List SizeRecord} (M : List (NopFunction ι))
    (hadj : HasAdjusted (rs.map SizeRecord.toFunc)) :
    insertNop (middleText rs) M = nopModule (adjustedFuncs rs) M ∧
      (adjustedFuncs rs).map NopFunc.shape = (rs.map SizeRecord.toFunc).map NopFunc.shape := by
  obtain ⟨funcs, hfuncs⟩ := Option.isSome_iff_exists.mp ((adjustNeed_isSome_iff _).mpr hadj)
  have hshape := adjustNeed_shape hfuncs
  obtain rfl : funcs = adjustedFuncs rs := forEach_adjustOne hfuncs
  have hread : readMiddle (middleText rs) = some (rs.map SizeRecord.toFunc) := by
    unfold readMiddle
    rw [getlines_middleText, forEach_readMiddleLine_records, List.nil_append]
  refine ⟨?_, hshape⟩
  unfold insertNop
  rw [loadFuncs_eq hread, hfuncs]
  rfl

/-- **How far the blocks are filled.** On a labelled module whose functions have one block if the file
lists them, with a file in the format of `BB_check1.py` that has a size for each of these blocks and the
functions that the adjustments name, the pass runs through; every block keeps its instructions and gets
the stores that its recorded size asks for, all of them through its own alloca. -/
theorem insertNop_padded {rs : List SizeRecord} {M : List (NopFunction ι)} (hlab : LabelledModule M)
    (hone : ∀ F ∈ M, (∃ r ∈ rs, r.name = F.name) → F.blocks.length ≤ 1)
    (hcov : RecordsCover (rs.map SizeRecord.toFunc) M)
    (hadj : HasAdjusted (rs.map SizeRecord.toFunc)) :
    ∃ out, insertNop (middleText rs) M = some out ∧
      List.Forall₂ (PaddedFunction (recorded rs)) M out ∧ ∀ G ∈ out, StoresFirst G := by
  obtain ⟨hrun, hshape⟩ := insertNop_middleText M hadj
  have hcov' := hcov.of_shape hshape
  obtain ⟨out, hout, hpadded⟩ := nopModule_padded hlab hcov'
  refine ⟨out, hrun.trans hout, hpadded, (storesFirst_nopModule_iff hlab hcov' hout).mpr ?_⟩
  exact fun F hF hlisted => hone F hF (exists_record_of_isListed hlisted)

/-- A block of 124 bytes, in the fourth function of a file of seven, gets two stores. -/
theorem insertNop_padded_oneBlock : ∃ out,
    insertNop (middleText sevenRecords) [plainFunction ['f', '3'] 1] = some out ∧
      List.Forall₂ (PaddedFunction (recorded sevenRecords)) [plainFunction ['f', '3'] 1] out ∧
      ∀ G ∈ out, StoresFirst G := by
  have hfind : (sevenRecords.map SizeRecord.toFunc).find? (fun f => decide (f.name = ['f', '3'])) =
      some (fileRecord 3 1).toFunc := by decide
  apply insertNop_padded (labelled_plainFunction (by omega)) (by decide)
    (recordsCover_singleton hfind (by decide))
  unfold HasAdjusted
  decide

end MpuPasses
