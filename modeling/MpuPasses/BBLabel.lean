import MpuPasses.Lib.Chars
import MpuPasses.Lib.Names

/-!
# `BB_label`

The pass names the blocks of every function after the function and their place in it. It does so
one block after the other, and LLVM does not give out a name that another value of the function
bears: it appends a number. The functions that come out labelled are the ones whose labels are free
before the pass (`labelBlocks_labelled_iff`).
-/

namespace MpuPasses

open Chars

/-! ## The labels -/

/-- `F_name + "_BB" + std::to_string(k)`. -/
def bbName (fName : Str) (k : ℕ) : Str := fName ++ "_BB".toList ++ pyStr k

/-- The blocks of a function bear the labels of their places. -/
def Labelled (fName : Str) (blocks : List Str) : Prop :=
  blocks = (List.range blocks.length).map fun k => bbName fName (k + 1)

theorem pyStr_injective : Function.Injective pyStr := fun v w h => by
  have hread := pyInt_pyStr v
  rw [h, pyInt_pyStr] at hread
  exact (Option.some.inj hread).symm

theorem bbName_injective (fName : Str) : Function.Injective (bbName fName) := fun j k h => by
  have hnum := pyStr_injective (List.append_cancel_left h)
  exact Nat.cast_injective hnum

/-- Labels tell the blocks apart. -/
theorem Labelled.nodup {fName : Str} {blocks : List Str} (h : Labelled fName blocks) :
    blocks.Nodup := by
  have hmap : ((List.range blocks.length).map fun k => bbName fName (k + 1)).Nodup :=
    List.nodup_range.map fun j k hjk => Nat.succ_injective (bbName_injective fName hjk)
  rwa [← h] at hmap

theorem labelled_iff_getElem? {fName : Str} {blocks : List Str} :
    Labelled fName blocks ↔ ∀ k < blocks.length, blocks[k]? = some (bbName fName (k + 1)) := by
  unfold Labelled
  constructor
  · intro h k hk
    rw [h, List.getElem?_map, List.getElem?_range hk]
    rfl
  · intro h
    apply List.ext_getElem?
    intro k
    by_cases hk : k < blocks.length
    · rw [h k hk, List.getElem?_map, List.getElem?_range hk]
      rfl
    · rw [List.getElem?_eq_none (by omega), List.getElem?_eq_none (by simpa using hk)]

/-! ## The pass -/

/-- How LLVM names a value whose name is taken: by the name with a number behind it. -/
structure ValueNames (σ : Type*) extends Names.Supply σ Str where
  appends : ∀ s taken name, ∃ n : ℕ, (pick s taken name).1 = name ++ pyStr n

/-- A function, with the names of its blocks in order and those of its arguments and
instructions. -/
structure LabelFunc (σ : Type*) where
  name : Str
  symbols : Names.Table σ Str

/-- The names of the blocks. -/
def LabelFunc.blocks {σ : Type*} (F : LabelFunc σ) : List Str := F.symbols.values

/-- The names of the arguments and instructions. -/
def LabelFunc.others {σ : Type*} (F : LabelFunc σ) : List Str := F.symbols.others

variable {σ : Type*}

/-- The loop over the blocks: `BB->setName(F_name + "_BB" + num)`, counting from 1. -/
def labelBlocks (L : ValueNames σ) (F : LabelFunc σ) : LabelFunc σ :=
  { F with symbols := Names.renameAll L.toSupply (fun k => bbName F.name (k + 1)) F.symbols
                        F.blocks.length }

/-- `runOnModule`. -/
def bbLabel (L : ValueNames σ) (M : List (LabelFunc σ)) : List (LabelFunc σ) := M.map (labelBlocks L)

/-- The names of a function's values stay apart. -/
theorem labelBlocks_distinct (L : ValueNames σ) {F : LabelFunc σ} (h : F.symbols.Distinct []) :
    (labelBlocks L F).symbols.Distinct [] := Names.renameAll_distinct _ _ _ h _

/-- No argument, no instruction and no block behind it bears the label of a block. -/
def LabelsFree (F : LabelFunc σ) : Prop :=
  ∀ k < F.blocks.length, bbName F.name (k + 1) ∉ F.others ∧
    ∀ j, k < j → F.blocks[j]? ≠ some (bbName F.name (k + 1))

theorem labels_injective (fName : Str) : Function.Injective fun k => bbName fName (k + 1) :=
  (bbName_injective fName).comp Nat.succ_injective

theorem length_labelBlocks (L : ValueNames σ) (F : LabelFunc σ) :
    (labelBlocks L F).blocks.length = F.blocks.length :=
  Names.length_renameAll_values L.toSupply _ F.symbols _

/-- Free labels are given out. -/
theorem LabelsFree.labelled (L : ValueNames σ) {F : LabelFunc σ} (h : LabelsFree F) :
    Labelled F.name (labelBlocks L F).blocks := by
  rw [labelled_iff_getElem?, length_labelBlocks]
  exact (Names.renameAll_eq_iff L.toSupply F.symbols (labels_injective F.name)).mpr h

/-- Only free labels are given out. -/
theorem labelsFree_of_labelled {L : ValueNames σ} {F : LabelFunc σ}
    (h : Labelled F.name (labelBlocks L F).blocks) : LabelsFree F := by
  rw [labelled_iff_getElem?, length_labelBlocks] at h
  exact (Names.renameAll_eq_iff L.toSupply F.symbols (labels_injective F.name)).mp h

/-- **Which functions come out labelled.** Block `k` gets its label just if no argument, no
instruction and no block behind it bears that name before the pass. -/
theorem labelBlocks_labelled_iff (L : ValueNames σ) (F : LabelFunc σ) :
    Labelled F.name (labelBlocks L F).blocks ↔ LabelsFree F :=
  ⟨labelsFree_of_labelled, LabelsFree.labelled L⟩

/-- A module whose labels are free comes out labelled. -/
theorem bbLabel_labelled (L : ValueNames σ) {M : List (LabelFunc σ)} (h : ∀ F ∈ M, LabelsFree F) :
    ∀ F ∈ bbLabel L M, Labelled F.name F.blocks := by
  intro F hF
  obtain ⟨G, hG, rfl⟩ := List.mem_map.mp hF
  exact (h G hG).labelled L

/-! ## LLVM's numbers -/

/-- Some number behind the last one that was given out is free. -/
theorem exists_unused (last : ℕ) (taken : List Str) (name : Str) :
    ∃ n, last < n ∧ name ++ pyStr (n : ℕ) ∉ taken := by
  have hinj : Function.Injective fun n : ℕ => name ++ pyStr ((last + 1 + n : ℕ) : ℤ) :=
    fun j k h => by
      have hnum := pyStr_injective (List.append_cancel_left h)
      omega
  obtain ⟨-, ⟨n, rfl⟩, hfree⟩ :=
    (Set.infinite_range_of_injective hinj).exists_notMem_finset taken.toFinset
  exact ⟨last + 1 + n, by omega, by simpa using hfree⟩

/-- A symbol table numbers the names that it has to change, and tries the next number while the
result is taken. -/
def lastUnique : ValueNames ℕ where
  pick last taken name :=
    let n := Nat.find (exists_unused last taken name)
    (name ++ pyStr n, n)
  notMem last taken name := (Nat.find_spec (exists_unused last taken name)).2
  appends last taken name := ⟨Nat.find (exists_unused last taken name), rfl⟩

/-- A taken name gets the next number if the result is free. -/
theorem setName_lastUnique {T : Names.Table ℕ Str} {k : ℕ} {name : Str} (h : name ∈ T.taken k)
    (hfree : name ++ pyStr ((T.state + 1 : ℕ) : ℤ) ∉ T.taken k) :
    Names.setName lastUnique.toSupply T k name =
      { T with values := T.values.set k (name ++ pyStr ((T.state + 1 : ℕ) : ℤ))
               state := T.state + 1 } := by
  have hfind : Nat.find (exists_unused T.state (T.taken k) name) = T.state + 1 := by
    rw [Nat.find_eq_iff]
    exact ⟨⟨Nat.lt_succ_self T.state, hfree⟩, fun n hn hbad => by omega⟩
  have hpick : lastUnique.pick T.state (T.taken k) name =
      (name ++ pyStr ((T.state + 1 : ℕ) : ℤ), T.state + 1) := by
    show (_, _) = _
    rw [hfind]
  rw [Names.setName_of_mem _ _ _ _ h, hpick]

/-- A function of two labelled blocks whose first one was split: the new block stands in front and
has no name. -/
def resplit : LabelFunc ℕ where
  name := "f".toList
  symbols := { state := 0, others := [], values := [[], "f_BB1".toList, "f_BB2".toList] }

/-- The new block asks for the name that the next one still has, and so does that one: they are
numbered like blocks 11 and 22. -/
theorem labelBlocks_resplit : (labelBlocks lastUnique resplit).blocks =
    ["f_BB11".toList, "f_BB22".toList, "f_BB3".toList] := by
  have hfirst : Names.setName lastUnique.toSupply resplit.symbols 0 "f_BB1".toList =
      { state := 1, others := [],
        values := ["f_BB11".toList, "f_BB1".toList, "f_BB2".toList] } :=
    setName_lastUnique (by decide) (by decide)
  have hsecond : Names.setName lastUnique.toSupply
      { state := 1, others := [], values := ["f_BB11".toList, "f_BB1".toList, "f_BB2".toList] } 1
        "f_BB2".toList =
      { state := 2, others := [],
        values := ["f_BB11".toList, "f_BB22".toList, "f_BB2".toList] } :=
    setName_lastUnique (by decide) (by decide)
  show (Names.setName _ (Names.setName _ (Names.setName _ resplit.symbols 0 "f_BB1".toList) 1
    "f_BB2".toList) 2 "f_BB3".toList).values = _
  rw [hfirst, hsecond, Names.setName_of_notMem _ _ _ _ (by decide)]
  rfl

/-- A function that is labelled again after a split is not labelled. -/
theorem not_labelled_resplit : ¬ Labelled resplit.name (labelBlocks lastUnique resplit).blocks := by
  rw [labelBlocks_resplit]
  unfold Labelled
  decide

end MpuPasses
