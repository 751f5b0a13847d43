import MpuPasses.MiddleBB
import MpuPasses.BBLabel

/-!
# `Insert_Nop`

In front of the first instruction of every block that is no PHI node the pass puts volatile stores
until the block has its size. It reads the number of the block back from the digits at the end of its
label and looks up how many bytes are needed. The stores go through a pointer `A` that is declared
anew for every block and gets a value, the new alloca, in block 1 only.
-/

namespace MpuPasses

open Chars

/-! ## The number of a block -/

/-- `s.substr(pos, n)`; `none` is a thrown `out_of_range`. -/
def substr (s : Str) (pos n : ℕ) : Option Str :=
  if pos ≤ s.length then some ((s.drop pos).take n) else none

/-- `BB_name[len-num_index-1]`. -/
def charBack (bbName : Str) (numIndex : ℕ) : Option Char :=
  vecGet bbName ((bbName.length : ℤ) - numIndex - 1)

/-- `while(std::isdigit(BB_name[len-num_index-1])) num_index++`. A name of digits alone makes the loop
read in front of the string: the test does not stop it and the turn fails. -/
def scanDigits (bbName : Str) : Loop.Outcome ℕ :=
  Loop.run (fun numIndex => (charBack bbName numIndex).elim true Char.isDigit)
    (fun numIndex => (charBack bbName numIndex).map fun _ => numIndex + 1) (bbName.length + 1) 0

/-- The number at the end of a block's name. -/
def blockNum (bbName : Str) : Option ℤ := do
  let numIndex ← (scanDigits bbName).final?
  let seq ← substr bbName (bbName.length - numIndex) bbName.length
  stoi seq

section Scan

variable {pre ds : Str} {c : Char}

theorem charBack_append {i : ℕ} (hi : i ≤ ds.length) :
    charBack (pre ++ c :: ds) i = (c :: ds)[ds.length - i]? := by
  have hlen : (pre ++ c :: ds).length = pre.length + (ds.length + 1) := by simp
  unfold charBack vecGet
  rw [if_pos (by omega), List.getElem?_append_right (by omega)]
  congr 1
  omega

/-- The scan takes the digits at the end and stops in front of them. -/
theorem scanDigits_append (hc : c.isDigit = false) (hds : ∀ d ∈ ds, d.isDigit = true) :
    scanDigits (pre ++ c :: ds) = .done ds.length := by
  have hturn : ∀ i, i ≤ ds.length →
      ((charBack (pre ++ c :: ds) i).elim true Char.isDigit) = true →
      ∃ j, (charBack (pre ++ c :: ds) i).map (fun _ => i + 1) = some j ∧ j ≤ ds.length ∧
        ds.length - j < ds.length - i := by
    intro i hi hdigit
    rw [charBack_append hi] at hdigit ⊢
    have hlt : i < ds.length := by
      refine lt_of_le_of_ne hi fun heq => ?_
      rw [heq, Nat.sub_self, List.getElem?_cons_zero, Option.elim_some, hc] at hdigit
      cases hdigit
    obtain ⟨d, hget⟩ : ∃ d, (c :: ds)[ds.length - i]? = some d :=
      ⟨_, List.getElem?_eq_getElem (by rw [List.length_cons]; omega)⟩
    rw [hget]
    exact ⟨i + 1, rfl, hlt, by omega⟩
  have hlen : ds.length < (pre ++ c :: ds).length + 1 := by
    rw [List.length_append, List.length_cons]
    omega
  obtain ⟨i, hrun, hi, hstop⟩ := Loop.exists_run_eq_done (fun i => i ≤ ds.length)
    (fun i => ds.length - i) hturn (Nat.zero_le ds.length) hlen
  have hall : i = ds.length := by
    by_contra hne
    obtain ⟨j, hj⟩ : ∃ j, ds.length - i = j + 1 := ⟨ds.length - i - 1, by omega⟩
    have hjlt : j < ds.length := by omega
    rw [charBack_append hi, hj, List.getElem?_cons_succ, List.getElem?_eq_getElem hjlt,
      Option.elim_some, hds _ (List.getElem_mem hjlt)] at hstop
    cases hstop
  rw [← hall]
  exact hrun

theorem blockNum_append (hc : c.isDigit = false) (hds : ∀ d ∈ ds, d.isDigit = true) :
    substr (pre ++ c :: ds) ((pre ++ c :: ds).length - ds.length) (pre ++ c :: ds).length =
      some ds ∧ blockNum (pre ++ c :: ds) = stoi ds := by
  have hpos : (pre ++ c :: ds).length - ds.length = pre.length + 1 := by
    rw [List.length_append, List.length_cons]
    omega
  have hcut : substr (pre ++ c :: ds) ((pre ++ c :: ds).length - ds.length)
      (pre ++ c :: ds).length = some ds := by
    have hdrop : (pre ++ c :: ds).drop (pre.length + 1) = ds := by
      rw [← List.drop_drop, List.drop_left]
      rfl
    have hlen : ds.length ≤ (pre ++ c :: ds).length := by
      rw [List.length_append, List.length_cons]
      omega
    unfold substr
    rw [if_pos (Nat.sub_le _ _), hpos, hdrop, List.take_of_length_le hlen]
  refine ⟨hcut, ?_⟩
  unfold blockNum
  rw [scanDigits_append hc hds]
  show (substr _ _ _).bind stoi = stoi ds
  rw [hcut, Option.bind_some]

end Scan

/-- A label in front of its number. -/
theorem bbName_eq (fName : Str) (k : ℕ) :
    bbName fName k = (fName ++ "_B".toList) ++ 'B' :: Nat.toDigits 10 k := by
  unfold bbName pyStr
  simp

/-- The number of a label is read back. -/
theorem blockNum_label (fName : Str) {k : ℕ} (hk : k ≤ 2 ^ 31 - 1) :
    blockNum (bbName fName k) = some (k : ℤ) := by
  rw [bbName_eq, (blockNum_append (by decide) fun _ => isDigit_of_mem_decimal).2]
  exact stoi_pyStr (by omega)

/-! ## The pass -/

/-- A block: its name, its PHI nodes, and its other instructions, of which there is a first one. -/
structure NopBlock (ι : Type) where
  name : Str
  phis : List ι
  first : ι
  rest : List ι

structure NopFunction (ι : Type) where
  name : Str
  blocks : List (NopBlock ι)

/-- An instruction of the result. A store has the value that `A` had, the number of the block where
the alloca was made; `none` is no value. -/
inductive NopInst (ι : Type)
  | old (i : ι)
  | alloca
  | store (A : Option ℕ)
  deriving DecidableEq, Repr

/-- A block of the result, and what was handed over as `A` if `fill_nop` was called for it. -/
structure NopOut (ι : Type) where
  name : Str
  passed : Option (Option ℕ)
  insts : List (NopInst ι)
  deriving DecidableEq, Repr

variable {ι : Type}

/-- `fill_nop`: what is left to fill, and the stores made. -/
def fillNop (A : Option ℕ) (needSize : ℤ) : Loop.Outcome (ℤ × List (NopInst ι)) :=
  Loop.run (fun s => decide (s.1 > 0)) (fun s => some (s.1 - 2, s.2 ++ [.store A]))
    (needSize.toNat + 1) (needSize, [])

/-- The loop over `Funcs`: `BB_need_size[num-1]` of the first function with the name, if there is
one. -/
def bbNeed (funcs : List NopFunc) (fName : Str) (num : ℤ) : Option (Option ℤ) :=
  match funcs.find? fun f => decide (f.name = fName) with
  | none => some none
  | some f => (vecGet f.bbNeedSize (num - 1)).map some

/-- What the builder makes stands in front of the first instruction that is no PHI node. -/
def NopBlock.filled (b : NopBlock ι) (made : List (NopInst ι)) : List (NopInst ι) :=
  b.phis.map .old ++ made ++ .old b.first :: b.rest.map .old

/-- The body of the loop over the blocks, for block number `pos` in order. A store through an `A`
without a value is recorded as such and the run goes on, which the source does not promise. -/
def nopBlock (funcs : List NopFunc) (fName : Str) (pos : ℕ) (b : NopBlock ι) :
    Option (NopOut ι) := do
  let num ← blockNum b.name
  -- `Instruction *A;` has a value only where the alloca is made
  let A := if num = 1 then some pos else none
  let alloca := if num = 1 then [NopInst.alloca] else []
  let need ← bbNeed funcs fName num
  match need with
  | none => return { name := b.name, passed := none, insts := b.filled alloca }
  | some need =>
    let (_, stores) ← (fillNop A (need - 2)).final?
    return { name := b.name, passed := some A, insts := b.filled (alloca ++ stores) }

/-- The blocks of a function, with their numbers in order. -/
def nopFunction (funcs : List NopFunc) (F : NopFunction ι) : Option (List (NopOut ι)) :=
  F.blocks.zipIdx.mapM fun p => nopBlock funcs F.name p.2 p.1

/-- The loop over the module. -/
def nopModule (funcs : List NopFunc) (M : List (NopFunction ι)) : Option (List (List (NopOut ι))) :=
  M.mapM (nopFunction funcs)

/-- `runOnModule`, with the text of `middle_BB.txt`. -/
def insertNop (text : Str) (M : List (NopFunction ι)) : Option (List (List (NopOut ι))) := do
  let funcs ← loadFuncs text
  nopModule funcs M

/-! ## One block -/

/-- `fill_nop` makes a store for every two bytes, all through the pointer that it got. -/
theorem fillNop_eq (A : Option ℕ) (needSize : ℤ) : ∃ left,
    (fillNop A needSize : Loop.Outcome (ℤ × List (NopInst ι))) =
      .done (left, List.replicate ((needSize + 1) / 2).toNat (.store A)) := by
  have hturn : ∀ s : ℤ × List (NopInst ι),
      (∃ m : ℕ, s = (needSize - 2 * m, List.replicate m (.store A)) ∧
        (m : ℤ) ≤ max 0 ((needSize + 1) / 2)) → decide (s.1 > 0) = true →
      ∃ t, (some (s.1 - 2, s.2 ++ [NopInst.store A]) : Option (ℤ × List (NopInst ι))) = some t ∧
        (∃ m : ℕ, t = (needSize - 2 * m, List.replicate m (.store A)) ∧
          (m : ℤ) ≤ max 0 ((needSize + 1) / 2)) ∧ t.1.toNat < s.1.toNat := by
    rintro - ⟨m, rfl, hm⟩ hpos
    have hpos' : needSize - 2 * m > 0 := of_decide_eq_true hpos
    refine ⟨_, rfl, ⟨m + 1, ?_, ?_⟩, ?_⟩
    · rw [List.replicate_succ']
      congr 1
      push_cast
      omega
    · push_cast
      omega
    · show (needSize - 2 * m - 2).toNat < (needSize - 2 * m).toNat
      omega
  have hstart : ∃ m : ℕ, ((needSize, []) : ℤ × List (NopInst ι)) =
      (needSize - 2 * m, List.replicate m (.store A)) ∧
        (m : ℤ) ≤ max 0 ((needSize + 1) / 2) := ⟨0, by simp, by simp⟩
  obtain ⟨t, hrun, ⟨m, rfl, hm⟩, hstop⟩ := Loop.exists_run_eq_done _
    (fun s : ℤ × List (NopInst ι) => s.1.toNat) hturn hstart (Nat.lt_succ_self needSize.toNat)
  have hstop' : ¬ needSize - 2 * m > 0 := of_decide_eq_false hstop
  have hcount : m = ((needSize + 1) / 2).toNat := by omega
  refine ⟨needSize - 2 * m, ?_⟩
  rw [← hcount]
  exact hrun

theorem NopBlock.mem_filled {b : NopBlock ι} {made : List (NopInst ι)} {x : NopInst ι}
    (hx : ∀ i, x ≠ .old i) : x ∈ b.filled made ↔ x ∈ made := by
  have hold : ∀ l : List ι, x ∉ l.map .old := fun l h => by
    obtain ⟨i, -, rfl⟩ := List.mem_map.mp h
    exact hx i rfl
  unfold filled
  simp only [List.mem_append, List.mem_cons, hold, hx, false_or, or_false]

/-- The pointer that the body has in a labelled block: only the first one makes it a value. -/
def pointerAt (pos : ℕ) : Option ℕ := if pos = 0 then some 0 else none

/-- What a labelled block becomes. -/
structure NopSpec (listed : Bool) (pos : ℕ) (out : NopOut ι) : Prop where
  passed : out.passed = if listed then some (pointerAt pos) else none
  store : ∀ A, .store A ∈ out.insts → out.passed = some A
  alloca : pos = 0 → .alloca ∈ out.insts

/-- The function has a record in the file. -/
def isListed (funcs : List NopFunc) (fName : Str) : Bool :=
  (funcs.find? fun f => decide (f.name = fName)).isSome

/-- Block number `pos + 1` has the need at place `pos`. -/
theorem bbNeed_succ (funcs : List NopFunc) (fName : Str) (pos : ℕ) :
    bbNeed funcs fName ((pos + 1 : ℕ) : ℤ) =
      (funcs.find? fun f => decide (f.name = fName)).elim (some none)
        fun f => (f.bbNeedSize[pos]?).map some := by
  have hidx : (((pos + 1 : ℕ) : ℤ) - 1).toNat = pos := by omega
  unfold bbNeed
  cases funcs.find? fun f => decide (f.name = fName) with
  | none => rfl
  | some f =>
    dsimp only [Option.elim_some]
    unfold vecGet
    rw [if_pos (by omega), hidx]

/-- **A label is read back.** The scan stops at the `B`, what it cuts off is the number, and the need
looked up is the one of this block. -/
theorem label_decoded (fName : Str) {k : ℕ} (hk : 1 ≤ k) (hmax : k ≤ 2 ^ 31 - 1) :
    scanDigits (bbName fName k) = .done (pyStr k).length ∧
      charBack (bbName fName k) (pyStr k).length = some 'B' ∧
      substr (bbName fName k) ((bbName fName k).length - (pyStr k).length)
        (bbName fName k).length = some (pyStr k) ∧
      stoi (pyStr k) = some (k : ℤ) ∧ blockNum (bbName fName k) = some (k : ℤ) ∧
      ∀ funcs, (blockNum (bbName fName k)).bind (bbNeed funcs fName) =
        (funcs.find? fun f => decide (f.name = fName)).elim (some none)
          fun f => (f.bbNeedSize[k - 1]?).map some := by
  have hB : Char.isDigit 'B' = false := by decide
  have hds : ∀ d ∈ Nat.toDigits 10 k, d.isDigit = true := fun _ => isDigit_of_mem_decimal
  have hnum := blockNum_label fName hmax
  have hstr : pyStr (k : ℤ) = Nat.toDigits 10 k := rfl
  refine ⟨?_, ?_, ?_, ?_, hnum, ?_⟩
  · rw [bbName_eq, hstr]
    exact scanDigits_append hB hds
  · rw [bbName_eq, hstr, charBack_append le_rfl, Nat.sub_self]
    rfl
  · rw [bbName_eq, hstr]
    exact (blockNum_append hB hds).1
  · exact stoi_pyStr (by omega)
  · intro funcs
    obtain ⟨pos, rfl⟩ : ∃ pos, k = pos + 1 := ⟨k - 1, by omega⟩
    rw [hnum, Option.bind_some, bbNeed_succ, Nat.add_sub_cancel]

/-- A function name that looks like a label itself, and the largest number. -/
theorem label_decoded_last :
    blockNum (bbName "f2_BB1".toList 2147483647) = some 2147483647 := by
  obtain ⟨-, -, -, -, hnum, -⟩ := label_decoded "f2_BB1".toList
    (show 1 ≤ 2147483647 by omega) (by omega)
  exact hnum

section LabelledBlock

variable {funcs : List NopFunc} {fName : Str} {pos : ℕ} {b : NopBlock ι}

/-- The alloca stands in the first block. -/
def allocasAt (pos : ℕ) : List (NopInst ι) := if pos = 0 then [.alloca] else []

theorem store_notMem_allocasAt (A : Option ℕ) :
    NopInst.store A ∉ (allocasAt pos : List (NopInst ι)) := by
  unfold allocasAt
  split_ifs
  · simp
  · simp

/-- The body of the loop over the blocks, once the number of the block is read. -/
theorem nopBlock_eq (hname : b.name = bbName fName (pos + 1)) (hpos : pos + 1 ≤ 2 ^ 31 - 1) :
    nopBlock funcs fName pos b = (bbNeed funcs fName ((pos + 1 : ℕ) : ℤ)).bind fun need =>
      match need with
      | none => some { name := b.name, passed := none, insts := b.filled (allocasAt pos) }
      | some need => (fillNop (pointerAt pos) (need - 2)).final?.bind fun s =>
        some { name := b.name, passed := some (pointerAt pos)
               insts := b.filled (allocasAt pos ++ s.2) } := by
  have hnum : blockNum b.name = some ((pos + 1 : ℕ) : ℤ) := by rw [hname, blockNum_label fName hpos]
  have hone : ((pos + 1 : ℕ) : ℤ) = 1 ↔ pos = 0 := by omega
  have hpointer : (if ((pos + 1 : ℕ) : ℤ) = 1 then some pos else none) = pointerAt pos := by
    unfold pointerAt
    by_cases h0 : pos = 0
    · rw [if_pos (hone.mpr h0), if_pos h0, h0]
    · rw [if_neg (fun h => h0 (hone.mp h)), if_neg h0]
  have halloca : (if ((pos + 1 : ℕ) : ℤ) = 1 then [NopInst.alloca] else []) =
      (allocasAt pos : List (NopInst ι)) := by
    unfold allocasAt
    simp only [hone]
  unfold nopBlock
  rw [hnum, Option.bind_eq_bind, Option.bind_some]
  simp only [hpointer, halloca]
  rfl

/-- A function without a record gets its alloca. -/
theorem nopBlock_of_unlisted (hname : b.name = bbName fName (pos + 1))
    (hpos : pos + 1 ≤ 2 ^ 31 - 1)
    (hfind : (funcs.find? fun f => decide (f.name = fName)) = none) :
    nopBlock funcs fName pos b =
      some { name := b.name, passed := none, insts := b.filled (allocasAt pos) } := by
  rw [nopBlock_eq hname hpos, bbNeed_succ, hfind, Option.elim_none, Option.bind_some]

/-- A function with a record gets its stores too. -/
theorem nopBlock_of_listed {f : NopFunc} {need : ℤ} (hname : b.name = bbName fName (pos + 1))
    (hpos : pos + 1 ≤ 2 ^ 31 - 1)
    (hfind : (funcs.find? fun f => decide (f.name = fName)) = some f)
    (hget : f.bbNeedSize[pos]? = some need) : ∃ n, nopBlock funcs fName pos b =
      some { name := b.name, passed := some (pointerAt pos)
             insts := b.filled (allocasAt pos ++ List.replicate n (.store (pointerAt pos))) } := by
  obtain ⟨left, hfill⟩ := fillNop_eq (ι := ι) (pointerAt pos) (need - 2)
  refine ⟨((need - 2 + 1) / 2).toNat, ?_⟩
  rw [nopBlock_eq hname hpos, bbNeed_succ, hfind, Option.elim_some, hget, Option.map_some,
    Option.bind_some]
  dsimp only
  rw [hfill]
  rfl

/-- A labelled block with a record for its place is filled. -/
theorem nopBlock_spec (hname : b.name = bbName fName (pos + 1)) (hpos : pos + 1 ≤ 2 ^ 31 - 1)
    (hneed : ∀ f, funcs.find? (fun f => decide (f.name = fName)) = some f →
      pos < f.bbNeedSize.length) :
    ∃ out, nopBlock funcs fName pos b = some out ∧ NopSpec (isListed funcs fName) pos out := by
  have halloca : pos = 0 → NopInst.alloca ∈ (allocasAt pos : List (NopInst ι)) := by
    rintro rfl
    exact List.mem_singleton_self _
  unfold isListed
  cases hfind : funcs.find? fun f => decide (f.name = fName) with
  | none =>
    refine ⟨_, nopBlock_of_unlisted hname hpos hfind, rfl, ?_, ?_⟩
    · intro A hA
      rw [NopBlock.mem_filled (by simp)] at hA
      exact absurd hA (store_notMem_allocasAt A)
    · intro h0
      exact (NopBlock.mem_filled (by simp)).mpr (halloca h0)
  | some f =>
    have hget := List.getElem?_eq_getElem (hneed f hfind)
    obtain ⟨n, hout⟩ := nopBlock_of_listed hname hpos hfind hget
    refine ⟨_, hout, rfl, ?_, ?_⟩
    · intro A hA
      rw [NopBlock.mem_filled (by simp)] at hA
      rcases List.mem_append.mp hA with hA | hA
      · exact absurd hA (store_notMem_allocasAt A)
      · have hsame := (List.mem_replicate.mp hA).2
        cases hsame
        rfl
    · intro h0
      exact (NopBlock.mem_filled (by simp)).mpr (List.mem_append_left _ (halloca h0))

end LabelledBlock

end MpuPasses
