import MpuPasses.Encoding
import MpuPasses.Lib.Cursor
import MpuPasses.Ir

/-!
# `Set_Operand`

The pass replaces the first two operands of the calls of `MPU_Config` by the region of a function of
`Link_addr.txt`: of the enclosing function if the call configures region 1, of the callee if it
configures region 2 and the next instruction is a call. A name is searched linearly, and the record
behind the last one is read if it is not found.
-/

namespace MpuPasses

open Chars

/-! ## The pass -/

/-- What the pass does at an instruction: nothing, search a name, or use a null callee or a value
that is no constant. -/
inductive Request
  | skip
  | fault
  | look (name : Str)
  deriving DecidableEq, Repr

/-- The request at an instruction of the function `fname` with its next node; a terminator is no
call. -/
def request (fname : Str) (inst : Instr) (next : Option Instr) : Request :=
  match inst with
  | .other _ _ _ => .skip
  | .call none _ _ => .fault
  | .call (some calledfn) args _ =>
    if calledfn = mpuConfigName then
      match (args[2]? : Option Val) with
      | some (.const tNum) =>
        if tNum = 1 then .look fname
        else if tNum = 2 then
          match next with
          | some (.call none _ _) => .fault
          | some (.call (some ncalledfn) _ _) => .look ncalledfn
          | _ => .skip
        else .skip
      | _ => .fault
    else .skip

/-- `for(i=0; i<Funcs_size; i++) if(name == Funcs[i]->name) break;`. -/
def search (funcs : List LinkFunc) (name : Str) : ℕ :=
  funcs.findIdx fun f => decide (f.name = name)

/-- `start_addr` and `re_size`; none reads behind the records, or `to_size` does not return. -/
def regionOf (funcs : List LinkFunc) (name : Str) : Option (BitVec 32 × BitVec 32) := do
  let f ← funcs[search funcs name]?
  let reSize ← toSize f.regionSize
  return (f.regionStart, reSize)

/-- `setOperand(0, start_addr)` and `setOperand(1, re_size)`. -/
def Instr.setOperands (region : BitVec 32 × BitVec 32) : Instr → Instr
  | call callee args res =>
    call callee ((args.set 0 (.const region.1)).set 1 (.const region.2)) res
  | other opcode operands res => other opcode operands res

/-- One turn of the loop over the instructions. -/
def setInst (funcs : List LinkFunc) (fname : Str) (inst : Instr) (next : Option Instr) :
    Option Instr :=
  match request fname inst next with
  | .skip => some inst
  | .fault => none
  | .look name => (regionOf funcs name).map fun region => inst.setOperands region

def setInsts (funcs : List LinkFunc) (fname : Str) (insts : List Instr) : Option (List Instr) :=
  (Cursor.withNext none insts).mapM fun p => setInst funcs fname p.1 p.2

def setBlock (funcs : List LinkFunc) (fname : Str) (b : Block) : Option Block :=
  (setInsts funcs fname b.insts).map fun insts => { b with insts := insts }

def setFunction (funcs : List LinkFunc) (F : Function) : Option Function :=
  (F.blocks.mapM (setBlock funcs F.name)).map fun blocks => { F with blocks := blocks }

/-- `Set_Operand::runOnModule`, on the records that it has read. -/
def setModule (funcs : List LinkFunc) (M : IrModule) : Option IrModule :=
  M.mapM (setFunction funcs)

/-! ## Searching -/

theorem getElem?_search_eq_some {funcs : List LinkFunc} {name : Str}
    (h : name ∈ funcs.map LinkFunc.name) :
    ∃ g ∈ funcs, g.name = name ∧ funcs[search funcs name]? = some g := by
  obtain ⟨g, hg, hname⟩ := List.mem_map.mp h
  have hlt : search funcs name < funcs.length :=
    List.findIdx_lt_length_of_exists ⟨g, hg, by simpa using hname⟩
  refine ⟨funcs[search funcs name], List.getElem_mem hlt, ?_, List.getElem?_eq_getElem hlt⟩
  exact of_decide_eq_true
    (List.findIdx_getElem (p := fun f : LinkFunc => decide (f.name = name)) (w := hlt))

/-- The search stops at a match exactly for the names of the records. -/
theorem search_lt_iff {funcs : List LinkFunc} {name : Str} :
    search funcs name < funcs.length ↔ name ∈ funcs.map LinkFunc.name := by
  unfold search
  rw [List.findIdx_lt_length, List.mem_map]
  simp

/-- The region of a listed function. -/
theorem LinkTable.exists_regionOf (T : LinkTable) {name : Str}
    (h : name ∈ T.table.map LinkFunc.name) :
    ∃ g ∈ T.table, g.name = name ∧ ∃ k, toSize g.regionSize = some k ∧ k < 32#32 ∧
      g.regionStart &&& 0x1F#32 = 0#32 ∧ regionOf T.table name = some (g.regionStart, k) := by
  obtain ⟨g, hg, hname, hget⟩ := getElem?_search_eq_some h
  obtain ⟨haligned, k, hk, hlt⟩ := T.exists_field hg
  refine ⟨g, hg, hname, k, hk, hlt, haligned, ?_⟩
  unfold regionOf
  rw [hget, Option.bind_eq_bind, Option.bind_some, hk]
  rfl

/-- Only a listed function has a region. -/
theorem mem_of_regionOf_isSome {funcs : List LinkFunc} {name : Str}
    (h : (regionOf funcs name).isSome) : name ∈ funcs.map LinkFunc.name := by
  obtain ⟨region, hregion⟩ := Option.isSome_iff_exists.mp h
  unfold regionOf at hregion
  obtain ⟨f, hf, -⟩ := Option.bind_eq_some_iff.mp hregion
  obtain ⟨hlt, -⟩ := List.getElem?_eq_some_iff.mp hf
  exact search_lt_iff.mp hlt

/-! ## One instruction -/

section SetInst

variable {funcs : List LinkFunc} {fname : Str} {a z : Val} {next : Option Instr}

theorem request_of_ne {callee : Str} (h : callee ≠ mpuConfigName) (args : List Val)
    (res : Option ℕ) : request fname (.call (some callee) args res) next = .skip := by
  unfold request
  exact if_neg h

theorem setInst_of_ne {callee : Str} (h : callee ≠ mpuConfigName) (args : List Val)
    (res : Option ℕ) :
    setInst funcs fname (.call (some callee) args res) next = some (.call (some callee) args res) := by
  unfold setInst
  rw [request_of_ne h]

theorem request_own (fname : Str) (a z : Val) (next : Option Instr) :
    request fname (mpuCall (some mpuConfigName) a z (.const 1)) next = .look fname := rfl

theorem request_callee (fname : Str) (a z : Val) (callee : Str) (args : List Val) (res : Option ℕ) :
    request fname (mpuCall (some mpuConfigName) a z (.const 2)) (some (.call (some callee) args res)) =
      .look callee := rfl

theorem setInst_own {region : BitVec 32 × BitVec 32} (h : regionOf funcs fname = some region) :
    setInst funcs fname (mpuCall (some mpuConfigName) a z (.const 1)) next =
      some (mpuCall (some mpuConfigName) (.const region.1) (.const region.2) (.const 1)) := by
  unfold setInst
  rw [request_own]
  simp only [h, Option.map_some]
  rfl

theorem regionOf_isSome_of_setInst_own
    (h : (setInst funcs fname (mpuCall (some mpuConfigName) a z (.const 1)) next).isSome) :
    (regionOf funcs fname).isSome := by
  unfold setInst at h
  rw [request_own, Option.isSome_map] at h
  exact h

theorem setInst_callee {callee : Str} {region : BitVec 32 × BitVec 32}
    (h : regionOf funcs callee = some region) (args : List Val) (res : Option ℕ) :
    setInst funcs fname (mpuCall (some mpuConfigName) a z (.const 2))
        (some (.call (some callee) args res)) =
      some (mpuCall (some mpuConfigName) (.const region.1) (.const region.2) (.const 2)) := by
  unfold setInst
  rw [request_callee]
  simp only [h, Option.map_some]
  rfl

theorem setInst_end : setInst funcs fname (mpuCall (some mpuConfigName) a z (.const 2)) none =
    some (mpuCall (some mpuConfigName) a z (.const 2)) := rfl

end SetInst

/-! ## The whole pass -/

/-- An instruction after the pass, if the pass gets there. -/
def settledInst (funcs : List LinkFunc) (fname : Str) (p : Instr × Option Instr) : Instr :=
  (setInst funcs fname p.1 p.2).getD p.1

def settledBlock (funcs : List LinkFunc) (fname : Str) (b : Block) : Block :=
  { b with insts := (Cursor.withNext none b.insts).map (settledInst funcs fname) }

theorem settledInst_of_eq {funcs : List LinkFunc} {fname : Str} {p : Instr × Option Instr}
    {inst : Instr} (h : setInst funcs fname p.1 p.2 = some inst) :
    settledInst funcs fname p = inst := by
  unfold settledInst
  rw [h]
  rfl

/-- If the pass goes through at every instruction, it changes the instructions one by one. -/
theorem setModule_eq {funcs : List LinkFunc} {M : IrModule}
    (h : ∀ F ∈ M, ∀ b ∈ F.blocks, ∀ p ∈ Cursor.withNext none b.insts,
      (setInst funcs F.name p.1 p.2).isSome) :
    setModule funcs M = some (M.map fun F => F.mapBlocks (settledBlock funcs F.name)) := by
  have hinst : ∀ F ∈ M, ∀ b ∈ F.blocks, setBlock funcs F.name b =
      some (settledBlock funcs F.name b) := by
    intro F hF b hb
    unfold setBlock setInsts
    rw [Loop.mapM_eq_some_map (g := settledInst funcs F.name), Option.map_some]
    · rfl
    · intro p hp
      obtain ⟨inst, hinst⟩ := Option.isSome_iff_exists.mp (h F hF b hb p hp)
      rw [settledInst_of_eq hinst, hinst]
  refine Loop.mapM_eq_some_map fun F hF => ?_
  unfold setFunction
  rw [Loop.mapM_eq_some_map (hinst F hF)]
  rfl

/-- If the pass goes through, it goes through at every instruction. -/
theorem eq_of_setModule_eq_some {funcs : List LinkFunc} {M M' : IrModule}
    (h : setModule funcs M = some M') :
    M' = M.map (fun F => F.mapBlocks (settledBlock funcs F.name)) ∧
      ∀ F ∈ M, ∀ b ∈ F.blocks, ∀ p ∈ Cursor.withNext none b.insts,
        (setInst funcs F.name p.1 p.2).isSome := by
  have hblock : ∀ fname b b', setBlock funcs fname b = some b' → b' = settledBlock funcs fname b ∧
      ∀ p ∈ Cursor.withNext none b.insts, (setInst funcs fname p.1 p.2).isSome := by
    intro fname b b' hb
    obtain ⟨insts, hinsts, rfl⟩ := Option.map_eq_some_iff.mp hb
    obtain ⟨rfl, hall⟩ := Loop.eq_map_of_mapM_eq_some (g := settledInst funcs fname)
      (fun p i hi => (settledInst_of_eq hi).symm) hinsts
    exact ⟨rfl, fun p hp => Option.isSome_of_eq_some (hall p hp)⟩
  have hfunction : ∀ F F', setFunction funcs F = some F' →
      F' = F.mapBlocks (settledBlock funcs F.name) ∧ ∀ b ∈ F.blocks, ∀ p ∈ Cursor.withNext none b.insts,
        (setInst funcs F.name p.1 p.2).isSome := by
    intro F F' hF
    obtain ⟨blocks, hblocks, rfl⟩ := Option.map_eq_some_iff.mp hF
    obtain ⟨rfl, hall⟩ := Loop.eq_map_of_mapM_eq_some (g := settledBlock funcs F.name)
      (fun b b' hb => (hblock F.name b b' hb).1) hblocks
    exact ⟨rfl, fun b hb => (hblock F.name b _ (hall b hb)).2⟩
  obtain ⟨rfl, hall⟩ := Loop.eq_map_of_mapM_eq_some
    (g := fun F : Function => F.mapBlocks (settledBlock funcs F.name))
    (fun F F' hF => (hfunction F F' hF).1) h
  exact ⟨rfl, fun F hF => (hfunction F _ (hall F hF)).2⟩

/-- A place of a changed block comes from a place of the block, and so does what follows it. -/
theorem mem_withNext_settledBlock {funcs : List LinkFunc} {fname : Str} {b : Block}
    {p' : Instr × Option Instr}
    (h : p' ∈ Cursor.withNext none (settledBlock funcs fname b).insts) :
    ∃ p ∈ Cursor.withNext none b.insts, p'.1 = settledInst funcs fname p ∧
      (p.2 = none → p'.2 = none) ∧ ∀ i, p.2 = some i →
        ∃ q ∈ Cursor.withNext none b.insts, q.1 = i ∧ p'.2 = some (settledInst funcs fname q) := by
  unfold settledBlock at h
  rw [Cursor.withNext_map] at h
  obtain ⟨⟨p, nn⟩, hp, rfl⟩ := List.mem_map.mp h
  have hnext := Cursor.next_eq_of_mem_withNext hp
  refine ⟨p, Cursor.fst_mem_of_mem_withNext hp, rfl, fun hnone => ?_, fun i hi => ?_⟩
  · rw [hnone] at hnext
    rw [Option.map_eq_none_iff.mp hnext.symm]
    rfl
  · rw [hi] at hnext
    obtain ⟨q, rfl, rfl⟩ := Option.map_eq_some_iff.mp hnext.symm
    exact ⟨q, Cursor.snd_mem_of_mem_withNext hp rfl, rfl, rfl⟩

end MpuPasses
