import MpuPasses.Pipeline
import MpuPasses.RegionMap

/-!
# The code of a user function

`UserProgram` says which programs the three passes are made for. In such a program every call of a
user function stands between a configuration of region 2 for the callee and one of region 1 for the
function itself (`finalBlock_insts`).
-/

namespace MpuPasses

open Chars

/-! ## Regions of the table -/

namespace LinkTable

variable (T : LinkTable)

/-- The region that the table gives a function. -/
def region (name : Str) : Region :=
  ((regionOf T.table name).map fun r => ⟨r.1, r.2⟩).getD ⟨0#32, 0#32⟩

/-- The call that configures it as region `num`. -/
def configCall (name : Str) (num : BitVec 32) : Instr :=
  mpuCall (some mpuConfigName) (.const (T.region name).start) (.const (T.region name).size) (.const num)

/-- The region is the one in the function's record. -/
def IsRegion (r : Region) (name : Str) : Prop :=
  ∃ g ∈ T.table, g.name = name ∧ r.start = g.regionStart ∧ toSize g.regionSize = some r.size

variable {T} {name : Str}

theorem region_of_eq {r : BitVec 32 × BitVec 32} (h : regionOf T.table name = some r) :
    T.region name = ⟨r.1, r.2⟩ := by
  unfold region
  rw [h]
  rfl

theorem regionOf_eq (h : name ∈ T.table.map LinkFunc.name) :
    regionOf T.table name = some ((T.region name).start, (T.region name).size) := by
  obtain ⟨g, -, -, k, -, -, -, hregion⟩ := T.exists_regionOf h
  rw [region_of_eq hregion, hregion]

theorem isRegion_region (h : name ∈ T.table.map LinkFunc.name) :
    T.IsRegion (T.region name) name := by
  obtain ⟨g, hg, hname, k, hk, -, -, hregion⟩ := T.exists_regionOf h
  rw [region_of_eq hregion]
  exact ⟨g, hg, hname, rfl, hk⟩

/-- The arguments that configure a listed function. -/
def regionArgs (h : name ∈ T.table.map LinkFunc.name) (num : BitVec 32) (hnum : num < 8#32) : Args where
  start := (T.region name).start
  size := (T.region name).size
  num := num
  aligned := by
    obtain ⟨g, -, -, k, -, -, haligned, hregion⟩ := T.exists_regionOf h
    rw [region_of_eq hregion]
    exact haligned
  size_lt := by
    obtain ⟨g, -, -, k, -, hlt, -, hregion⟩ := T.exists_regionOf h
    rw [region_of_eq hregion]
    exact hlt
  num_lt := hnum

end LinkTable

/-! ## User programs -/

/-- It calls `main`. -/
def resetHandlerName : Str := "Reset_Handler".toList

/-- A function of the program proper. -/
def IsUser (name : Str) : Prop := name ∉ insertSkips ∧ name ≠ resetHandlerName

instance : DecidablePred IsUser := fun _ => by unfold IsUser; infer_instance

/-- A user function with a record, but not `main`. -/
structure UserCallee (T : LinkTable) (h : Str) : Prop where
  user : IsUser h
  not_main : h ≠ mainName
  listed : h ∈ T.table.map LinkFunc.name

/-- What the passes expect of a program: calls in user code are direct and go to listed user
functions, never to `main`; what can return is the last block of a function; and there the restoring
call gets the values that were read. -/
structure UserProgram (L : LinkedModule) (stale : Stale) (T : LinkTable) : Prop where
  direct : L.functions.Direct
  callee : ∀ F ∈ L.functions, IsUser F.name → ∀ b ∈ F.blocks, ∀ i ∈ b.insts, ∀ h ∈ i.callee?,
    UserCallee T h
  returns : ∀ F ∈ L.functions, IsUser F.name → F.name ≠ mainName → ∀ b ∈ F.blocks, F.Reaches b →
    b.term.IsRet → F.IsBack b
  values : ∀ F ∈ L.functions, IsUser F.name → F.name ≠ mainName → ∀ b ∈ F.blocks, F.IsBack b →
    restoreArgs stale F b = callerVals (insertedFunction F)

theorem IsUser.notMem_connectSkips {name : Str} (h : IsUser name) (hm : name ≠ mainName) :
    name ∉ connectSkips := by
  rw [mem_connectSkips_iff, not_or]
  exact ⟨hm, h.1⟩

theorem IsUser.bracketed {name : Str} (h : IsUser name) : Bracketed name := by
  refine ⟨?_, ?_⟩
  · rintro rfl
    exact h.1 (by decide)
  · rintro rfl
    exact h.1 (by decide)

/-! ## Code -/

/-- An instruction between its configurations. -/
def settledBracket (T : LinkTable) (fname : Str) : Instr → List Instr
  | .call (some h) args res =>
    [T.configCall h 2#32, .call (some h) args res, T.configCall fname 1#32]
  | .call none args res => [.call none args res]
  | .other opcode operands res => [.other opcode operands res]

/-- What is left of a block when the instructions `l` of the source are left. -/
def remaining (stale : Stale) (T : LinkTable) (F : Function) (b : Block) (l : List Instr) :
    List Instr :=
  l.flatMap (settledBracket T F.name) ++ backCalls stale F b

section Code

variable {L : LinkedModule} {stale : Stale} {T : LinkTable} {F : Function} {b : Block}

theorem settledInst_own {fname : Str} (h : fname ∈ T.table.map LinkFunc.name) (a z : Val)
    (next : Option Instr) :
    settledInst T.table fname (mpuCall (some mpuConfigName) a z (.const 1), next) =
      T.configCall fname 1#32 :=
  settledInst_of_eq (setInst_own (LinkTable.regionOf_eq h))

theorem settledInst_callee {fname h : Str} (hh : h ∈ T.table.map LinkFunc.name) (a z : Val)
    (args : List Val) (res : Option ℕ) :
    settledInst T.table fname
        (mpuCall (some mpuConfigName) a z (.const 2), some (.call (some h) args res)) =
      T.configCall h 2#32 :=
  settledInst_of_eq (setInst_callee (LinkTable.regionOf_eq hh) args res)

/-- A call between the operands that the pass fills in. -/
theorem map_settledInst_bracket {fname : Str} (hown : fname ∈ T.table.map LinkFunc.name)
    {names : List Str} {i : Instr} (hi : i.Direct names) (hcallee : ∀ h ∈ i.callee?, UserCallee T h)
    (c : Option Instr) : (Cursor.withNext c (bracket i)).map (settledInst T.table fname) =
      settledBracket T fname i := by
  cases i with
  | other opcode operands res =>
    rw [bracket_other]
    rfl
  | call callee args res =>
    cases callee with
    | none => cases hi
    | some h =>
      obtain ⟨huser, -, hlisted⟩ := hcallee h rfl
      rw [bracket_of_bracketed huser.bracketed]
      show [_, _, _] = [_, _, _]
      have hcall : settledInst T.table fname
          (.call (some h) args res, some (afterCall (some mpuConfigName))) =
          .call (some h) args res :=
        settledInst_of_eq (setInst_of_ne huser.bracketed.1 args res)
      exact congrArg₂ List.cons (settledInst_callee hlisted _ _ args res)
        (congrArg₂ List.cons hcall (congrArg₂ List.cons (settledInst_own hown _ _ _) rfl))

theorem map_settledInst_flatMap_bracket {fname : Str} (hown : fname ∈ T.table.map LinkFunc.name)
    {names : List Str} {l : List Instr} (hd : ∀ i ∈ l, i.Direct names)
    (hcallee : ∀ i ∈ l, ∀ h ∈ i.callee?, UserCallee T h) (c : Option Instr) :
    (Cursor.withNext c (l.flatMap bracket)).map (settledInst T.table fname) =
      l.flatMap (settledBracket T fname) := by
  induction l with
  | nil => rfl
  | cons i l ih =>
    obtain ⟨hdi, hd⟩ := List.forall_mem_cons.mp hd
    obtain ⟨hci, hcallee⟩ := List.forall_mem_cons.mp hcallee
    rw [List.flatMap_cons, List.flatMap_cons, Cursor.withNext_append, List.map_append,
      map_settledInst_bracket hown hdi hci, ih hd hcallee]

/-- **The code of a block.** Reading calls and the function's own region in front, every call
between the regions of the callee and of the function, the restoring call at the end. -/
theorem finalBlock_insts (hU : UserProgram L stale T) (hF : F ∈ L.functions) (huser : IsUser F.name)
    (hlisted : F.name ∈ T.table.map LinkFunc.name) (hb : b ∈ F.blocks) :
    (finalBlock L stale T F b).insts =
      (if F.name ≠ mainName ∧ F.IsFront b then
          readCalls L.inserted.functions (insertedFunction F) else []) ++
        (if F.IsFront b then [T.configCall F.name 1#32] else []) ++
          remaining stale T F b b.insts := by
  have hskip : F.name ∉ connectSkips ↔ F.name ≠ mainName := by
    rw [mem_connectSkips_iff, not_or, and_iff_left huser.1]
  unfold finalBlock settledBlock
  simp only [instrumentedBlock_insts huser.1]
  unfold frontCalls remaining
  rw [Cursor.withNext_append, Cursor.withNext_append, Cursor.withNext_append, List.map_append,
    List.map_append, List.map_append,
    map_settledInst_flatMap_bracket hlisted (hU.direct F hF b hb) (hU.callee F hF huser b hb),
    List.append_assoc]
  have hread : ∀ c, (Cursor.withNext c (if F.name ∉ connectSkips ∧ F.IsFront b then
      readCalls L.inserted.functions (insertedFunction F) else [])).map
        (settledInst T.table F.name) = if F.name ≠ mainName ∧ F.IsFront b then
          readCalls L.inserted.functions (insertedFunction F) else [] := by
    intro c
    simp only [hskip]
    split_ifs
    · exact map_settledInst_eq (fun i hi => readCalls_plain hi) c
    · rfl
  have hown : ∀ c, (Cursor.withNext c (if F.IsFront b then [entryCall (some mpuConfigName)]
      else [])).map (settledInst T.table F.name) =
        if F.IsFront b then [T.configCall F.name 1#32] else [] := by
    intro c
    split_ifs
    · exact congrArg (fun i => [i]) (settledInst_own hlisted _ _ _)
    · rfl
  have hback : (Cursor.withNext none (backCalls stale F b)).map (settledInst T.table F.name) =
      backCalls stale F b := by
    unfold backCalls
    split_ifs
    · rfl
    · rfl
  rw [hread, hown, hback]

/-- If the passes run through, every function with code that they process is listed. -/
theorem runPasses_eq_some {M : IrModule} (hd : L.functions.Direct)
    (hM : runPasses stale T.table L.functions = some M) :
    M = L.functions.map (fun F => F.mapBlocks (finalBlock L stale T F)) ∧
      ∀ F ∈ L.functions, F.name ∉ insertSkips → F.blocks ≠ [] →
        F.name ∈ T.table.map LinkFunc.name := by
  unfold runPasses at hM
  rw [instrument_eq hd, Option.bind_some] at hM
  obtain ⟨rfl, hall⟩ := eq_of_setModule_eq_some hM
  refine ⟨?_, ?_⟩
  · rw [List.map_map]
    apply List.map_congr_left
    intro F _
    exact Function.mapBlocks_mapBlocks F _ _
  · intro F hF hi hne
    obtain ⟨b, bs, hbs⟩ := List.exists_cons_of_ne_nil hne
    have hb : b ∈ F.blocks := hbs ▸ List.mem_cons_self
    have hfront : F.IsFront b := Function.isFront_of_head? (hbs ▸ rfl)
    -- the call at the start of the function looks its own name up
    have hentry : entryCall (some mpuConfigName) ∈ (instrumentedBlock L stale F b).insts := by
      rw [instrumentedBlock_insts hi]
      unfold frontCalls
      rw [if_pos hfront]
      simp
    obtain ⟨next, hp⟩ := Cursor.exists_mem_withNext none hentry
    apply mem_of_regionOf_isSome
    exact regionOf_isSome_of_setInst_own
      (hall _ (List.mem_map_of_mem hF) _ (List.mem_map_of_mem hb) _ hp)

end Code

end MpuPasses
