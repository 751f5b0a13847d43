import MpuPasses.InsertFunction
import MpuPasses.SetOperand
import MpuPasses.SplitBB

/-!
# Calls without a callee

`getCalledFunction()` is null for a call through a pointer or a cast. `Insert_Function`, `Set_Operand`
and `Split_BB` take the name or the type of every callee they meet and none of them tests for null.
`handlesEveryCall_iff` says which modules they get through.
-/

namespace MpuPasses

open Chars

/-- The callees whose names `Set_Operand` takes at an instruction with its next node. -/
def setCallees (inst : Instr) (next : Option Instr) : List (Option Str) :=
  match inst with
  | .other _ _ _ => []
  | .call callee args _ =>
    callee ::
      if callee = some mpuConfigName ∧ (args[2]? : Option Val) = some (.const 2) then
        match next with
        | some (.call ncallee _ _) => [ncallee]
        | _ => []
      else []

/-- The callees whose names it takes in a module. -/
def setModuleCallees (M : IrModule) : List (Option Str) :=
  M.flatMap fun F => F.blocks.flatMap fun b =>
    (Cursor.withNext none b.insts).flatMap fun p => setCallees p.1 p.2

/-- The passes get through the module without dereferencing a null callee, and `Insert_Function`
brackets every call of the functions that it processes. -/
structure HandlesEveryCall (M : IrModule) : Prop where
  insert : ∃ M', insertModule M = some M' ∧ List.Forall₂ (fun F F' => F.name ∉ insertSkips →
    List.Forall₂ (fun b b' => List.Sublist b.insts b'.insts ∧ CallsBracketed b'.insts)
      F.blocks F'.blocks) M M'
  setOperand : none ∉ setModuleCallees M
  split : (splitModule M).isSome

/-! ## The three passes -/

theorem Instr.nullCallee_iff {i : Instr} (next : Option Instr) :
    i.NullCallee ↔ (setCallees i next).head? = some none := by
  cases i with
  | call callee args res =>
    cases callee with
    | none => exact iff_of_true trivial rfl
    | some callee => exact iff_of_false id (by unfold setCallees; simp)
  | other opcode operands res => exact iff_of_false id (by unfold setCallees; simp)

/-- At a place where it takes the name of a null callee the pass fails. -/
theorem request_of_none_mem {fname : Str} {inst : Instr} {next : Option Instr}
    (h : none ∈ setCallees inst next) : request fname inst next = .fault := by
  cases inst with
  | other opcode operands res => cases h
  | call callee args res =>
    cases callee with
    | none => rfl
    | some callee =>
      unfold setCallees at h
      rcases List.mem_cons.mp h with h | h
      · cases h
      · split_ifs at h with hconfig
        · obtain ⟨hcallee, harg⟩ := hconfig
          unfold request
          simp only [Option.some.inj hcallee, harg]
          rcases next with _ | ⟨ncallee, nargs, nres⟩ | ⟨opcode, operands, nres⟩
          · cases h
          · obtain rfl := List.mem_singleton.mp h
            rfl
          · cases h
        · cases h

/-- A null callee that is taken is one of a call of the module. -/
theorem nullCallee_of_none_mem {inst : Instr} {next : Option Instr}
    (h : none ∈ setCallees inst next) : inst.NullCallee ∨ ∃ i ∈ next, i.NullCallee := by
  cases inst with
  | other opcode operands res => cases h
  | call callee args res =>
    cases callee with
    | none => exact .inl trivial
    | some callee =>
      unfold setCallees at h
      rcases List.mem_cons.mp h with h | h
      · cases h
      · split_ifs at h
        · rcases next with _ | ⟨ncallee, nargs, nres⟩ | ⟨opcode, operands, nres⟩
          · cases h
          · obtain rfl := List.mem_singleton.mp h
            exact .inr ⟨_, rfl, trivial⟩
          · cases h
        · cases h

theorem none_notMem_setModuleCallees_iff {M : IrModule} : none ∉ setModuleCallees M ↔
    ∀ F ∈ M, ∀ b ∈ F.blocks, ∀ i ∈ b.insts, ¬ i.NullCallee := by
  unfold setModuleCallees
  simp only [List.mem_flatMap, not_exists, not_and]
  constructor
  · intro h F hF b hb i hi hnull
    obtain ⟨next, hp⟩ := Cursor.exists_mem_withNext none hi
    exact h F hF b hb _ hp (List.mem_of_mem_head? ((Instr.nullCallee_iff next).mp hnull))
  · intro h F hF b hb p hp hnone
    rcases nullCallee_of_none_mem hnone with hnull | ⟨i, hi, hnull⟩
    · exact h F hF b hb p.1 (Cursor.fst_mem_of_mem_withNext hp) hnull
    · exact h F hF b hb i (Cursor.snd_mem_of_mem_withNext hp hi) hnull

/-- Without `MPU_Config` the pass has nothing to insert, and fails on the first function with a
body. -/
theorem blocks_eq_nil_of_insertModule {M : IrModule} (h : (insertModule M).isSome)
    (hconfig : mpuConfigName ∉ M.names) {F : Function} (hF : F ∈ M) (hskip : F.name ∉ insertSkips) :
    F.blocks = [] := by
  cases hblocks : F.blocks with
  | nil => rfl
  | cons b blocks =>
    have hfront : F.IsFront b := Function.isFront_of_head? (by rw [hblocks]; rfl)
    have hfunction := Loop.forall_isSome_of_mapM h F hF
    unfold insertFunction at hfunction
    rw [if_neg hskip, Option.isSome_map, hblocks] at hfunction
    have hblock := Loop.forall_isSome_of_mapM hfunction b List.mem_cons_self
    unfold insertBlock at hblock
    rw [Option.isSome_map] at hblock
    have hedit := Cursor.forall_isSome_of_walk hblock (entryCall (M.find mpuConfigName))
      (List.mem_append_left _ (by rw [if_pos hfront]; exact List.mem_cons_self))
    unfold IrModule.find at hedit
    rw [if_neg hconfig] at hedit
    cases hedit

theorem insertModule_eq_self {M : IrModule}
    (h : ∀ F ∈ M, F.name ∉ insertSkips → F.blocks = []) : insertModule M = some M := by
  have hmap := Loop.mapM_eq_some_map (f := insertFunction M) (g := id) (l := M) fun F hF => by
    unfold insertFunction
    split_ifs with hskip
    · rfl
    · obtain ⟨name, blocks⟩ := F
      obtain rfl := h _ hF hskip
      rfl
  rw [List.map_id] at hmap
  exact hmap

/-! ## The result -/

/-- **When the passes handle every call.** Exactly if no call of the module has a null callee, and
`MPU_Config` is there to be called. -/
theorem handlesEveryCall_iff {M : IrModule} (hv : ∀ F ∈ M, F.Verified) : HandlesEveryCall M ↔
    (∀ F ∈ M, ∀ b ∈ F.blocks, ∀ i ∈ b.insts, ¬ i.NullCallee) ∧
      (mpuConfigName ∈ M.names ∨ ∀ F ∈ M, F.name ∉ insertSkips → F.blocks = []) := by
  constructor
  · intro h
    refine ⟨none_notMem_setModuleCallees_iff.mp h.setOperand, ?_⟩
    by_cases hconfig : mpuConfigName ∈ M.names
    · exact .inl hconfig
    · obtain ⟨M', hM', -⟩ := h.insert
      exact .inr fun F hF hskip =>
        blocks_eq_nil_of_insertModule (Option.isSome_of_eq_some hM') hconfig hF hskip
  · rintro ⟨hnull, hconfig⟩
    constructor
    · rcases hconfig with hconfig | hnone
      · refine ⟨M.map insertedFunction, ?_, ?_⟩
        · exact insertModule_eq_of_not_nullCallee (if_pos hconfig) fun F hF _ => hnull F hF
        · rw [List.forall₂_map_right_iff, List.forall₂_same]
          intro F hF hskip
          unfold insertedFunction
          rw [if_neg hskip]
          show List.Forall₂ _ F.blocks (F.blocks.map (insertedBlock F))
          rw [List.forall₂_map_right_iff, List.forall₂_same]
          intro b hb
          refine ⟨?_, callsBracketed_insertedBlock (hnull F hF b hb)⟩
          exact (Cursor.sublist_flatMap_around fun i hi =>
            insertEdit_isSome_iff.mpr (hnull F hF b hb i hi)).trans (List.sublist_append_right _ _)
      · refine ⟨M, insertModule_eq_self hnone, ?_⟩
        rw [List.forall₂_same]
        intro F hF hskip
        rw [hnone F hF hskip]
        exact .nil
    · exact none_notMem_setModuleCallees_iff.mpr hnull
    · obtain ⟨M', hM', -⟩ := Loop.exists_mapM_eq_some fun F hF =>
        exists_splitFunction (hv F hF) fun _ => hnull F hF
      exact Option.isSome_of_eq_some hM'

/-- A function that calls through a pointer. -/
def pointerFunction : Function where
  name := "Apply".toList
  blocks := [{ label := 0, insts := [.call none [.reg 0] (some 1)], term := .ret [.reg 1] }]

def pointerModule : IrModule := pointerFunction :: sumFunction :: mpuSources

/-- All three passes fail on it. -/
theorem not_handlesEveryCall_pointer : (∀ F ∈ pointerModule, F.Verified) ∧
    insertModule pointerModule = none ∧ splitModule pointerModule = none ∧
    ¬ HandlesEveryCall pointerModule := by
  refine ⟨by decide, by decide, by decide, fun h => ?_⟩
  have hnone := h.setOperand
  revert hnone
  decide

theorem handlesEveryCall_benchmark : HandlesEveryCall benchmarkModule.functions :=
  (handlesEveryCall_iff benchmarkModule.verified).mpr
    ⟨by decide, .inl benchmarkModule.has_config⟩

end MpuPasses
