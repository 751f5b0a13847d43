import MpuPasses.Execution
import MpuPasses.Pipeline

/-!
# Erasing what the passes add

The passes add calls of `MPU_Config`, `Read_Caller_addr` and `Read_Caller_size` to the blocks and change
nothing else. If the source calls none of the functions of `mpu_configure.c`, dropping these calls from
an instrumented block gives the block of the source back (`sourceInsts_finalBlock`).
-/

namespace MpuPasses

open Chars

/-- The value that an instruction sets. -/
def Instr.result : Instr → Option ℕ
  | call _ _ res => res
  | other _ _ res => res

/-- A call of a function of `mpu_configure.c`. -/
def Instr.Registers (i : Instr) : Prop := ∃ h ∈ registerNames, i.callee? = some h

instance : DecidablePred Instr.Registers := fun _ => by unfold Instr.Registers; infer_instance

theorem Instr.registers_call {h : Str} {args : List Val} {res : Option ℕ} :
    (Instr.call (some h) args res).Registers ↔ h ∈ registerNames := by
  constructor
  · rintro ⟨name, hname, heq⟩
    cases heq
    exact hname
  · exact fun hh => ⟨h, hh, rfl⟩

theorem Instr.not_registers_other (opcode : ℕ) (operands : List Val) (res : Option ℕ) :
    ¬ (Instr.other opcode operands res).Registers := by
  rintro ⟨_, -, heq⟩
  cases heq

/-- The source does not call the functions of `mpu_configure.c`. -/
def NoRegisters (M : IrModule) : Prop :=
  ∀ F ∈ M, ∀ b ∈ F.blocks, ∀ i ∈ b.insts, ¬ i.Registers

instance (M : IrModule) : Decidable (NoRegisters M) := by unfold NoRegisters; infer_instance

/-! ## What is added -/

/-- An instruction that the passes add to a function; `fresh` is its first new value. -/
inductive Added (fresh : ℕ) : Instr → Prop
  | config (a z n : Val) : Added fresh (mpuCall (some mpuConfigName) a z n)
  | readAddr : Added fresh (.call (some readCallerAddrName) [] (some fresh))
  | readSize : Added fresh (.call (some readCallerSizeName) [] (some (fresh + 1)))

namespace Added

variable {fresh : ℕ} {i : Instr}

theorem registers (h : Added fresh i) : i.Registers := by
  cases h with
  | config => exact Instr.registers_call.mpr (by simp [registerNames])
  | readAddr => exact Instr.registers_call.mpr (by simp [registerNames])
  | readSize => exact Instr.registers_call.mpr (by simp [registerNames])

/-- The value that it sets is new. -/
theorem le_of_result (h : Added fresh i) {n : ℕ} (hn : n ∈ i.result) : fresh ≤ n := by
  cases h with
  | config => cases hn
  | readAddr =>
    cases hn
    exact le_rfl
  | readSize =>
    cases hn
    exact Nat.le_succ fresh

end Added

/-- `Set_Operand` leaves an instruction or sets its first two operands. -/
theorem settledInst_cases (funcs : List LinkFunc) (fname : Str) (p : Instr × Option Instr) :
    settledInst funcs fname p = p.1 ∨ ∃ region, settledInst funcs fname p = p.1.setOperands region := by
  unfold settledInst setInst
  cases request fname p.1 p.2 with
  | skip => exact .inl rfl
  | fault => exact .inl rfl
  | look name =>
    dsimp only
    cases regionOf funcs name with
    | none => exact .inl rfl
    | some region => exact .inr ⟨region, rfl⟩

theorem Added.settledInst {fresh : ℕ} {funcs : List LinkFunc} {fname : Str}
    {p : Instr × Option Instr} (h : Added fresh p.1) : Added fresh (settledInst funcs fname p) := by
  obtain ⟨i, next⟩ := p
  rcases settledInst_cases funcs fname (i, next) with heq | ⟨region, heq⟩
  · rw [heq]
    exact h
  · rw [heq]
    cases h with
    | config a z n => exact .config (.const region.1) (.const region.2) n
    | readAddr => exact .readAddr
    | readSize => exact .readSize

section Blocks

variable {L : LinkedModule} {stale : Stale} {T : LinkTable} {F : Function} {b : Block}

theorem added_of_mem_bracket {fresh : ℕ} {i j : Instr} (h : j ∈ bracket i) :
    j = i ∨ Added fresh j := by
  cases i with
  | other opcode operands res =>
    rw [bracket_other] at h
    exact .inl (List.mem_singleton.mp h)
  | call callee args res =>
    cases callee with
    | none => exact .inl (List.mem_singleton.mp h)
    | some name =>
      by_cases hb : Bracketed name
      · rw [bracket_of_bracketed hb] at h
        simp only [List.mem_cons, List.not_mem_nil, or_false] at h
        rcases h with rfl | rfl | rfl
        · exact .inr (.config _ _ _)
        · exact .inl rfl
        · exact .inr (.config _ _ _)
      · rw [bracket_of_not_bracketed hb] at h
        exact .inl (List.mem_singleton.mp h)

theorem added_of_mem_frontCalls {i : Instr} (h : i ∈ frontCalls L F b) :
    Added (insertedFunction F).freshReg i := by
  unfold frontCalls at h
  rcases List.mem_append.mp h with h | h
  · split_ifs at h
    · rw [readCalls_eq] at h
      simp only [List.mem_cons, List.not_mem_nil, or_false] at h
      rcases h with rfl | rfl
      · exact .readAddr
      · exact .readSize
    · cases h
  · split_ifs at h
    · obtain rfl := List.mem_singleton.mp h
      exact .config _ _ _
    · cases h

theorem added_of_mem_backCalls (fresh : ℕ) {i : Instr} (h : i ∈ backCalls stale F b) :
    Added fresh i := by
  unfold backCalls at h
  split_ifs at h
  · obtain rfl := List.mem_singleton.mp h
    exact .config _ _ _
  · cases h

/-- An instruction of an instrumented block is one of the source or added. -/
theorem added_of_mem_instrumentedBlock {i : Instr} (h : i ∈ (instrumentedBlock L stale F b).insts) :
    i ∈ b.insts ∨ Added (insertedFunction F).freshReg i := by
  by_cases hi : F.name ∈ insertSkips
  · unfold instrumentedBlock at h
    rw [if_pos hi] at h
    exact .inl h
  · rw [instrumentedBlock_insts hi, List.mem_append, List.mem_append, List.mem_flatMap] at h
    rcases h with (h | ⟨j, hj, h⟩) | h
    · exact .inr (added_of_mem_frontCalls h)
    · rcases added_of_mem_bracket h with rfl | h
      · exact .inl hj
      · exact .inr h
    · exact .inr (added_of_mem_backCalls _ h)

/-! ## Erasing -/

/-- The instructions that are not calls of functions of `mpu_configure.c`. -/
def sourceInsts (l : List Instr) : List Instr := l.filter fun i => ¬ i.Registers

theorem mem_sourceInsts {l : List Instr} {i : Instr} :
    i ∈ sourceInsts l ↔ i ∈ l ∧ ¬ i.Registers := by
  unfold sourceInsts
  rw [List.mem_filter, decide_eq_true_iff]

theorem sourceInsts_append (l m : List Instr) : sourceInsts (l ++ m) = sourceInsts l ++ sourceInsts m :=
  List.filter_append ..

theorem sourceInsts_cons_of_registers {i : Instr} (h : i.Registers) (l : List Instr) :
    sourceInsts (i :: l) = sourceInsts l := List.filter_cons_of_neg (by simpa using h)

theorem sourceInsts_cons_of_not {i : Instr} (h : ¬ i.Registers) (l : List Instr) :
    sourceInsts (i :: l) = i :: sourceInsts l := List.filter_cons_of_pos (by simpa using h)

theorem sourceInsts_eq_self {l : List Instr} (h : ∀ i ∈ l, ¬ i.Registers) : sourceInsts l = l :=
  List.filter_eq_self.mpr fun i hi => by simpa using h i hi

theorem sourceInsts_eq_nil {fresh : ℕ} {l : List Instr} (h : ∀ i ∈ l, Added fresh i) :
    sourceInsts l = [] :=
  List.filter_eq_nil_iff.mpr fun i hi => by simpa using (h i hi).registers

theorem sourceInsts_bracket {i : Instr} (h : ¬ i.Registers) : sourceInsts (bracket i) = [i] := by
  cases i with
  | other opcode operands res =>
    rw [bracket_other]
    exact sourceInsts_cons_of_not h []
  | call callee args res =>
    cases callee with
    | none => exact sourceInsts_cons_of_not h []
    | some name =>
      by_cases hb : Bracketed name
      · have hbefore : (beforeCall (some mpuConfigName)).Registers := by decide
        have hafter : (afterCall (some mpuConfigName)).Registers := by decide
        rw [bracket_of_bracketed hb, sourceInsts_cons_of_registers hbefore,
          sourceInsts_cons_of_not h, sourceInsts_cons_of_registers hafter]
        rfl
      · rw [bracket_of_not_bracketed hb]
        exact sourceInsts_cons_of_not h []

theorem sourceInsts_flatMap_bracket {l : List Instr} (h : ∀ i ∈ l, ¬ i.Registers) :
    sourceInsts (l.flatMap bracket) = l := by
  induction l with
  | nil => rfl
  | cons i l ih =>
    obtain ⟨hi, hl⟩ := List.forall_mem_cons.mp h
    rw [List.flatMap_cons, sourceInsts_append, sourceInsts_bracket hi, ih hl]
    rfl

theorem sourceInsts_instrumentedBlock (h : ∀ i ∈ b.insts, ¬ i.Registers) :
    sourceInsts (instrumentedBlock L stale F b).insts = b.insts := by
  by_cases hi : F.name ∈ insertSkips
  · unfold instrumentedBlock
    rw [if_pos hi]
    exact sourceInsts_eq_self h
  · rw [instrumentedBlock_insts hi, sourceInsts_append, sourceInsts_append,
      sourceInsts_eq_nil fun i => added_of_mem_frontCalls, sourceInsts_flatMap_bracket h,
      sourceInsts_eq_nil fun i => added_of_mem_backCalls (insertedFunction F).freshReg,
      List.nil_append, List.append_nil]

/-- `Set_Operand` changes added calls only. -/
theorem settledInst_eq_or_added {names : List Str} (hd : ∀ i ∈ b.insts, i.Direct names)
    (h : ∀ i ∈ b.insts, ¬ i.Registers) {p : Instr × Option Instr}
    (hp : p.1 ∈ (instrumentedBlock L stale F b).insts) :
    (¬ p.1.Registers ∧ settledInst T.table F.name p = p.1) ∨
      (p.1.Registers ∧ Added (insertedFunction F).freshReg (settledInst T.table F.name p)) := by
  rcases added_of_mem_instrumentedBlock hp with hmem | hadded
  · refine .inl ⟨h _ hmem, settledInst_of_ne (hd _ hmem) fun hconfig => ?_⟩
    exact h _ hmem ⟨_, by simp [registerNames], hconfig⟩
  · exact .inr ⟨hadded.registers, hadded.settledInst⟩

/-- An instruction of a final block is one of the source or added. -/
theorem added_of_mem_finalBlock {names : List Str} (hd : ∀ i ∈ b.insts, i.Direct names)
    (h : ∀ i ∈ b.insts, ¬ i.Registers) {i : Instr} (hi : i ∈ (finalBlock L stale T F b).insts)
    (hr : i.Registers) : Added (insertedFunction F).freshReg i := by
  unfold finalBlock settledBlock at hi
  obtain ⟨p, hp, rfl⟩ := List.mem_map.mp hi
  rcases settledInst_eq_or_added hd h (Cursor.fst_mem_of_mem_withNext hp) with ⟨hn, heq⟩ | ⟨-, hadded⟩
  · rw [heq] at hr
    exact absurd hr hn
  · exact hadded

/-- **Dropping the added calls gives the source back.** -/
theorem sourceInsts_finalBlock {names : List Str} (hd : ∀ i ∈ b.insts, i.Direct names)
    (h : ∀ i ∈ b.insts, ¬ i.Registers) : sourceInsts (finalBlock L stale T F b).insts = b.insts := by
  have hsame : ∀ p ∈ Cursor.withNext none (instrumentedBlock L stale F b).insts,
      ((settledInst T.table F.name p).Registers ↔ p.1.Registers) ∧
        (¬ p.1.Registers → settledInst T.table F.name p = p.1) := by
    intro p hp
    rcases settledInst_eq_or_added (T := T) hd h (Cursor.fst_mem_of_mem_withNext hp) with
      ⟨hn, heq⟩ | ⟨hr, hadded⟩
    · exact ⟨by rw [heq], fun _ => heq⟩
    · exact ⟨iff_of_true hadded.registers hr, fun hn => absurd hr hn⟩
  have hfst := Cursor.map_fst_withNext (none : Option Instr) (instrumentedBlock L stale F b).insts
  calc sourceInsts (finalBlock L stale T F b).insts
      = ((Cursor.withNext none (instrumentedBlock L stale F b).insts).filter
          fun p => ¬ p.1.Registers).map (settledInst T.table F.name) := by
        unfold sourceInsts finalBlock settledBlock
        rw [List.filter_map]
        congr 1
        apply List.filter_congr
        intro p hp
        exact decide_eq_decide.mpr (not_congr (hsame p hp).1)
    _ = ((Cursor.withNext none (instrumentedBlock L stale F b).insts).filter
          fun p => ¬ p.1.Registers).map Prod.fst := by
        apply List.map_congr_left
        intro p hp
        obtain ⟨hp, hn⟩ := List.mem_filter.mp hp
        exact (hsame p hp).2 (of_decide_eq_true hn)
    _ = sourceInsts (instrumentedBlock L stale F b).insts := by
        conv_rhs => rw [← hfst]
        unfold sourceInsts
        rw [List.filter_map]
        rfl
    _ = b.insts := sourceInsts_instrumentedBlock h

end Blocks

end MpuPasses
