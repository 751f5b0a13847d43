import MpuPasses.Lib.Cursor
import MpuPasses.Ir

/-!
# `Insert_Function`

The pass configures region 1 at the start of every function but the helpers, and brackets every call
between a configuration of region 2 and one of region 1. It inserts while its iterator walks the
block. The operands are placeholders until `Set_Operand` runs. `insertModule_eq` says what the pass
makes of a linked module whose calls are direct.
-/

namespace MpuPasses

open Chars

/-- The functions that the pass skips. -/
def insertSkips : List Str :=
  [mpuConfigName, mpuZeroRegionName, readCallerSizeName, readCallerAddrName, readExecuteName,
    configExecuteName]

/-- The callees that the pass does not bracket. -/
def Bracketed (movefn : Str) : Prop := movefn ≠ mpuConfigName ∧ movefn ≠ mpuZeroRegionName

instance : DecidablePred Bracketed := fun _ => by unfold Bracketed; infer_instance

/-- The call at the start of a function. -/
def entryCall (insertFunc : Option Str) : Instr :=
  mpuCall insertFunc (.const 0x08004000) (.const 4) (.const 1)

/-- The call in front of a call. -/
def beforeCall (insertFunc : Option Str) : Instr :=
  mpuCall insertFunc (.const 0x08004002) (.const 0) (.const 2)

/-- The call behind a call. -/
def afterCall (insertFunc : Option Str) : Instr :=
  mpuCall insertFunc (.const 0x08004002) (.const 0) (.const 1)

/-- What is inserted around one instruction; none dereferences a null callee. -/
def insertEdit (insertFunc : Option Str) : Instr → Option (List Instr × List Instr)
  | .call none _ _ => none
  | .call (some movefn) _ _ =>
    if Bracketed movefn then some ([beforeCall insertFunc], [afterCall insertFunc])
    else some ([], [])
  | .other _ _ _ => some ([], [])

/-- One turn of the loop over the blocks. An instruction gives rise to at most three, which bounds
the tests of the inner loop. -/
def insertBlock (M : IrModule) (F : Function) (b : Block) : Option Block :=
  let insertFunc := M.find mpuConfigName
  let insts := (if F.IsFront b then [entryCall insertFunc] else []) ++ b.insts
  (Cursor.walk (insertEdit insertFunc) (3 * insts.length + 1) insts).map fun insts =>
    { b with insts := insts }

/-- What the pass makes of a function. -/
def insertFunction (M : IrModule) (F : Function) : Option Function :=
  if F.name ∈ insertSkips then some F
  else (F.blocks.mapM (insertBlock M F)).map fun blocks => { F with blocks := blocks }

/-- `Insert_Function::runOnModule`. -/
def insertModule (M : IrModule) : Option IrModule := M.mapM (insertFunction M)

/-! ## The result for direct calls -/

/-- An instruction between its insertions. -/
def bracket : Instr → List Instr := Cursor.around (insertEdit (some mpuConfigName))

theorem bracket_of_bracketed {h : Str} (hb : Bracketed h) (args : List Val) (res : Option ℕ) :
    bracket (.call (some h) args res) =
      [beforeCall (some mpuConfigName), .call (some h) args res, afterCall (some mpuConfigName)] := by
  unfold bracket
  rw [Cursor.around_of_eq (by rw [insertEdit, if_pos hb])]
  rfl

theorem bracket_of_not_bracketed {h : Str} (hb : ¬ Bracketed h) (args : List Val)
    (res : Option ℕ) : bracket (.call (some h) args res) = [.call (some h) args res] := by
  unfold bracket
  rw [Cursor.around_of_eq (by rw [insertEdit, if_neg hb])]
  rfl

theorem bracket_other (opcode : ℕ) (operands : List Val) (res : Option ℕ) :
    bracket (.other opcode operands res) = [.other opcode operands res] := by
  unfold bracket
  rw [Cursor.around_of_eq rfl]
  rfl

theorem bracket_mpuCall (a z n : Val) :
    bracket (mpuCall (some mpuConfigName) a z n) = [mpuCall (some mpuConfigName) a z n] :=
  bracket_of_not_bracketed (fun h => h.1 rfl) _ _

theorem mem_bracket (i : Instr) : i ∈ bracket i := by
  unfold bracket Cursor.around
  split
  · exact List.mem_append_right _ List.mem_cons_self
  · exact List.mem_singleton_self i

theorem length_bracket_le (i : Instr) : (bracket i).length ≤ 3 := by
  unfold bracket Cursor.around
  split
  · next before after h =>
    cases i with
    | call callee args res =>
      cases callee with
      | none => cases h
      | some movefn =>
        rw [insertEdit] at h
        split_ifs at h <;> cases h <;> simp
    | other opcode operands res => cases h; simp
  · simp

/-- A call that the pass is to bracket. -/
def Instr.NeedsBracket : Instr → Prop
  | call none _ _ => True
  | call (some movefn) _ _ => Bracketed movefn
  | other _ _ _ => False

/-- What an edit can be. -/
theorem insertEdit_cases {insertFunc : Option Str} {i : Instr} {before after : List Instr}
    (h : insertEdit insertFunc i = some (before, after)) :
    (i.NeedsBracket ∧ before = [beforeCall insertFunc] ∧ after = [afterCall insertFunc]) ∨
      (¬ i.NeedsBracket ∧ before = [] ∧ after = []) := by
  cases i with
  | call callee args res =>
    cases callee with
    | none => cases h
    | some movefn =>
      rw [insertEdit] at h
      split_ifs at h with hb
      · cases h
        exact .inl ⟨hb, rfl, rfl⟩
      · cases h
        exact .inr ⟨hb, rfl, rfl⟩
  | other opcode operands res =>
    cases h
    exact .inr ⟨id, rfl, rfl⟩

theorem insertEdit_isSome_iff {insertFunc : Option Str} {i : Instr} :
    (insertEdit insertFunc i).isSome ↔ ¬ i.NullCallee := by
  cases i with
  | call callee args res =>
    cases callee with
    | none => exact iff_of_false Bool.false_ne_true (not_not_intro trivial)
    | some movefn =>
      rw [insertEdit]
      split_ifs <;> exact iff_of_true rfl id
  | other opcode operands res => exact iff_of_true rfl id

/-- The calls that the loop inserts behind an instruction it leaves alone. -/
theorem insertEdit_of_not_nullCallee {i : Instr} (hi : ¬ i.NullCallee) :
    ∃ before after, insertEdit (some mpuConfigName) i = some (before, after) ∧
      ∀ y ∈ after, Cursor.Inert (insertEdit (some mpuConfigName)) y := by
  obtain ⟨⟨before, after⟩, h⟩ := Option.isSome_iff_exists.mp (insertEdit_isSome_iff.mpr hi)
  refine ⟨before, after, h, fun y hy => ?_⟩
  rcases insertEdit_cases h with ⟨-, -, rfl⟩ | ⟨-, -, rfl⟩
  · obtain rfl := List.mem_singleton.mp hy
    rfl
  · cases hy

/-- What stands in a list of bracketed instructions: one of them, or a call inserted around one. -/
theorem mem_withNext_flatMap_bracket {names : List Str} {l : List Instr} {c : Option Instr}
    (hl : ∀ i ∈ l, i.Direct names) {p : Instr × Option Instr}
    (hp : p ∈ Cursor.withNext c (l.flatMap bracket)) :
    p.1 ∈ l ∨ p.1 = afterCall (some mpuConfigName) ∨
      ∃ h args res, Instr.call (some h) args res ∈ l ∧ Bracketed h ∧
        p = (beforeCall (some mpuConfigName), some (.call (some h) args res)) := by
  induction l with
  | nil => cases hp
  | cons i l ih =>
    obtain ⟨hi, hl⟩ := List.forall_mem_cons.mp hl
    rw [List.flatMap_cons, Cursor.withNext_append, List.mem_append] at hp
    rcases hp with hp | hp
    · cases i with
      | other opcode operands res =>
        rw [bracket_other] at hp
        obtain rfl := List.mem_singleton.mp hp
        exact .inl List.mem_cons_self
      | call callee args res =>
        cases callee with
        | none => cases hi
        | some h =>
          by_cases hb : Bracketed h
          · rw [bracket_of_bracketed hb] at hp
            simp only [Cursor.withNext_cons, Cursor.withNext_nil, List.head?_cons, Option.some_or,
              List.mem_cons, List.not_mem_nil, or_false] at hp
            rcases hp with rfl | rfl | rfl
            · exact .inr (.inr ⟨h, args, res, List.mem_cons_self, hb, rfl⟩)
            · exact .inl List.mem_cons_self
            · exact .inr (.inl rfl)
          · rw [bracket_of_not_bracketed hb] at hp
            obtain rfl := List.mem_singleton.mp hp
            exact .inl List.mem_cons_self
    · rcases ih hl hp with h | h | ⟨h, args, res, hmem, hrest⟩
      · exact .inl (List.mem_cons_of_mem i h)
      · exact .inr (.inl h)
      · exact .inr (.inr ⟨h, args, res, List.mem_cons_of_mem i hmem, hrest⟩)

/-- A block between its insertions. -/
def insertedBlock (F : Function) (b : Block) : Block :=
  { b with insts := (if F.IsFront b then [entryCall (some mpuConfigName)] else []) ++
      b.insts.flatMap bracket }

/-- A function between its insertions. -/
def insertedFunction (F : Function) : Function :=
  if F.name ∈ insertSkips then F else F.mapBlocks (insertedBlock F)

theorem keepsShape_insertedBlock (F : Function) : KeepsShape (insertedBlock F) :=
  fun _ => ⟨rfl, rfl⟩

/-- The new values of the function have higher numbers than those of the source. -/
theorem lt_freshReg_insertedFunction {F : Function} {b : Block} (hb : b ∈ F.blocks) {n : ℕ}
    (hn : n ∈ b.regs) : n < (insertedFunction F).freshReg := by
  unfold insertedFunction
  split_ifs
  · exact Function.lt_freshReg hb hn
  · apply Function.lt_freshReg (List.mem_map_of_mem hb)
    unfold Block.regs at hn ⊢
    unfold insertedBlock
    simp only [List.mem_append, List.mem_flatMap] at hn ⊢
    rcases hn with (hn | ⟨i, hi, hn⟩) | hn
    · exact .inl (.inl hn)
    · exact .inl (.inr ⟨i, .inr ⟨i, hi, mem_bracket i⟩, hn⟩)
    · exact .inr hn

section NotNull

variable {M : IrModule} {F : Function} {b : Block}

theorem flatMap_bracket_entry (F : Function) (b : Block) :
    ((if F.IsFront b then [entryCall (some mpuConfigName)] else []) ++ b.insts).flatMap bracket =
      (insertedBlock F b).insts := by
  unfold insertedBlock
  rw [List.flatMap_append]
  split_ifs
  · rw [List.flatMap_singleton, entryCall, bracket_mpuCall]
  · rfl

theorem length_flatMap_bracket_le (l : List Instr) :
    (l.flatMap bracket).length ≤ 3 * l.length := by
  induction l with
  | nil => simp
  | cons i l ih =>
    have hi := length_bracket_le i
    rw [List.flatMap_cons, List.length_append, List.length_cons]
    omega

/-- The instructions that the inner loop starts with. -/
theorem not_nullCallee_entry (hb : ∀ i ∈ b.insts, ¬ i.NullCallee) : ∀ i ∈
    (if F.IsFront b then [entryCall (some mpuConfigName)] else []) ++ b.insts, ¬ i.NullCallee := by
  intro i hi
  rcases List.mem_append.mp hi with hi | hi
  · split_ifs at hi
    · obtain rfl := List.mem_singleton.mp hi
      exact id
    · cases hi
  · exact hb i hi

section Find

variable (hfind : M.find mpuConfigName = some mpuConfigName)

include hfind

theorem insertBlock_eq (hb : ∀ i ∈ b.insts, ¬ i.NullCallee) :
    insertBlock M F b = some (insertedBlock F b) := by
  unfold insertBlock
  simp only [hfind]
  rw [Cursor.walk_eq, Option.map_some]
  · exact congrArg some (congrArg (fun insts => { b with insts := insts })
      (flatMap_bracket_entry F b))
  · exact fun i hi => insertEdit_of_not_nullCallee (not_nullCallee_entry hb i hi)
  · exact Nat.lt_succ_of_le (length_flatMap_bracket_le _)

theorem insertFunction_eq
    (hF : F.name ∉ insertSkips → ∀ b ∈ F.blocks, ∀ i ∈ b.insts, ¬ i.NullCallee) :
    insertFunction M F = some (insertedFunction F) := by
  unfold insertFunction insertedFunction
  split_ifs with hskip
  · rfl
  · rw [Loop.mapM_eq_some_map fun b hb => insertBlock_eq hfind (hF hskip b hb)]
    rfl

/-- **The inserted calls.** On a module that has `MPU_Config`, the pass puts a configuration of region
1 at the start of every function it processes and brackets its calls, if none has a null callee. -/
theorem insertModule_eq_of_not_nullCallee
    (h : ∀ F ∈ M, F.name ∉ insertSkips → ∀ b ∈ F.blocks, ∀ i ∈ b.insts, ¬ i.NullCallee) :
    insertModule M = some (M.map insertedFunction) :=
  Loop.mapM_eq_some_map fun F hF => insertFunction_eq hfind (h F hF)

end Find

end NotNull

theorem insertModule_eq {L : LinkedModule} (hd : L.functions.Direct) :
    insertModule L.functions = some (L.functions.map insertedFunction) :=
  insertModule_eq_of_not_nullCallee L.find_config
    fun F hF _ b hb i hi => (hd F hF b hb i hi).not_nullCallee

@[simp] theorem insertedFunction_name (F : Function) : (insertedFunction F).name = F.name := by
  unfold insertedFunction
  split_ifs <;> rfl

theorem Function.Verified.insertedFunction {F : Function} (h : F.Verified) :
    (insertedFunction F).Verified := by
  unfold MpuPasses.insertedFunction
  split_ifs
  · exact h
  · exact h.mapBlocks (keepsShape_insertedBlock F)

/-- The module that the pass leaves. -/
def LinkedModule.inserted (L : LinkedModule) : LinkedModule :=
  L.map insertedFunction insertedFunction_name fun F hF => (L.verified F hF).insertedFunction

/-! ## Where the inserted calls stand -/

/-- A call `MPU_Config(_, _, num)`. -/
def Instr.IsConfig (num : BitVec 32) (i : Instr) : Prop :=
  ∃ startAddr regionSize, i = mpuCall (some mpuConfigName) startAddr regionSize (.const num)

/-- Every call that needs it stands directly between a configuration of region 2 and one of region
1. -/
def CallsBracketed (insts : List Instr) : Prop :=
  ∀ pre i post, insts = pre ++ i :: post → i.NeedsBracket →
    (∃ j ∈ pre.getLast?, j.IsConfig 2) ∧ ∃ j ∈ post.head?, j.IsConfig 1

/-- Every call of `MPU_Config` is the one at the entry, or stands directly before or behind a call
that needs it. -/
def OnlyBrackets (entry : Prop) (insts : List Instr) : Prop :=
  ∀ pre i post, insts = pre ++ i :: post → i.callee? = some mpuConfigName →
    (entry ∧ pre = [] ∧ i.IsConfig 1) ∨ (i.IsConfig 2 ∧ ∃ j ∈ post.head?, j.NeedsBracket) ∨
      (i.IsConfig 1 ∧ ∃ j ∈ pre.getLast?, j.NeedsBracket)

/-- What the pass is to make of a block of a function that it processes. -/
structure InsertsInto (F : Function) (b b' : Block) : Prop where
  label : b'.label = b.label
  phis : b'.phis = b.phis
  term : b'.term = b.term
  entry : F.blocks.head? = some b → ∃ i ∈ b'.insts.head?, i.IsConfig 1
  bracketed : CallsBracketed b'.insts
  only : OnlyBrackets (F.blocks.head? = some b) b'.insts
  erased : b'.insts.filter (fun i => i.callee? ≠ some mpuConfigName) = b.insts

/-- What the pass is to make of a function. -/
def Inserts (F F' : Function) : Prop :=
  if F.name ∈ insertSkips then F' = F
  else F'.name = F.name ∧ List.Forall₂ (InsertsInto F) F.blocks F'.blocks

theorem isConfig_entryCall : (entryCall (some mpuConfigName)).IsConfig 1 := ⟨_, _, rfl⟩

theorem isConfig_beforeCall : (beforeCall (some mpuConfigName)).IsConfig 2 := ⟨_, _, rfl⟩

theorem isConfig_afterCall : (afterCall (some mpuConfigName)).IsConfig 1 := ⟨_, _, rfl⟩

theorem Instr.NeedsBracket.callee?_ne {i : Instr} (h : i.NeedsBracket) :
    i.callee? ≠ some mpuConfigName := by
  intro heq
  cases i with
  | call callee args res =>
    cases heq
    exact h.1 rfl
  | other opcode operands res => exact h

/-- What stands where in a list of bracketed instructions. -/
theorem bracketed_place {l : List Instr} (hl : ∀ i ∈ l, ¬ i.NullCallee) {pre post : List Instr}
    {i : Instr} (h : l.flatMap bracket = pre ++ i :: post) :
    (i ∈ l ∧ (i.NeedsBracket → (∃ j ∈ pre.getLast?, j.IsConfig 2) ∧
      ∃ j ∈ post.head?, j.IsConfig 1)) ∨
    (i = beforeCall (some mpuConfigName) ∧ ∃ j ∈ post.head?, j.NeedsBracket) ∨
    (i = afterCall (some mpuConfigName) ∧ ∃ j ∈ pre.getLast?, j.NeedsBracket) := by
  have hplace := Cursor.place_of_flatMap (fun i hi => insertEdit_isSome_iff.mpr (hl i hi)) h
  cases hplace with
  | element mem eq hbefore hafter =>
    refine .inl ⟨mem, fun hneeds => ?_⟩
    rcases insertEdit_cases eq with ⟨-, rfl, rfl⟩ | ⟨hnot, -, -⟩
    · obtain ⟨front, rfl⟩ := hbefore
      obtain ⟨back, rfl⟩ := hafter
      exact ⟨⟨_, List.getLast?_concat, isConfig_beforeCall⟩, ⟨_, rfl, isConfig_afterCall⟩⟩
    · exact absurd hneeds hnot
  | before mem eq hpost =>
    rcases insertEdit_cases eq with ⟨hneeds, hbefore, -⟩ | ⟨-, hbefore, -⟩
    · obtain ⟨rfl, hsingle⟩ := List.append_eq_singleton_iff.mp hbefore |>.resolve_right (by simp)
      obtain ⟨rfl, rfl⟩ := List.cons.inj hsingle
      obtain ⟨back, rfl⟩ := hpost
      exact .inr (.inl ⟨rfl, _, rfl, hneeds⟩)
    · simp at hbefore
  | after mem eq hpre =>
    rcases insertEdit_cases eq with ⟨hneeds, -, hafter⟩ | ⟨-, -, hafter⟩
    · obtain ⟨rfl, hsingle⟩ := List.append_eq_singleton_iff.mp hafter |>.resolve_right (by simp)
      obtain ⟨rfl, rfl⟩ := List.cons.inj hsingle
      obtain ⟨front, rfl⟩ := hpre
      exact .inr (.inr ⟨rfl, _, List.getLast?_concat, hneeds⟩)
    · simp at hafter

section InsertedBlock

variable {F : Function} {b : Block} (hb : ∀ i ∈ b.insts, ¬ i.NullCallee)

include hb

theorem callsBracketed_insertedBlock : CallsBracketed (insertedBlock F b).insts := by
  intro pre i post h hneeds
  rw [← flatMap_bracket_entry] at h
  rcases bracketed_place (not_nullCallee_entry hb) h with ⟨-, hplace⟩ | ⟨rfl, -⟩ | ⟨rfl, -⟩
  · exact hplace hneeds
  · exact absurd rfl hneeds.callee?_ne
  · exact absurd rfl hneeds.callee?_ne

variable (hplain : ∀ i ∈ b.insts, i.callee? ≠ some mpuConfigName)

include hplain

theorem onlyBrackets_insertedBlock : OnlyBrackets (F.IsFront b) (insertedBlock F b).insts := by
  intro pre i post h hconfig
  have hinner : ∀ pre', b.insts.flatMap bracket = pre' ++ i :: post →
      (i.IsConfig 2 ∧ ∃ j ∈ post.head?, j.NeedsBracket) ∨
        (i.IsConfig 1 ∧ ∃ j ∈ pre'.getLast?, j.NeedsBracket) := by
    intro pre' h'
    rcases bracketed_place hb h' with ⟨hmem, -⟩ | ⟨rfl, hnext⟩ | ⟨rfl, hprev⟩
    · exact absurd hconfig (hplain i hmem)
    · exact .inl ⟨isConfig_beforeCall, hnext⟩
    · exact .inr ⟨isConfig_afterCall, hprev⟩
  unfold insertedBlock at h
  simp only at h
  split_ifs at h with hfront
  · cases pre with
    | nil =>
      obtain ⟨rfl, -⟩ := List.cons.inj h
      exact .inl ⟨hfront, rfl, isConfig_entryCall⟩
    | cons j pre =>
      obtain ⟨-, h⟩ := List.cons.inj h
      rcases hinner pre h with hbefore | ⟨hone, k, hk, hneeds⟩
      · exact .inr (.inl hbefore)
      · refine .inr (.inr ⟨hone, k, ?_, hneeds⟩)
        rw [List.getLast?_cons, Option.mem_def.mp hk]
        rfl
  · exact .inr (hinner pre h)

theorem filter_insertedBlock :
    (insertedBlock F b).insts.filter (fun i => i.callee? ≠ some mpuConfigName) = b.insts := by
  have hbrackets : (b.insts.flatMap bracket).filter (fun i => i.callee? ≠ some mpuConfigName) =
      b.insts := by
    refine Cursor.filter_flatMap_around (fun i hi => ?_) fun i hi => decide_eq_true (hplain i hi)
    obtain ⟨⟨before, after⟩, h⟩ := Option.isSome_iff_exists.mp (insertEdit_isSome_iff.mpr (hb i hi))
    refine ⟨before, after, h, ?_⟩
    rcases insertEdit_cases h with ⟨-, rfl, rfl⟩ | ⟨-, rfl, rfl⟩
    · decide
    · simp
  unfold insertedBlock
  rw [List.filter_append, hbrackets]
  split_ifs
  · rfl
  · rfl

theorem insertsInto_insertedBlock (hv : F.Verified) (hmem : b ∈ F.blocks) :
    InsertsInto F b (insertedBlock F b) where
  label := rfl
  phis := rfl
  term := rfl
  entry hhead := by
    unfold insertedBlock
    rw [if_pos (Function.isFront_of_head? hhead)]
    exact ⟨_, rfl, isConfig_entryCall⟩
  bracketed := callsBracketed_insertedBlock hb
  only := fun pre i post h hconfig => by
    rcases onlyBrackets_insertedBlock hb hplain pre i post h hconfig with ⟨hfront, hrest⟩ | hrest
    · exact .inl ⟨hv.head?_of_isFront hmem hfront, hrest⟩
    · exact .inr hrest
  erased := filter_insertedBlock hb hplain

end InsertedBlock

/-- **What the pass inserts.** On a module that has `MPU_Config`, and whose user code makes direct
calls only and none of `MPU_Config`, the pass ends; it configures region 1 at the start of every
function it processes, brackets every call, adds no other call, and keeps everything else. -/
theorem insertModule_inserts {M : IrModule} (hconfig : mpuConfigName ∈ M.names)
    (hv : ∀ F ∈ M, F.Verified) (huser : ∀ F ∈ M, F.name ∉ insertSkips → ∀ b ∈ F.blocks,
      ∀ i ∈ b.insts, ¬ i.NullCallee ∧ i.callee? ≠ some mpuConfigName) :
    ∃ M', insertModule M = some M' ∧ List.Forall₂ Inserts M M' := by
  refine ⟨M.map insertedFunction, ?_, ?_⟩
  · exact insertModule_eq_of_not_nullCallee (if_pos hconfig)
      fun F hF hskip b hb i hi => (huser F hF hskip b hb i hi).1
  · rw [List.forall₂_map_right_iff, List.forall₂_same]
    intro F hF
    unfold Inserts insertedFunction
    split_ifs with hskip
    · rfl
    · refine ⟨rfl, ?_⟩
      show List.Forall₂ (InsertsInto F) F.blocks (F.blocks.map (insertedBlock F))
      rw [List.forall₂_map_right_iff, List.forall₂_same]
      intro b hb
      have hblock := huser F hF hskip b hb
      exact insertsInto_insertedBlock (fun i hi => (hblock i hi).1) (fun i hi => (hblock i hi).2)
        (hv F hF) hb

theorem insertModule_inserts_benchmark : ∃ M', insertModule benchmarkModule.functions = some M' ∧
    List.Forall₂ Inserts benchmarkModule.functions M' :=
  insertModule_inserts benchmarkModule.has_config benchmarkModule.verified (by decide)

end MpuPasses
