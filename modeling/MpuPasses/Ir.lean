import MpuPasses.Layout

/-!
# Modules

What the passes see of an LLVM module: functions made of basic blocks, each with its PHI nodes, its
other instructions and its terminator. Of an instruction only calls matter; a call whose callee is
not known at compile time has none. The terminators `invoke` and `callbr`, which call a function too,
are not modelled: the passes do not count them as calls, and they do not come from C, `asm goto` apart.
Blocks and values are told apart by numbers, as LLVM tells them apart by their addresses.
-/

namespace MpuPasses

open Chars

/-! ## The names that the passes look for -/

def mpuConfigName : Str := "MPU_Config".toList

def mpuZeroRegionName : Str := "MPU_zero_region".toList

def readCallerAddrName : Str := "Read_Caller_addr".toList

def readCallerSizeName : Str := "Read_Caller_size".toList

def readExecuteName : Str := "read_execute".toList

def configExecuteName : Str := "Config_execute".toList

/-! ## Instructions, blocks, functions -/

/-- An operand: a constant, or the value of an instruction or argument. -/
inductive Val
  | const (c : BitVec 32)
  | reg (n : ℕ)
  deriving DecidableEq, Repr

/-- An instruction that is neither a PHI node nor a terminator. -/
inductive Instr
  | call (callee : Option Str) (args : List Val) (res : Option ℕ)
  | other (opcode : ℕ) (operands : List Val) (res : Option ℕ)
  deriving DecidableEq, Repr

/-- `CallInst::Create(InsertFunc, {start_addr, region_size, region_num})`. -/
def mpuCall (insertFunc : Option Str) (startAddr regionSize regionNum : Val) : Instr :=
  .call insertFunc [startAddr, regionSize, regionNum] none

structure Phi where
  res : ℕ
  incoming : List (ℕ × Val)
  deriving DecidableEq, Repr

/-- A terminator: `ret`, or one with successors. -/
inductive Term
  | ret (operands : List Val)
  | branch (operands : List Val) (succs : List ℕ)
  deriving DecidableEq, Repr

structure Block where
  label : ℕ
  phis : List Phi := []
  insts : List Instr
  term : Term
  deriving DecidableEq, Repr

/-- A function; a declaration has no blocks. -/
structure Function where
  name : Str
  blocks : List Block
  deriving DecidableEq, Repr

/-- The functions of a module in order. -/
abbrev IrModule := List Function

def IrModule.names (M : IrModule) : List Str := M.map Function.name

/-- The function found under a name, if there is one. -/
def IrModule.find (M : IrModule) (name : Str) : Option Str :=
  if name ∈ M.names then some name else none

/-- `tmp_BB == &(F->front())`. -/
def Function.IsFront (F : Function) (b : Block) : Prop :=
  F.blocks.head?.map Block.label = some b.label

/-- `tmp_BB == &(F->back())`. -/
def Function.IsBack (F : Function) (b : Block) : Prop :=
  F.blocks.getLast?.map Block.label = some b.label

instance (F : Function) : DecidablePred F.IsFront := fun _ => by
  unfold Function.IsFront; infer_instance

instance (F : Function) : DecidablePred F.IsBack := fun _ => by
  unfold Function.IsBack; infer_instance

theorem Function.isFront_of_head? {F : Function} {b : Block} (h : F.blocks.head? = some b) :
    F.IsFront b := by
  unfold Function.IsFront
  rw [h]
  rfl

/-! ## New values -/

def Val.regs : Val → List ℕ
  | const _ => []
  | reg n => [n]

def Instr.regs : Instr → List ℕ
  | call _ args res => args.flatMap Val.regs ++ res.toList
  | other _ operands res => operands.flatMap Val.regs ++ res.toList

def Phi.regs (p : Phi) : List ℕ := p.res :: p.incoming.flatMap fun x => x.2.regs

def Term.regs : Term → List ℕ
  | ret operands => operands.flatMap Val.regs
  | branch operands _ => operands.flatMap Val.regs

def Block.regs (b : Block) : List ℕ :=
  b.phis.flatMap Phi.regs ++ b.insts.flatMap Instr.regs ++ b.term.regs

/-- The first of the numbers that no value of the function has. -/
def Function.freshReg (F : Function) : ℕ := (F.blocks.flatMap Block.regs).foldr max 0 + 1

theorem le_foldr_max {l : List ℕ} {n : ℕ} (h : n ∈ l) : n ≤ l.foldr max 0 := by
  induction l with
  | nil => cases h
  | cons m l ih =>
    rcases List.mem_cons.mp h with rfl | h
    · exact le_max_left ..
    · exact (ih h).trans (le_max_right ..)

theorem Block.mem_regs_of_phi {b : Block} {p : Phi} (hp : p ∈ b.phis) {n : ℕ} (hn : n ∈ p.regs) :
    n ∈ b.regs := by
  unfold Block.regs
  simp only [List.mem_append, List.mem_flatMap]
  exact .inl (.inl ⟨p, hp, hn⟩)

theorem Block.mem_regs_of_inst {b : Block} {i : Instr} (hi : i ∈ b.insts) {n : ℕ}
    (hn : n ∈ i.regs) : n ∈ b.regs := by
  unfold Block.regs
  simp only [List.mem_append, List.mem_flatMap]
  exact .inl (.inr ⟨i, hi, hn⟩)

theorem Function.lt_freshReg {F : Function} {b : Block} (hb : b ∈ F.blocks) {n : ℕ}
    (hn : n ∈ b.regs) : n < F.freshReg :=
  Nat.lt_succ_of_le (le_foldr_max (List.mem_flatMap.mpr ⟨b, hb, hn⟩))

/-! ## Control flow -/

def Term.succs : Term → List ℕ
  | ret _ => []
  | branch _ succs => succs

def Term.IsRet : Term → Prop
  | ret _ => True
  | branch _ _ => False

instance : DecidablePred Term.IsRet := fun t => by cases t <;> unfold Term.IsRet <;> infer_instance

/-- Control goes from one block to the other. -/
def Function.Edge (F : Function) (b c : Block) : Prop := c ∈ F.blocks ∧ c.label ∈ b.term.succs

/-- A path of blocks from the entry on. -/
structure Function.Path (F : Function) (bs : List Block) : Prop where
  entry : bs.head? = F.blocks.head?
  chain : bs.IsChain F.Edge

/-- Some path from the entry ends in the block. -/
def Function.Reaches (F : Function) (b : Block) : Prop :=
  ∃ bs, F.Path bs ∧ bs.getLast? = some b

theorem Function.reaches_entry {F : Function} {b : Block} (hb : F.blocks.head? = some b) :
    F.Reaches b := ⟨[b], ⟨hb.symm, .singleton b⟩, rfl⟩

theorem Function.Reaches.edge {F : Function} {b c : Block} (h : F.Reaches b) (he : F.Edge b c) :
    F.Reaches c := by
  obtain ⟨bs, hbs, hlast⟩ := h
  obtain ⟨bs, rfl⟩ := List.getLast?_eq_some_iff.mp hlast
  refine ⟨bs ++ [b] ++ [c], ⟨?_, ?_⟩, List.getLast?_concat⟩
  · rw [← hbs.entry, List.head?_append_of_ne_nil _ (by simp)]
  · apply List.IsChain.append hbs.chain (.singleton c)
    intro x hx y hy
    rw [List.getLast?_concat] at hx
    cases hx
    cases hy
    exact he

/-- What is executed of a block. -/
inductive Event
  | inst (i : Instr)
  | term (t : Term)
  deriving DecidableEq, Repr

def Block.trace (b : Block) : List Event := b.insts.map .inst ++ [.term b.term]

theorem Block.inst_mem_trace {b : Block} {i : Instr} : .inst i ∈ b.trace ↔ i ∈ b.insts := by
  unfold Block.trace
  simp

/-- The last event of a list of blocks is a terminator. -/
theorem getLast?_flatMap_trace (bs : List Block) (i : Instr) :
    (bs.flatMap Block.trace).getLast? ≠ some (.inst i) := by
  induction bs using List.reverseRecOn with
  | nil => simp
  | append_singleton bs b ih =>
    rw [List.flatMap_append, List.flatMap_singleton, Block.trace, ← List.append_assoc,
      List.getLast?_concat]
    simp

/-- The event before the last terminator of a trace is an instruction of the last block. -/
theorem mem_insts_of_flatMap_trace_eq {bs : List Block} {b : Block} {pre : List Event} {i : Instr}
    {t : Term} (h : (bs ++ [b]).flatMap Block.trace = pre ++ [.inst i, .term t]) :
    i ∈ b.insts := by
  rw [List.flatMap_append, List.flatMap_singleton, Block.trace, ← List.append_assoc,
    List.append_cons pre] at h
  have hend := congrArg List.getLast? (List.append_inj_left' h rfl)
  rw [List.getLast?_concat] at hend
  by_cases hnil : b.insts = []
  · rw [hnil, List.map_nil, List.append_nil] at hend
    exact absurd hend (getLast?_flatMap_trace bs i)
  · rw [List.getLast?_append_of_ne_nil _ (by simpa using hnil), List.getLast?_map] at hend
    obtain ⟨j, hj, heq⟩ := Option.map_eq_some_iff.mp hend
    cases heq
    exact List.mem_of_getLast? hj

/-- What the verifier guarantees of a function: blocks are distinct, branches stay inside, and none
leads to the entry. -/
structure Function.Verified (F : Function) : Prop where
  labels_nodup : (F.blocks.map Block.label).Nodup
  succs_mem : ∀ b ∈ F.blocks, ∀ l ∈ b.term.succs, l ∈ F.blocks.map Block.label
  entry_no_pred : ∀ b ∈ F.blocks, ∀ l ∈ b.term.succs, F.blocks.head?.map Block.label ≠ some l

instance (F : Function) : Decidable F.Verified :=
  decidable_of_iff ((F.blocks.map Block.label).Nodup ∧
      (∀ b ∈ F.blocks, ∀ l ∈ b.term.succs, l ∈ F.blocks.map Block.label) ∧
      ∀ b ∈ F.blocks, ∀ l ∈ b.term.succs, F.blocks.head?.map Block.label ≠ some l)
    ⟨fun ⟨h1, h2, h3⟩ => ⟨h1, h2, h3⟩, fun h => ⟨h.1, h.2, h.3⟩⟩

theorem Function.Verified.eq_of_label {F : Function} (h : F.Verified) {b c : Block}
    (hb : b ∈ F.blocks) (hc : c ∈ F.blocks) (hl : b.label = c.label) : b = c :=
  List.inj_on_of_nodup_map h.labels_nodup hb hc hl

theorem Function.Verified.head?_of_isFront {F : Function} (h : F.Verified) {b : Block}
    (hb : b ∈ F.blocks) (hfront : F.IsFront b) : F.blocks.head? = some b := by
  obtain ⟨c, hc, hlabel⟩ := Option.map_eq_some_iff.mp hfront
  rw [hc, h.eq_of_label (List.mem_of_mem_head? hc) hb hlabel]

theorem Function.Verified.isBack_unique {F : Function} (h : F.Verified) {b c : Block}
    (hb : b ∈ F.blocks) (hc : c ∈ F.blocks) (hbb : F.IsBack b) (hbc : F.IsBack c) : b = c :=
  h.eq_of_label hb hc (Option.some.inj (hbb.symm.trans hbc))

theorem Function.Path.subset {F : Function} {bs : List Block} (h : F.Path bs) :
    ∀ b ∈ bs, b ∈ F.blocks := by
  cases bs with
  | nil => simp
  | cons b bs =>
    have hmem : ∀ c ∈ bs, c ∈ F.blocks := by
      have hchain := h.chain
      clear h
      induction bs generalizing b with
      | nil => simp
      | cons c bs ih =>
        obtain ⟨hbc, hchain⟩ := List.isChain_cons_cons.mp hchain
        exact List.forall_mem_cons.mpr ⟨hbc.1, ih c hchain⟩
    refine List.forall_mem_cons.mpr ⟨List.mem_of_mem_head? ?_, hmem⟩
    rw [← h.entry]
    rfl

/-- Only the last block of a path can return. -/
theorem Function.Path.not_isRet_of_mem_dropLast {F : Function} {bs : List Block}
    (h : bs.IsChain F.Edge) {b : Block} (hb : b ∈ bs.dropLast) : ¬ b.term.IsRet := by
  induction bs with
  | nil => cases hb
  | cons c bs ih =>
    cases bs with
    | nil => cases hb
    | cons d bs =>
      obtain ⟨hcd, hchain⟩ := List.isChain_cons_cons.mp h
      rw [List.dropLast_cons_cons] at hb
      rcases List.mem_cons.mp hb with rfl | hb
      · intro hret
        have hsucc := hcd.2
        cases ht : b.term with
        | ret operands => rw [ht] at hsucc; cases hsucc
        | branch operands succs => rw [ht] at hret; cases hret
      · exact ih hchain hb

/-! ## Changing the instructions of blocks -/

/-- Change the blocks one by one. -/
def Function.mapBlocks (F : Function) (g : Block → Block) : Function :=
  { F with blocks := F.blocks.map g }

theorem Function.head?_mapBlocks (F : Function) (g : Block → Block) :
    (F.mapBlocks g).blocks.head? = F.blocks.head?.map g := List.head?_map

theorem Function.mapBlocks_mapBlocks (F : Function) (g h : Block → Block) :
    (F.mapBlocks g).mapBlocks h = F.mapBlocks (h ∘ g) := by
  unfold mapBlocks
  rw [List.map_map]

theorem Function.mapBlocks_id (F : Function) : F.mapBlocks (fun b => b) = F := by
  unfold mapBlocks
  rw [List.map_id']

/-- A change that keeps labels and terminators. -/
def KeepsShape (g : Block → Block) : Prop := ∀ b, (g b).label = b.label ∧ (g b).term = b.term

section KeepsShape

variable {F : Function} {g : Block → Block} (hg : KeepsShape g)

include hg

theorem Function.isFront_mapBlocks (b : Block) : (F.mapBlocks g).IsFront (g b) ↔ F.IsFront b := by
  unfold Function.IsFront
  have hlabel : Block.label ∘ g = Block.label := funext fun b => (hg b).1
  rw [Function.head?_mapBlocks, Option.map_map, hlabel, (hg b).1]

theorem Function.isBack_mapBlocks (b : Block) : (F.mapBlocks g).IsBack (g b) ↔ F.IsBack b := by
  unfold Function.IsBack Function.mapBlocks
  have hlabel : Block.label ∘ g = Block.label := funext fun b => (hg b).1
  rw [List.getLast?_map, Option.map_map, hlabel, (hg b).1]

theorem Function.Verified.mapBlocks (h : F.Verified) : (F.mapBlocks g).Verified := by
  have hlabels : (F.mapBlocks g).blocks.map Block.label = F.blocks.map Block.label := by
    unfold Function.mapBlocks
    rw [List.map_map]
    exact List.map_congr_left fun b _ => (hg b).1
  have hhead : (F.mapBlocks g).blocks.head?.map Block.label = F.blocks.head?.map Block.label := by
    rw [← List.head?_map, ← List.head?_map, hlabels]
  have hterm : ∀ b' ∈ (F.mapBlocks g).blocks, ∃ b ∈ F.blocks, b'.term = b.term := by
    intro b' hb'
    obtain ⟨b, hb, rfl⟩ := List.mem_map.mp hb'
    exact ⟨b, hb, (hg b).2⟩
  constructor
  · rw [hlabels]
    exact h.labels_nodup
  · intro b' hb' l hl
    obtain ⟨b, hb, heq⟩ := hterm b' hb'
    rw [hlabels]
    exact h.succs_mem b hb l (heq ▸ hl)
  · intro b' hb' l hl
    obtain ⟨b, hb, heq⟩ := hterm b' hb'
    rw [hhead]
    exact h.entry_no_pred b hb l (heq ▸ hl)

theorem Function.edge_mapBlocks {b c : Block} (h : F.Edge b c) : (F.mapBlocks g).Edge (g b) (g c) := by
  refine ⟨List.mem_map_of_mem h.1, ?_⟩
  rw [(hg c).1, (hg b).2]
  exact h.2

theorem Function.path_mapBlocks {bs : List Block} (h : F.Path bs) :
    (F.mapBlocks g).Path (bs.map g) := by
  refine ⟨?_, ?_⟩
  · rw [List.head?_map, Function.head?_mapBlocks, h.entry]
  · refine List.isChain_map_of_isChain g (fun b c hbc => Function.edge_mapBlocks hg hbc) h.chain

theorem Function.edge_of_mapBlocks {b c' : Block} (h : (F.mapBlocks g).Edge (g b) c') :
    ∃ c, F.Edge b c ∧ c' = g c := by
  obtain ⟨hmem, hsucc⟩ := h
  obtain ⟨c, hc, rfl⟩ := List.mem_map.mp hmem
  rw [(hg c).1, (hg b).2] at hsucc
  exact ⟨c, ⟨hc, hsucc⟩, rfl⟩

theorem Function.exists_isChain_of_mapBlocks {b : Block} {bs : List Block}
    (h : (g b :: bs).IsChain (F.mapBlocks g).Edge) :
    ∃ cs, (b :: cs).IsChain F.Edge ∧ bs = cs.map g := by
  induction bs generalizing b with
  | nil => exact ⟨[], .singleton b, rfl⟩
  | cons c' bs ih =>
    obtain ⟨hedge, hchain⟩ := List.isChain_cons_cons.mp h
    obtain ⟨c, hc, rfl⟩ := Function.edge_of_mapBlocks hg hedge
    obtain ⟨cs, hcs, rfl⟩ := ih hchain
    exact ⟨c :: cs, hcs.cons_cons hc, rfl⟩

/-- Every path of the changed function is one of the function, changed. -/
theorem Function.exists_path_of_mapBlocks {bs : List Block} (h : (F.mapBlocks g).Path bs) :
    ∃ cs, F.Path cs ∧ bs = cs.map g := by
  have hentry := h.entry
  rw [Function.head?_mapBlocks] at hentry
  cases bs with
  | nil =>
    refine ⟨[], ⟨?_, .nil⟩, rfl⟩
    exact (Option.map_eq_none_iff.mp hentry.symm).symm
  | cons b' bs =>
    obtain ⟨b, hb, rfl⟩ := Option.map_eq_some_iff.mp hentry.symm
    obtain ⟨cs, hcs, rfl⟩ := Function.exists_isChain_of_mapBlocks hg h.chain
    exact ⟨b :: cs, ⟨hb.symm, hcs⟩, rfl⟩

end KeepsShape

/-! ## Linked modules -/

/-- A call of one of these functions, or no call. -/
def Instr.Direct (names : List Str) : Instr → Prop
  | call (some callee) _ _ => callee ∈ names
  | call none _ _ => False
  | other _ _ _ => True

instance (names : List Str) : DecidablePred (Instr.Direct names) := fun i => by
  cases i with
  | call callee args res => cases callee <;> unfold Instr.Direct <;> infer_instance
  | other opcode operands res => exact isTrue trivial

/-- The function that a direct call names. -/
def Instr.callee? : Instr → Option Str
  | call callee _ _ => callee
  | other _ _ _ => none

/-- A call for which `getCalledFunction()` is null: one through a pointer or a cast. -/
def Instr.NullCallee : Instr → Prop
  | call none _ _ => True
  | call (some _) _ _ => False
  | other _ _ _ => False

instance : DecidablePred Instr.NullCallee := fun i => by
  cases i with
  | call callee args res => cases callee <;> unfold Instr.NullCallee <;> infer_instance
  | other opcode operands res => exact isFalse id

theorem Instr.Direct.not_nullCallee {names : List Str} {i : Instr} (h : i.Direct names) :
    ¬ i.NullCallee := by
  cases i with
  | call callee args res =>
    cases callee with
    | none => cases h
    | some callee => exact id
  | other opcode operands res => exact id

/-- Every call names a function of the module. -/
def IrModule.Direct (M : IrModule) : Prop :=
  ∀ F ∈ M, ∀ b ∈ F.blocks, ∀ i ∈ b.insts, i.Direct M.names

instance (M : IrModule) : Decidable M.Direct := by unfold IrModule.Direct; infer_instance

/-- A whole program: distinct functions, and `mpu_configure.c` among its sources. All names are those of
identifiers; without a name or with white space in it a function could not be listed one a line. -/
structure LinkedModule where
  functions : IrModule
  names_nodup : functions.names.Nodup := by decide
  verified : ∀ F ∈ functions, F.Verified := by decide
  plain : ∀ name ∈ functions.names, name ≠ [] ∧ name.any isSpace = false := by decide
  has_config : mpuConfigName ∈ functions.names := by decide
  has_addr : readCallerAddrName ∈ functions.names := by decide
  has_size : readCallerSizeName ∈ functions.names := by decide

/-- Change the functions of a linked module, their names apart. -/
def LinkedModule.map (L : LinkedModule) (g : Function → Function) (hname : ∀ F, (g F).name = F.name)
    (hv : ∀ F ∈ L.functions, (g F).Verified) : LinkedModule :=
  have hnames : IrModule.names (L.functions.map g) = L.functions.names := by
    unfold IrModule.names
    rw [List.map_map]
    exact List.map_congr_left fun F _ => hname F
  { functions := L.functions.map g
    names_nodup := hnames ▸ L.names_nodup
    verified := fun _ hF' => by
      obtain ⟨F, hF, rfl⟩ := List.mem_map.mp hF'
      exact hv F hF
    plain := hnames ▸ L.plain
    has_config := hnames ▸ L.has_config
    has_addr := hnames ▸ L.has_addr
    has_size := hnames ▸ L.has_size }

theorem LinkedModule.find_config (L : LinkedModule) :
    L.functions.find mpuConfigName = some mpuConfigName := if_pos L.has_config

theorem LinkedModule.find_addr (L : LinkedModule) :
    L.functions.find readCallerAddrName = some readCallerAddrName := if_pos L.has_addr

theorem LinkedModule.find_size (L : LinkedModule) :
    L.functions.find readCallerSizeName = some readCallerSizeName := if_pos L.has_size

/-- The functions of `mpu_configure.c`; what they do is the subject of another module. -/
def mpuSources : IrModule :=
  [mpuConfigName, mpuZeroRegionName, readCallerAddrName, readCallerSizeName].map fun name =>
    { name := name, blocks := [{ label := 0, insts := [.other 33 [] none], term := .ret [] }] }

/-- A function of two blocks. -/
def sumFunction : Function where
  name := "Sum".toList
  blocks := [
    { label := 0, insts := [.other 13 [.reg 0, .const 1] (some 1)], term := .branch [] [1] },
    { label := 1, insts := [], term := .ret [.reg 1] }]

/-- The same in one block. -/
def leafFunction : Function where
  name := sumFunction.name
  blocks := [
    { label := 0, insts := [.other 13 [.reg 0, .const 1] (some 1)], term := .ret [.reg 1] }]

def mainFunction : Function where
  name := mainName
  blocks := [
    { label := 0, insts := [.call (some sumFunction.name) [.const 3] (some 0)], term := .ret [] }]

/-- A program of two functions. -/
def benchmarkModule : LinkedModule where
  functions := mainFunction :: sumFunction :: mpuSources

/-- The program with functions of one block only. -/
def leafModule : LinkedModule where
  functions := mainFunction :: leafFunction :: mpuSources

end MpuPasses
