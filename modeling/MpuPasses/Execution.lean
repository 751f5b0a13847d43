import MpuPasses.Ir
import MpuPasses.Lib.Machine
import MpuPasses.RegionMap

/-!
# Running a module

A program at work is a stack of calls and the registers of the MPU. Only the functions of
`mpu_configure.c` touch the registers, each in one step. What other instructions compute is of no
concern, so a step assigns any value to their results, takes any branch of a terminator and starts a
call with any arguments.
-/

namespace MpuPasses

open Chars

/-! ## States -/

/-- A call of a function: the instructions of the current block that are done and those that are
not, and the values so far. -/
structure Frame where
  func : Function
  block : Block
  done : List Instr
  rest : List Instr
  regs : ℕ → BitVec 32

namespace Frame

/-- At the start of a block. -/
def enter (F : Function) (b : Block) (regs : ℕ → BitVec 32) : Frame := ⟨F, b, [], b.insts, regs⟩

/-- Behind an instruction. -/
def past (f : Frame) (i : Instr) (rest : List Instr) (regs : ℕ → BitVec 32) : Frame :=
  { f with done := f.done ++ [i], rest := rest, regs := regs }

@[simp] theorem past_regs (f : Frame) (i : Instr) (rest : List Instr) (regs : ℕ → BitVec 32) :
    (f.past i rest regs).regs = regs := rfl

def value (f : Frame) : Val → BitVec 32
  | .const c => c
  | .reg n => f.regs n

end Frame

/-- The values after a result, if there is one, has its number. -/
def setResult (res : Option ℕ) (v : Option (BitVec 32)) (regs : ℕ → BitVec 32) : ℕ → BitVec 32 :=
  match res, v with
  | some n, some v => Function.update regs n v
  | _, _ => regs

theorem setResult_of_notMem {res : Option ℕ} {n : ℕ} (h : n ∉ res) (v : Option (BitVec 32))
    (regs : ℕ → BitVec 32) : setResult res v regs n = regs n := by
  unfold setResult
  split
  · apply Function.update_of_ne
    rintro rfl
    exact h rfl
  · rfl

theorem setResult_some (n : ℕ) (v : BitVec 32) (regs : ℕ → BitVec 32) :
    setResult (some n) (some v) regs n = v := Function.update_self ..

/-- The stack, innermost call first, the registers, and which regions were configured so far. -/
structure State where
  frames : List Frame
  device : Device
  configured : BitVec 8 → Bool

/-! ## Steps -/

/-- The functions of `mpu_configure.c`. -/
def registerNames : List Str :=
  [mpuConfigName, mpuZeroRegionName, readCallerAddrName, readCallerSizeName]

/-- A call of one of them. -/
def registerCall (callee : Str) (args : List (BitVec 32)) (d : Device) :
    Option (Device × Option (BitVec 32)) :=
  match args with
  | [startAddress, size, num] =>
    if callee = mpuConfigName then some (mpuConfig startAddress size num d, none)
    else if callee = mpuZeroRegionName then some (mpuZeroRegion startAddress size num d, none)
    else none
  | [] =>
    if callee = readCallerAddrName then some ((readCallerAddr d).1, some (readCallerAddr d).2)
    else if callee = readCallerSizeName then some ((readCallerSize d).1, some (readCallerSize d).2)
    else none
  | _ => none

theorem registerCall_mpuConfig (a z n : BitVec 32) (d : Device) :
    registerCall mpuConfigName [a, z, n] d = some (mpuConfig a z n d, none) := by
  unfold registerCall
  exact if_pos rfl

theorem registerCall_readCallerAddr (d : Device) :
    registerCall readCallerAddrName [] d = some ((readCallerAddr d).1, some (readCallerAddr d).2) := by
  unfold registerCall
  exact if_pos rfl

theorem registerCall_readCallerSize (d : Device) :
    registerCall readCallerSizeName [] d = some ((readCallerSize d).1, some (readCallerSize d).2) := by
  unfold registerCall
  exact (if_neg (by decide)).trans (if_pos rfl)

/-- Other functions are called like any function. -/
theorem registerCall_eq_none {callee : Str} (h : callee ∉ registerNames) (args : List (BitVec 32))
    (d : Device) : registerCall callee args d = none := by
  have hne : ∀ name ∈ registerNames, callee ≠ name := fun name hname heq => h (heq ▸ hname)
  have hconfig := hne mpuConfigName (by simp [registerNames])
  have hzero := hne mpuZeroRegionName (by simp [registerNames])
  have haddr := hne readCallerAddrName (by simp [registerNames])
  have hsize := hne readCallerSizeName (by simp [registerNames])
  clear hne h
  unfold registerCall
  rcases args with _ | ⟨a, _ | ⟨z, _ | ⟨n, _ | _⟩⟩⟩
  · exact (if_neg haddr).trans (if_neg hsize)
  · rfl
  · rfl
  · exact (if_neg hconfig).trans (if_neg hzero)
  · rfl

/-- The regions configured after such a call. -/
def mark (args : List (BitVec 32)) (configured : BitVec 8 → Bool) : BitVec 8 → Bool :=
  match args with
  | [_, _, num] => Function.update configured (num.setWidth 8) true
  | _ => configured

inductive Label
  | tau
  | call (callee : Str)
  | ret (callee : Str)

/-- One step of a program. -/
inductive Step (M : IrModule) : State → Label → State → Prop
  | register {f : Frame} {fs : List Frame} {d d' : Device} {conf : BitVec 8 → Bool} {callee : Str}
      {args : List Val} {res : Option ℕ} {rest : List Instr} {v : Option (BitVec 32)}
      (hrest : f.rest = .call (some callee) args res :: rest)
      (hcall : registerCall callee (args.map f.value) d = some (d', v)) :
      Step M ⟨f :: fs, d, conf⟩ .tau
        ⟨f.past (.call (some callee) args res) rest (setResult res v f.regs) :: fs, d',
          mark (args.map f.value) conf⟩
  | other {f : Frame} {fs : List Frame} {d : Device} {conf : BitVec 8 → Bool} {opcode : ℕ}
      {operands : List Val} {res : Option ℕ} {rest : List Instr}
      (hrest : f.rest = .other opcode operands res :: rest) (v : BitVec 32) :
      Step M ⟨f :: fs, d, conf⟩ .tau
        ⟨f.past (.other opcode operands res) rest (setResult res (some v) f.regs) :: fs, d, conf⟩
  | call {f : Frame} {fs : List Frame} {d : Device} {conf : BitVec 8 → Bool} {callee : Str}
      {args : List Val} {res : Option ℕ} {rest : List Instr} {H : Function} {b : Block}
      (hrest : f.rest = .call (some callee) args res :: rest) (hcallee : callee ∉ registerNames)
      (hH : H ∈ M) (hname : H.name = callee) (hb : H.blocks.head? = some b)
      (regs : ℕ → BitVec 32) :
      Step M ⟨f :: fs, d, conf⟩ (.call callee)
        ⟨Frame.enter H b regs :: f.past (.call (some callee) args res) rest f.regs :: fs, d, conf⟩
  | branch {f : Frame} {fs : List Frame} {d : Device} {conf : BitVec 8 → Bool} {c : Block}
      {regs : ℕ → BitVec 32} (hrest : f.rest = []) (hedge : f.func.Edge f.block c)
      (hregs : ∀ n, (∀ p ∈ c.phis, p.res ≠ n) → regs n = f.regs n) :
      Step M ⟨f :: fs, d, conf⟩ .tau ⟨Frame.enter f.func c regs :: fs, d, conf⟩
  | ret {f g : Frame} {fs : List Frame} {d : Device} {conf : BitVec 8 → Bool} {callee : Option Str}
      {args : List Val} {res : Option ℕ} (hrest : f.rest = []) (hret : f.block.term.IsRet)
      (hdone : g.done.getLast? = some (.call callee args res)) (v : Option (BitVec 32)) :
      Step M ⟨f :: g :: fs, d, conf⟩ (.ret f.func.name)
        ⟨{ g with regs := setResult res v g.regs } :: fs, d, conf⟩

section Inversion

variable {M : IrModule} {f : Frame} {fs : List Frame} {d : Device} {conf : BitVec 8 → Bool}
  {l : Label} {s' : State} {rest : List Instr}

/-- What a step at a call does. -/
theorem Step.of_call (h : Step M ⟨f :: fs, d, conf⟩ l s') {callee : Str} {args : List Val}
    {res : Option ℕ} (hrest : f.rest = .call (some callee) args res :: rest) :
    (∃ d' v, registerCall callee (args.map f.value) d = some (d', v) ∧ l = .tau ∧
      s' = ⟨f.past (.call (some callee) args res) rest (setResult res v f.regs) :: fs, d',
        mark (args.map f.value) conf⟩) ∨
    (∃ H b regs, callee ∉ registerNames ∧ H ∈ M ∧ H.name = callee ∧ H.blocks.head? = some b ∧
      l = .call callee ∧
      s' = ⟨Frame.enter H b regs :: f.past (.call (some callee) args res) rest f.regs :: fs, d,
        conf⟩) := by
  cases h with
  | register hrest' hcall =>
    cases hrest'.symm.trans hrest
    exact .inl ⟨_, _, hcall, rfl, rfl⟩
  | other hrest' v => cases hrest'.symm.trans hrest
  | call hrest' hcallee hH hname hb regs =>
    cases hrest'.symm.trans hrest
    exact .inr ⟨_, _, regs, hcallee, hH, hname, hb, rfl, rfl⟩
  | branch hrest' => cases hrest'.symm.trans hrest
  | ret hrest' => cases hrest'.symm.trans hrest

/-- What a step at another instruction does. -/
theorem Step.of_other (h : Step M ⟨f :: fs, d, conf⟩ l s') {opcode : ℕ} {operands : List Val}
    {res : Option ℕ} (hrest : f.rest = .other opcode operands res :: rest) :
    ∃ v : BitVec 32, l = .tau ∧ s' = ⟨f.past (.other opcode operands res) rest
      (setResult res (some v) f.regs) :: fs, d, conf⟩ := by
  cases h with
  | register hrest' hcall => cases hrest'.symm.trans hrest
  | other hrest' v =>
    cases hrest'.symm.trans hrest
    exact ⟨v, rfl, rfl⟩
  | call hrest' => cases hrest'.symm.trans hrest
  | branch hrest' => cases hrest'.symm.trans hrest
  | ret hrest' => cases hrest'.symm.trans hrest

/-- What a step at the end of a block does. -/
theorem Step.of_nil (h : Step M ⟨f :: fs, d, conf⟩ l s') (hrest : f.rest = []) :
    (∃ c regs, f.func.Edge f.block c ∧ (∀ n, (∀ p ∈ c.phis, p.res ≠ n) → regs n = f.regs n) ∧
      l = .tau ∧ s' = ⟨Frame.enter f.func c regs :: fs, d, conf⟩) ∨
    (∃ g gs callee args res v, fs = g :: gs ∧ f.block.term.IsRet ∧
      g.done.getLast? = some (.call callee args res) ∧ l = .ret f.func.name ∧
      s' = ⟨{ g with regs := setResult res v g.regs } :: gs, d, conf⟩) := by
  cases h with
  | register hrest' hcall => cases hrest'.symm.trans hrest
  | other hrest' v => cases hrest'.symm.trans hrest
  | call hrest' => cases hrest'.symm.trans hrest
  | branch _ hedge hregs => exact .inl ⟨_, _, hedge, hregs, rfl, rfl⟩
  | ret _ hret hdone v => exact .inr ⟨_, _, _, _, _, v, rfl, hret, hdone, rfl, rfl⟩

/-- A step at a call of `MPU_Config` sets one region. -/
theorem Step.of_mpuCall (h : Step M ⟨f :: fs, d, conf⟩ l s') {a z n : Val}
    (hrest : f.rest = mpuCall (some mpuConfigName) a z n :: rest) (args : Args)
    (ha : f.value a = args.start) (hz : f.value z = args.size) (hn : f.value n = args.num) :
    ∃ d', d'.view = Function.update d.view args.regionNum args.toRegion ∧ l = .tau ∧
      s' = ⟨f.past (mpuCall (some mpuConfigName) a z n) rest f.regs :: fs, d',
        Function.update conf args.regionNum true⟩ := by
  obtain ⟨d', v, hcall, hl, hs⟩ | ⟨_, _, _, hcallee, -⟩ := h.of_call hrest
  · have hargs : [a, z, n].map f.value = [args.start, args.size, args.num] := by
      rw [List.map_cons, List.map_cons, List.map_singleton, ha, hz, hn]
    rw [hargs] at hcall hs
    rw [registerCall_mpuConfig] at hcall
    cases hcall
    exact ⟨_, view_mpuConfig d args, hl, hs⟩
  · exact absurd List.mem_cons_self hcallee

/-- A step at a call of `Read_Caller_addr` reads the start of region 1. -/
theorem Step.of_readAddr (h : Step M ⟨f :: fs, d, conf⟩ l s') {n : ℕ}
    (hrest : f.rest = .call (some readCallerAddrName) [] (some n) :: rest) :
    ∃ d', d'.view = d.view ∧ l = .tau ∧
      s' = ⟨f.past (.call (some readCallerAddrName) [] (some n)) rest
        (setResult (some n) (some (d.view 1#8).start) f.regs) :: fs, d', conf⟩ := by
  obtain ⟨d', v, hcall, hl, hs⟩ | ⟨_, _, _, hcallee, -⟩ := h.of_call hrest
  · rw [List.map_nil, registerCall_readCallerAddr, readCallerAddr_eq] at hcall
    cases hcall
    exact ⟨_, view_writeRnr d _, hl, hs⟩
  · exact absurd (by decide) hcallee

/-- A step at a call of `Read_Caller_size` reads the size of region 1. -/
theorem Step.of_readSize (h : Step M ⟨f :: fs, d, conf⟩ l s') {n : ℕ}
    (hrest : f.rest = .call (some readCallerSizeName) [] (some n) :: rest) :
    ∃ d', d'.view = d.view ∧ l = .tau ∧
      s' = ⟨f.past (.call (some readCallerSizeName) [] (some n)) rest
        (setResult (some n) (some (d.view 1#8).size) f.regs) :: fs, d', conf⟩ := by
  obtain ⟨d', v, hcall, hl, hs⟩ | ⟨_, _, _, hcallee, -⟩ := h.of_call hrest
  · rw [List.map_nil, registerCall_readCallerSize, readCallerSize_eq] at hcall
    cases hcall
    exact ⟨_, view_writeRnr d _, hl, hs⟩
  · exact absurd (by decide) hcallee

end Inversion

end MpuPasses
