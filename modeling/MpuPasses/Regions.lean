import MpuPasses.Execution
import MpuPasses.UserCode

/-!
# Regions 1 and 2 follow the calls

While a program runs, the caller's region is in region 1 when a callee starts, is read there before
the callee configures its own, and goes to region 2 before the callee returns. The caller rewrites
both around every call. `Phase` says for every place of the code what the two regions hold, `Callers`
what waits in the calls below; every step keeps both (`Inv.step`).
-/

namespace MpuPasses

open Chars

/-! ## The invariant -/

section Invariant

variable (L : LinkedModule) (stale : Stale) (T : LinkTable)

/-- A call that executes what the passes made of a block of `F`. -/
structure Runs (F : Function) (b : Block) (f : Frame) : Prop where
  func : f.func = F.mapBlocks (finalBlock L stale T F)
  block : f.block = finalBlock L stale T F b
  mem : F ∈ L.functions
  user : IsUser F.name
  listed : F.name ∈ T.table.map LinkFunc.name
  block_mem : b ∈ F.blocks
  reaches : F.Reaches b

/-- The values read at the start of `F` are the region of `c`. -/
structure Saved (F : Function) (regs : ℕ → BitVec 32) (c : Str) : Prop where
  addr : regs (insertedFunction F).freshReg = (T.region c).start
  size : regs ((insertedFunction F).freshReg + 1) = (T.region c).size

/-- The calls below a call of `F`, and the name of the direct caller. Each has the call just behind
it and the configuration of its own region next. The last one is of `main`. -/
inductive Callers : Function → List Frame → Option Str → Prop
  | main {F : Function} (h : F.name = mainName) : Callers F [] none
  | call {F G : Function} {b : Block} {g : Frame} {gs : List Frame} {outer : Option Str}
      {l : List Instr} {args : List Val} {res : Option ℕ} (not_main : F.name ≠ mainName)
      (runs : Runs L stale T G b g) (callers : Callers G gs outer)
      (mem : .call (some F.name) args res ∈ b.insts)
      (hdone : g.done.getLast? = some (.call (some F.name) args res)) (hl : l ⊆ b.insts)
      (hrest : g.rest = T.configCall G.name 1#32 :: remaining stale T G b l)
      (saved : ∀ c ∈ outer, Saved T G g.regs c) : Callers F (g :: gs) (some G.name)

/-- Where the innermost call is and what regions 1 and 2 hold there: reading the caller's region,
configuring the own one at the start or behind a call, between calls, before a call, and before a
return. -/
inductive Phase (F : Function) (b : Block) (caller : Option Str) (f : Frame) (m : RegionMap)
    (configured : Bool) : Prop
  | readAddr {c : Str} (hc : caller = some c) (h1 : m 1#8 = T.region c)
      (h2 : m 2#8 = T.region F.name)
      (hrest : f.rest = .call (some readCallerAddrName) [] (some (insertedFunction F).freshReg) ::
        .call (some readCallerSizeName) [] (some ((insertedFunction F).freshReg + 1)) ::
        T.configCall F.name 1#32 :: remaining stale T F b b.insts)
  | readSize {c : Str} (hc : caller = some c) (h1 : m 1#8 = T.region c)
      (h2 : m 2#8 = T.region F.name)
      (haddr : f.regs (insertedFunction F).freshReg = (T.region c).start)
      (hrest : f.rest =
        .call (some readCallerSizeName) [] (some ((insertedFunction F).freshReg + 1)) ::
        T.configCall F.name 1#32 :: remaining stale T F b b.insts)
  | own {l : List Instr} {name : Str} (hl : l ⊆ b.insts) (h1 : m 1#8 = T.region name)
      (hname : caller = some name ∨
        ∃ args res, .call (some name) args res ∈ b.insts ∧
          f.done.getLast? = some (.call (some name) args res))
      (h2 : m 2#8 = T.region F.name) (saved : ∀ c ∈ caller, Saved T F f.regs c)
      (hrest : f.rest = T.configCall F.name 1#32 :: remaining stale T F b l)
  | home {l : List Instr} (hl : l ⊆ b.insts) (h1 : m 1#8 = T.region F.name)
      (h2 : configured = true → T.IsRegion (m 2#8) F.name ∨ ∃ c ∈ caller, m 2#8 = T.region c)
      (saved : ∀ c ∈ caller, Saved T F f.regs c) (hrest : f.rest = remaining stale T F b l)
  | before {l : List Instr} {h : Str} {args : List Val} {res : Option ℕ} (hl : l ⊆ b.insts)
      (mem : .call (some h) args res ∈ b.insts) (h1 : m 1#8 = T.region F.name)
      (h2 : m 2#8 = T.region h) (saved : ∀ c ∈ caller, Saved T F f.regs c)
      (hrest : f.rest = .call (some h) args res :: T.configCall F.name 1#32 ::
        remaining stale T F b l)
  | restored {c : Str} (hc : caller = some c) (h1 : m 1#8 = T.region F.name)
      (h2 : m 2#8 = T.region c) (saved : ∀ c ∈ caller, Saved T F f.regs c) (hrest : f.rest = [])

/-- The invariant of a run. -/
inductive Inv : State → Prop
  | mk {F : Function} {b : Block} {caller : Option Str} {f : Frame} {fs : List Frame} {d : Device}
      {conf : BitVec 8 → Bool} (runs : Runs L stale T F b f) (callers : Callers L stale T F fs caller)
      (phase : Phase stale T F b caller f d.view (conf 2#8)) : Inv ⟨f :: fs, d, conf⟩

end Invariant

/-- What a step does that starts or ends a call: region 1 holds the caller and region 2 the callee
at the start, and region 2 the caller after the end. -/
def LabelRight (T : LinkTable) (f : Frame) (s' : State) : Label → Prop
  | .tau => True
  | .call h => T.IsRegion (s'.device.view 1#8) f.func.name ∧ T.IsRegion (s'.device.view 2#8) h
  | .ret _ => ∃ g gs, s'.frames = g :: gs ∧ T.IsRegion (s'.device.view 2#8) g.func.name

section Step

variable {L : LinkedModule} {stale : Stale} {T : LinkTable} {F : Function} {b : Block} {f : Frame}
  {fs : List Frame} {caller : Option Str}

theorem Runs.past (h : Runs L stale T F b f) (i : Instr) (rest : List Instr)
    (regs : ℕ → BitVec 32) : Runs L stale T F b (f.past i rest regs) :=
  ⟨h.func, h.block, h.mem, h.user, h.listed, h.block_mem, h.reaches⟩

theorem Runs.withRegs (h : Runs L stale T F b f) (regs : ℕ → BitVec 32) :
    Runs L stale T F b { f with regs := regs } :=
  ⟨h.func, h.block, h.mem, h.user, h.listed, h.block_mem, h.reaches⟩

/-- A call of a listed user function starts at the entry. -/
theorem Runs.entry (hF : F ∈ L.functions) (huser : IsUser F.name)
    (hlisted : F.name ∈ T.table.map LinkFunc.name) (hb : F.blocks.head? = some b)
    (regs : ℕ → BitVec 32) : Runs L stale T F b
      (Frame.enter (F.mapBlocks (finalBlock L stale T F)) (finalBlock L stale T F b) regs) :=
  ⟨rfl, rfl, hF, huser, hlisted, List.mem_of_mem_head? hb, Function.reaches_entry hb⟩

theorem Runs.func_name (h : Runs L stale T F b f) : f.func.name = F.name := by
  rw [h.func]
  rfl

theorem Saved.congr {regs regs' : ℕ → BitVec 32} {c : Str} (h : Saved T F regs c)
    (heq : ∀ n, (insertedFunction F).freshReg ≤ n → regs' n = regs n) : Saved T F regs' c :=
  ⟨(heq _ le_rfl).trans h.addr, (heq _ (Nat.le_succ _)).trans h.size⟩

/-- The instructions of the source leave the values read at the start alone. -/
theorem Runs.setResult_eq (h : Runs L stale T F b f) {i : Instr} (hi : i ∈ b.insts)
    {res : Option ℕ} (hres : ∀ n ∈ res, n ∈ i.regs) (v : Option (BitVec 32)) (n : ℕ)
    (hn : (insertedFunction F).freshReg ≤ n) : setResult res v f.regs n = f.regs n := by
  apply setResult_of_notMem
  intro hmem
  have hlt := lt_freshReg_insertedFunction h.block_mem (Block.mem_regs_of_inst hi (hres n hmem))
  omega

theorem Callers.ne_main {g : Frame} {gs : List Frame} (h : Callers L stale T F (g :: gs) caller) :
    F.name ≠ mainName := by
  cases h with
  | call not_main => exact not_main

/-- The direct caller is a listed function. -/
theorem Callers.listed (h : Callers L stale T F fs caller) {c : Str} (hc : caller = some c) :
    c ∈ T.table.map LinkFunc.name ∧ ∃ g gs, fs = g :: gs ∧ g.func.name = c := by
  cases h with
  | main => cases hc
  | call _ runs =>
    cases hc
    exact ⟨runs.listed, _, _, rfl, runs.func_name⟩

theorem Callers.exists_caller (h : Callers L stale T F fs caller) (hF : F.name ≠ mainName) :
    ∃ c, caller = some c := by
  cases h with
  | main hmain => exact absurd hmain hF
  | call => exact ⟨_, rfl⟩

variable {M : IrModule} {d : Device} {conf : BitVec 8 → Bool} {l : Label} {s' : State}

theorem Step.of_configCall (h : Step M ⟨f :: fs, d, conf⟩ l s') {name : Str} {num : BitVec 32}
    {rest : List Instr} (hrest : f.rest = T.configCall name num :: rest)
    (hlisted : name ∈ T.table.map LinkFunc.name) (hnum : num < 8#32) :
    ∃ d', d'.view = Function.update d.view (num.setWidth 8) (T.region name) ∧ l = .tau ∧
      s' = ⟨f.past (T.configCall name num) rest f.regs :: fs, d',
        Function.update conf (num.setWidth 8) true⟩ :=
  h.of_mpuCall hrest (LinkTable.regionArgs hlisted num hnum) rfl rfl rfl

/-- A branch goes to the start of a block that is not the entry. -/
theorem Runs.branch (h : Runs L stale T F b f) (hU : UserProgram L stale T) {c' : Block}
    {regs : ℕ → BitVec 32} (hedge : f.func.Edge f.block c')
    (hregs : ∀ n, (∀ p ∈ c'.phis, p.res ≠ n) → regs n = f.regs n) :
    ∃ c, Runs L stale T F c (Frame.enter f.func c' regs) ∧
      c'.insts = remaining stale T F c c.insts ∧
      ∀ n, (insertedFunction F).freshReg ≤ n → regs n = f.regs n := by
  rw [h.func, h.block] at hedge
  obtain ⟨c, hc, rfl⟩ := Function.edge_of_mapBlocks keepsShape_finalBlock hedge
  refine ⟨c, ⟨h.func, rfl, h.mem, h.user, h.listed, hc.1, h.reaches.edge hc⟩, ?_, ?_⟩
  · have hfront : ¬ F.IsFront c :=
      (L.verified F h.mem).entry_no_pred b h.block_mem c.label hc.2
    rw [finalBlock_insts hU h.mem h.user h.listed hc.1, if_neg fun hc => hfront hc.2,
      if_neg hfront]
    rfl
  · intro n hn
    apply hregs
    rintro p hp rfl
    have hphis : (finalBlock L stale T F c).phis = c.phis := by
      show (instrumentedBlock L stale F c).phis = c.phis
      unfold instrumentedBlock
      split_ifs <;> rfl
    rw [hphis] at hp
    have hlt := lt_freshReg_insertedFunction hc.1
      (Block.mem_regs_of_phi hp (n := p.res) List.mem_cons_self)
    omega

section Phases

variable (hU : UserProgram L stale T) (runs : Runs L stale T F b f)
  (callers : Callers L stale T F fs caller) (h : Step M ⟨f :: fs, d, conf⟩ l s')

include runs callers

include hU in
/-- A branch keeps regions and values. -/
theorem step_branch {c' : Block} {regs : ℕ → BitVec 32} (hedge : f.func.Edge f.block c')
    (hregs : ∀ n, (∀ p ∈ c'.phis, p.res ≠ n) → regs n = f.regs n)
    (h1 : d.view 1#8 = T.region F.name)
    (h2 : conf 2#8 = true → T.IsRegion (d.view 2#8) F.name ∨ ∃ c ∈ caller, d.view 2#8 = T.region c)
    (saved : ∀ c ∈ caller, Saved T F f.regs c) :
    Inv L stale T ⟨Frame.enter f.func c' regs :: fs, d, conf⟩ := by
  obtain ⟨c, hruns, hinsts, heq⟩ := runs.branch hU hedge hregs
  exact .mk hruns callers
    (.home (List.Subset.refl _) h1 h2 (fun c hc => (saved c hc).congr heq) hinsts)

include h

theorem step_readAddr {c : Str} (hc : caller = some c) (h1 : d.view 1#8 = T.region c)
    (h2 : d.view 2#8 = T.region F.name)
    (hrest : f.rest = .call (some readCallerAddrName) [] (some (insertedFunction F).freshReg) ::
      .call (some readCallerSizeName) [] (some ((insertedFunction F).freshReg + 1)) ::
      T.configCall F.name 1#32 :: remaining stale T F b b.insts) :
    Inv L stale T s' ∧ LabelRight T f s' l := by
  obtain ⟨d', hview, rfl, rfl⟩ := h.of_readAddr hrest
  refine ⟨.mk (runs.past _ _ _) callers (.readSize hc ?_ ?_ ?_ rfl), trivial⟩
  · rw [hview, h1]
  · rw [hview, h2]
  · rw [Frame.past_regs, setResult_some, h1]

theorem step_readSize {c : Str} (hc : caller = some c) (h1 : d.view 1#8 = T.region c)
    (h2 : d.view 2#8 = T.region F.name)
    (haddr : f.regs (insertedFunction F).freshReg = (T.region c).start)
    (hrest : f.rest =
      .call (some readCallerSizeName) [] (some ((insertedFunction F).freshReg + 1)) ::
      T.configCall F.name 1#32 :: remaining stale T F b b.insts) :
    Inv L stale T s' ∧ LabelRight T f s' l := by
  obtain ⟨d', hview, rfl, rfl⟩ := h.of_readSize hrest
  refine ⟨.mk (runs.past _ _ _) callers
    (.own (List.Subset.refl _) ?_ (.inl hc) ?_ ?_ rfl), trivial⟩
  · rw [hview, h1]
  · rw [hview, h2]
  · intro c' hc'
    cases hc.symm.trans hc'
    refine ⟨?_, ?_⟩
    · rw [Frame.past_regs, setResult_of_notMem (by simp), haddr]
    · rw [Frame.past_regs, setResult_some, h1]

/-- The own region is configured at the start and behind every call. -/
theorem step_own {l' : List Instr} (hl : l' ⊆ b.insts) (h2 : d.view 2#8 = T.region F.name)
    (saved : ∀ c ∈ caller, Saved T F f.regs c)
    (hrest : f.rest = T.configCall F.name 1#32 :: remaining stale T F b l') :
    Inv L stale T s' ∧ LabelRight T f s' l := by
  obtain ⟨d', hview, rfl, rfl⟩ := h.of_configCall hrest runs.listed (by decide)
  refine ⟨.mk (runs.past _ _ _) callers (.home hl ?_ (fun _ => .inl ?_) saved rfl), trivial⟩
  · rw [hview]
    exact Function.update_self ..
  · rw [hview, Function.update_of_ne (by decide), h2]
    exact LinkTable.isRegion_region runs.listed

/-- Behind the last instruction a block makes the restoring call, or control leaves it. -/
theorem step_end (hU : UserProgram L stale T) (h1 : d.view 1#8 = T.region F.name)
    (h2 : conf 2#8 = true → T.IsRegion (d.view 2#8) F.name ∨ ∃ c ∈ caller, d.view 2#8 = T.region c)
    (saved : ∀ c ∈ caller, Saved T F f.regs c) (hrest : f.rest = backCalls stale F b) :
    Inv L stale T s' ∧ LabelRight T f s' l := by
  by_cases hback : F.name ∉ connectSkips ∧ F.IsBack b
  · -- the restoring call, with the values that were read
    have hmain : F.name ≠ mainName := fun hm => hback.1 (mem_connectSkips_iff.mpr (.inl hm))
    obtain ⟨c, rfl⟩ := callers.exists_caller hmain
    obtain ⟨hlisted, -⟩ := callers.listed rfl
    have hsaved := saved c rfl
    unfold backCalls at hrest
    rw [if_pos hback, hU.values F runs.mem runs.user hmain b runs.block_mem hback.2] at hrest
    obtain ⟨d', hview, rfl, rfl⟩ := h.of_mpuCall hrest
      (LinkTable.regionArgs hlisted 2#32 (by decide)) hsaved.addr hsaved.size rfl
    have hview : d'.view = Function.update d.view 2#8 (T.region c) := hview
    refine ⟨.mk (runs.past _ _ _) callers (.restored rfl ?_ ?_ saved rfl), trivial⟩
    · rw [hview, Function.update_of_ne (by decide), h1]
    · rw [hview]
      exact Function.update_self ..
  · unfold backCalls at hrest
    rw [if_neg hback] at hrest
    rcases h.of_nil hrest with ⟨c, regs, hedge, hregs, rfl, rfl⟩ |
      ⟨g, gs, callee, args, res, v, rfl, hret, -⟩
    · exact ⟨step_branch hU runs callers hedge hregs h1 h2 saved, trivial⟩
    · -- what returns is the last block, which ends with the restoring call
      have hmain := callers.ne_main
      rw [runs.block, (keepsShape_finalBlock b).2] at hret
      have hisback :=
        hU.returns F runs.mem runs.user hmain b runs.block_mem runs.reaches hret
      exact absurd ⟨runs.user.notMem_connectSkips hmain, hisback⟩ hback

/-- Between two calls. -/
theorem step_home (hU : UserProgram L stale T) {l' : List Instr} (hl : l' ⊆ b.insts)
    (h1 : d.view 1#8 = T.region F.name)
    (h2 : conf 2#8 = true → T.IsRegion (d.view 2#8) F.name ∨ ∃ c ∈ caller, d.view 2#8 = T.region c)
    (saved : ∀ c ∈ caller, Saved T F f.regs c) (hrest : f.rest = remaining stale T F b l') :
    Inv L stale T s' ∧ LabelRight T f s' l := by
  cases l' with
  | nil =>
    exact step_end runs callers h hU h1 h2 saved hrest
  | cons i l' =>
    have hi : i ∈ b.insts := hl List.mem_cons_self
    have hl' : l' ⊆ b.insts := fun j hj => hl (List.mem_cons_of_mem i hj)
    unfold remaining at hrest
    rw [List.flatMap_cons, List.append_assoc] at hrest
    cases i with
    | other opcode operands res =>
      obtain ⟨v, rfl, rfl⟩ := h.of_other hrest
      refine ⟨.mk (runs.past _ _ _) callers (.home hl' h1 h2 (fun c hc => ?_) rfl), trivial⟩
      apply (saved c hc).congr
      apply runs.setResult_eq hi
      intro n hn
      exact List.mem_append_right _ (Option.mem_toList.mpr hn)
    | call callee args res =>
      cases callee with
      | none => exact absurd (hU.direct F runs.mem b runs.block_mem _ hi) id
      | some h' =>
        have hcallee := hU.callee F runs.mem runs.user b runs.block_mem _ hi h' rfl
        obtain ⟨d', hview, rfl, rfl⟩ := h.of_configCall hrest hcallee.listed (by decide)
        refine ⟨.mk (runs.past _ _ _) callers (.before hl' hi ?_ ?_ saved rfl), trivial⟩
        · rw [hview, Function.update_of_ne (by decide), h1]
        · rw [hview]
          exact Function.update_self ..

/-- A call starts with the caller's region in region 1 and its own in region 2. -/
theorem step_before (hU : UserProgram L stale T)
    (hM : M = L.functions.map fun F => F.mapBlocks (finalBlock L stale T F))
    {l' : List Instr} {h' : Str} {args : List Val} {res : Option ℕ} (hl : l' ⊆ b.insts)
    (mem : .call (some h') args res ∈ b.insts) (h1 : d.view 1#8 = T.region F.name)
    (h2 : d.view 2#8 = T.region h') (saved : ∀ c ∈ caller, Saved T F f.regs c)
    (hrest : f.rest = .call (some h') args res :: T.configCall F.name 1#32 ::
      remaining stale T F b l') :
    Inv L stale T s' ∧ LabelRight T f s' l := by
  have hcallee := hU.callee F runs.mem runs.user b runs.block_mem _ mem h' rfl
  rcases h.of_call hrest with ⟨d', v, hcall, -⟩ | ⟨H', b', regs, -, hH', rfl, hb', rfl, rfl⟩
  · have hnone : h' ∉ registerNames := fun hmem =>
      hcallee.user.1 ((by decide : ∀ h ∈ registerNames, h ∈ insertSkips) h' hmem)
    rw [registerCall_eq_none hnone] at hcall
    cases hcall
  · rw [hM] at hH'
    obtain ⟨H, hH, rfl⟩ := List.mem_map.mp hH'
    rw [Function.head?_mapBlocks] at hb'
    obtain ⟨b₀, hb₀, rfl⟩ := Option.map_eq_some_iff.mp hb'
    have hb₀mem : b₀ ∈ H.blocks := List.mem_of_mem_head? hb₀
    have hfront : H.IsFront b₀ := Function.isFront_of_head? hb₀
    refine ⟨.mk (.entry hH hcallee.user hcallee.listed hb₀ regs)
      (.call hcallee.not_main (runs.past _ _ _) callers mem List.getLast?_concat hl rfl saved)
      (.readAddr rfl h1 h2 ?_), ?_, ?_⟩
    · show (finalBlock L stale T H b₀).insts = _
      rw [finalBlock_insts hU hH hcallee.user hcallee.listed hb₀mem,
        if_pos ⟨hcallee.not_main, hfront⟩, if_pos hfront, readCalls_eq]
      rfl
    · rw [runs.func_name, h1]
      exact LinkTable.isRegion_region runs.listed
    · rw [h2]
      exact LinkTable.isRegion_region hcallee.listed

/-- A call ends with the caller's region in region 2. -/
theorem step_restored (hU : UserProgram L stale T) {c : Str} (hc : caller = some c)
    (h1 : d.view 1#8 = T.region F.name) (h2 : d.view 2#8 = T.region c)
    (saved : ∀ c ∈ caller, Saved T F f.regs c) (hrest : f.rest = []) :
    Inv L stale T s' ∧ LabelRight T f s' l := by
  rcases h.of_nil hrest with ⟨c', regs, hedge, hregs, rfl, rfl⟩ |
    ⟨g, gs, callee, args, res, v, rfl, -, hdone, rfl, rfl⟩
  · exact ⟨step_branch hU runs callers hedge hregs h1 (fun _ => .inr ⟨c, hc, h2⟩) saved, trivial⟩
  · cases callers with
    | call not_main runs' callers' mem hdone' hl' hrest' saved' =>
      cases hc
      cases hdone'.symm.trans hdone
      refine ⟨.mk (runs'.withRegs _) callers'
        (.own hl' h1 (.inr ⟨_, _, mem, hdone⟩) h2 (fun c hc => ?_) hrest'), _, _, rfl, ?_⟩
      · apply (saved' c hc).congr
        apply runs'.setResult_eq mem
        intro n hn
        exact List.mem_append_right _ (Option.mem_toList.mpr hn)
      · rw [h2]
        show T.IsRegion _ g.func.name
        rw [runs'.func_name]
        exact LinkTable.isRegion_region runs'.listed

end Phases

/-- **One step.** -/
theorem Inv.step (hU : UserProgram L stale T)
    (hM : M = L.functions.map fun F => F.mapBlocks (finalBlock L stale T F))
    (hinv : Inv L stale T ⟨f :: fs, d, conf⟩) (h : Step M ⟨f :: fs, d, conf⟩ l s') :
    Inv L stale T s' ∧ LabelRight T f s' l := by
  cases hinv with
  | mk runs callers phase =>
    cases phase with
    | readAddr hc h1 h2 hrest => exact step_readAddr runs callers h hc h1 h2 hrest
    | readSize hc h1 h2 haddr hrest => exact step_readSize runs callers h hc h1 h2 haddr hrest
    | own hl h1 hname h2 saved hrest => exact step_own runs callers h hl h2 saved hrest
    | home hl h1 h2 saved hrest => exact step_home runs callers h hU hl h1 h2 saved hrest
    | before hl mem h1 h2 saved hrest =>
      exact step_before runs callers h hU hM hl mem h1 h2 saved hrest
    | restored hc h1 h2 saved hrest => exact step_restored runs callers h hU hc h1 h2 saved hrest

end Step

end MpuPasses
