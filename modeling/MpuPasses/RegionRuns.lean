import MpuPasses.Regions

/-!
# Runs of a user program

From the first call of `main` on, region 1 or 2 is the running function's, and both only ever hold the
running function, its caller or its callee (`regions_follow_calls`).
-/

namespace MpuPasses

open Chars

/-- `Reset_Handler` has called `main`. Region 2 is not configured, unless `Reset_Handler` did it for
`main`. -/
def Booted (T : LinkTable) (M : IrModule) (s : State) : Prop :=
  ∃ F ∈ M, F.name = mainName ∧ ∃ b regs, F.blocks.head? = some b ∧
    s.frames = [Frame.enter F b regs] ∧
    (s.configured 2#8 = true → T.IsRegion (s.device.view 2#8) mainName)

/-- After the first call of `main`, which is of `MPU_Config`. -/
def Started (T : LinkTable) (M : IrModule) (s : State) : Prop :=
  ∃ s₀, Booted T M s₀ ∧ Step M s₀ .tau s

/-- The function of the innermost call, its direct caller, and the function that the innermost call
calls next or has called last. -/
def Near (f : Frame) (fs : List Frame) (name : Str) : Prop :=
  name = f.func.name ∨ (∃ g gs, fs = g :: gs ∧ name = g.func.name) ∨
    (∃ args res, f.rest.head? = some (.call (some name) args res)) ∨
    ∃ args res, f.done.getLast? = some (.call (some name) args res)

/-- What regions 1 and 2 hold while `f` is the innermost call, and after the next step. -/
structure RegionsFollow (T : LinkTable) (M : IrModule) (f : Frame) (fs : List Frame) (s : State) :
    Prop where
  running : T.IsRegion (s.device.view 1#8) f.func.name ∨ T.IsRegion (s.device.view 2#8) f.func.name
  configured : ∀ r ∈ [1#8, 2#8], s.configured r = true →
    ∃ name, T.IsRegion (s.device.view r) name ∧ Near f fs name
  step : ∀ l s', Step M s l s' → LabelRight T f s' l

section Run

variable {L : LinkedModule} {stale : Stale} {T : LinkTable} {M : IrModule}

theorem Inv.start (hU : UserProgram L stale T)
    (hM : runPasses stale T.table L.functions = some M) {s : State} (hs : Started T M s) :
    Inv L stale T s := by
  obtain ⟨⟨frames, d, conf⟩, ⟨F', hF', hname, b', regs, hb', rfl, hconf⟩, hstep⟩ := hs
  obtain ⟨hM, hlisted⟩ := runPasses_eq_some hU.direct hM
  rw [hM] at hF'
  obtain ⟨F, hF, rfl⟩ := List.mem_map.mp hF'
  rw [Function.head?_mapBlocks] at hb'
  obtain ⟨b, hb, rfl⟩ := Option.map_eq_some_iff.mp hb'
  have hname : F.name = mainName := hname
  have hbmem : b ∈ F.blocks := List.mem_of_mem_head? hb
  have huser : IsUser F.name := by
    rw [hname]
    decide
  have hown : F.name ∈ T.table.map LinkFunc.name :=
    hlisted F hF huser.1 (List.ne_nil_of_mem hbmem)
  have hinsts := finalBlock_insts hU hF huser hown hbmem
  rw [if_neg fun h => h.1 hname, if_pos (Function.isFront_of_head? hb)] at hinsts
  obtain ⟨d', hview, -, rfl⟩ := hstep.of_configCall (T := T) hinsts hown (by decide)
  refine .mk ((Runs.entry hF huser hown hb regs).past _ _ _) (.main hname)
    (.home (List.Subset.refl _) ?_ (fun h => .inl ?_) (by simp) rfl)
  · rw [hview]
    exact Function.update_self ..
  · rw [hview, Function.update_of_ne (by decide), hname]
    rw [Function.update_of_ne (by decide)] at h
    exact hconf h

theorem Phase.running {F : Function} {b : Block} {f : Frame} {caller : Option Str} {m : RegionMap}
    {configured : Bool} (hlisted : F.name ∈ T.table.map LinkFunc.name)
    (h : Phase stale T F b caller f m configured) :
    T.IsRegion (m 1#8) F.name ∨ T.IsRegion (m 2#8) F.name := by
  have hregion := LinkTable.isRegion_region hlisted
  cases h with
  | readAddr _ _ h2 => exact .inr (h2 ▸ hregion)
  | readSize _ _ h2 => exact .inr (h2 ▸ hregion)
  | own _ _ _ h2 => exact .inr (h2 ▸ hregion)
  | home _ h1 => exact .inl (h1 ▸ hregion)
  | before _ _ h1 => exact .inl (h1 ▸ hregion)
  | restored _ h1 => exact .inl (h1 ▸ hregion)

section Near

variable {F : Function} {b : Block} {f : Frame} {fs : List Frame} {caller : Option Str}

theorem Runs.near (runs : Runs L stale T F b f) (fs : List Frame) :
    T.IsRegion (T.region F.name) F.name ∧ Near f fs F.name :=
  ⟨LinkTable.isRegion_region runs.listed, .inl runs.func_name.symm⟩

theorem Callers.near (callers : Callers L stale T F fs caller) (f : Frame) {c : Str}
    (hc : caller = some c) : T.IsRegion (T.region c) c ∧ Near f fs c := by
  obtain ⟨hlisted, g, gs, hfs, hg⟩ := callers.listed hc
  exact ⟨LinkTable.isRegion_region hlisted, .inr (.inl ⟨g, gs, hfs, hg.symm⟩)⟩

variable {m : RegionMap} {configured : Bool} (hU : UserProgram L stale T)
  (runs : Runs L stale T F b f) (callers : Callers L stale T F fs caller)
  (h : Phase stale T F b caller f m configured)

include hU runs callers h

theorem Phase.region1 : ∃ name, T.IsRegion (m 1#8) name ∧ Near f fs name := by
  cases h with
  | readAddr hc h1 => exact ⟨_, h1 ▸ callers.near f hc⟩
  | readSize hc h1 => exact ⟨_, h1 ▸ callers.near f hc⟩
  | own _ h1 hname =>
    rcases hname with hc | ⟨args, res, mem, hdone⟩
    · exact ⟨_, h1 ▸ callers.near f hc⟩
    · have hcallee := hU.callee F runs.mem runs.user b runs.block_mem _ mem _ rfl
      exact ⟨_, h1 ▸ LinkTable.isRegion_region hcallee.listed, .inr (.inr (.inr ⟨_, _, hdone⟩))⟩
  | home _ h1 => exact ⟨_, h1 ▸ runs.near fs⟩
  | before _ _ h1 => exact ⟨_, h1 ▸ runs.near fs⟩
  | restored _ h1 => exact ⟨_, h1 ▸ runs.near fs⟩

theorem Phase.region2 (hconf : configured = true) :
    ∃ name, T.IsRegion (m 2#8) name ∧ Near f fs name := by
  cases h with
  | readAddr _ _ h2 => exact ⟨_, h2 ▸ runs.near fs⟩
  | readSize _ _ h2 => exact ⟨_, h2 ▸ runs.near fs⟩
  | own _ _ _ h2 => exact ⟨_, h2 ▸ runs.near fs⟩
  | home _ _ h2 =>
    rcases h2 hconf with h2 | ⟨c, hc, h2⟩
    · exact ⟨_, h2, (runs.near fs).2⟩
    · exact ⟨_, h2 ▸ callers.near f hc⟩
  | @before _ h' args res _ mem _ h2 _ hrest =>
    have hcallee := hU.callee F runs.mem runs.user b runs.block_mem _ mem _ rfl
    refine ⟨_, h2 ▸ LinkTable.isRegion_region hcallee.listed, .inr (.inr (.inl ⟨args, res, ?_⟩))⟩
    rw [hrest]
    rfl
  | restored hc _ h2 => exact ⟨_, h2 ▸ callers.near f hc⟩

end Near

end Run

/-! ## The benchmark -/

/-- The variables of `Connect_Function` keep what the first block set. -/
def keptVals : Stale := fun _ _ => callerVals (insertedFunction sumFunction)

theorem userProgram_benchmark : UserProgram benchmarkModule keptVals benchmarkTable where
  direct := by decide
  callee := by
    have hcall : ∀ F ∈ benchmarkModule.functions, IsUser F.name → ∀ b ∈ F.blocks, ∀ i ∈ b.insts,
        ∀ h ∈ i.callee?, IsUser h ∧ h ≠ mainName ∧ h ∈ benchmarkTable.table.map LinkFunc.name := by
      decide
    intro F hF huser b hb i hi h hh
    obtain ⟨hu, hne, hlisted⟩ := hcall F hF huser b hb i hi h hh
    exact ⟨hu, hne, hlisted⟩
  returns := by
    have hback : ∀ F ∈ benchmarkModule.functions, IsUser F.name → F.name ≠ mainName →
        ∀ b ∈ F.blocks, b.term.IsRet → F.IsBack b := by decide
    intro F hF huser hne b hb _
    exact hback F hF huser hne b hb
  values := by decide

/-- The benchmark after its passes. -/
def benchmarkFinal : IrModule :=
  benchmarkModule.functions.map fun F => F.mapBlocks (finalBlock benchmarkModule keptVals benchmarkTable F)

theorem runPasses_benchmark :
    runPasses keptVals benchmarkTable.table benchmarkModule.functions = some benchmarkFinal :=
  runPasses_eq (by decide) (by decide) entries_benchmark

/-- The registers after a reset. -/
def resetDevice : Device := ⟨0#32, 0#32, 0#32, fun _ => ⟨0#32, 0#32⟩⟩

theorem Step.configCall {T : LinkTable} {M : IrModule} {f : Frame} {fs : List Frame} {d : Device}
    {conf : BitVec 8 → Bool} {name : Str} {num : BitVec 32} {rest : List Instr}
    (hrest : f.rest = T.configCall name num :: rest) : Step M ⟨f :: fs, d, conf⟩ .tau
      ⟨f.past (T.configCall name num) rest f.regs :: fs,
        mpuConfig (T.region name).start (T.region name).size num d,
        Function.update conf (num.setWidth 8) true⟩ :=
  .register hrest (registerCall_mpuConfig _ _ _ _)

/-- `main` configures its region and that of `Sum`, then calls it. -/
theorem reachable_benchmark : ∃ s, Machine.Reachable (Started benchmarkTable benchmarkFinal)
    (Step benchmarkFinal) s ∧ s.frames.map (fun f => f.func.name) = [sumFunction.name, mainName] := by
  have hmain : mainFunction ∈ benchmarkModule.functions := List.mem_cons_self
  have hsum : sumFunction ∈ benchmarkModule.functions := List.mem_cons_of_mem _ List.mem_cons_self
  have hinsts := finalBlock_insts userProgram_benchmark hmain (by decide) (by decide)
    (List.mem_singleton_self _)
  rw [if_neg (by decide), if_pos (by decide)] at hinsts
  refine ⟨_, .step (.step (.start ⟨⟨[Frame.enter _ _ fun _ => 0#32], resetDevice, fun _ => false⟩,
    ⟨_, List.mem_map_of_mem hmain, rfl, _, _, rfl, rfl, nofun⟩, .configCall hinsts⟩)
    (.configCall rfl))
    (.call rfl (by decide) (List.mem_map_of_mem hsum) rfl rfl fun _ => 0#32), rfl⟩

/-- **Regions 1 and 2 follow the calls.** In every state that a program gets to after the first call
of `main`, region 1 or 2 holds the running function, and each of them that was configured holds the
running function, its direct caller, or the function called next or last. When a call starts, region
1 holds the caller and region 2 the callee; when it ends, region 2 holds the caller. -/
theorem regions_follow_calls {L : LinkedModule} {stale : Stale} {T : LinkTable} {M : IrModule}
    (hU : UserProgram L stale T)
    (hM : runPasses stale T.table L.functions = some M) {s : State}
    (hs : Machine.Reachable (Started T M) (Step M) s) :
    ∃ f fs, s.frames = f :: fs ∧ RegionsFollow T M f fs s := by
  obtain ⟨hmap, -⟩ := runPasses_eq_some hU.direct hM
  have hinv : Inv L stale T s := by
    refine hs.invariant (Inv L stale T) (fun s hs => Inv.start hU hM hs) ?_
    intro s l s' hinv hstep
    cases hinv with
    | mk runs callers phase => exact (Inv.step hU hmap (.mk runs callers phase) hstep).1
  cases hinv with
  | @mk F b caller f fs d conf runs callers phase =>
    refine ⟨f, fs, rfl, ?_, ?_, ?_⟩
    · rw [runs.func_name]
      exact phase.running runs.listed
    · intro r hr hconf
      simp only [List.mem_cons, List.not_mem_nil, or_false] at hr
      rcases hr with rfl | rfl
      · exact Phase.region1 hU runs callers phase
      · exact Phase.region2 hU runs callers phase hconf
    · intro l s' hstep
      exact (Inv.step hU hmap (.mk runs callers phase) hstep).2

/-- The first function that `main` calls. -/
theorem regions_follow_calls_benchmark : ∃ s f fs,
    Machine.Reachable (Started benchmarkTable benchmarkFinal) (Step benchmarkFinal) s ∧
    s.frames = f :: fs ∧ f.func.name = sumFunction.name ∧
    RegionsFollow benchmarkTable benchmarkFinal f fs s := by
  obtain ⟨s, hs, hnames⟩ := reachable_benchmark
  obtain ⟨f, fs, hframes, hfollow⟩ :=
    regions_follow_calls userProgram_benchmark runPasses_benchmark hs
  rw [hframes] at hnames
  exact ⟨s, f, fs, hs, hframes, (List.cons.inj hnames).1, hfollow⟩

end MpuPasses
