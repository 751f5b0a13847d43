import MpuPasses.Access

/-!
# What an instrumented program may execute

`Regions` follows the contents of regions 1 and 2, this module the registers behind them: a step of an
instrumented program selects a region or configures region 1 or 2 (`Inv.touches`), so the MPU stays on,
the other regions stay as they are, and a bank of the two is as `MPU_Config` left it or as it was at
reset (`Wired`). With `Access` this says which addresses regions 1 and 2 admit (`code_isolated`). A call
of `MPU_Config` is one step: inside it the MPU is off until the bank is written.
-/

namespace MpuPasses

open Chars

/-! ## Steps and registers -/

/-- What a step does to the registers: nothing, select region 1, or configure region 1 or 2. -/
inductive Touches (s s' : State) : Prop
  | keep (device : s'.device = s.device) (configured : s'.configured = s.configured)
  | read (device : s'.device = s.device.writeRnr 1#32) (configured : s'.configured = s.configured)
  | config (a : Args) (num : a.num = 1#32 ∨ a.num = 2#32)
      (device : s'.device = mpuConfig a.start a.size a.num s.device)
      (configured : s'.configured = Function.update s.configured a.regionNum true)

section Touches

variable {L : LinkedModule} {stale : Stale} {T : LinkTable} {M : IrModule} {f : Frame}
  {fs : List Frame} {d : Device} {conf : BitVec 8 → Bool} {l : Label} {s s' : State}
  {rest : List Instr}

/-- The registers behind a call of `MPU_Config`. -/
theorem Step.device_of_mpuCall (h : Step M ⟨f :: fs, d, conf⟩ l s') {a z n : Val}
    (hrest : f.rest = mpuCall (some mpuConfigName) a z n :: rest) (args : Args)
    (ha : f.value a = args.start) (hz : f.value z = args.size) (hn : f.value n = args.num) :
    l = .tau ∧ s'.device = mpuConfig args.start args.size args.num d ∧
      s'.configured = Function.update conf args.regionNum true := by
  rcases h.of_call hrest with ⟨d', v, hcall, hl, rfl⟩ | ⟨_, _, _, hcallee, -⟩
  · have hargs : [a, z, n].map f.value = [args.start, args.size, args.num] := by
      rw [List.map_cons, List.map_cons, List.map_singleton, ha, hz, hn]
    rw [hargs] at hcall ⊢
    rw [registerCall_mpuConfig] at hcall
    cases hcall
    exact ⟨hl, rfl, rfl⟩
  · exact absurd List.mem_cons_self hcallee

theorem Touches.of_mpuCall (h : Step M ⟨f :: fs, d, conf⟩ l s') {a z n : Val}
    (hrest : f.rest = mpuCall (some mpuConfigName) a z n :: rest) (args : Args)
    (hnum : args.num = 1#32 ∨ args.num = 2#32) (ha : f.value a = args.start)
    (hz : f.value z = args.size) (hn : f.value n = args.num) : Touches ⟨f :: fs, d, conf⟩ s' :=
  let ⟨_, hdevice, hconf⟩ := h.device_of_mpuCall hrest args ha hz hn
  .config args hnum hdevice hconf

theorem Touches.of_configCall (h : Step M ⟨f :: fs, d, conf⟩ l s') {name : Str} {num : BitVec 32}
    (hrest : f.rest = T.configCall name num :: rest)
    (hlisted : name ∈ T.table.map LinkFunc.name) (hnum : num = 1#32 ∨ num = 2#32) :
    Touches ⟨f :: fs, d, conf⟩ s' := by
  have hlt : num < 8#32 := by
    rcases hnum with rfl | rfl
    · decide
    · decide
  exact .of_mpuCall h hrest (LinkTable.regionArgs hlisted num hlt) hnum rfl rfl rfl

theorem Touches.of_read (h : Step M ⟨f :: fs, d, conf⟩ l s') {name : Str} {n : ℕ}
    (hname : name = readCallerAddrName ∨ name = readCallerSizeName)
    (hrest : f.rest = .call (some name) [] (some n) :: rest) : Touches ⟨f :: fs, d, conf⟩ s' := by
  rcases h.of_call hrest with ⟨d', v, hcall, -, rfl⟩ | ⟨_, _, _, hcallee, -⟩
  · rcases hname with rfl | rfl
    · rw [List.map_nil, registerCall_readCallerAddr] at hcall
      cases hcall
      exact .read rfl rfl
    · rw [List.map_nil, registerCall_readCallerSize] at hcall
      cases hcall
      exact .read rfl rfl
  · rcases hname with rfl | rfl
    · exact absurd (by simp [registerNames]) hcallee
    · exact absurd (by simp [registerNames]) hcallee

/-- At the end of a block no register is touched. -/
theorem Touches.of_nil (h : Step M ⟨f :: fs, d, conf⟩ l s') (hrest : f.rest = []) :
    Touches ⟨f :: fs, d, conf⟩ s' := by
  rcases h.of_nil hrest with ⟨c, regs, -, -, -, rfl⟩ | ⟨g, gs, callee, args, res, v, -, -, -, -, rfl⟩
  · exact .keep rfl rfl
  · exact .keep rfl rfl

/-- A user function is none of `mpu_configure.c`. -/
theorem IsUser.notMem_registerNames {name : Str} (h : IsUser name) : name ∉ registerNames :=
  fun hmem => h.1 ((by decide : ∀ h ∈ registerNames, h ∈ insertSkips) name hmem)

/-- Behind the last instruction of a block stands the restoring call, with the values that were read, or
nothing. -/
theorem Touches.of_back (hU : UserProgram L stale T) {F : Function} {b : Block} {caller : Option Str}
    (runs : Runs L stale T F b f) (callers : Callers L stale T F fs caller)
    (saved : ∀ c ∈ caller, Saved T F f.regs c) (h : Step M ⟨f :: fs, d, conf⟩ l s')
    (hrest : f.rest = backCalls stale F b) : Touches ⟨f :: fs, d, conf⟩ s' := by
  unfold backCalls at hrest
  split_ifs at hrest with hback
  · have hmain : F.name ≠ mainName := fun hm => hback.1 (mem_connectSkips_iff.mpr (.inl hm))
    obtain ⟨c, rfl⟩ := callers.exists_caller hmain
    obtain ⟨hlisted, -⟩ := callers.listed rfl
    have hsaved := saved c rfl
    rw [hU.values F runs.mem runs.user hmain b runs.block_mem hback.2] at hrest
    exact .of_mpuCall h hrest (LinkTable.regionArgs hlisted 2#32 (by decide)) (.inr rfl)
      hsaved.addr hsaved.size rfl
  · exact .of_nil h hrest

/-- **Registers in a run.** -/
theorem Inv.touches (hU : UserProgram L stale T) (hinv : Inv L stale T s) (h : Step M s l s') :
    Touches s s' := by
  cases hinv with
  | @mk F b caller f fs d conf runs callers phase =>
    cases phase with
    | readAddr _ _ _ hrest => exact .of_read h (.inl rfl) hrest
    | readSize _ _ _ _ hrest => exact .of_read h (.inr rfl) hrest
    | own _ _ _ _ _ hrest => exact .of_configCall h hrest runs.listed (.inl rfl)
    | @home l' hl _ _ saved hrest =>
      cases l' with
      | nil =>
        exact .of_back hU runs callers saved h hrest
      | cons i l' =>
        have hi : i ∈ b.insts := hl List.mem_cons_self
        unfold remaining at hrest
        rw [List.flatMap_cons, List.append_assoc] at hrest
        cases i with
        | other opcode operands res =>
          obtain ⟨v, -, rfl⟩ := h.of_other hrest
          exact .keep rfl rfl
        | call callee args res =>
          cases callee with
          | none => exact absurd (hU.direct F runs.mem b runs.block_mem _ hi) id
          | some h' =>
            have hcallee := hU.callee F runs.mem runs.user b runs.block_mem _ hi h' rfl
            exact .of_configCall h hrest hcallee.listed (.inr rfl)
    | @before l' h' args res _ mem _ _ _ hrest =>
      have hcallee := hU.callee F runs.mem runs.user b runs.block_mem _ mem h' rfl
      rcases h.of_call hrest with ⟨d', v, hcall, -⟩ | ⟨H', b', regs, -, -, -, -, -, rfl⟩
      · rw [registerCall_eq_none hcallee.user.notMem_registerNames] at hcall
        cases hcall
      · exact .keep rfl rfl
    | restored _ _ _ _ hrest => exact .of_nil h hrest

/-- `main` begins with the configuration of its own region. -/
theorem Booted.entry (hU : UserProgram L stale T)
    (hM : runPasses stale T.table L.functions = some M) (hb : Booted T M s) : ∃ F b f,
      s.frames = [f] ∧ F.name = mainName ∧ Runs L stale T F b f ∧
        f.rest = T.configCall F.name 1#32 :: remaining stale T F b b.insts := by
  obtain ⟨F', hF', hname, b', regs, hb', hframes, -⟩ := hb
  obtain ⟨hmap, hlisted⟩ := runPasses_eq_some hU.direct hM
  rw [hmap] at hF'
  obtain ⟨F, hF, rfl⟩ := List.mem_map.mp hF'
  rw [Function.head?_mapBlocks] at hb'
  obtain ⟨b, hb, rfl⟩ := Option.map_eq_some_iff.mp hb'
  have hname : F.name = mainName := hname
  have hbmem : b ∈ F.blocks := List.mem_of_mem_head? hb
  have huser : IsUser F.name := by
    rw [hname]
    decide
  have hown : F.name ∈ T.table.map LinkFunc.name :=
    hlisted F hF huser.1 (List.ne_nil_of_mem hbmem)
  have hinsts := finalBlock_insts hU hF huser hown hbmem
  rw [if_neg fun h => h.1 hname, if_pos (Function.isFront_of_head? hb)] at hinsts
  exact ⟨F, b, _, hframes, hname, .entry hF huser hown hb regs, hinsts⟩

/-- The first call of `main` configures region 1. -/
theorem Booted.touches (hU : UserProgram L stale T)
    (hM : runPasses stale T.table L.functions = some M) (hb : Booted T M s) (h : Step M s l s') :
    l = .tau ∧ ∃ a : Args, a.num = 1#32 ∧ s'.device = mpuConfig a.start a.size a.num s.device ∧
      s'.configured = Function.update s.configured a.regionNum true := by
  obtain ⟨F, b, f, hframes, -, runs, hrest⟩ := hb.entry hU hM
  obtain ⟨frames, d, conf⟩ := s
  obtain rfl : frames = [f] := hframes
  obtain ⟨hl, hdevice, hconf⟩ :=
    h.device_of_mpuCall hrest (LinkTable.regionArgs runs.listed 1#32 (by decide)) rfl rfl rfl
  exact ⟨hl, _, rfl, hdevice, hconf⟩

end Touches

/-! ## The banks of regions 1 and 2 -/

/-- Banks 1 and 2 are as `MPU_Config` left them, or as at reset. -/
structure Wired (s : State) : Prop where
  set : ∀ r ∈ [1#8, 2#8], s.configured r = true →
    (s.device.bank r).rasr = configRasr (s.device.bank r).view.size
  reset : ∀ r ∈ [1#8, 2#8], s.configured r = false → (s.device.bank r).rasr = 0#32

theorem mpuConfig_bank_of_ne (a : Args) (d : Device) {r : BitVec 8} (hr : r ≠ a.regionNum) :
    (mpuConfig a.start a.size a.num d).bank r = d.bank r := by
  have hr : r ≠ a.num.setWidth 8 := hr
  simp [mpuConfig, writeRbar_of_aligned a.aligned, enable, disable, Device.writeShcsr,
    Device.writeCtrl, Device.writeRnr, Device.writeRasr, Device.setBank, Device.region, hr]

theorem Args.regionNum_mem {a : Args} (h : a.num = 1#32 ∨ a.num = 2#32) :
    a.regionNum ∈ [1#8, 2#8] := by
  unfold regionNum
  rcases h with h | h
  · rw [h]
    decide
  · rw [h]
    decide

theorem wired_reset (frames : List Frame) : Wired ⟨frames, resetDevice, fun _ => false⟩ := by
  constructor
  · intro r _ hset
    cases hset
  · intro r _ _
    rfl

/-- What a run leaves alone or keeps in order; `d₀` are the registers before it. -/
structure Kept (d₀ : Device) (s : State) : Prop where
  enabled : s.device.Enabled
  others : ∀ r ∉ [1#8, 2#8], s.device.bank r = d₀.bank r
  wired : Wired s

section Kept

variable {d₀ : Device} {s s' : State}

theorem Wired.config (h : Wired s) (a : Args)
    (hdevice : s'.device = mpuConfig a.start a.size a.num s.device)
    (hconf : s'.configured = Function.update s.configured a.regionNum true) : Wired s' := by
  have hbank : s'.device.bank a.regionNum = ⟨a.start, configRasr a.size⟩ := by
    rw [hdevice]
    exact (mpuConfig_bank a.aligned a.size a.num s.device).2
  have hne : ∀ r ≠ a.regionNum, s'.device.bank r = s.device.bank r ∧
      s'.configured r = s.configured r := by
    intro r hr
    rw [hdevice, hconf]
    exact ⟨mpuConfig_bank_of_ne a s.device hr, Function.update_of_ne hr _ _⟩
  constructor
  · intro r hr hset
    by_cases heq : r = a.regionNum
    · rw [heq, hbank]
      show configRasr a.size = configRasr (configRasr a.size >>> 1 &&& 0x1F#32)
      rw [configRasr_size a.size_lt]
    · rw [(hne r heq).1]
      exact h.set r hr ((hne r heq).2 ▸ hset)
  · intro r hr hreset
    by_cases heq : r = a.regionNum
    · rw [hconf, heq, Function.update_self] at hreset
      cases hreset
    · rw [(hne r heq).1]
      exact h.reset r hr ((hne r heq).2 ▸ hreset)

theorem Kept.config (hothers : ∀ r ∉ [1#8, 2#8], s.device.bank r = d₀.bank r) (hw : Wired s) (a : Args)
    (hnum : a.num = 1#32 ∨ a.num = 2#32)
    (hdevice : s'.device = mpuConfig a.start a.size a.num s.device)
    (hconf : s'.configured = Function.update s.configured a.regionNum true) : Kept d₀ s' := by
  refine ⟨?_, fun r hr => ?_, hw.config a hdevice hconf⟩
  · rw [hdevice]
    exact enabled_enable _
  · have hne : r ≠ a.regionNum := by
      rintro rfl
      exact hr (Args.regionNum_mem hnum)
    rw [hdevice, mpuConfig_bank_of_ne a s.device hne]
    exact hothers r hr

theorem Kept.of_bank (h : Kept d₀ s) (henabled : s'.device.Enabled)
    (hbank : s'.device.bank = s.device.bank) (hconf : s'.configured = s.configured) : Kept d₀ s' := by
  refine ⟨henabled, ?_, ?_, ?_⟩
  · rw [hbank]
    exact h.others
  · rw [hbank, hconf]
    exact h.wired.set
  · rw [hbank, hconf]
    exact h.wired.reset

/-- One step. -/
theorem Kept.step (h : Kept d₀ s) (ht : Touches s s') : Kept d₀ s' := by
  cases ht with
  | keep hdevice hconf =>
    refine h.of_bank ?_ ?_ hconf
    · rw [hdevice]
      exact h.enabled
    · rw [hdevice]
  | read hdevice hconf =>
    refine h.of_bank ?_ ?_ hconf
    · rw [hdevice]
      exact h.enabled
    · rw [hdevice]
      rfl
  | config a hnum hdevice hconf => exact .config h.others h.wired a hnum hdevice hconf

end Kept

/-! ## Runs -/

/-- What regions 1 and 2 admit while `f` is the innermost call; `d₀` are the registers at the start. -/
structure Isolated (T : LinkTable) (d₀ : Device) (f : Frame) (fs : List Frame) (s : State) : Prop where
  enabled : s.device.Enabled
  others : ∀ r ∉ [1#8, 2#8], s.device.bank r = d₀.bank r
  running : ∃ g ∈ T.out, g.name = f.func.name ∧
    ∀ a : BitVec 32, a.toNat ∈ g.region → ∃ r ∈ [1#8, 2#8], (s.device.bank r).Admits a
  near : ∀ r ∈ [1#8, 2#8], ∀ a, (s.device.bank r).Admits a →
    ∃ g ∈ T.out, Near f fs g.name ∧ a.toNat ∈ g.region
  apart : ∀ g ∈ T.out, ¬ Near f fs g.name → ∀ a : BitVec 32, a.toNat ∈ g.region →
    ∀ r ∈ [1#8, 2#8], ¬ (s.device.bank r).Admits a

section Run

variable {L : LinkedModule} {stale : Stale} {T : LinkTable} {M : IrModule} {s₀ s : State}

/-- The SIZE field of a laid out function is not that of a bank at reset. -/
theorem LinkTable.IsRegion.size_ne_zero {r : Region} {name : Str} (h : T.IsRegion r name) :
    r.size ≠ 0#32 := by
  obtain ⟨g, hg, -, -, hsize⟩ := h
  rw [T.table_eq] at hg
  obtain ⟨f, hf, rfl⟩ := List.mem_map.mp hg
  obtain ⟨k, h4, h30, -, hk⟩ := (T.laidOut hf).exists_toSize
  rw [hk, Option.some.injEq] at hsize
  rw [← hsize]
  intro hzero
  have hnat := congrArg BitVec.toNat hzero
  rw [BitVec.toNat_ofNat, BitVec.toNat_ofNat] at hnat
  omega

/-- A bank that describes a function was configured, and admits this function. -/
theorem Wired.exists_func (h : Wired s) (hT : T.Small) {r : BitVec 8} (hr : r ∈ [1#8, 2#8])
    {name : Str} (hregion : T.IsRegion (s.device.view r) name) :
    ∃ g ∈ T.out, g.name = name ∧ ∀ a, (s.device.bank r).Admits a ↔ a.toNat ∈ g.region := by
  apply LinkTable.admits_iff_mem_region hT hregion
  apply h.set r hr
  by_contra hconf
  have hreset := h.reset r hr (by simpa using hconf)
  apply hregion.size_ne_zero
  show (s.device.bank r).rasr >>> 1 &&& 0x1F#32 = 0#32
  rw [hreset]
  decide

theorem Wired.configured_of_admits (h : Wired s) {r : BitVec 8} (hr : r ∈ [1#8, 2#8]) {a : BitVec 32}
    (ha : (s.device.bank r).Admits a) : s.configured r = true := by
  by_contra hconf
  have henabled := ha.enabled
  rw [h.reset r hr (by simpa using hconf)] at henabled
  revert henabled
  decide

theorem LinkTable.disjoint_region (T : LinkTable) {f g : Func} (hf : f ∈ T.out) (hg : g ∈ T.out)
    (hne : f ≠ g) : Disjoint f.region g.region := by
  have hpair := pairwise_disjoint_assign codeStart (sortFuncs T.funcs)
  rw [← T.out_eq] at hpair
  have : Std.Symm fun f g : Func => Disjoint f.region g.region := ⟨fun _ _ h => h.symm⟩
  exact hpair.forall hf hg hne

/-- What the invariants of regions and registers give together. -/
theorem Inv.isolated (hU : UserProgram L stale T) (hT : T.Small) {d₀ : Device}
    (hinv : Inv L stale T s) (hkept : Kept d₀ s) :
    ∃ f fs, s.frames = f :: fs ∧ Isolated T d₀ f fs s := by
  cases hinv with
  | @mk F b caller f fs d conf runs callers phase =>
    have hnear : ∀ r ∈ [1#8, 2#8], ∀ a, (d.bank r).Admits a →
        ∃ g ∈ T.out, Near f fs g.name ∧ a.toNat ∈ g.region := by
      intro r hr a ha
      have hconf := hkept.wired.configured_of_admits hr ha
      obtain ⟨name, hregion, hname⟩ : ∃ name, T.IsRegion (d.view r) name ∧ Near f fs name := by
        rcases List.mem_cons.mp hr with rfl | hr
        · exact Phase.region1 hU runs callers phase
        · obtain rfl := List.mem_singleton.mp hr
          exact Phase.region2 hU runs callers phase hconf
      obtain ⟨g, hg, rfl, hiff⟩ := hkept.wired.exists_func hT hr hregion
      exact ⟨g, hg, hname, (hiff a).mp ha⟩
    refine ⟨f, fs, rfl, hkept.enabled, hkept.others, ?_, hnear, ?_⟩
    · rw [runs.func_name]
      obtain ⟨r, hr, hregion⟩ : ∃ r ∈ [1#8, 2#8], T.IsRegion (d.view r) F.name := by
        rcases phase.running runs.listed with h1 | h2
        · exact ⟨1#8, List.mem_cons_self, h1⟩
        · exact ⟨2#8, List.mem_cons_of_mem _ (List.mem_singleton_self _), h2⟩
      obtain ⟨g, hg, hname, hiff⟩ := hkept.wired.exists_func hT hr hregion
      exact ⟨g, hg, hname, fun a ha => ⟨r, hr, (hiff a).mpr ha⟩⟩
    · intro g hg hfar a ha r hr hadmits
      obtain ⟨g', hg', hname, ha'⟩ := hnear r hr a hadmits
      have hne : g ≠ g' := by
        rintro rfl
        exact hfar hname
      exact Set.disjoint_left.mp (T.disjoint_region hg hg' hne) ha ha'

/-- Both invariants hold from the first step on. -/
theorem inv_kept_of_reachable (hU : UserProgram L stale T)
    (hM : runPasses stale T.table L.functions = some M) (hb : Booted T M s₀) (hw : Wired s₀)
    (hs : Machine.Reachable (fun s => ∃ l, Step M s₀ l s) (Step M) s) :
    Inv L stale T s ∧ Kept s₀.device s := by
  obtain ⟨hmap, -⟩ := runPasses_eq_some hU.direct hM
  refine hs.invariant (fun s => Inv L stale T s ∧ Kept s₀.device s) ?_ ?_
  · rintro s ⟨l, hstep⟩
    obtain ⟨rfl, a, hnum, hdevice, hconf⟩ := hb.touches hU hM hstep
    exact ⟨Inv.start hU hM ⟨s₀, hb, hstep⟩,
      .config (fun _ _ => rfl) hw a (.inl hnum) hdevice hconf⟩
  · rintro s l s' ⟨hinv, hkept⟩ hstep
    refine ⟨?_, hkept.step (hinv.touches hU hstep)⟩
    cases hinv with
    | mk runs callers phase => exact (Inv.step hU hmap (.mk runs callers phase) hstep).1

/-- **Regions 1 and 2 isolate the running function.** Let an instrumented user program start with banks
1 and 2 as at reset or as `MPU_Config` left them, and no function have more than 16384 bytes. Whenever
the program has made a step, so between the calls of the MPU code, the MPU is on and the other regions
are as at the start; regions 1 and 2 admit every address of the running function, and no address but
those of the running function, its direct caller, and the function called next or last; so none of
another function. -/
theorem code_isolated (hU : UserProgram L stale T) (hT : T.Small)
    (hM : runPasses stale T.table L.functions = some M) (hb : Booted T M s₀) (hw : Wired s₀)
    (hs : Machine.Reachable (fun s => ∃ l, Step M s₀ l s) (Step M) s) :
    ∃ f fs, s.frames = f :: fs ∧ Isolated T s₀.device f fs s := by
  obtain ⟨hinv, hkept⟩ := inv_kept_of_reachable hU hM hb hw hs
  exact hinv.isolated hU hT hkept

/-- The benchmark after its first step. -/
theorem code_isolated_benchmark : ∃ s₀ s f fs, Booted benchmarkTable benchmarkFinal s₀ ∧
    Isolated benchmarkTable s₀.device f fs s := by
  have hmain : mainFunction ∈ benchmarkModule.functions := List.mem_cons_self
  have hinsts := finalBlock_insts userProgram_benchmark hmain (by decide) (by decide)
    (List.mem_singleton_self _)
  rw [if_neg (by decide), if_pos (by decide)] at hinsts
  have hsmall : benchmarkTable.Small := by
    unfold LinkTable.Small
    decide
  have hbooted : Booted benchmarkTable benchmarkFinal
      ⟨[Frame.enter _ _ fun _ => 0#32], resetDevice, fun _ => false⟩ :=
    ⟨_, List.mem_map_of_mem hmain, rfl, _, _, rfl, rfl, fun hset => by cases hset⟩
  obtain ⟨f, fs, -, hiso⟩ := code_isolated userProgram_benchmark hsmall runPasses_benchmark hbooted
    (wired_reset _) (.start ⟨.tau, .configCall hinsts⟩)
  exact ⟨_, _, f, fs, hbooted, hiso⟩

end Run

end MpuPasses
