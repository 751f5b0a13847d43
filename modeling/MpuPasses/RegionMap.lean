import MpuPasses.Mpu
import MpuPasses.Lib.Machine

/-!
# The register code refines a map of regions

What `mpu_configure.c` is for: a map from region numbers to a start and a size. `Device.view` reads
that map off the registers. `Args` are the arguments the instrumented code passes: a start on a 32
byte boundary, a size field below 32, a region number below 8.
-/

namespace MpuPasses

/-- A region as it was asked for: its start and its size field. -/
@[ext] structure Region where
  start : BitVec 32
  size : BitVec 32
  deriving DecidableEq, Repr

abbrev RegionMap := BitVec 8 → Region

/-- The region that a bank describes. -/
def Bank.view (b : Bank) : Region := ⟨b.rbar &&& addrMask, b.rasr >>> 1 &&& 0x1F#32⟩

/-- The regions that the registers describe. -/
def Device.view (d : Device) : RegionMap := fun r => (d.bank r).view

/-- The arguments of a configure call. -/
structure Args where
  start : BitVec 32
  size : BitVec 32
  num : BitVec 32
  aligned : start &&& 0x1F#32 = 0#32
  size_lt : size < 32#32
  num_lt : num < 8#32

namespace Args

/-- The region number that the call selects. -/
def regionNum (a : Args) : BitVec 8 := a.num.setWidth 8

/-- The region that the call asks for. -/
def toRegion (a : Args) : Region := ⟨a.start, a.size⟩

end Args

/-! ## Bit fields -/

/-- An aligned start keeps its value through the address mask. -/
theorem and_addrMask {s : BitVec 32} (h : s &&& 0x1F#32 = 0#32) : s &&& addrMask = s := by
  have hor : s &&& (addrMask ||| 0x1F#32) = s := by
    rw [show addrMask ||| 0x1F#32 = BitVec.allOnes 32 by decide, BitVec.and_allOnes]
  rw [BitVec.and_or_distrib_left, h, BitVec.or_zero] at hor
  exact hor

/-- An aligned start has a clear VALID bit. -/
theorem valid_of_aligned {s : BitVec 32} (h : s &&& 0x1F#32 = 0#32) : s.getLsbD 4 = false := by
  have h4 := congrArg (fun v : BitVec 32 => v.getLsbD 4) h
  simpa using h4

/-- An aligned base goes to the region that `RNR` selects. -/
theorem writeRbar_of_aligned {s : BitVec 32} (h : s &&& 0x1F#32 = 0#32) (d : Device) :
    d.writeRbar s = d.setBank { d.bank d.region with rbar := s } := by
  rw [Device.writeRbar, valid_of_aligned h, and_addrMask h]
  rfl

theorem addrMask_aligned (s : BitVec 32) : s &&& addrMask &&& 0x1F#32 = 0#32 := by
  rw [BitVec.and_assoc, show addrMask &&& 0x1F#32 = 0#32 by decide, BitVec.and_zero]

/-- A value below 32 is one of the values of a field of five bits. -/
theorem eq_ofNat_of_lt {z : BitVec 32} (h : z < 32#32) : ∃ k : Fin 32, z = BitVec.ofNat 32 k :=
  ⟨⟨z.toNat, by simpa [BitVec.lt_def] using h⟩, by simp⟩

theorem configRasr_size {z : BitVec 32} (h : z < 32#32) :
    configRasr z >>> 1 &&& 0x1F#32 = z := by
  obtain ⟨k, rfl⟩ := eq_ofNat_of_lt h
  revert k; decide

theorem zeroRegionRasr_size {z : BitVec 32} (h : z < 32#32) :
    zeroRegionRasr z >>> 1 &&& 0x1F#32 = z := by
  obtain ⟨k, rfl⟩ := eq_ofNat_of_lt h
  revert k; decide

/-! ## One call -/

/-- Writing an aligned base and attributes to region `num` between a disable and an enable. -/
theorem view_configure (d : Device) {s : BitVec 32} (attr num : BitVec 32)
    (hs : s &&& 0x1F#32 = 0#32) :
    (enable ((((disable d).writeRnr num).writeRbar s).writeRasr attr)).view =
      Function.update d.view (num.setWidth 8) ⟨s, attr >>> 1 &&& 0x1F#32⟩ := by
  funext r
  simp only [Device.view, enable, disable, Device.writeShcsr, Device.writeCtrl, Device.writeRnr,
    Device.writeRbar, Device.writeRasr, Device.setBank, Device.region, valid_of_aligned hs]
  by_cases hr : r = num.setWidth 8
  · subst hr
    simp [Bank.view, and_addrMask hs]
  · simp [hr, Device.view]

theorem shcsr_configure (d : Device) (num s attr : BitVec 32) :
    (enable ((((disable d).writeRnr num).writeRbar s).writeRasr attr)).shcsr =
      d.shcsr &&& ~~~(1#32 <<< 16) ||| 1#32 <<< 16 := by
  show (((disable d).writeRnr num).writeRbar s).shcsr ||| _ = _
  rw [Device.writeRbar_shcsr]
  rfl

theorem view_mpuConfig (d : Device) (a : Args) :
    (mpuConfig a.start a.size a.num d).view = Function.update d.view a.regionNum a.toRegion := by
  have h := view_configure d (configRasr a.size) a.num a.aligned
  rw [configRasr_size a.size_lt] at h
  exact h

theorem view_mpuZeroRegion (d : Device) (a : Args) :
    (mpuZeroRegion a.start a.size a.num d).view =
      Function.update d.view a.regionNum a.toRegion := by
  have h := view_configure d (zeroRegionRasr a.size) a.num (addrMask_aligned a.start)
  rw [zeroRegionRasr_size a.size_lt] at h
  exact h.trans (by rw [and_addrMask a.aligned]; rfl)

/-- `Read_Caller_addr` only selects region 1 and returns its start. -/
theorem readCallerAddr_eq (d : Device) : readCallerAddr d = (d.writeRnr 1#32, (d.view 1#8).start) := by
  have hmask : addrMask &&& 0xFFFFFFE0#32 = addrMask := by decide
  have hnum : 1#32 &&& 0xF#32 &&& 0xFFFFFFE0#32 = 0#32 := by decide
  simp only [readCallerAddr, Device.readRbar, Device.writeRnr, Device.region, Device.view,
    Bank.view, BitVec.and_or_distrib_right, hnum, BitVec.or_zero, BitVec.and_assoc, hmask]
  rfl

/-- `Read_Caller_size` only selects region 1 and returns its size field. -/
theorem readCallerSize_eq (d : Device) : readCallerSize d = (d.writeRnr 1#32, (d.view 1#8).size) := rfl

@[simp] theorem view_writeRnr (d : Device) (v : BitVec 32) : (d.writeRnr v).view = d.view := rfl

/-! ## Any sequence of calls -/

/-- A call of one of the four functions. -/
inductive Call
  | mpuConfig (a : Args)
  | mpuZeroRegion (a : Args)
  | readCallerAddr
  | readCallerSize

namespace Call

/-- The call on the registers. -/
def exec (d : Device) : Call → Device × Option (BitVec 32)
  | mpuConfig a => (MpuPasses.mpuConfig a.start a.size a.num d, none)
  | mpuZeroRegion a => (MpuPasses.mpuZeroRegion a.start a.size a.num d, none)
  | readCallerAddr => ((MpuPasses.readCallerAddr d).1, some (MpuPasses.readCallerAddr d).2)
  | readCallerSize => ((MpuPasses.readCallerSize d).1, some (MpuPasses.readCallerSize d).2)

/-- The arguments of a configure call. -/
def args? : Call → Option Args
  | mpuConfig a => some a
  | mpuZeroRegion a => some a
  | _ => none

/-- The call on the map: a configure call sets one entry, a read returns a part of entry 1. -/
def spec (m : RegionMap) : Call → RegionMap × Option (BitVec 32)
  | mpuConfig a => (Function.update m a.regionNum a.toRegion, none)
  | mpuZeroRegion a => (Function.update m a.regionNum a.toRegion, none)
  | readCallerAddr => (m, some (m 1#8).start)
  | readCallerSize => (m, some (m 1#8).size)

theorem spec_of_args (m : RegionMap) {c : Call} {a : Args} (h : c.args? = some a) :
    (spec m c).1 = Function.update m a.regionNum a.toRegion := by
  cases c <;> simp only [args?, Option.some.injEq, reduceCtorEq] at h <;> subst h <;> rfl

/-- One call refines its action on the map. -/
theorem exec_refines (d : Device) (c : Call) :
    (exec d c).1.view = (spec d.view c).1 ∧ (exec d c).2 = (spec d.view c).2 := by
  cases c with
  | mpuConfig a => exact ⟨view_mpuConfig d a, rfl⟩
  | mpuZeroRegion a => exact ⟨view_mpuZeroRegion d a, rfl⟩
  | readCallerAddr =>
    simp only [exec, spec, readCallerAddr_eq]
    exact ⟨rfl, trivial⟩
  | readCallerSize => exact ⟨rfl, rfl⟩

end Call

/-- Feed a sequence of calls to the registers. -/
def runCalls (d : Device) (cs : List Call) : Device × List (Option (BitVec 32)) :=
  Machine.run Call.exec d cs

/-- Feed a sequence of calls to the map. -/
def specCalls (m : RegionMap) (cs : List Call) : RegionMap × List (Option (BitVec 32)) :=
  Machine.run Call.spec m cs

/-- Any sequence of calls refines its action on the map, answer by answer. -/
theorem runCalls_refines (d : Device) (cs : List Call) :
    (runCalls d cs).1.view = (specCalls d.view cs).1 ∧
      (runCalls d cs).2 = (specCalls d.view cs).2 :=
  Machine.run_simulates (fun (d : Device) (m : RegionMap) => d.view = m)
    (fun d m c hm => by subst hm; exact Call.exec_refines d c) rfl cs

/-- The last configure call of region 1 in a sequence. -/
def lastRegion1 (cs : List Call) : Option Args :=
  ((cs.filterMap Call.args?).filter fun a => a.num = 1#32).getLast?

theorem lastRegion1_concat (cs : List Call) (c : Call) :
    lastRegion1 (cs ++ [c]) = (c.args?.filter fun a => a.num = 1#32).or (lastRegion1 cs) := by
  unfold lastRegion1
  rw [List.filterMap_append, List.filter_append, List.getLast?_append]
  cases hc : c.args? with
  | none => simp [hc]
  | some a => by_cases ha : a.num = 1#32 <;> simp [hc, ha, Option.filter]

theorem Args.regionNum_eq_one_iff (a : Args) : a.regionNum = 1#8 ↔ a.num = 1#32 := by
  obtain ⟨k, hk⟩ := eq_ofNat_of_lt (BitVec.lt_trans a.num_lt (by decide : 8#32 < 32#32))
  rw [Args.regionNum, hk]
  clear hk; revert k; decide

/-- Entry 1 of the map is what the last configure call of region 1 asked for. -/
theorem specCalls_region1 (m : RegionMap) (cs : List Call) :
    (specCalls m cs).1 1#8 = ((lastRegion1 cs).map Args.toRegion).getD (m 1#8) := by
  induction cs using List.reverseRecOn with
  | nil => rfl
  | append_singleton cs c ih =>
    rw [specCalls, Machine.run_concat, ← specCalls, lastRegion1_concat]
    cases hc : c.args? with
    | none =>
      rw [Option.filter_none, Option.none_or, ← ih]
      cases c <;> simp [Call.args?, Call.spec] at hc ⊢
    | some a =>
      rw [Call.spec_of_args _ hc]
      by_cases ha : a.num = 1#32
      · simp [Option.filter, ha, (Args.regionNum_eq_one_iff a).mpr ha]
      · have hne : 1#8 ≠ a.regionNum := fun h => ha ((Args.regionNum_eq_one_iff a).mp h.symm)
        simp [Option.filter, ha, hne, ih]

/-! ## Enable bit and `SHCSR` -/

/-- MPU on, memory faults on. -/
def Device.Enabled (d : Device) : Prop := d.ctrl.getLsbD 0 = true ∧ d.shcsr.getLsbD 16 = true

theorem enabled_enable (d : Device) : (enable d).Enabled := by
  constructor <;> simp [enable, Device.writeCtrl, Device.writeShcsr]

theorem Call.exec_enabled (d : Device) {c : Call} (h : c.args?.isSome) :
    (Call.exec d c).1.Enabled := by
  cases c with
  | mpuConfig a => exact enabled_enable _
  | mpuZeroRegion a => exact enabled_enable _
  | readCallerAddr => cases h
  | readCallerSize => cases h

theorem Call.exec_keeps_enabled (d : Device) (c : Call) (h : d.Enabled) :
    (Call.exec d c).1.Enabled := by
  cases c with
  | mpuConfig a => exact enabled_enable _
  | mpuZeroRegion a => exact enabled_enable _
  | readCallerAddr => exact h
  | readCallerSize => exact h

/-- A call changes no bit of `SHCSR` but bit 16. -/
theorem Call.exec_shcsr (d : Device) (c : Call) {i : ℕ} (hi : i ≠ 16) :
    (Call.exec d c).1.shcsr.getLsbD i = d.shcsr.getLsbD i := by
  have hbit : (d.shcsr &&& ~~~(1#32 <<< 16) ||| 1#32 <<< 16).getLsbD i = d.shcsr.getLsbD i := by
    rw [show 1#32 <<< 16 = BitVec.twoPow 32 16 by decide]
    simp only [BitVec.getLsbD_or, BitVec.getLsbD_and, BitVec.getLsbD_not, BitVec.getLsbD_twoPow,
      Ne.symm hi, decide_false, Bool.and_false, Bool.not_false, Bool.or_false, Bool.and_true]
    by_cases h : i < 32
    · simp [h]
    · simp [h, BitVec.getLsbD_of_ge _ _ (by omega : 32 ≤ i)]
  cases c with
  | mpuConfig a => exact (congrArg (·.getLsbD i) (shcsr_configure d _ _ _)).trans hbit
  | mpuZeroRegion a => exact (congrArg (·.getLsbD i) (shcsr_configure d _ _ _)).trans hbit
  | readCallerAddr => rfl
  | readCallerSize => rfl

/-- **The register code refines the map of regions.** After any sequence of calls the registers
describe the map that the calls describe and every answer is the map's. A configure call changes
exactly the entry of its own region number, a read returns what the last configure call of region 1
asked for, the MPU is on after every configure call, and of `SHCSR` only bit 16 ever changes. -/
theorem calls_refine_regionMap (d : Device) (cs : List Call) :
    (runCalls d cs).1.view = (specCalls d.view cs).1 ∧
    (runCalls d cs).2 = (specCalls d.view cs).2 ∧
    (∀ (c : Call) (a : Args), c.args? = some a → ∀ r, (c.exec (runCalls d cs).1).1.view r =
      if r = a.regionNum then ⟨a.start, a.size⟩ else (runCalls d cs).1.view r) ∧
    (∀ a : Args, lastRegion1 cs = some a → (readCallerAddr (runCalls d cs).1).2 = a.start ∧
      (readCallerSize (runCalls d cs).1).2 = a.size) ∧
    ((∃ c ∈ cs, c.args?.isSome) → (runCalls d cs).1.Enabled) ∧
    ∀ i ≠ 16, (runCalls d cs).1.shcsr.getLsbD i = d.shcsr.getLsbD i := by
  obtain ⟨hview, hans⟩ := runCalls_refines d cs
  refine ⟨hview, hans, fun c a hc r => ?_, fun a ha => ?_, fun h => ?_, fun i hi => ?_⟩
  · rw [(Call.exec_refines (runCalls d cs).1 c).1, Call.spec_of_args _ hc, Function.update_apply]
    rfl
  · have h1 : (runCalls d cs).1.view 1#8 = a.toRegion := by
      rw [hview, specCalls_region1, ha]; rfl
    rw [readCallerAddr_eq, readCallerSize_eq, h1]
    exact ⟨rfl, rfl⟩
  · exact Machine.run_established Device.Enabled (fun c => c.args?.isSome)
      (fun d c hc => Call.exec_enabled d hc) Call.exec_keeps_enabled d h
  · exact Machine.run_invariant (fun d' : Device => d'.shcsr.getLsbD i = d.shcsr.getLsbD i)
      (fun d' c h => (Call.exec_shcsr d' c hi).trans h) rfl cs

end MpuPasses
