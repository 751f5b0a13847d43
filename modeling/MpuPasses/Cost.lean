import MpuPasses.Isolation

/-!
# What the instrumentation costs

The passes bracket calls, so a run pays for them: `MPU_Config` once before a call, once at its start,
once before its return and once behind it, and the two reading calls at its start. Between these places
a run has paid ahead or is behind; `run_cost` says by how much, and what is paid when `main` is done.
These are the numbers that the counters of `Executed_BB` count.
-/

namespace MpuPasses

open Chars

/-! ## What is counted -/

/-- The function that the next instruction calls. -/
def State.callee? (s : State) : Option Str :=
  (s.frames.head?.bind fun f => f.rest.head?).bind Instr.callee?

/-- Behind the restoring call of a connected function. -/
def Frame.AtBack (f : Frame) : Prop :=
  f.rest = [] ∧ f.func.name ∉ connectSkips ∧ f.func.IsBack f.block

instance : DecidablePred Frame.AtBack := fun f => by unfold Frame.AtBack; infer_instance

def Label.isTau : Label → Bool
  | tau => true
  | call _ => false
  | ret _ => false

def Label.isCall : Label → Bool
  | tau => false
  | call _ => true
  | ret _ => false

def Label.isRet : Label → Bool
  | tau => false
  | call _ => false
  | ret _ => true

def isConfig (s : State) (_ : Label) : Bool := decide (s.callee? = some mpuConfigName)

def isRead (s : State) (_ : Label) : Bool :=
  decide (s.callee? = some readCallerAddrName ∨ s.callee? = some readCallerSizeName)

/-- A branch out of a last block, which has restored the caller's region in vain. -/
def isLap (s : State) (l : Label) : Bool :=
  s.frames.head?.any (fun f => decide f.AtBack) && l.isTau

/-- Executions of `MPU_Config`. -/
def configs (tr : List (State × Label)) : ℕ := Machine.count isConfig tr

/-- Executions of `Read_Caller_addr` and `Read_Caller_size`. -/
def reads (tr : List (State × Label)) : ℕ := Machine.count isRead tr

def calls (tr : List (State × Label)) : ℕ := Machine.count (fun _ l => l.isCall) tr

def returns (tr : List (State × Label)) : ℕ := Machine.count (fun _ l => l.isRet) tr

def laps (tr : List (State × Label)) : ℕ := Machine.count isLap tr

/-! ## What is paid ahead -/

/-- Calls of `MPU_Config` that are made before their time: 1 in front of a call and behind the
restoring call, -1 where the own region is not configured yet. -/
def Frame.ahead (f : Frame) : ℤ :=
  match f.rest with
  | [] => if f.AtBack then 1 else 0
  | .call (some h) args _ :: _ =>
    if h = mpuConfigName then if args[2]? = some (.const 1) then -1 else 0
    else if h = readCallerAddrName ∨ h = readCallerSizeName then -1
    else 1
  | _ => 0

/-- Reading calls that are still to be made. -/
def Frame.unread (f : Frame) : ℤ :=
  match f.rest with
  | .call (some h) _ _ :: _ =>
    if h = readCallerAddrName then 2 else if h = readCallerSizeName then 1 else 0
  | _ => 0

def State.ahead (s : State) : ℤ := (s.frames.head?.map Frame.ahead).getD 0

def State.unread (s : State) : ℤ := (s.frames.head?.map Frame.unread).getD 0

/-- What a call has paid ahead, and what it has to read. -/
def Frame.Owes (f : Frame) (ahead unread : ℤ) : Prop := f.ahead = ahead ∧ f.unread = unread

section Frames

variable {f : Frame} {rest : List Instr}

theorem Frame.owes_of_nil (hrest : f.rest = []) : f.Owes (if f.AtBack then 1 else 0) 0 := by
  unfold Frame.Owes Frame.ahead Frame.unread
  rw [hrest]
  exact ⟨rfl, rfl⟩

theorem Frame.owes_of_other {opcode : ℕ} {operands : List Val} {res : Option ℕ}
    (hrest : f.rest = .other opcode operands res :: rest) : f.Owes 0 0 := by
  unfold Frame.Owes Frame.ahead Frame.unread
  rw [hrest]
  exact ⟨rfl, rfl⟩

theorem Frame.owes_of_mpuCall {a z n : Val}
    (hrest : f.rest = mpuCall (some mpuConfigName) a z n :: rest) :
    f.Owes (if n = .const 1 then -1 else 0) 0 := by
  unfold Frame.Owes Frame.ahead Frame.unread
  rw [hrest]
  constructor
  · simp [mpuCall]
  · exact (if_neg (by decide)).trans (if_neg (by decide))

theorem Frame.owes_of_readAddr {args : List Val} {res : Option ℕ}
    (hrest : f.rest = .call (some readCallerAddrName) args res :: rest) : f.Owes (-1) 2 := by
  unfold Frame.Owes Frame.ahead Frame.unread
  rw [hrest]
  exact ⟨(if_neg (by decide)).trans (if_pos (.inl rfl)), if_pos rfl⟩

theorem Frame.owes_of_readSize {args : List Val} {res : Option ℕ}
    (hrest : f.rest = .call (some readCallerSizeName) args res :: rest) : f.Owes (-1) 1 := by
  unfold Frame.Owes Frame.ahead Frame.unread
  rw [hrest]
  exact ⟨(if_neg (by decide)).trans (if_pos (.inr rfl)), (if_neg (by decide)).trans (if_pos rfl)⟩

theorem Frame.owes_of_user {h : Str} {args : List Val} {res : Option ℕ}
    (hrest : f.rest = .call (some h) args res :: rest) (hh : h ∉ registerNames) : f.Owes 1 0 := by
  unfold registerNames at hh
  simp only [List.mem_cons, List.not_mem_nil, or_false, not_or] at hh
  obtain ⟨hconfig, -, haddr, hsize⟩ := hh
  unfold Frame.Owes Frame.ahead Frame.unread
  rw [hrest]
  exact ⟨(if_neg hconfig).trans (if_neg (not_or.mpr ⟨haddr, hsize⟩)),
    (if_neg haddr).trans (if_neg hsize)⟩

end Frames

/-! ## Steps -/

/-- What a step pays is what it has been behind or is ahead afterwards, and what a call or a return
costs. -/
structure Paid (s : State) (l : Label) (s' : State) : Prop where
  configs : s'.ahead + 2 * (l.isCall.toNat + l.isRet.toNat) + (isLap s l).toNat =
    s.ahead + (isConfig s l).toNat
  reads : s'.unread + (isRead s l).toNat = s.unread + 2 * l.isCall.toNat
  depth : s'.frames.length + l.isRet.toNat = s.frames.length + l.isCall.toNat

section Steps

variable {f f' : Frame} {fs : List Frame} {d d' : Device} {conf conf' : BitVec 8 → Bool}
  {rest : List Instr} {i : Instr} {a a' u u' : ℤ}

theorem State.callee?_of_cons (hrest : f.rest = i :: rest) :
    (⟨f :: fs, d, conf⟩ : State).callee? = i.callee? := by
  unfold State.callee?
  simp only [List.head?_cons, Option.bind_some, hrest]

theorem State.callee?_of_nil (hrest : f.rest = []) : (⟨f :: fs, d, conf⟩ : State).callee? = none := by
  unfold State.callee?
  simp only [List.head?_cons, Option.bind_some, hrest, List.head?_nil, Option.bind_none]

theorem isLap_of_cons (hrest : f.rest = i :: rest) (l : Label) :
    isLap ⟨f :: fs, d, conf⟩ l = false := by
  have hnot : ¬ f.AtBack := by
    rintro ⟨hnil, -⟩
    rw [hnil] at hrest
    cases hrest
  unfold isLap
  simp only [List.head?_cons, Option.any_some, decide_eq_false hnot, Bool.false_and]

/-- A silent step at an instruction. -/
theorem Paid.of_cons (hrest : f.rest = i :: rest) (hf : f.Owes a u) (hf' : f'.Owes a' u')
    (hconfig : a' = a + (decide (i.callee? = some mpuConfigName)).toNat)
    (hread : u' + (decide (i.callee? = some readCallerAddrName ∨
      i.callee? = some readCallerSizeName)).toNat = u) :
    Paid ⟨f :: fs, d, conf⟩ .tau ⟨f' :: fs, d', conf'⟩ := by
  have hcallee : (⟨f :: fs, d, conf⟩ : State).callee? = i.callee? := State.callee?_of_cons hrest
  obtain ⟨rfl, rfl⟩ := hf
  obtain ⟨rfl, rfl⟩ := hf'
  refine ⟨?_, ?_, rfl⟩
  · rw [isLap_of_cons hrest]
    unfold isConfig
    rw [hcallee]
    show f'.ahead + 2 * (0 + 0) + 0 = f.ahead + _
    rw [← hconfig]
    ring
  · unfold isRead
    rw [hcallee]
    show f'.unread + _ = f.unread + 2 * 0
    rw [hread]
    ring

/-- A silent step at a call of a function of `mpu_configure.c`. -/
theorem Step.of_register {M : IrModule} {l : Label} {s' : State} (h : Step M ⟨f :: fs, d, conf⟩ l s')
    {name : Str} {args : List Val} {res : Option ℕ}
    (hrest : f.rest = .call (some name) args res :: rest) (hname : name ∈ registerNames) :
    ∃ d' conf' regs, l = .tau ∧
      s' = ⟨f.past (.call (some name) args res) rest regs :: fs, d', conf'⟩ := by
  rcases h.of_call hrest with ⟨d', v, -, hl, hs⟩ | ⟨_, _, _, hcallee, -⟩
  · exact ⟨d', _, _, hl, hs⟩
  · exact absurd hname hcallee

/-- A branch. -/
theorem Paid.of_branch (hrest : f.rest = []) (hf' : f'.Owes 0 0) :
    Paid ⟨f :: fs, d, conf⟩ .tau ⟨f' :: fs, d', conf'⟩ := by
  have hcallee : (⟨f :: fs, d, conf⟩ : State).callee? = none := State.callee?_of_nil hrest
  obtain ⟨hahead, hunread⟩ := Frame.owes_of_nil hrest
  obtain ⟨hahead', hunread'⟩ := hf'
  refine ⟨?_, ?_, rfl⟩
  · unfold isConfig isLap
    rw [hcallee]
    show f'.ahead + 2 * (0 + 0) + ((decide f.AtBack && true).toNat : ℤ) = f.ahead + 0
    rw [hahead, hahead', Bool.and_true]
    split_ifs with hback
    · rw [decide_eq_true hback]
      rfl
    · rw [decide_eq_false hback]
      rfl
  · unfold isRead
    rw [hcallee]
    show f'.unread + 0 = f.unread + 2 * 0
    rw [hunread, hunread']
    rfl

/-- The start of a call. -/
theorem Paid.of_call {h : Str} {args : List Val} {res : Option ℕ} {g : Frame}
    (hrest : f.rest = .call (some h) args res :: rest) (hh : h ∉ registerNames)
    (hf' : f'.Owes (-1) 2) : Paid ⟨f :: fs, d, conf⟩ (.call h) ⟨f' :: g :: fs, d', conf'⟩ := by
  have hcallee : (⟨f :: fs, d, conf⟩ : State).callee? = some h := State.callee?_of_cons hrest
  obtain ⟨hahead, hunread⟩ := Frame.owes_of_user hrest hh
  obtain ⟨hahead', hunread'⟩ := hf'
  have hne : ∀ name ∈ registerNames, some h ≠ some name := fun name hname heq =>
    hh (Option.some.inj heq ▸ hname)
  refine ⟨?_, ?_, rfl⟩
  · rw [isLap_of_cons hrest]
    unfold isConfig
    rw [hcallee, decide_eq_false (hne mpuConfigName (by decide))]
    show f'.ahead + 2 * (1 + 0) + 0 = f.ahead + 0
    rw [hahead, hahead']
    rfl
  · unfold isRead
    rw [hcallee, decide_eq_false (not_or.mpr ⟨hne readCallerAddrName (by decide),
      hne readCallerSizeName (by decide)⟩)]
    show f'.unread + 0 = f.unread + 2 * 1
    rw [hunread, hunread']
    rfl

/-- The end of a call. -/
theorem Paid.of_ret {g : Frame} {name : Str} (hback : f.AtBack) (hf' : f'.Owes (-1) 0) :
    Paid ⟨f :: g :: fs, d, conf⟩ (.ret name) ⟨f' :: fs, d', conf'⟩ := by
  have hcallee : (⟨f :: g :: fs, d, conf⟩ : State).callee? = none := State.callee?_of_nil hback.1
  obtain ⟨hahead, hunread⟩ := Frame.owes_of_nil hback.1
  rw [if_pos hback] at hahead
  obtain ⟨hahead', hunread'⟩ := hf'
  refine ⟨?_, ?_, rfl⟩
  · unfold isConfig isLap
    rw [hcallee]
    show f'.ahead + 2 * (0 + 1) + ((decide f.AtBack && false).toNat : ℤ) = f.ahead + 0
    rw [hahead, hahead', Bool.and_false]
    rfl
  · unfold isRead
    rw [hcallee]
    show f'.unread + 0 = f.unread + 2 * 0
    rw [hunread, hunread']
    rfl

end Steps

section Phases

variable {L : LinkedModule} {stale : Stale} {T : LinkTable} {M : IrModule} {F : Function} {b : Block}
  {f : Frame} {fs : List Frame} {caller : Option Str} {d : Device} {conf : BitVec 8 → Bool}
  {l : Label} {s s' : State}

theorem Runs.atBack_iff (runs : Runs L stale T F b f) (hrest : f.rest = []) :
    f.AtBack ↔ F.name ∉ connectSkips ∧ F.IsBack b := by
  unfold Frame.AtBack
  rw [runs.func_name, runs.func, runs.block, Function.isBack_mapBlocks keepsShape_finalBlock b,
    and_iff_right hrest]

theorem Runs.owes_back (runs : Runs L stale T F b f) (hback : F.name ∉ connectSkips ∧ F.IsBack b)
    (hrest : f.rest = []) : f.Owes 1 0 := by
  have howes := Frame.owes_of_nil hrest
  rwa [if_pos ((runs.atBack_iff hrest).mpr hback)] at howes

/-- Between two calls all is paid. -/
theorem Runs.owes_remaining (runs : Runs L stale T F b f) (hU : UserProgram L stale T)
    {l' : List Instr} (hl : l' ⊆ b.insts) (hrest : f.rest = remaining stale T F b l') :
    f.Owes 0 0 := by
  cases l' with
  | nil =>
    unfold remaining backCalls at hrest
    rw [List.flatMap_nil, List.nil_append] at hrest
    split_ifs at hrest with hback
    · exact Frame.owes_of_mpuCall hrest
    · have howes := Frame.owes_of_nil hrest
      rwa [if_neg (mt (runs.atBack_iff hrest).mp hback)] at howes
  | cons i l' =>
    have hi : i ∈ b.insts := hl List.mem_cons_self
    cases i with
    | other opcode operands res => exact Frame.owes_of_other hrest
    | call callee args res =>
      cases callee with
      | none => exact absurd (hU.direct F runs.mem b runs.block_mem _ hi) id
      | some h' => exact Frame.owes_of_mpuCall hrest

variable (hU : UserProgram L stale T) (runs : Runs L stale T F b f)
  (callers : Callers L stale T F fs caller) (h : Step M ⟨f :: fs, d, conf⟩ l s')

include hU runs callers h

/-- At the end of a block. -/
theorem paid_end (hrest : f.rest = []) : Paid ⟨f :: fs, d, conf⟩ l s' := by
  rcases h.of_nil hrest with ⟨c', regs, hedge, hregs, rfl, rfl⟩ |
    ⟨g, gs, callee, args, res, v, rfl, hret, -, rfl, rfl⟩
  · obtain ⟨c, hruns, hinsts, -⟩ := runs.branch hU hedge hregs
    exact .of_branch hrest (hruns.owes_remaining hU (List.Subset.refl _) hinsts)
  · have hmain := callers.ne_main
    rw [runs.block, (keepsShape_finalBlock b).2] at hret
    have hisback := hU.returns F runs.mem runs.user hmain b runs.block_mem runs.reaches hret
    have hback := (runs.atBack_iff hrest).mpr ⟨runs.user.notMem_connectSkips hmain, hisback⟩
    cases callers with
    | call _ _ _ _ _ _ hrest' => exact .of_ret hback (Frame.owes_of_mpuCall hrest')

/-- Between two calls. -/
theorem paid_home {l' : List Instr} (hl : l' ⊆ b.insts) (hrest : f.rest = remaining stale T F b l') :
    Paid ⟨f :: fs, d, conf⟩ l s' := by
  have howes := runs.owes_remaining hU hl hrest
  cases l' with
  | nil =>
    unfold remaining backCalls at hrest
    rw [List.flatMap_nil, List.nil_append] at hrest
    split_ifs at hrest with hback
    · obtain ⟨d', conf', regs, rfl, rfl⟩ := h.of_register hrest (by decide)
      exact .of_cons hrest howes ((runs.past _ _ _).owes_back hback rfl) rfl rfl
    · exact paid_end hU runs callers h hrest
  | cons i l' =>
    have hi : i ∈ b.insts := hl List.mem_cons_self
    have hl' : l' ⊆ b.insts := fun j hj => hl (List.mem_cons_of_mem i hj)
    unfold remaining at hrest
    rw [List.flatMap_cons, List.append_assoc] at hrest
    cases i with
    | other opcode operands res =>
      obtain ⟨v, rfl, rfl⟩ := h.of_other hrest
      exact .of_cons hrest howes ((runs.past _ _ _).owes_remaining hU hl' rfl) rfl rfl
    | call callee args res =>
      cases callee with
      | none => exact absurd (hU.direct F runs.mem b runs.block_mem _ hi) id
      | some h' =>
        have hcallee := hU.callee F runs.mem runs.user b runs.block_mem _ hi h' rfl
        obtain ⟨d', conf', regs, rfl, rfl⟩ := h.of_register hrest (by decide)
        exact .of_cons hrest howes (Frame.owes_of_user rfl hcallee.user.notMem_registerNames) rfl rfl

omit callers in
/-- A call. -/
theorem paid_before (hM : M = L.functions.map fun F => F.mapBlocks (finalBlock L stale T F))
    {l' : List Instr} {h' : Str} {args : List Val} {res : Option ℕ}
    (mem : .call (some h') args res ∈ b.insts)
    (hrest : f.rest = .call (some h') args res :: T.configCall F.name 1#32 ::
      remaining stale T F b l') : Paid ⟨f :: fs, d, conf⟩ l s' := by
  have hcallee := hU.callee F runs.mem runs.user b runs.block_mem _ mem h' rfl
  have hnone := hcallee.user.notMem_registerNames
  rcases h.of_call hrest with ⟨d', v, hcall, -⟩ | ⟨H', b', regs, -, hH', rfl, hb', rfl, rfl⟩
  · rw [registerCall_eq_none hnone] at hcall
    cases hcall
  · rw [hM] at hH'
    obtain ⟨H, hH, rfl⟩ := List.mem_map.mp hH'
    rw [Function.head?_mapBlocks] at hb'
    obtain ⟨b₀, hb₀, rfl⟩ := Option.map_eq_some_iff.mp hb'
    have hinsts := finalBlock_insts hU hH hcallee.user hcallee.listed (List.mem_of_mem_head? hb₀)
    rw [if_pos ⟨hcallee.not_main, Function.isFront_of_head? hb₀⟩, readCalls_eq] at hinsts
    exact .of_call hrest hnone (Frame.owes_of_readAddr hinsts)

/-- One step. -/
theorem Phase.paid (hM : M = L.functions.map fun F => F.mapBlocks (finalBlock L stale T F))
    {m : RegionMap} {configured : Bool} (phase : Phase stale T F b caller f m configured) :
    Paid ⟨f :: fs, d, conf⟩ l s' := by
  cases phase with
  | readAddr _ _ _ hrest =>
    obtain ⟨d', conf', regs, rfl, rfl⟩ := h.of_register hrest (by decide)
    exact .of_cons hrest (Frame.owes_of_readAddr hrest) (Frame.owes_of_readSize rfl) rfl rfl
  | readSize _ _ _ _ hrest =>
    obtain ⟨d', conf', regs, rfl, rfl⟩ := h.of_register hrest (by decide)
    exact .of_cons hrest (Frame.owes_of_readSize hrest) (Frame.owes_of_mpuCall rfl) rfl rfl
  | own hl _ _ _ _ hrest =>
    obtain ⟨d', conf', regs, rfl, rfl⟩ := h.of_register hrest (by decide)
    exact .of_cons hrest (Frame.owes_of_mpuCall hrest)
      ((runs.past _ _ _).owes_remaining hU hl rfl) rfl rfl
  | home hl _ _ _ hrest => exact paid_home hU runs callers h hl hrest
  | before _ mem _ _ _ hrest => exact paid_before hU runs h hM mem hrest
  | restored _ _ _ _ hrest => exact paid_end hU runs callers h hrest

end Phases

/-! ## Runs -/

/-- What a history has paid. -/
structure Cost (tr : List (State × Label)) (s : State) : Prop where
  configs : (configs tr : ℤ) = 2 * (calls tr + returns tr) + laps tr + 1 + s.ahead
  reads : (reads tr : ℤ) = 2 * calls tr - s.unread
  depth : s.frames.length + returns tr = calls tr + 1

theorem Cost.step {tr : List (State × Label)} {s s' : State} {l : Label} (h : Cost tr s)
    (hpaid : Paid s l s') : Cost (tr ++ [(s, l)]) s' := by
  obtain ⟨hconfigs, hreads, hdepth⟩ := h
  obtain ⟨hconfig, hread, hframes⟩ := hpaid
  have h1 : MpuPasses.configs (tr ++ [(s, l)]) = MpuPasses.configs tr + (isConfig s l).toNat :=
    Machine.count_concat ..
  have h2 : MpuPasses.reads (tr ++ [(s, l)]) = MpuPasses.reads tr + (isRead s l).toNat :=
    Machine.count_concat ..
  have h3 : calls (tr ++ [(s, l)]) = calls tr + l.isCall.toNat := Machine.count_concat ..
  have h4 : returns (tr ++ [(s, l)]) = returns tr + l.isRet.toNat := Machine.count_concat ..
  have h5 : laps (tr ++ [(s, l)]) = laps tr + (isLap s l).toNat := Machine.count_concat ..
  refine ⟨?_, ?_, ?_⟩
  · rw [h1, h3, h4, h5]
    omega
  · rw [h2, h3]
    omega
  · rw [h3, h4]
    omega

/-- No more than one call of `MPU_Config` is ahead or behind. -/
theorem State.abs_ahead_le (s : State) : |s.ahead| ≤ 1 := by
  unfold State.ahead
  cases s.frames with
  | nil => decide
  | cons f fs =>
    show |f.ahead| ≤ 1
    unfold Frame.ahead
    split
    · split_ifs <;> decide
    · split_ifs <;> decide
    · decide

theorem State.unread_mem (s : State) : 0 ≤ s.unread ∧ s.unread ≤ 2 := by
  unfold State.unread
  cases s.frames with
  | nil => decide
  | cons f fs =>
    show 0 ≤ f.unread ∧ f.unread ≤ 2
    unfold Frame.unread
    split
    · split_ifs <;> decide
    · decide

section Run

variable {L : LinkedModule} {stale : Stale} {T : LinkTable} {M : IrModule} {s₀ s : State}
  {tr : List (State × Label)}

/-- The last block of every user function but `main` returns. -/
def ReturnsLast (L : LinkedModule) : Prop :=
  ∀ F ∈ L.functions, IsUser F.name → F.name ≠ mainName → ∀ b ∈ F.blocks, F.IsBack b → b.term.IsRet

/-- One step. -/
theorem Inv.paid (hU : UserProgram L stale T)
    (hM : M = L.functions.map fun F => F.mapBlocks (finalBlock L stale T F)) (hinv : Inv L stale T s)
    {l : Label} {s' : State} (h : Step M s l s') : Paid s l s' := by
  cases hinv with
  | mk runs callers phase => exact phase.paid hU runs callers h hM

/-- The outermost call is of `main`. -/
theorem Inv.main_of_singleton (hinv : Inv L stale T s) {f : Frame} (hframes : s.frames = [f]) :
    f.func.name = mainName := by
  cases hinv with
  | mk runs callers phase =>
    cases hframes
    cases callers with
    | main hmain => exact runs.func_name.trans hmain

/-- Only a last block that does not return is left by a branch. -/
theorem Inv.not_isLap (hinv : Inv L stale T s) {l : Label} {s' : State} (h : Step M s l s')
    (hlast : ReturnsLast L) : isLap s l = false := by
  cases hinv with
  | @mk F b caller f fs d conf runs callers phase =>
    by_contra hlap
    have hlap : ((decide f.AtBack) && l.isTau) = true := by simpa [isLap] using hlap
    obtain ⟨hback, htau⟩ := Bool.and_eq_true_iff.mp hlap
    have hback := of_decide_eq_true hback
    obtain ⟨hskip, hisback⟩ := (runs.atBack_iff hback.1).mp hback
    have hmain : F.name ≠ mainName := fun hm => hskip (mem_connectSkips_iff.mpr (.inl hm))
    have hret := hlast F runs.mem runs.user hmain b runs.block_mem hisback
    rcases h.of_nil hback.1 with ⟨c', regs, hedge, -, rfl, -⟩ | ⟨_, _, _, _, _, _, -, -, -, rfl, -⟩
    · rw [runs.block] at hedge
      have hsucc := hedge.2
      rw [(keepsShape_finalBlock b).2] at hsucc
      cases hterm : b.term with
      | ret operands =>
        rw [hterm] at hsucc
        cases hsucc
      | branch operands succs =>
        rw [hterm] at hret
        cases hret
    · cases htau

section Boot

variable (hU : UserProgram L stale T) (hM : runPasses stale T.table L.functions = some M)
  (hb : Booted T M s)

include hU hM hb

/-- At the call of `main` its own region is still to be configured. -/
theorem Booted.cost : Cost [] s := by
  obtain ⟨F, b, f, hframes, -, -, hrest⟩ := hb.entry hU hM
  obtain ⟨frames, d, conf⟩ := s
  obtain rfl : frames = [f] := hframes
  have howes : f.Owes (-1) 0 := Frame.owes_of_mpuCall hrest
  refine ⟨?_, ?_, rfl⟩
  · show (0 : ℤ) = 2 * (0 + 0) + 0 + 1 + f.ahead
    rw [howes.1]
    rfl
  · show (0 : ℤ) = 2 * 0 - f.unread
    rw [howes.2]
    rfl

/-- The first step of `main`. -/
theorem Booted.paid {l : Label} {s' : State} (h : Step M s l s') : Paid s l s' ∧ isLap s l = false := by
  obtain ⟨F, b, f, hframes, -, runs, hrest⟩ := hb.entry hU hM
  obtain ⟨frames, d, conf⟩ := s
  obtain rfl : frames = [f] := hframes
  obtain ⟨d', conf', regs, rfl, rfl⟩ := h.of_register hrest (by decide)
  have hdone := (runs.past (T.configCall F.name 1#32) _ regs).owes_remaining hU (List.Subset.refl _) rfl
  exact ⟨.of_cons hrest (Frame.owes_of_mpuCall hrest) hdone rfl rfl, isLap_of_cons hrest _⟩

end Boot

/-- What has been paid at any time of a run. -/
theorem cost_of_history (hU : UserProgram L stale T)
    (hM : runPasses stale T.table L.functions = some M) (hb : Booted T M s₀)
    (hrun : Machine.History (Step M) s₀ tr s) :
    (s = s₀ ∨ Inv L stale T s) ∧ Cost tr s ∧ (ReturnsLast L → laps tr = 0) := by
  obtain ⟨hmap, -⟩ := runPasses_eq_some hU.direct hM
  refine hrun.invariant
    (fun tr s => (s = s₀ ∨ Inv L stale T s) ∧ Cost tr s ∧ (ReturnsLast L → laps tr = 0)) ?_ ?_
  · exact ⟨.inl rfl, hb.cost hU hM, fun _ => rfl⟩
  · rintro tr s l s' ⟨hinv, hcost, hlaps⟩ hstep
    have hlap_add : laps (tr ++ [(s, l)]) = laps tr + (isLap s l).toNat := Machine.count_concat ..
    rcases hinv with rfl | hinv
    · obtain ⟨hpaid, hlap⟩ := hb.paid hU hM hstep
      refine ⟨.inr (Inv.start hU hM ⟨s, hb, ?_⟩), hcost.step hpaid, fun hlast => ?_⟩
      · obtain ⟨rfl, -⟩ := hb.touches hU hM hstep
        exact hstep
      · rw [hlap_add, hlap, hlaps hlast]
        rfl
    · refine ⟨.inr ?_, hcost.step (hinv.paid hU hmap hstep), fun hlast => ?_⟩
      · cases hinv with
        | mk runs callers phase => exact (Inv.step hU hmap (.mk runs callers phase) hstep).1
      · rw [hlap_add, hinv.not_isLap hstep hlast, hlaps hlast]
        rfl

/-- **What the instrumentation costs.** At any time of a run of a user program from the call of `main` on,
twice as many calls of `MPU_Config` are paid as there were calls and returns, one for `main`, one for
every lap, and up to one ahead or behind; and two reads for every call, up to those still to be made.
When `main` is at the end of a block, these are four and two for every call; there are no laps if last
blocks return. -/
theorem run_cost (hU : UserProgram L stale T)
    (hM : runPasses stale T.table L.functions = some M) (hb : Booted T M s₀)
    (hrun : Machine.History (Step M) s₀ tr s) :
    (Cost tr s ∧ |s.ahead| ≤ 1 ∧ 0 ≤ s.unread ∧ s.unread ≤ 2) ∧
      (∀ f, s.frames = [f] → f.rest = [] →
        configs tr = 4 * calls tr + laps tr + 1 ∧ reads tr = 2 * calls tr) ∧
      (ReturnsLast L → laps tr = 0) := by
  obtain ⟨hinv, hcost, hlaps⟩ := cost_of_history hU hM hb hrun
  refine ⟨⟨hcost, s.abs_ahead_le, s.unread_mem.1, s.unread_mem.2⟩, fun f hframes hrest => ?_, hlaps⟩
  obtain ⟨hahead, hunread⟩ := Frame.owes_of_nil hrest
  have hname : f.func.name = mainName := by
    rcases hinv with rfl | hinv
    · obtain ⟨F, b, g, hg, -, -, hgrest⟩ := hb.entry hU hM
      obtain rfl := List.singleton_inj.mp (hframes.symm.trans hg)
      rw [hrest] at hgrest
      cases hgrest
    · exact hinv.main_of_singleton hframes
  have hnot : ¬ f.AtBack := fun hback => hback.2.1 (mem_connectSkips_iff.mpr (.inl hname))
  rw [if_neg hnot] at hahead
  obtain ⟨hconfigs, hreads, hdepth⟩ := hcost
  have hs_ahead : s.ahead = 0 := by
    unfold State.ahead
    rw [hframes]
    exact hahead
  have hs_unread : s.unread = 0 := by
    unfold State.unread
    rw [hframes]
    exact hunread
  rw [hframes, List.length_singleton] at hdepth
  rw [hs_ahead] at hconfigs
  rw [hs_unread] at hreads
  constructor <;> omega

/-- `main` configures its region and that of `Sum`, then calls it. -/
theorem run_cost_benchmark : ∃ tr s, calls tr = 1 ∧ Cost tr s := by
  have hmain : mainFunction ∈ benchmarkModule.functions := List.mem_cons_self
  have hsum : sumFunction ∈ benchmarkModule.functions := List.mem_cons_of_mem _ List.mem_cons_self
  have hinsts := finalBlock_insts userProgram_benchmark hmain (by decide) (by decide)
    (List.mem_singleton_self _)
  rw [if_neg (by decide), if_pos (by decide)] at hinsts
  have hbooted : Booted benchmarkTable benchmarkFinal
      ⟨[Frame.enter _ _ fun _ => 0#32], resetDevice, fun _ => false⟩ :=
    ⟨_, List.mem_map_of_mem hmain, rfl, _, _, rfl, rfl, fun hset => by cases hset⟩
  have hcost := (run_cost userProgram_benchmark runPasses_benchmark hbooted
    (.step (.step (.step .start (.configCall hinsts)) (.configCall rfl))
      (.call rfl (by decide) (List.mem_map_of_mem hsum) rfl rfl fun _ => 0#32))).1.1
  exact ⟨_, _, rfl, hcost⟩

end Run

end MpuPasses
