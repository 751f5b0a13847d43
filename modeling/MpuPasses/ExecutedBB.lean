import MpuPasses.Pipeline
import MpuPasses.Traces

/-!
# `Executed_BB`

The pass makes the instrumentation count its own work: `MPU_Config` calls `Config_execute` first, and
each of the two reading functions `read_execute`. The pointers to the counters get their values from a
search through the module and have none where it finds nothing. `executedModule_spec` says when the
pass gets by, and what the functions do then; `executedModule_comm` that it does not matter if the pass
runs before the instrumentation or behind it.
-/

namespace MpuPasses

open Chars

/-- In front of the first instruction of the first block that is no PHI node. -/
def Function.withFirst (i : Instr) (F : Function) : Function :=
  match F.blocks with
  | [] => F
  | b :: bs => { F with blocks := { b with insts := i :: b.insts } :: bs }

/-- `CallInst::Create(check, "")` and `insertBefore`, for the first block; `none` uses a pointer
without a value. -/
def insertCheck (check : Option Str) (F : Function) : Option Function :=
  if F.blocks = [] then some F
  else check.map fun name => F.withFirst (.call (some name) [] none)

/-- The body of the second loop over the module. -/
def executedFunction (readCheck configCheck : Option Str) (F : Function) : Option Function :=
  if F.name = readExecuteName ∨ F.name = configExecuteName then some F
  else if F.name = mpuConfigName then insertCheck configCheck F
  else if F.name = readCallerAddrName ∨ F.name = readCallerSizeName then insertCheck readCheck F
  else some F

/-- `Executed_BB::runOnModule`. -/
def executedModule (M : IrModule) : Option IrModule :=
  M.mapM (executedFunction (M.find readExecuteName) (M.find configExecuteName))

/-! ## One function -/

/-- The counter of a function. -/
def counterOf (name : Str) : Option Str :=
  if name = mpuConfigName then some configExecuteName
  else if name = readCallerAddrName ∨ name = readCallerSizeName then some readExecuteName
  else none

/-- What the pass makes of a function if it finds the counters. -/
def counted (F : Function) : Function :=
  match counterOf F.name with
  | none => F
  | some c => F.withFirst (.call (some c) [] none)

/-- The counter of the function is there if it is needed. -/
def HasCounter (M : IrModule) (F : Function) : Prop :=
  F.blocks ≠ [] → ∀ c ∈ counterOf F.name, c ∈ M.names

instance (M : IrModule) : DecidablePred (HasCounter M) := fun F => by
  unfold HasCounter; infer_instance

@[simp] theorem withFirst_name (i : Instr) (F : Function) : (F.withFirst i).name = F.name := by
  unfold Function.withFirst
  split <;> rfl

@[simp] theorem counted_name (F : Function) : (counted F).name = F.name := by
  unfold counted
  split
  · rfl
  · exact withFirst_name _ F

theorem insertCheck_eq {M : IrModule} {F : Function} {c : Str} (hc : counterOf F.name = some c) :
    insertCheck (M.find c) F = if HasCounter M F then some (counted F) else none := by
  have hcounted : counted F = F.withFirst (.call (some c) [] none) := by
    unfold counted
    rw [hc]
  unfold insertCheck
  by_cases hnil : F.blocks = []
  · have hsame : counted F = F := by
      rw [hcounted]
      unfold Function.withFirst
      rw [hnil]
    have hhas : HasCounter M F := fun hne => absurd hnil hne
    rw [if_pos hnil, if_pos hhas, hsame]
  · rw [if_neg hnil]
    by_cases hmem : c ∈ M.names
    · have hhas : HasCounter M F := by
        intro _ c' hc'
        obtain rfl := Option.some.inj (hc.symm.trans hc')
        exact hmem
      rw [if_pos hhas, IrModule.find, if_pos hmem, hcounted]
      rfl
    · have hnot : ¬ HasCounter M F := fun h => hmem (h hnil c hc)
      rw [if_neg hnot, IrModule.find, if_neg hmem]
      rfl

theorem executedFunction_eq (M : IrModule) (F : Function) :
    executedFunction (M.find readExecuteName) (M.find configExecuteName) F =
      if HasCounter M F then some (counted F) else none := by
  have hplain : counterOf F.name = none → (some F : Option Function) =
      if HasCounter M F then some (counted F) else none := by
    intro hnone
    have hhas : HasCounter M F := by
      intro _ c hc
      rw [hnone] at hc
      cases hc
    rw [if_pos hhas]
    unfold counted
    rw [hnone]
  unfold executedFunction
  by_cases hcounter : F.name = readExecuteName ∨ F.name = configExecuteName
  · rw [if_pos hcounter]
    apply hplain
    rcases hcounter with h | h
    · rw [h]
      decide
    · rw [h]
      decide
  · rw [if_neg hcounter]
    by_cases hconfig : F.name = mpuConfigName
    · rw [if_pos hconfig]
      exact insertCheck_eq (if_pos hconfig)
    · rw [if_neg hconfig]
      by_cases hread : F.name = readCallerAddrName ∨ F.name = readCallerSizeName
      · rw [if_pos hread]
        exact insertCheck_eq ((if_neg hconfig).trans (if_pos hread))
      · rw [if_neg hread]
        exact hplain ((if_neg hconfig).trans (if_neg hread))

theorem executedModule_eq (M : IrModule) : executedModule M =
    if ∀ F ∈ M, HasCounter M F then some (M.map counted) else none := by
  unfold executedModule
  split_ifs with h
  · refine Loop.mapM_eq_some_map fun F hF => ?_
    rw [executedFunction_eq, if_pos (h F hF)]
  · by_contra hsome
    obtain ⟨M', hM'⟩ := Option.ne_none_iff_exists'.mp hsome
    apply h
    intro F hF
    have hall := Loop.eq_map_of_mapM_eq_some (g := counted) (fun F G hG => ?_) hM'
    · have hF' := hall.2 F hF
      rw [executedFunction_eq] at hF'
      by_contra hnot
      rw [if_neg hnot] at hF'
      cases hF'
    · rw [executedFunction_eq] at hG
      split_ifs at hG
      exact (Option.some.inj hG).symm

/-! ## What a counted function does -/

section Traces

variable {F G : Function}

/-- Where control goes to is not the entry. -/
theorem Block.label_ne_of_go {entry : ℕ} {b c : Block} (hsucc : ∀ l ∈ b.term.succs, entry ≠ l)
    {operands : List Val} {succs : List ℕ} {choice : ℕ} (hterm : b.term = .branch operands succs)
    (hget : succs[choice]? = some c.label) : c.label ≠ entry := by
  intro heq
  apply hsucc c.label
  · rw [hterm]
    exact List.mem_of_getElem? hget
  · exact heq.symm

/-- Executions from a block that is not the entry only see the blocks that are not the entry. -/
theorem exec_of_forall_mem {entry : ℕ} (hsucc : ∀ b ∈ F.blocks, ∀ l ∈ b.term.succs, entry ≠ l)
    (hmem : ∀ b ∈ F.blocks, b.label ≠ entry → b ∈ G.blocks) {pred : Option ℕ} {b : Block}
    {t : List Action} (h : F.Exec pred b t) (hb : b ∈ F.blocks) : G.Exec pred b t := by
  induction h with
  | cut h => exact .cut h
  | ret h => exact .ret h
  | go hterm hget hc h ih =>
    exact .go hterm hget (hmem _ hc (Block.label_ne_of_go (hsucc _ hb) hterm hget)) (ih hc)

/-- A block with an instruction in front. -/
def Block.withFirst (i : Instr) (b : Block) : Block := { b with insts := i :: b.insts }

theorem Block.actions_withFirst (i : Instr) {b : Block} (hphis : b.phis = []) :
    (b.withFirst i).actions none = .inst i :: b.actions none := by
  unfold Block.actions Block.withFirst
  rw [if_pos hphis]
  rfl

/-- Functions that differ in their entries have the other blocks in common. -/
theorem mem_blocks_of_ne {b b' : Block} {bs : List Block} (hF : F.blocks = b :: bs)
    (hG : G.blocks = b' :: bs) {c : Block} (hc : c ∈ F.blocks) (hne : c.label ≠ b.label) :
    c ∈ G.blocks := by
  rw [hF] at hc
  rcases List.mem_cons.mp hc with rfl | hc
  · exact absurd rfl hne
  · exact hG ▸ List.mem_cons_of_mem _ hc

section Entry

variable {i : Instr} {b : Block} {bs : List Block} {t : List Action} (hphis : b.phis = [])
  (hF : F.blocks = b :: bs) (hG : G.blocks = b.withFirst i :: bs)
  (hsucc : ∀ c ∈ F.blocks, ∀ l ∈ c.term.succs, b.label ≠ l)

include hphis hF hG hsucc

/-- An execution from the entry, with the instruction in front. -/
theorem Function.Exec.withFirst (h : F.Exec none b t) : G.Exec none (b.withFirst i) (.inst i :: t) := by
  have hactions := Block.actions_withFirst i hphis
  have hbF : b ∈ F.blocks := hF ▸ List.mem_cons_self
  have htoG : ∀ c ∈ F.blocks, c.label ≠ b.label → c ∈ G.blocks := fun _ => mem_blocks_of_ne hF hG
  cases h with
  | cut h =>
    apply Function.Exec.cut
    rw [hactions]
    exact (List.prefix_cons_inj _).mpr h
  | ret h =>
    have hret : G.Exec none (b.withFirst i) _ := .ret h
    rw [hactions] at hret
    exact hret
  | go hterm hget hc h =>
    have hcG := htoG _ hc (Block.label_ne_of_go (hsucc b hbF) hterm hget)
    have hgo : G.Exec none (b.withFirst i) _ :=
      .go hterm hget hcG (exec_of_forall_mem hsucc htoG h hc)
    rw [hactions] at hgo
    exact hgo

/-- An execution that has begun has made the first instruction. -/
theorem Function.Exec.of_withFirst (h : G.Exec none (b.withFirst i) t) :
    t = [] ∨ ∃ u, F.Exec none b u ∧ t = .inst i :: u := by
  have hactions := Block.actions_withFirst i hphis
  have hbF : b ∈ F.blocks := hF ▸ List.mem_cons_self
  have htoF : ∀ c ∈ G.blocks, c.label ≠ b.label → c ∈ F.blocks := fun _ => mem_blocks_of_ne hG hF
  have hsuccG : ∀ c ∈ G.blocks, ∀ l ∈ c.term.succs, b.label ≠ l := by
    intro c hc
    rw [hG] at hc
    rcases List.mem_cons.mp hc with rfl | hc
    · exact hsucc b hbF
    · exact hsucc c (hF ▸ List.mem_cons_of_mem b hc)
  cases h with
  | cut h =>
    rw [hactions] at h
    cases t with
    | nil => exact .inl rfl
    | cons a u =>
      obtain ⟨rfl, hu⟩ := List.cons_prefix_cons.mp h
      exact .inr ⟨u, .cut hu, rfl⟩
  | ret h =>
    rw [hactions]
    exact .inr ⟨_, .ret h, rfl⟩
  | go hterm hget hc h =>
    rw [hactions]
    have hcF := htoF _ hc (Block.label_ne_of_go (hsucc b hbF) hterm hget)
    exact .inr ⟨_, .go hterm hget hcF (exec_of_forall_mem hsuccG htoF h hc), rfl⟩

end Entry

/-- A function with a first instruction does it once, at the start. -/
theorem traces_withFirst (hv : F.Verified) (i : Instr) {b : Block} (hb : F.blocks.head? = some b)
    (hphis : b.phis = []) :
    (F.withFirst i).Traces = insert [] ((fun t => .inst i :: t) '' F.Traces) := by
  obtain ⟨bs, hblocks⟩ : ∃ bs, F.blocks = b :: bs := List.head?_eq_some_iff.mp hb
  have hG : (F.withFirst i).blocks = b.withFirst i :: bs := by
    unfold Function.withFirst
    rw [hblocks]
    rfl
  have hsucc : ∀ c ∈ F.blocks, ∀ l ∈ c.term.succs, b.label ≠ l := by
    intro c hc l hl heq
    apply hv.entry_no_pred c hc l hl
    rw [hb, ← heq]
    rfl
  ext t
  unfold Function.Traces
  simp only [hG, hblocks, List.head?_cons, Option.some.injEq, exists_eq_left', Set.mem_ofPred_eq,
    Set.mem_insert_iff, Set.mem_image]
  constructor
  · exact fun h => (h.of_withFirst hphis hblocks hG hsucc).imp_right fun ⟨u, hu, ht⟩ => ⟨u, hu, ht.symm⟩
  · rintro (rfl | ⟨u, hu, rfl⟩)
    · exact .cut List.nil_prefix
    · exact hu.withFirst hphis hblocks hG hsucc

end Traces

/-! ## The pass on a linked module -/

/-- What becomes of a function: nothing if it has no counter or no body; else it calls its counter
first, once, and then does what it did. -/
structure Counts (F G : Function) : Prop where
  name : G.name = F.name
  same : counterOf F.name = none ∨ F.blocks = [] → G = F
  traces : ∀ c, counterOf F.name = some c → F.blocks ≠ [] →
    G.Traces = insert [] ((fun t => .inst (.call (some c) [] none) :: t) '' F.Traces)

theorem counts_counted {F : Function} (hv : F.Verified)
    (hphis : ∀ b, F.blocks.head? = some b → b.phis = []) : Counts F (counted F) := by
  refine ⟨counted_name F, ?_, ?_⟩
  · unfold counted
    rintro (hnone | hnil)
    · rw [hnone]
    · split
      · rfl
      · unfold Function.withFirst
        rw [hnil]
  · intro c hc hne
    obtain ⟨b, bs, hbs⟩ := List.exists_cons_of_ne_nil hne
    have hb : F.blocks.head? = some b := hbs ▸ rfl
    have hcounted : counted F = F.withFirst (.call (some c) [] none) := by
      unfold counted
      rw [hc]
    rw [hcounted]
    exact traces_withFirst hv _ hb (hphis b hb)

/-- **Counting.** On a linked module whose functions have no PHI nodes in their first blocks the pass
gets by exactly if the module contains functions with the names of the counters that the functions with
a body need; declarations are enough. Then every call of `MPU_Config` calls `Config_execute` exactly once
and first, every call of a reading function `read_execute`, and otherwise all functions do what they
did. -/
theorem executedModule_spec (L : LinkedModule)
    (hphis : ∀ F ∈ L.functions, ∀ b, F.blocks.head? = some b → b.phis = []) :
    ((executedModule L.functions).isSome ↔ ∀ F ∈ L.functions, HasCounter L.functions F) ∧
      ∀ M, executedModule L.functions = some M → List.Forall₂ Counts L.functions M := by
  rw [executedModule_eq]
  constructor
  · split_ifs with h
    · exact iff_of_true rfl h
    · exact iff_of_false (by simp) h
  · intro M hM
    split_ifs at hM
    obtain rfl := Option.some.inj hM
    rw [List.forall₂_map_right_iff, List.forall₂_same]
    exact fun F hF => counts_counted (L.verified F hF) (hphis F hF)

/-- A program of functions of one block, with its counters. -/
def countedModule : LinkedModule where
  functions := leafModule.functions ++
    [readExecuteName, configExecuteName].map fun name =>
      { name := name, blocks := [{ label := 7, insts := [.other 13 [] none], term := .ret [] }] }

theorem executedModule_spec_leaf :
    (executedModule countedModule.functions).isSome :=
  ((executedModule_spec countedModule (by decide)).1).mpr (by decide)

/-! ## Before or behind the instrumentation -/

section Commute

variable {L : LinkedModule} {stale : Stale} {T : LinkTable} {F : Function}

theorem withFirst_verified (i : Instr) (hv : F.Verified) : (F.withFirst i).Verified := by
  unfold Function.withFirst
  split
  · exact hv
  · next b bs hblocks =>
    have hlabels : ({ b with insts := i :: b.insts } :: bs).map Block.label =
        F.blocks.map Block.label := by
      rw [hblocks]
      rfl
    have hterms : ∀ c ∈ { b with insts := i :: b.insts } :: bs, ∃ c' ∈ F.blocks, c.term = c'.term := by
      intro c hc
      rcases List.mem_cons.mp hc with rfl | hc
      · exact ⟨b, hblocks ▸ List.mem_cons_self, rfl⟩
      · exact ⟨c, hblocks ▸ List.mem_cons_of_mem b hc, rfl⟩
    refine ⟨?_, ?_, ?_⟩
    · show (({ b with insts := i :: b.insts } :: bs).map Block.label).Nodup
      rw [hlabels]
      exact hv.labels_nodup
    · intro c hc l hl
      obtain ⟨c', hc', heq⟩ := hterms c hc
      show l ∈ ({ b with insts := i :: b.insts } :: bs).map Block.label
      rw [hlabels]
      exact hv.succs_mem c' hc' l (heq ▸ hl)
    · intro c hc l hl
      obtain ⟨c', hc', heq⟩ := hterms c hc
      have hentry := hv.entry_no_pred c' hc' l (heq ▸ hl)
      rw [hblocks] at hentry
      exact hentry

theorem counted_verified (hv : F.Verified) : (counted F).Verified := by
  unfold counted
  split
  · exact hv
  · exact withFirst_verified _ hv

/-- The linked module after the pass. -/
def LinkedModule.counted (L : LinkedModule) : LinkedModule :=
  L.map MpuPasses.counted counted_name fun _ hF => counted_verified (L.verified _ hF)

theorem mem_insertSkips_of_counterOf {name c : Str} (h : counterOf name = some c) :
    name ∈ insertSkips := by
  unfold counterOf at h
  split_ifs at h with hconfig hread
  · rw [hconfig]
    decide
  · rcases hread with hread | hread
    · rw [hread]
      decide
    · rw [hread]
      decide

/-- An instruction of a counted function is one of the function or the call of its counter. -/
theorem mem_insts_counted {b : Block} (hb : b ∈ (counted F).blocks) {i : Instr} (hi : i ∈ b.insts) :
    (∃ b' ∈ F.blocks, i ∈ b'.insts) ∨
      ∃ c, counterOf F.name = some c ∧ F.blocks ≠ [] ∧ i = .call (some c) [] none := by
  unfold counted at hb
  split at hb
  · exact .inl ⟨b, hb, hi⟩
  · next c hc =>
    unfold Function.withFirst at hb
    split at hb
    · exact .inl ⟨b, hb, hi⟩
    · next b' bs hblocks =>
      rcases List.mem_cons.mp hb with rfl | hb
      · rcases List.mem_cons.mp hi with rfl | hi
        · exact .inr ⟨c, hc, by rw [hblocks]; exact List.cons_ne_nil _ _, rfl⟩
        · exact .inl ⟨b', hblocks ▸ List.mem_cons_self, hi⟩
      · exact .inl ⟨b, hblocks ▸ List.mem_cons_of_mem b' hb, hi⟩

theorem names_counted : L.counted.functions.names = L.functions.names := by
  show (L.functions.map MpuPasses.counted).map Function.name = L.functions.map Function.name
  rw [List.map_map]
  exact List.map_congr_left fun F _ => counted_name F

theorem direct_counted (hd : L.functions.Direct) (hc : ∀ F ∈ L.functions, HasCounter L.functions F) :
    L.counted.functions.Direct := by
  intro F' hF' b hb i hi
  obtain ⟨F, hF, rfl⟩ := List.mem_map.mp hF'
  rw [names_counted]
  rcases mem_insts_counted hb hi with ⟨b', hb', hi⟩ | ⟨c, hcounter, hne, rfl⟩
  · exact hd F hF b' hb' i hi
  · exact hc F hF hne c hcounter

theorem noConfig_counted (hn : NoConfig L.functions) : NoConfig L.counted.functions := by
  intro F' hF' b hb i hi
  obtain ⟨F, hF, rfl⟩ := List.mem_map.mp hF'
  rcases mem_insts_counted hb hi with ⟨b', hb', hi⟩ | ⟨c, hcounter, -, rfl⟩
  · exact hn F hF b' hb' i hi
  · unfold counterOf at hcounter
    intro heq
    cases heq
    split_ifs at hcounter <;> revert hcounter <;> decide

theorem entries_counted (he : Entries T L.functions) : Entries T L.counted.functions := by
  constructor
  · intro F' hF' hi hne
    obtain ⟨F, hF, rfl⟩ := List.mem_map.mp hF'
    rw [counted_name] at hi ⊢
    apply he.own F hF hi
    intro hnil
    apply hne
    unfold MpuPasses.counted
    split
    · exact hnil
    · unfold Function.withFirst
      rw [hnil]
      exact hnil
  · intro F' hF' hi b hb i hmem h hh hbr
    obtain ⟨F, hF, rfl⟩ := List.mem_map.mp hF'
    rw [counted_name] at hi
    rcases mem_insts_counted hb hmem with ⟨b', hb', hmem⟩ | ⟨c, hcounter, -, rfl⟩
    · exact he.callee F hF hi b' hb' i hmem h hh hbr
    · exact absurd (mem_insertSkips_of_counterOf hcounter) hi

/-- The passes leave a function that they skip as it is. -/
theorem mapBlocks_finalBlock_of_skip (hd : L.functions.Direct) (hn : NoConfig L.functions)
    (hF : F ∈ L.functions) (hi : F.name ∈ insertSkips) :
    F.mapBlocks (finalBlock L stale T F) = F := by
  have hblock : ∀ b ∈ F.blocks, finalBlock L stale T F b = b := by
    intro b hb
    unfold finalBlock settledBlock instrumentedBlock
    rw [if_pos hi, map_settledInst_eq fun i hmem => ⟨hd F hF b hb i hmem, hn F hF b hb i hmem⟩]
  unfold Function.mapBlocks
  rw [List.map_congr_left hblock, List.map_id']

/-- What the passes make of a function does not depend on what the others do. -/
theorem finalBlock_counted (F : Function) :
    finalBlock L.counted stale T F = finalBlock L stale T F := by
  funext b
  unfold finalBlock instrumentedBlock connectBlock
  rw [readCalls_eq, readCalls_eq, LinkedModule.find_config, LinkedModule.find_config]

theorem mapBlocks_finalBlock_counted (hd : L.functions.Direct) (hn : NoConfig L.functions)
    (hc : ∀ F ∈ L.functions, HasCounter L.functions F) (hF : F ∈ L.functions) :
    (counted F).mapBlocks (finalBlock L.counted stale T (counted F)) =
      counted (F.mapBlocks (finalBlock L stale T F)) := by
  cases hcounter : counterOf F.name with
  | none =>
    have hsame : ∀ G : Function, G.name = F.name → counted G = G := by
      intro G hG
      unfold counted
      rw [hG, hcounter]
    rw [hsame F rfl, hsame (F.mapBlocks _) rfl, finalBlock_counted]
  | some c =>
    have hi := mem_insertSkips_of_counterOf hcounter
    rw [mapBlocks_finalBlock_of_skip hd hn hF hi]
    exact mapBlocks_finalBlock_of_skip (direct_counted hd hc) (noConfig_counted hn)
      (List.mem_map_of_mem hF) ((counted_name F).symm ▸ hi)

/-- **Before or behind the instrumentation.** For a linked module with direct calls, none of them to
`MPU_Config`, and records for all functions concerned, counting the instrumented program and
instrumenting the counted one give the same program, or both fail, if in both runs of the
instrumentation the variables of `Connect_Function` hold the same operands where they are read unset. -/
theorem executedModule_comm (L : LinkedModule) {stale stale' : Stale} (T : LinkTable)
    (hd : L.functions.Direct) (hn : NoConfig L.functions) (he : Entries T L.functions)
    (hagree : stale.Agree L.functions stale') :
    (executedModule L.functions).bind (runPasses stale' T.table) =
      (runPasses stale T.table L.functions).bind executedModule := by
  rw [runPasses_congr hd hagree]
  clear hagree stale
  rw [runPasses_eq hd hn he, Option.bind_some, executedModule_eq, executedModule_eq]
  have hnames : IrModule.names (L.functions.map fun F => F.mapBlocks (finalBlock L stale' T F)) =
      L.functions.names := by
    unfold IrModule.names
    rw [List.map_map]
    rfl
  have hsame : (∀ F' ∈ L.functions.map fun F => F.mapBlocks (finalBlock L stale' T F),
      HasCounter (L.functions.map fun F => F.mapBlocks (finalBlock L stale' T F)) F') ↔
        ∀ F ∈ L.functions, HasCounter L.functions F := by
    rw [List.forall_mem_map]
    refine forall₂_congr fun F _ => ?_
    unfold HasCounter
    rw [hnames]
    show (F.blocks.map _ ≠ [] → _) ↔ (F.blocks ≠ [] → _)
    rw [ne_eq, List.map_eq_nil_iff]
    rfl
  by_cases hc : ∀ F ∈ L.functions, HasCounter L.functions F
  · rw [if_pos hc, if_pos (hsame.mpr hc), Option.bind_some]
    refine (runPasses_eq (L := L.counted) (direct_counted hd hc) (noConfig_counted hn)
      (entries_counted he)).trans ?_
    show some ((L.functions.map counted).map _) = _
    rw [List.map_map, List.map_map]
    exact congrArg some (List.map_congr_left fun F hF => mapBlocks_finalBlock_counted hd hn hc hF)
  · rw [if_neg hc, if_neg (mt hsame.mp hc), Option.bind_none]

/-- Functions of one block read no variable unset. -/
theorem OneBlock.agree {M : IrModule} (h : OneBlock M) (stale stale' : Stale) :
    stale.Agree M stale' := fun F hF hc _ hb _ hfront =>
  absurd (Function.isFront_of_length_le_one (h F hF hc) hb) hfront

/-- The two runs find different operands in the variables. -/
theorem executedModule_comm_leaf :
    (executedModule countedModule.functions).bind
        (runPasses (fun _ _ => (.const 1, .const 1)) benchmarkTable.table) =
      (runPasses constVals benchmarkTable.table countedModule.functions).bind executedModule :=
  executedModule_comm countedModule benchmarkTable (by decide) (by decide) ⟨by decide, by decide⟩
    (OneBlock.agree (by decide) _ _)

end Commute

end MpuPasses
