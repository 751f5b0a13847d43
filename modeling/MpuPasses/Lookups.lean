import MpuPasses.FindFunction
import MpuPasses.Pipeline

/-!
# The names that `Set_Operand` looks up

`Set_Operand` searches names that `Insert_Function` has arranged for, among records made from the
names that `Find_Function` has written. The lists of exceptions of the two passes differ in what
they are about, functions processed and callees bracketed. `lookupsListed_iff` says for which
modules every search stops at a match.
-/

namespace MpuPasses

open Chars

/-! ## Lookups -/

def Request.name? : Request → Option Str
  | look name => some name
  | skip => none
  | fault => none

/-- The names that `Set_Operand` looks up in a module. -/
def lookups (M : IrModule) : List Str :=
  M.flatMap fun F => F.blocks.flatMap fun b =>
    (Cursor.withNext none b.insts).filterMap fun p => (request F.name p.1 p.2).name?

/-- No search runs to the end of the records. -/
def LookupsListed (funcs : List LinkFunc) (M : IrModule) : Prop :=
  ∀ name ∈ lookups M, search funcs name < funcs.length

/-- The constant region number of a call of `MPU_Config`. -/
def Instr.configNum? : Instr → Option (BitVec 32)
  | call (some callee) args _ =>
    if callee = mpuConfigName then
      match (args[2]? : Option Val) with
      | some (.const n) => some n
      | _ => none
    else none
  | call none _ _ => none
  | other _ _ _ => none

/-- The helpers that are called like any other function. -/
def helperNames : List Str :=
  [readCallerAddrName, readCallerSizeName, readExecuteName, configExecuteName]

/-- The condition on the source: where a function is processed it calls none of the helpers, and no
call of its own configures region 2 directly before a call, or at the end where the restoring call
will stand; where a function is skipped none of its own calls configures region 1, or region 2
directly before a call of a function that is left out. -/
structure LooksUpListed (M : IrModule) : Prop where
  callee : ∀ F ∈ M, F.name ∉ insertSkips → ∀ b ∈ F.blocks, ∀ i ∈ b.insts, ∀ h ∈ i.callee?,
    h ∉ helperNames
  config : ∀ F ∈ M, F.name ∉ insertSkips → ∀ b ∈ F.blocks, ∀ p ∈ Cursor.withNext none b.insts,
    p.1.configNum? = some 2 → ∀ i ∈ p.2, i.callee? = none
  last : ∀ F ∈ M, F.name ∉ connectSkips → ∀ b ∈ F.blocks, F.IsBack b → ∀ i ∈ b.insts.getLast?,
    i.configNum? ≠ some 2
  skipped_own : ∀ F ∈ M, F.name ∈ insertSkips → ∀ b ∈ F.blocks, ∀ i ∈ b.insts,
    i.configNum? ≠ some 1
  skipped_callee : ∀ F ∈ M, F.name ∈ insertSkips → ∀ b ∈ F.blocks,
    ∀ p ∈ Cursor.withNext none b.insts, p.1.configNum? = some 2 → ∀ i ∈ p.2, ∀ h ∈ i.callee?,
      h ∉ findSkips

theorem mem_lookups_iff {M : IrModule} {name : Str} : name ∈ lookups M ↔ ∃ F ∈ M, ∃ b ∈ F.blocks,
    ∃ p ∈ Cursor.withNext none b.insts, request F.name p.1 p.2 = .look name := by
  have hname : ∀ r : Request, r.name? = some name ↔ r = .look name := by
    intro r
    cases r <;> simp [Request.name?]
  unfold lookups
  simp only [List.mem_flatMap, List.mem_filterMap, hname]

/-- What is looked up at an instruction. -/
theorem request_eq_look_iff {fname name : Str} {i : Instr} {next : Option Instr} :
    request fname i next = .look name ↔
      (i.configNum? = some 1 ∧ fname = name) ∨
        (i.configNum? = some 2 ∧ ∃ j ∈ next, j.callee? = some name) := by
  cases i with
  | other opcode operands res => simp [request, Instr.configNum?]
  | call callee args res =>
    cases callee with
    | none => simp [request, Instr.configNum?]
    | some h =>
      unfold request Instr.configNum?
      by_cases hc : h = mpuConfigName
      · simp only [if_pos hc]
        cases hargs : (args[2]? : Option Val) with
        | none => simp
        | some v =>
          cases v with
          | reg n => simp
          | const n =>
            by_cases h1 : n = 1#32
            · simp [h1]
            · by_cases h2 : n = 2#32
              · subst h2
                cases next with
                | none => simp
                | some j =>
                  cases j with
                  | other opcode operands res => simp [Instr.callee?]
                  | call callee' args' res' =>
                    cases callee' <;> simp [Instr.callee?, eq_comm]
              · simp [h1, h2]
      · simp only [if_neg hc]
        simp

/-! ## The bracketed instructions -/

theorem not_bracketed_iff {name : Str} :
    ¬ Bracketed name ↔ name ∈ [mpuConfigName, mpuZeroRegionName] := by
  unfold Bracketed
  rw [not_and_or, not_ne_iff, not_ne_iff, List.mem_pair]

theorem mem_findSkips_iff {name : Str} :
    name ∈ findSkips ↔ ¬ Bracketed name ∨ name ∈ helperNames := by
  have hperm : findSkips.Perm ([mpuConfigName, mpuZeroRegionName] ++ helperNames) := by decide
  rw [hperm.mem_iff, List.mem_append, not_bracketed_iff]

theorem mem_insertSkips_iff {name : Str} : name ∈ insertSkips ↔ name ∈ findSkips := by
  have hperm : insertSkips.Perm findSkips := by decide
  exact hperm.mem_iff

theorem bracketed_of_mem_helperNames {name : Str} (h : name ∈ helperNames) : Bracketed name := by
  revert name; decide

/-- A call that configures region 2 is followed by no call of a function that is left out. -/
def NextListed (p : Instr × Option Instr) : Prop :=
  p.1.configNum? = some 2 → ∀ j ∈ p.2, ∀ h ∈ j.callee?, h ∉ findSkips

theorem nextListed_of_ne {p : Instr × Option Instr} (h : p.1.configNum? ≠ some 2) : NextListed p :=
  fun heq => absurd heq h

theorem configNum?_of_ne {callee : Option Str} (h : callee ≠ some mpuConfigName) (args : List Val)
    (res : Option ℕ) : (Instr.call callee args res).configNum? = none := by
  cases callee with
  | none => rfl
  | some c => exact if_neg fun heq => h (congrArg some heq)

/-- The pairs of one bracketed instruction. -/
theorem nextListed_bracket_iff (i : Instr) (c : Option Instr) :
    (∀ p ∈ Cursor.withNext c (bracket i), NextListed p) ↔
      (∀ h ∈ i.callee?, h ∉ helperNames) ∧ NextListed (i, c) := by
  have hplain : ∀ j : Instr, j = i → bracket j = [j] → (∀ h ∈ j.callee?, h ∉ helperNames) →
      ((∀ p ∈ Cursor.withNext c (bracket j), NextListed p) ↔
        (∀ h ∈ j.callee?, h ∉ helperNames) ∧ NextListed (j, c)) := by
    intro j _ hj hcallee
    rw [hj]
    simpa using fun _ => hcallee
  cases i with
  | other opcode operands res =>
    exact hplain _ rfl (bracket_other opcode operands res) (by simp [Instr.callee?])
  | call callee args res =>
    cases callee with
    | none => exact hplain _ rfl rfl (by simp [Instr.callee?])
    | some h =>
      by_cases hb : Bracketed h
      · have hnone : (Instr.call (some h) args res).configNum? = none :=
          configNum?_of_ne (fun heq => hb.1 (Option.some.inj heq)) args res
        have hlisted : h ∉ findSkips ↔ h ∉ helperNames := by
          rw [mem_findSkips_iff, or_iff_right (not_not_intro hb)]
        have hcall : ∀ next, NextListed (.call (some h) args res, next) := fun next =>
          nextListed_of_ne (by simp [hnone])
        have hafter : ∀ next, NextListed (afterCall (some mpuConfigName), next) := fun next =>
          nextListed_of_ne (show some (1 : BitVec 32) ≠ some 2 by decide)
        rw [bracket_of_bracketed hb]
        simp only [Cursor.withNext_cons, Cursor.withNext_nil, List.head?_cons, Option.some_or,
          List.forall_mem_cons]
        constructor
        · rintro ⟨hbefore, -⟩
          refine ⟨fun h' hh' => ?_, hcall c⟩
          cases hh'
          exact hlisted.mp (hbefore rfl _ rfl h rfl)
        · rintro ⟨hcallee, -⟩
          refine ⟨fun _ j hj h' hh' => ?_, hcall _, hafter _, by simp⟩
          cases hj
          cases hh'
          exact hlisted.mpr (hcallee h rfl)
      · refine hplain _ rfl (bracket_of_not_bracketed hb args res) ?_
        intro h' hh' hmem
        cases hh'
        exact hb (bracketed_of_mem_helperNames hmem)

/-- What the bracketed form of an instruction begins with: a call of a function that is left out if
the instruction is a call, no call otherwise. -/
theorem exists_head_bracket (i : Instr) : ∃ j rest, bracket i = j :: rest ∧
    ((∀ h ∈ j.callee?, h ∉ findSkips) ↔ i.callee? = none) := by
  cases i with
  | other opcode operands res =>
    exact ⟨_, _, bracket_other opcode operands res, by simp [Instr.callee?]⟩
  | call callee args res =>
    cases callee with
    | none => exact ⟨_, [], rfl, by simp [Instr.callee?]⟩
    | some h =>
      by_cases hb : Bracketed h
      · refine ⟨_, _, bracket_of_bracketed hb args res, ?_⟩
        have hskip : mpuConfigName ∈ findSkips := by decide
        simpa [Instr.callee?, beforeCall, mpuCall] using hskip
      · refine ⟨_, _, bracket_of_not_bracketed hb args res, ?_⟩
        have hskip : h ∈ findSkips := mem_findSkips_iff.mpr (.inl hb)
        simpa [Instr.callee?] using hskip

/-- The pairs of a list of bracketed instructions with `c` behind them. -/
theorem nextListed_flatMap_bracket_iff (l : List Instr) (c : Option Instr) :
    (∀ p ∈ Cursor.withNext c (l.flatMap bracket), NextListed p) ↔
      (∀ i ∈ l, ∀ h ∈ i.callee?, h ∉ helperNames) ∧
      (∀ p ∈ Cursor.withNext none l, p.1.configNum? = some 2 → ∀ i ∈ p.2, i.callee? = none) ∧
      ∀ i ∈ l.getLast?, NextListed (i, c) := by
  induction l with
  | nil => simp
  | cons i l ih =>
    rw [List.flatMap_cons, Cursor.withNext_append, List.forall_mem_append, nextListed_bracket_iff,
      ih, Cursor.withNext_cons, List.forall_mem_cons, List.forall_mem_cons]
    cases l with
    | nil => simp
    | cons k l =>
      -- what follows the bracketed instruction is the bracket of the next one
      obtain ⟨j, rest, hj, hiff⟩ := exists_head_bracket k
      have hnext : NextListed (i, ((k :: l).flatMap bracket).head?.or c) ↔
          (i.configNum? = some 2 → ∀ k' ∈ (k :: l).head?.or none, k'.callee? = none) := by
        rw [List.flatMap_cons, hj]
        unfold NextListed
        simpa using imp_congr_right fun _ => hiff
      rw [hnext, List.getLast?_cons_cons]
      tauto

/-! ## Instrumented blocks -/

section Block

variable {L : LinkedModule} {stale : Stale} {F : Function} {b : Block}

theorem mpuCall_direct (L : LinkedModule) (a z n : Val) :
    (mpuCall (some mpuConfigName) a z n).Direct L.functions.names := L.has_config

theorem direct_of_mem_bracket {i j : Instr} (hi : i.Direct L.functions.names) (hj : j ∈ bracket i) :
    j.Direct L.functions.names := by
  cases i with
  | other opcode operands res =>
    rw [bracket_other] at hj
    obtain rfl := List.mem_singleton.mp hj
    exact hi
  | call callee args res =>
    cases callee with
    | none => cases hi
    | some h =>
      by_cases hb : Bracketed h
      · rw [bracket_of_bracketed hb] at hj
        simp only [List.mem_cons, List.not_mem_nil, or_false] at hj
        rcases hj with rfl | rfl | rfl
        · exact mpuCall_direct L _ _ _
        · exact hi
        · exact mpuCall_direct L _ _ _
      · rw [bracket_of_not_bracketed hb] at hj
        obtain rfl := List.mem_singleton.mp hj
        exact hi

theorem direct_of_mem_frontCalls {i : Instr} (hi : i ∈ frontCalls L F b) :
    i.Direct L.functions.names := by
  unfold frontCalls at hi
  rcases List.mem_append.mp hi with hi | hi <;> split_ifs at hi
  · exact (readCalls_plain hi).1
  · cases hi
  · obtain rfl := List.mem_singleton.mp hi
    exact mpuCall_direct L _ _ _
  · cases hi

theorem direct_of_mem_backCalls {i : Instr} (hi : i ∈ backCalls stale F b) :
    i.Direct L.functions.names := by
  unfold backCalls at hi
  split_ifs at hi
  · obtain rfl := List.mem_singleton.mp hi
    exact mpuCall_direct L _ _ _
  · cases hi

/-- The passes insert direct calls only. -/
theorem direct_of_mem_instrumentedBlock (hd : ∀ i ∈ b.insts, i.Direct L.functions.names) {i : Instr}
    (hi : i ∈ (instrumentedBlock L stale F b).insts) : i.Direct L.functions.names := by
  by_cases hskip : F.name ∈ insertSkips
  · unfold instrumentedBlock at hi
    rw [if_pos hskip] at hi
    exact hd i hi
  · rw [instrumentedBlock_insts hskip] at hi
    rcases List.mem_append.mp hi with hi | hi
    · rcases List.mem_append.mp hi with hi | hi
      · exact direct_of_mem_frontCalls hi
      · obtain ⟨j, hj, hi⟩ := List.mem_flatMap.mp hi
        exact direct_of_mem_bracket (hd j hj) hi
    · exact direct_of_mem_backCalls hi

theorem callee_mem_names {i : Instr} {names : List Str} (hi : i.Direct names) {h : Str}
    (hh : i.callee? = some h) : h ∈ names := by
  cases i with
  | other opcode operands res => cases hh
  | call callee args res => cases hh; exact hi

/-- At one place: the enclosing function is looked up for region 1, the next callee for region 2. -/
theorem lookup_listed_iff {T : LinkTable}
    (hT : ∀ name ∈ L.functions.names, search T.table name < T.table.length ↔ name ∉ findSkips)
    (hF : F ∈ L.functions) (hd : ∀ i ∈ b.insts, i.Direct L.functions.names)
    {p : Instr × Option Instr}
    (hp : p ∈ Cursor.withNext none (instrumentedBlock L stale F b).insts) :
    (∀ name, request F.name p.1 p.2 = .look name → search T.table name < T.table.length) ↔
      (p.1.configNum? = some 1 → F.name ∉ findSkips) ∧ NextListed p := by
  have hown := hT F.name (List.mem_map_of_mem hF)
  have hcallee : ∀ j ∈ p.2, ∀ h ∈ j.callee?, (search T.table h < T.table.length ↔ h ∉ findSkips) :=
    fun j hj h hh => hT h (callee_mem_names
      (direct_of_mem_instrumentedBlock hd (Cursor.snd_mem_of_mem_withNext hp hj)) hh)
  simp only [request_eq_look_iff]
  unfold NextListed
  constructor
  · intro h
    exact ⟨fun h1 => hown.mp (h F.name (.inl ⟨h1, rfl⟩)),
      fun h2 j hj name hname => (hcallee j hj name hname).mp (h name (.inr ⟨h2, j, hj, hname⟩))⟩
  · rintro ⟨h1, h2⟩ name (⟨hone, rfl⟩ | ⟨htwo, j, hj, hname⟩)
    · exact hown.mpr (h1 hone)
    · exact (hcallee j hj name hname).mpr (h2 htwo j hj name hname)

variable (L stale) in
/-- The calls that are inserted at the start and the end of a function look up no callee. -/
theorem nextListed_instrumentedBlock_iff (hi : F.name ∉ insertSkips) :
    (∀ p ∈ Cursor.withNext none (instrumentedBlock L stale F b).insts, NextListed p) ↔
      (∀ i ∈ b.insts, ∀ h ∈ i.callee?, h ∉ helperNames) ∧
      (∀ p ∈ Cursor.withNext none b.insts, p.1.configNum? = some 2 → ∀ i ∈ p.2, i.callee? = none) ∧
      (F.name ∉ connectSkips → F.IsBack b → ∀ i ∈ b.insts.getLast?, i.configNum? ≠ some 2) := by
  have hfront : ∀ c, ∀ p ∈ Cursor.withNext c (frontCalls L F b), NextListed p := by
    intro c p hp
    have hmem := Cursor.fst_mem_of_mem_withNext hp
    unfold frontCalls at hmem
    apply nextListed_of_ne
    rcases List.mem_append.mp hmem with hmem | hmem <;> split_ifs at hmem
    · rw [readCalls_eq] at hmem
      simp only [List.mem_cons, List.not_mem_nil, or_false] at hmem
      rcases hmem with h | h <;> rw [h, configNum?_of_ne (by decide)] <;> simp
    · cases hmem
    · rw [List.mem_singleton.mp hmem]
      decide
    · cases hmem
  have hback : ∀ p ∈ Cursor.withNext none (backCalls stale F b), NextListed p := by
    intro p hp
    unfold backCalls at hp
    split_ifs at hp
    · obtain rfl := List.mem_singleton.mp hp
      intro _ j hj
      cases hj
    · cases hp
  have hlast : (∀ i ∈ b.insts.getLast?, NextListed (i, (backCalls stale F b).head?.or none)) ↔
      (F.name ∉ connectSkips → F.IsBack b → ∀ i ∈ b.insts.getLast?, i.configNum? ≠ some 2) := by
    unfold backCalls NextListed
    have hskip : mpuConfigName ∈ findSkips := by decide
    split_ifs with h
    · simp [h.1, h.2, mpuCall, Instr.callee?, hskip]
    · simp only [List.head?_nil, Option.or_none]
      constructor
      · exact fun _ hc hb => absurd ⟨hc, hb⟩ h
      · intro _ i _ _ j hj
        cases hj
  rw [instrumentedBlock_insts hi, Cursor.withNext_append, Cursor.withNext_append,
    List.forall_mem_append, List.forall_mem_append, nextListed_flatMap_bracket_iff, hlast]
  constructor
  · rintro ⟨⟨-, h⟩, -⟩
    exact h
  · exact fun h => ⟨⟨hfront _, h⟩, hback⟩

end Block

/-! ## The result -/

/-- The records carry the names of `function.txt`. -/
theorem search_lt_iff_of_names {L : LinkedModule} {T : LinkTable}
    (hT : T.funcs.map Func.name = readNames (functionTxt L.functions)) :
    ∀ name ∈ L.functions.names, search T.table name < T.table.length ↔ name ∉ findSkips := by
  intro name hname
  rw [search_lt_iff, T.names_perm.mem_iff, hT, readNames_functionTxt, mem_findFunction,
    and_iff_right hname]

/-- All searches stop exactly if every place of every block is listed. -/
theorem lookupsListed_iff_places {L : LinkedModule} {stale : Stale} {T : LinkTable}
    (hd : L.functions.Direct)
    (hT : T.funcs.map Func.name = readNames (functionTxt L.functions)) :
    (∃ M, instrument stale L.functions = some M ∧ LookupsListed T.table M) ↔
      ∀ F ∈ L.functions, ∀ b ∈ F.blocks,
        ∀ p ∈ Cursor.withNext none (instrumentedBlock L stale F b).insts,
          (p.1.configNum? = some 1 → F.name ∉ findSkips) ∧ NextListed p := by
  have hnames := search_lt_iff_of_names hT
  rw [instrument_eq hd]
  constructor
  · rintro ⟨M, hM, h⟩ F hF b hb p hp
    cases hM
    rw [← lookup_listed_iff hnames hF (hd F hF b hb) hp]
    intro name hreq
    exact h name (mem_lookups_iff.mpr
      ⟨_, List.mem_map_of_mem hF, _, List.mem_map_of_mem hb, p, hp, hreq⟩)
  · intro h
    refine ⟨_, rfl, fun name hname => ?_⟩
    obtain ⟨F', hF', b', hb', p, hp, hreq⟩ := mem_lookups_iff.mp hname
    obtain ⟨F, hF, rfl⟩ := List.mem_map.mp hF'
    obtain ⟨b, hb, rfl⟩ := List.mem_map.mp hb'
    exact (lookup_listed_iff hnames hF (hd F hF b hb) hp).mpr (h F hF b hb p hp) name hreq

/-- **When every name looked up is listed.** For a linked module with direct calls, and records that
carry the names of `function.txt`, every search of `Set_Operand` in the instrumented module stops at
a match exactly if the source meets `LooksUpListed`. -/
theorem lookupsListed_iff (L : LinkedModule) (stale : Stale) (T : LinkTable)
    (hd : L.functions.Direct)
    (hT : T.funcs.map Func.name = readNames (functionTxt L.functions)) :
    (∃ M, instrument stale L.functions = some M ∧ LookupsListed T.table M) ↔
      LooksUpListed L.functions := by
  rw [lookupsListed_iff_places hd hT]
  have hskipped : ∀ F : Function, F.name ∈ insertSkips → ∀ b, instrumentedBlock L stale F b = b :=
    fun F hi b => if_pos hi
  constructor
  · intro h
    have hnext : ∀ F ∈ L.functions, F.name ∉ insertSkips → ∀ b ∈ F.blocks, _ :=
      fun F hF hi b hb => (nextListed_instrumentedBlock_iff L stale hi).mp
        fun p hp => (h F hF b hb p hp).2
    refine ⟨fun F hF hi b hb => (hnext F hF hi b hb).1,
      fun F hF hi b hb => (hnext F hF hi b hb).2.1, fun F hF hc b hb => ?_,
      fun F hF hi b hb i hmem hone => ?_, fun F hF hi b hb p hp => ?_⟩
    · have hi : F.name ∉ insertSkips := fun hi => hc (mem_connectSkips_of_mem_insertSkips hi)
      exact (hnext F hF hi b hb).2.2 hc
    · obtain ⟨n, hn⟩ := Cursor.exists_mem_withNext none hmem
      rw [← hskipped F hi b] at hn
      exact (h F hF b hb _ hn).1 hone (mem_insertSkips_iff.mp hi)
    · rw [← hskipped F hi b] at hp
      exact (h F hF b hb p hp).2
  · intro h F hF b hb p hp
    by_cases hi : F.name ∈ insertSkips
    · rw [hskipped F hi b] at hp
      exact ⟨fun hone => absurd hone
        (h.skipped_own F hF hi b hb p.1 (Cursor.fst_mem_of_mem_withNext hp)),
        h.skipped_callee F hF hi b hb p hp⟩
    · refine ⟨fun _ hmem => hi (mem_insertSkips_iff.mpr hmem), ?_⟩
      exact (nextListed_instrumentedBlock_iff L stale hi).mpr
        ⟨h.callee F hF hi b hb, h.config F hF hi b hb, fun hc => h.last F hF hc b hb⟩ p hp

/-- A user function that asks for the region itself. -/
def askingFunction : Function where
  name := "Sum".toList
  blocks := [{ label := 0, insts := [.call (some readCallerAddrName) [] (some 0)], term := .ret [] }]

def askingModule : LinkedModule where
  functions := mainFunction :: askingFunction :: mpuSources

/-- Its call is bracketed, so the helper is looked up and not found. -/
theorem not_lookupsListed_asking : askingModule.functions.Direct ∧
    benchmarkTable.funcs.map Func.name = readNames (functionTxt askingModule.functions) ∧
    ¬ ∃ M, instrument (fun _ _ => (.const 0, .const 0)) askingModule.functions = some M ∧
      LookupsListed benchmarkTable.table M := by
  refine ⟨by decide, by decide, ?_⟩
  rintro ⟨M, hM, hlisted⟩
  have hlookup : ∀ M ∈ instrument (fun _ _ => (.const 0, .const 0)) askingModule.functions,
      readCallerAddrName ∈ lookups M := by decide
  have hlt := hlisted _ (hlookup M hM)
  revert hlt; decide

theorem lookupsListed_benchmark : ∃ M, instrument (fun _ _ => (.const 0, .const 0))
    benchmarkModule.functions = some M ∧ LookupsListed benchmarkTable.table M :=
  (lookupsListed_iff benchmarkModule _ benchmarkTable (by decide) (by decide)).mpr
    ⟨by decide, by decide, by decide, by decide, by decide⟩

end MpuPasses
