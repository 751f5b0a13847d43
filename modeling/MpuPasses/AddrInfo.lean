import MpuPasses.ExpectBB

/-!
# `Addr_info.py`

The script reads the sizes of the blocks, gives the blocks addresses one after the other, and writes
both to `Addr_info.txt`. As the reading loop takes the last record twice, the file lists the last
function twice (`not_readsEachOnce`).
-/

namespace MpuPasses

open Chars

/-! ## The addresses -/

/-- `function_start`. -/
def functionStart : ℤ := 0x08004000

/-- One turn of the loop over the blocks. -/
def nextAddr (f : AddrFunc) (j : ℕ) : Option AddrFunc := do
  let addr ← f.bbAddr[j - 1]?
  let size ← f.bbSize[j - 1]?
  return { f with bbAddr := f.bbAddr ++ [addr + size] }

/-- `for j in range(1,Funcs[i].BB_cnt)`, with the address of the first block. -/
def fillAddrs (f : AddrFunc) : Option AddrFunc :=
  Loop.forEach nextAddr { f with bbAddr := f.bbAddr ++ [f.startAddr] } (List.range' 1 (f.bbCnt - 1))

/-- One turn of the loop over `Funcs`: fill the object, then hand its end over to the next one. -/
def addrStep (funcs : List ℕ) (heap : List AddrFunc) (i : ℕ) : Option (List AddrFunc) := do
  let func ← funcs[i]?
  let f ← (heap[func]?).bind fillAddrs
  let heap := heap.set func f
  if i ≠ funcs.length - 1 then
    let addr ← pyGet f.bbAddr ((f.bbCnt : ℤ) - 1)
    let size ← pyGet f.bbSize ((f.bbCnt : ℤ) - 1)
    let next ← funcs[i + 1]?
    return heap.modify next fun g => { g with startAddr := addr + size }
  else return heap

/-- The whole loop; an empty `Funcs` is an index error. -/
def addrLoop (funcs : List ℕ) (heap : List AddrFunc) : Option (List AddrFunc) := do
  let first ← funcs[0]?
  Loop.forEach (addrStep funcs) (heap.modify first fun f => { f with startAddr := functionStart })
    (List.range' 0 funcs.length)

/-! ## The file -/

/-- `hex` of an integer. -/
def pyHexInt : ℤ → Str
  | .ofNat n => pyHex n
  | .negSucc n => '-' :: pyHex (n + 1)

def addrLine (addr : ℤ) (j : ℕ) : Str :=
  "BB".toList ++ pyStr (j + 1) ++ " addr: ".toList ++ pyHexInt addr ++ "(".toList ++ pyStr addr ++
    ")".toList

/-- The lines of an entry. -/
def entryLines (f : AddrFunc) : Option (List Str) := do
  let rows ← (List.range f.bbCnt).mapM fun j => do
    let addr ← f.bbAddr[j]?
    let size ← f.bbSize[j]?
    return [addrLine addr j, sizeLine size j]
  return nameLine f.name :: rows.flatten ++ [[]]

/-- The text of `Addr_info.txt`, when the reading loop ends within `n` tests. -/
def addrInfo (n : ℕ) (text : Str) : Option Str := do
  let s ← (readRecords n (readlines text)).final?
  let heap ← addrLoop s.funcs s.heap
  let lines ← s.funcs.mapM fun func => (heap[func]?).bind entryLines
  return lines.flatten.flatMap fun line => line ++ ['\n']

def isNameLine (line : Str) : Bool := decide ("func name".toList <+: line)

/-- The lines with the names of the functions that a file lists. -/
def listed (text : Str) : List Str := (getlines text).filter isNameLine

/-! ## The loop succeeds -/

/-- An object as the reading loop leaves it: a count for its sizes, of which there is one. -/
structure AddrFunc.WellSized (f : AddrFunc) : Prop where
  count : f.bbSize.length = f.bbCnt
  pos : 0 < f.bbCnt

/-- All blocks have an address. -/
def AddrFunc.Filled (f : AddrFunc) : Prop := f.bbCnt ≤ f.bbAddr.length

/-- Only the addresses have changed, and none was lost. -/
structure AddrFunc.Grows (f g : AddrFunc) : Prop where
  name : g.name = f.name
  bbCnt : g.bbCnt = f.bbCnt
  bbSize : g.bbSize = f.bbSize
  bbAddr : f.bbAddr.length ≤ g.bbAddr.length

theorem AddrFunc.Grows.refl (f : AddrFunc) : f.Grows f := ⟨rfl, rfl, rfl, le_rfl⟩

theorem AddrFunc.Grows.trans {f g h : AddrFunc} (hfg : f.Grows g) (hgh : g.Grows h) : f.Grows h :=
  ⟨hgh.name.trans hfg.name, hgh.bbCnt.trans hfg.bbCnt, hgh.bbSize.trans hfg.bbSize,
    hfg.bbAddr.trans hgh.bbAddr⟩

theorem AddrFunc.Grows.wellSized {f g : AddrFunc} (h : f.Grows g) (hf : f.WellSized) :
    g.WellSized := by
  constructor
  · rw [h.bbSize, h.bbCnt]
    exact hf.count
  · rw [h.bbCnt]
    exact hf.pos

theorem AddrFunc.Grows.filled {f g : AddrFunc} (h : f.Grows g) (hf : f.Filled) : g.Filled := by
  unfold Filled
  rw [h.bbCnt]
  exact hf.trans h.bbAddr

theorem grows_addAddr (f : AddrFunc) (addr : ℤ) :
    f.Grows { f with bbAddr := f.bbAddr ++ [addr] } := by
  refine ⟨rfl, rfl, rfl, ?_⟩
  show f.bbAddr.length ≤ (f.bbAddr ++ [addr]).length
  rw [List.length_append]
  exact Nat.le_add_right _ _

/-- The inner loop fills an object. -/
theorem fillAddrs_spec {f : AddrFunc} (hf : f.WellSized) :
    ∃ g, fillAddrs f = some g ∧ f.Grows g ∧ g.Filled := by
  have hpos := hf.pos
  have hstart : f.Grows { f with bbAddr := f.bbAddr ++ [f.startAddr] } ∧
      1 ≤ (f.bbAddr ++ [f.startAddr]).length := by
    refine ⟨grows_addAddr f _, ?_⟩
    rw [List.length_append, List.length_singleton]
    exact Nat.le_add_left _ _
  -- before turn `j` there are addresses for the first `j` blocks
  have hturn : ∀ j g, 1 ≤ j → j < 1 + (f.bbCnt - 1) → f.Grows g ∧ j ≤ g.bbAddr.length →
      ∃ g', nextAddr g j = some g' ∧ f.Grows g' ∧ j + 1 ≤ g'.bbAddr.length := by
    rintro j g hj hlt ⟨hgrows, hlen⟩
    have hsize : j - 1 < g.bbSize.length := by
      rw [hgrows.bbSize, hf.count]
      omega
    have haddr : j - 1 < g.bbAddr.length := by omega
    unfold nextAddr
    rw [List.getElem?_eq_getElem haddr, List.getElem?_eq_getElem hsize]
    refine ⟨_, rfl, hgrows.trans (grows_addAddr g _), ?_⟩
    show j + 1 ≤ (g.bbAddr ++ _).length
    rw [List.length_append, List.length_singleton]
    exact Nat.succ_le_succ hlen
  obtain ⟨g, hg, hgrows, hlen⟩ := Loop.forEach_range'
    (fun j g => f.Grows g ∧ j ≤ g.bbAddr.length) hturn hstart
  refine ⟨g, hg, hgrows, ?_⟩
  unfold AddrFunc.Filled
  rw [hgrows.bbCnt]
  omega

/-- The objects have grown one by one. -/
structure HeapGrows (heap heap' : List AddrFunc) : Prop where
  length : heap'.length = heap.length
  grows : ∀ (i : ℕ) (f : AddrFunc), heap[i]? = some f → ∃ g, heap'[i]? = some g ∧ f.Grows g

theorem HeapGrows.refl (heap : List AddrFunc) : HeapGrows heap heap :=
  ⟨rfl, fun _ f hf => ⟨f, hf, .refl f⟩⟩

theorem HeapGrows.trans {h₁ h₂ h₃ : List AddrFunc} (h : HeapGrows h₁ h₂) (h' : HeapGrows h₂ h₃) :
    HeapGrows h₁ h₃ := by
  refine ⟨h'.length.trans h.length, fun i f hf => ?_⟩
  obtain ⟨g, hg, hfg⟩ := h.grows i f hf
  obtain ⟨k, hk, hgk⟩ := h'.grows i g hg
  exact ⟨k, hk, hfg.trans hgk⟩

/-- An object of the later heap has grown from one of the earlier heap. -/
theorem HeapGrows.exists_of_getElem? {heap heap' : List AddrFunc} (h : HeapGrows heap heap') {i : ℕ}
    {g : AddrFunc} (hg : heap'[i]? = some g) : ∃ f, heap[i]? = some f ∧ f.Grows g := by
  have hlt : i < heap.length := h.length ▸ (List.getElem?_eq_some_iff.mp hg).1
  have hf := List.getElem?_eq_getElem hlt
  obtain ⟨g', hg', hfg⟩ := h.grows i _ hf
  rw [hg, Option.some.injEq] at hg'
  subst hg'
  exact ⟨_, hf, hfg⟩

theorem HeapGrows.wellSized {heap heap' : List AddrFunc} (h : HeapGrows heap heap')
    (hsized : ∀ f ∈ heap, f.WellSized) : ∀ g ∈ heap', g.WellSized := by
  intro g hg
  obtain ⟨i, hi⟩ := List.mem_iff_getElem?.mp hg
  obtain ⟨f, hf, hfg⟩ := h.exists_of_getElem? hi
  exact hfg.wellSized (hsized f (List.mem_of_getElem? hf))

theorem heapGrows_set {heap : List AddrFunc} {func : ℕ} {f g : AddrFunc}
    (hf : heap[func]? = some f) (hfg : f.Grows g) : HeapGrows heap (heap.set func g) := by
  refine ⟨List.length_set, fun i k hk => ?_⟩
  by_cases hi : func = i
  · subst hi
    rw [hf, Option.some.injEq] at hk
    subst hk
    have hlt := (List.getElem?_eq_some_iff.mp hf).1
    exact ⟨g, List.getElem?_set_self hlt, hfg⟩
  · exact ⟨k, (List.getElem?_set_ne hi).trans hk, .refl k⟩

theorem heapGrows_modify_startAddr (heap : List AddrFunc) (func : ℕ) (addr : ℤ) :
    HeapGrows heap (heap.modify func fun f => { f with startAddr := addr }) := by
  refine ⟨List.length_modify _ _ _, fun i f hf => ?_⟩
  rw [List.getElem?_modify, hf]
  refine ⟨_, rfl, ?_⟩
  split_ifs
  · exact ⟨rfl, rfl, rfl, le_rfl⟩
  · exact .refl f

/-- The objects of the entries before `i` are filled. -/
def FilledTo (funcs : List ℕ) (heap : List AddrFunc) (i : ℕ) : Prop :=
  ∀ j < i, ∀ func, funcs[j]? = some func → ∀ f, heap[func]? = some f → f.Filled

theorem FilledTo.grows {funcs : List ℕ} {heap heap' : List AddrFunc} {i : ℕ}
    (h : FilledTo funcs heap i) (hgrows : HeapGrows heap heap') : FilledTo funcs heap' i := by
  intro j hj func hfunc g hg
  obtain ⟨f, hf, hfg⟩ := hgrows.exists_of_getElem? hg
  exact hfg.filled (h j hj func hfunc f hf)

section Entries

variable {funcs : List ℕ} {heap : List AddrFunc}
  (hsized : ∀ f ∈ heap, f.WellSized) (hrefs : ∀ func ∈ funcs, func < heap.length)

include hsized hrefs

/-- One turn fills the object of its entry and keeps the others. -/
theorem addrStep_spec {i : ℕ} (hi : i < funcs.length) (hfilled : FilledTo funcs heap i) :
    ∃ heap', addrStep funcs heap i = some heap' ∧ HeapGrows heap heap' ∧
      FilledTo funcs heap' (i + 1) := by
  have hfunc := List.getElem?_eq_getElem hi
  have hlt := hrefs _ (List.getElem_mem hi)
  have hf := List.getElem?_eq_getElem hlt
  have hwell := hsized _ (List.getElem_mem hlt)
  obtain ⟨g, hg, hgrows, hgfilled⟩ := fillAddrs_spec hwell
  have hset := heapGrows_set hf hgrows
  have hnow : FilledTo funcs (heap.set funcs[i] g) (i + 1) := by
    intro j hj func hjfunc k hk
    by_cases heq : func = funcs[i]
    · subst heq
      rw [List.getElem?_set_self hlt, Option.some.injEq] at hk
      exact hk ▸ hgfilled
    · have hji : j < i := by
        refine lt_of_le_of_ne (Nat.lt_succ_iff.mp hj) fun hji => heq ?_
        subst hji
        exact (Option.some.inj (hfunc.symm.trans hjfunc)).symm
      exact hfilled.grows hset j hji func hjfunc k hk
  unfold addrStep
  simp only [hfunc, hf, hg, Option.bind_eq_bind, Option.bind_some]
  split_ifs with hlast
  · have hcast : (g.bbCnt : ℤ) - 1 = ((g.bbCnt - 1 : ℕ) : ℤ) := by
      have := (hgrows.wellSized hwell).pos
      omega
    have haddr : g.bbCnt - 1 < g.bbAddr.length := by
      have := (hgrows.wellSized hwell).pos
      unfold AddrFunc.Filled at hgfilled
      omega
    have hsize : g.bbCnt - 1 < g.bbSize.length := by
      have := hgrows.wellSized hwell
      rw [this.count]
      exact Nat.sub_lt this.pos Nat.one_pos
    have hnext : i + 1 < funcs.length := by omega
    rw [hcast, pyGet_natCast, pyGet_natCast, List.getElem?_eq_getElem haddr,
      List.getElem?_eq_getElem hsize, List.getElem?_eq_getElem hnext]
    have hmodify := heapGrows_modify_startAddr (heap.set funcs[i] g) funcs[i + 1]
      (g.bbAddr[g.bbCnt - 1] + g.bbSize[g.bbCnt - 1])
    exact ⟨_, rfl, hset.trans hmodify, hnow.grows hmodify⟩
  · exact ⟨_, rfl, hset, hnow⟩

/-- The loop fills the objects of all entries. -/
theorem addrLoop_spec (hne : funcs ≠ []) :
    ∃ heap', addrLoop funcs heap = some heap' ∧ HeapGrows heap heap' ∧
      FilledTo funcs heap' funcs.length := by
  obtain ⟨first, rest, hfuncs⟩ := List.exists_cons_of_ne_nil hne
  have hfirst : HeapGrows heap (heap.modify first fun f => { f with startAddr := functionStart }) ∧
      FilledTo funcs (heap.modify first fun f => { f with startAddr := functionStart }) 0 :=
    ⟨heapGrows_modify_startAddr heap first functionStart, fun j hj => absurd hj (Nat.not_lt_zero j)⟩
  have hturn : ∀ i h, 0 ≤ i → i < 0 + funcs.length → HeapGrows heap h ∧ FilledTo funcs h i →
      ∃ h', addrStep funcs h i = some h' ∧ HeapGrows heap h' ∧ FilledTo funcs h' (i + 1) := by
    rintro i h - hi ⟨hgrows, hfilled⟩
    obtain ⟨h', hstep, hgrows', hfilled'⟩ := addrStep_spec (hgrows.wellSized hsized)
      (fun func hfunc => hgrows.length ▸ hrefs func hfunc) (by omega) hfilled
    exact ⟨h', hstep, hgrows.trans hgrows', hfilled'⟩
  obtain ⟨heap', hloop, hgrows, hfilled⟩ := Loop.forEach_range'
    (fun i h => HeapGrows heap h ∧ FilledTo funcs h i) hturn hfirst
  rw [Nat.zero_add] at hfilled
  refine ⟨heap', ?_, hgrows, hfilled⟩
  unfold addrLoop
  rw [show funcs[0]? = some first by rw [hfuncs]; rfl]
  exact hloop

end Entries

/-! ## The file lists every entry -/

theorem newline_notMem_pyHexInt (v : ℤ) : '\n' ∉ pyHexInt v := by
  cases v with
  | ofNat n => exact newline_notMem_pyHex n
  | negSucc n =>
    unfold pyHexInt
    simp [newline_notMem_pyHex]

/-- A line of an entry that is no name. -/
def IsOtherLine (line : Str) : Prop := '\n' ∉ line ∧ isNameLine line = false

theorem isOtherLine_addrLine (addr : ℤ) (j : ℕ) : IsOtherLine (addrLine addr j) := by
  have hj := newline_notMem_pyStr (j + 1)
  have haddr := newline_notMem_pyStr addr
  have hhex := newline_notMem_pyHexInt addr
  unfold IsOtherLine isNameLine addrLine
  constructor
  · simp [hj, haddr, hhex]
  · simp

theorem isOtherLine_sizeLine (size : ℤ) (j : ℕ) : IsOtherLine (sizeLine size j) := by
  refine ⟨(oneLine_sizeLine size j).newline, ?_⟩
  unfold isNameLine sizeLine
  simp

theorem isNameLine_nameLine (name : Str) : isNameLine (nameLine name) = true :=
  decide_eq_true (List.prefix_append _ _)

/-- The lines of a filled object, of which one is its name. -/
theorem entryLines_spec {f : AddrFunc} (hsized : f.WellSized) (hfilled : f.Filled)
    (hname : '\n' ∉ f.name) : ∃ ls, entryLines f = some ls ∧ (∀ l ∈ ls, '\n' ∉ l) ∧
      ls.filter isNameLine = [nameLine f.name] := by
  have hrow : ∀ j ∈ List.range f.bbCnt, ∃ row, (do
      let addr ← f.bbAddr[j]?
      let size ← f.bbSize[j]?
      return [addrLine addr j, sizeLine size j]) = some row ∧ ∀ l ∈ row, IsOtherLine l := by
    intro j hj
    have hlt := List.mem_range.mp hj
    have haddr : j < f.bbAddr.length := hlt.trans_le hfilled
    have hsize : j < f.bbSize.length := hsized.count ▸ hlt
    rw [List.getElem?_eq_getElem haddr, List.getElem?_eq_getElem hsize]
    refine ⟨_, rfl, ?_⟩
    simp only [List.mem_cons, List.not_mem_nil, or_false, forall_eq_or_imp, forall_eq]
    exact ⟨isOtherLine_addrLine _ j, isOtherLine_sizeLine _ j⟩
  obtain ⟨rows, hrows, hother⟩ := Loop.exists_mapM_forall hrow
  have hlines : ∀ l ∈ rows.flatten ++ [[]], IsOtherLine l := by
    intro l hl
    rcases List.mem_append.mp hl with hl | hl
    · obtain ⟨row, hmem, hl⟩ := List.mem_flatten.mp hl
      exact hother row hmem l hl
    · obtain rfl := List.mem_singleton.mp hl
      exact ⟨List.not_mem_nil, rfl⟩
  refine ⟨nameLine f.name :: rows.flatten ++ [[]], ?_, ?_, ?_⟩
  · unfold entryLines
    rw [hrows]
    rfl
  · intro l hl
    rcases List.mem_cons.mp hl with rfl | hl
    · exact newline_notMem_nameLine hname
    · exact (hlines l hl).1
  · rw [List.cons_append, List.filter_cons_of_pos (isNameLine_nameLine _),
      List.filter_eq_nil_iff.mpr fun l hl => by simp [(hlines l hl).2]]

/-- The lines that stand for an entry in the file. -/
def Lists (heap : List AddrFunc) (func : ℕ) (ls : List Str) : Prop :=
  (∀ l ∈ ls, '\n' ∉ l) ∧ ∃ f, heap[func]? = some f ∧
    ls.filter isNameLine = [nameLine f.name]

theorem filter_flatten_of_lists {heap : List AddrFunc} {funcs : List ℕ} {lines : List (List Str)}
    (h : List.Forall₂ (Lists heap) funcs lines) :
    lines.flatten.filter isNameLine =
      (funcs.filterMap fun func => heap[func]?).map fun f => nameLine f.name := by
  induction h with
  | nil => rfl
  | cons hlists _ ih =>
    obtain ⟨-, f, hf, hfilter⟩ := hlists
    rw [List.flatten_cons, List.filter_append, hfilter, ih, List.filterMap_cons_some hf]
    rfl

theorem newline_notMem_of_lists {heap : List AddrFunc} {funcs : List ℕ} {lines : List (List Str)}
    (h : List.Forall₂ (Lists heap) funcs lines) : ∀ l ∈ lines.flatten, '\n' ∉ l := by
  induction h with
  | nil => simp
  | cons hlists _ ih =>
    rw [List.flatten_cons]
    exact List.forall_mem_append.mpr ⟨hlists.1, ih⟩

/-- What was read is listed entry by entry. -/
theorem addrInfo_of_read {n : ℕ} {text : Str} {s : ReadVars}
    (hread : readRecords n (readlines text) = .done s) (hne : s.funcs ≠ [])
    (hrefs : ∀ func ∈ s.funcs, func < s.heap.length) (hsized : ∀ f ∈ s.heap, f.WellSized)
    (hname : ∀ f ∈ s.heap, '\n' ∉ f.name) :
    ∃ out, addrInfo n text = some out ∧ listed out = s.entries.map fun f => nameLine f.name := by
  obtain ⟨heap, hloop, hgrows, hfilled⟩ := addrLoop_spec hsized hrefs hne
  have hentry : ∀ func ∈ s.funcs, ∃ ls, (heap[func]?).bind entryLines = some ls ∧
      Lists s.heap func ls := by
    intro func hfunc
    obtain ⟨j, hj⟩ := List.mem_iff_getElem?.mp hfunc
    have hf := List.getElem?_eq_getElem (hrefs func hfunc)
    obtain ⟨g, hg, hfg⟩ := hgrows.grows func _ hf
    have hmem := List.getElem_mem (hrefs func hfunc)
    obtain ⟨ls, hls, hnl, hfilter⟩ := entryLines_spec (hfg.wellSized (hsized _ hmem))
      (hfilled j (List.getElem?_eq_some_iff.mp hj).1 func hj g hg) (hfg.name ▸ hname _ hmem)
    rw [hfg.name] at hfilter
    exact ⟨ls, by rw [hg]; exact hls, hnl, _, hf, hfilter⟩
  obtain ⟨lines, hlines, hlists⟩ := Loop.exists_mapM_eq_some hentry
  refine ⟨lines.flatten.flatMap fun line => line ++ ['\n'], ?_, ?_⟩
  · unfold addrInfo
    simp only [hread, Loop.Outcome.final?, hloop, hlines, Option.bind_eq_bind, Option.bind_some,
      Option.pure_def]
  · unfold listed
    rw [getlines_flatMap (newline_notMem_of_lists hlists)]
    exact filter_flatten_of_lists hlists

/-! ## The last record -/

/-- `Funcs` has one entry for every record. -/
def ReadsEachOnce (rs : List BBRecord) : Prop :=
  ∃ n s, readRecords n (readlines (expectBBText rs)) = .done s ∧
    s.entries = rs.map BBRecord.toFunc

/-- `Addr_info.txt` lists every function once. -/
def ListsEachOnce (rs : List BBRecord) : Prop :=
  ∃ n out, addrInfo n (expectBBText rs) = some out ∧ listed out = rs.map fun r => nameLine r.name

theorem filterMap_getElem?_range {α : Type*} (l : List α) :
    ((List.range l.length).filterMap fun i => l[i]?) = l := by
  induction l using List.reverseRecOn with
  | nil => rfl
  | append_singleton l x ih =>
    have hold : ((List.range l.length).filterMap fun i => (l ++ [x])[i]?) =
        (List.range l.length).filterMap fun i => l[i]? :=
      List.filterMap_congr fun i hi => List.getElem?_append_left (List.mem_range.mp hi)
    rw [List.length_append, List.length_singleton, List.range_succ, List.filterMap_append, hold, ih,
      List.filterMap_cons_some List.getElem?_concat_length]
    rfl

/-- The entries are the records and, once more, the last one. -/
theorem entries_finalState {rs : List BBRecord} (hne : rs ≠ []) :
    (finalState rs).entries = rs.map BBRecord.toFunc ++ [(rs.getLast hne).toFunc] := by
  have hall := filterMap_getElem?_range (rs.map BBRecord.toFunc)
  have hlast : (rs.map BBRecord.toFunc)[rs.length - 1]? = some (rs.getLast hne).toFunc := by
    rw [List.getElem?_map, ← List.getLast?_eq_getElem?, List.getLast?_eq_getLast_of_ne_nil hne]
    rfl
  rw [List.length_map] at hall
  unfold finalState ReadVars.entries
  rw [List.filterMap_append, hall, List.filterMap_cons_some hlast]
  rfl

/-- The file is written, and lists the last function twice. -/
theorem addrInfo_expectBBText {rs : List BBRecord} (hne : rs ≠ []) :
    ∃ out, addrInfo (rs.length + 2) (expectBBText rs) = some out ∧
      listed out = (rs ++ [rs.getLast hne]).map fun r => nameLine r.name := by
  have hread : readRecords (rs.length + 2) (readlines (expectBBText rs)) = .done (finalState rs) := by
    rw [readlines_expectBBText]
    exact readRecords_eq hne
  have hpos := List.length_pos_of_ne_nil hne
  have hmem : ∀ f ∈ (finalState rs).heap, ∃ r ∈ rs, f = r.toFunc := by
    intro f hf
    obtain ⟨r, hr, rfl⟩ := List.mem_map.mp hf
    exact ⟨r, hr, rfl⟩
  obtain ⟨out, hout, hlisted⟩ := addrInfo_of_read hread
    (List.append_ne_nil_of_right_ne_nil _ (List.cons_ne_nil _ _)) (fun func hfunc => by
      unfold finalState at hfunc ⊢
      rw [List.length_map]
      simp only [List.mem_append, List.mem_range, List.mem_singleton] at hfunc
      omega) (fun f hf => by
      obtain ⟨r, -, rfl⟩ := hmem f hf
      exact ⟨rfl, List.length_pos_of_ne_nil r.nonempty⟩) (fun f hf => by
      obtain ⟨r, -, rfl⟩ := hmem f hf
      exact r.oneLine.newline)
  refine ⟨out, hout, ?_⟩
  rw [hlisted, entries_finalState hne, ← List.map_singleton, ← List.map_append, List.map_map]
  rfl

/-- **Every file is read with one entry too many.** The loop ends with the last record twice, and the
output file lists the last function twice. -/
theorem not_readsEachOnce {rs : List BBRecord} (hne : rs ≠ []) :
    ¬ ReadsEachOnce rs ∧ ¬ ListsEachOnce rs := by
  have hread : readRecords (rs.length + 2) (readlines (expectBBText rs)) = .done (finalState rs) := by
    rw [readlines_expectBBText]
    exact readRecords_eq hne
  constructor
  · rintro ⟨n, s, hs, hentries⟩
    rw [Loop.run_done_unique hs hread, entries_finalState hne] at hentries
    have hlen := congrArg List.length hentries
    rw [List.length_append, List.length_singleton] at hlen
    omega
  · rintro ⟨n, out, hout, hlisted⟩
    obtain ⟨out', hout', hlisted'⟩ := addrInfo_expectBBText hne
    have hsame : out = out' := by
      unfold addrInfo at hout hout'
      obtain ⟨s, hs, hout⟩ := Option.bind_eq_some_iff.mp hout
      obtain ⟨s', hs', hout'⟩ := Option.bind_eq_some_iff.mp hout'
      obtain rfl := Loop.run_done_unique (Loop.Outcome.eq_done_of_final? hs)
        (Loop.Outcome.eq_done_of_final? hs')
      exact Option.some.inj (hout.symm.trans hout')
    rw [← hsame, hlisted, List.map_append] at hlisted'
    have hlen := congrArg List.length hlisted'
    rw [List.length_append, List.length_map, List.length_map, List.length_singleton] at hlen
    omega

def sumRecord : BBRecord where
  name := "Sum".toList
  bbSize := [6, 4]
  oneLine := by decide

/-- A file with one record is read into two entries. -/
theorem readsTwice_sum : ¬ ReadsEachOnce [sumRecord] ∧
    (addrInfo 3 (expectBBText [sumRecord])).map listed =
      some ["func name: Sum".toList, "func name: Sum".toList] := by
  have hread : readRecords 3 (readlines (expectBBText [sumRecord])) =
      .done { heap := [sumRecord.toFunc], func := some 0, funcs := [0, 0], startLine := 4 } := by
    decide
  refine ⟨?_, by decide⟩
  rintro ⟨n, s, hs, hentries⟩
  rw [Loop.run_done_unique hs hread] at hentries
  revert hentries
  decide

theorem not_readsEachOnce_pair :
    ¬ ReadsEachOnce [sumRecord, { name := "main".toList, bbSize := [12] }] ∧
      ¬ ListsEachOnce [sumRecord, { name := "main".toList, bbSize := [12] }] :=
  not_readsEachOnce (List.cons_ne_nil _ _)

end MpuPasses
