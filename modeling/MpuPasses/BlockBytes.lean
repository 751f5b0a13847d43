import MpuPasses.Lib.Cut
import MpuPasses.Thumb

/-!
# The bytes of the blocks

`BB_check1.py` cuts a function after every branch or return and takes the distance of the two
addresses plus 2 for the size of the block. `bbLoop_eq` says what the loop records for any
instructions with operands; `measuresBlocks_iff` compares it with the bytes of the blocks, and
`blockSizes_sum` with the size that `function_size.py` takes for the function.
-/

namespace MpuPasses

open Chars

/-! ## Runs of instructions -/

/-- The next instruction follows without a gap. -/
def Insn.Next (i j : Insn) : Prop := j.addr = i.addr + i.size

instance : DecidableRel Insn.Next := fun _ _ => by unfold Insn.Next; infer_instance

def bytes (is : List Insn) : ℕ := (is.map Insn.size).sum

/-- The address of the first instruction. -/
def startAddr (is : List Insn) : ℕ := (is.head?.map Insn.addr).getD 0

/-- The size that the script records for a block: its last address less its first, and 2. -/
def recordedSize (b : List Insn) : ℤ :=
  ((b.getLast?.map Insn.addr).getD 0 : ℕ) - startAddr b + 2

theorem bytes_append (is js : List Insn) : bytes (is ++ js) = bytes is + bytes js := by
  unfold bytes
  rw [List.map_append, List.sum_append]

theorem bytes_flatten (blocks : List (List Insn)) : bytes blocks.flatten = (blocks.map bytes).sum := by
  induction blocks with
  | nil => rfl
  | cons b blocks ih => rw [List.flatten_cons, bytes_append, ih, List.map_cons, List.sum_cons]

/-- In consecutive instructions an address is the start plus the bytes in front. -/
theorem addr_eq_of_isChain {front : List Insn} {i : Insn} (h : (front ++ [i]).IsChain Insn.Next) :
    i.addr = startAddr (front ++ [i]) + bytes front := by
  induction front with
  | nil => rfl
  | cons j front ih =>
    have haddr := ih (List.isChain_of_isChain_cons h)
    have hnext : startAddr (front ++ [i]) = j.addr + j.size := by
      cases front with
      | nil => exact (List.isChain_cons_cons.mp h).1
      | cons k front => exact (List.isChain_cons_cons.mp h).1
    rw [haddr, hnext]
    unfold bytes startAddr
    simp [Nat.add_assoc]

/-- What is recorded for a block is right up to the two bytes of a long last instruction. -/
theorem recordedSize_eq {front : List Insn} {t : Insn} (h : (front ++ [t]).IsChain Insn.Next) :
    recordedSize (front ++ [t]) = bytes (front ++ [t]) - t.size + 2 := by
  unfold recordedSize
  rw [List.getLast?_concat, Option.map_some, Option.getD_some, addr_eq_of_isChain h, bytes_append]
  simp [bytes]

/-- The sizes recorded for the blocks are right exactly if every one ends in two bytes. -/
theorem map_recordedSize_eq_iff {is rest : List Insn} {blocks : List (List Insn)}
    (hcut : Cut.IsCut Insn.IsTerminator is blocks rest) (hnext : is.IsChain Insn.Next) :
    blocks.map recordedSize = blocks.map (fun b => (bytes b : ℤ)) ↔
      ∀ i ∈ is, i.IsTerminator → i.size = 2 := by
  rw [List.map_inj_left]
  constructor
  · intro h i hi hterm
    obtain ⟨front, hfront⟩ := hcut.exists_end hi hterm
    have hrec := h _ hfront
    rw [recordedSize_eq (hcut.isChain hnext hfront)] at hrec
    omega
  · intro h b hb
    obtain ⟨front, t, rfl, hterm, -⟩ := hcut.ends b hb
    have ht : t ∈ is := (hcut.isInfix hb).subset (by simp)
    rw [recordedSize_eq (hcut.isChain hnext hb), h t ht hterm]
    omega

/-! ## The loop -/

variable {lines : List Str} {f : Symbol} {is : List Insn}

theorem Insn.not_lacksThird {i : Insn} (h : i.operands ≠ []) : ¬ i.LacksThird :=
  fun hlacks => h hlacks.2.1

/-- One line of the loop, with the first line of the open block at hand. -/
theorem bbStep_insn {s : BBState} {i a : Insn} (hops : i.operands ≠ [])
    (hstart : lines[s.bbStart]? = some a.line) (hend : lines[s.bbEnd]? = some i.line) :
    bbStep lines s i.line = some (
      if i.IsTerminator then
        { bbStart := s.bbEnd + 1, bbEnd := s.bbEnd + 1, bbCnt := s.bbCnt + 1,
          bbSize := s.bbSize ++ [(i.addr : ℤ) - a.addr + 2] }
      else { s with bbEnd := s.bbEnd + 1 }) := by
  have hends : endsBlock i.item.words = some (decide i.IsTerminator) :=
    i.endsBlock_words.trans (if_neg (Insn.not_lacksThird hops))
  have hstep := bbStep_eq i.item hstart hend
  rw [hends, Option.map_some] at hstep
  simp only [decide_eq_true_eq] at hstep
  exact hstep

/-- **The loop.** With `done` behind it and `cur` open it records the blocks of the lines to come. -/
theorem bbLoop_eq (done cur : List Insn) {todo : List Insn} (s : BBState)
    (hops : ∀ i ∈ todo, i.operands ≠ []) (hlines : lines = (done ++ cur ++ todo).map Insn.line)
    (hstart : s.bbStart = done.length) (hend : s.bbEnd = (done ++ cur).length) :
    ∃ t, Loop.forEach (bbStep lines) s (todo.map Insn.line) = some t ∧
      t.bbCnt = s.bbCnt + (Cut.blocksFrom Insn.IsTerminator cur todo).length ∧
      t.bbSize = s.bbSize ++ (Cut.blocksFrom Insn.IsTerminator cur todo).map recordedSize := by
  induction todo generalizing done cur s with
  | nil => exact ⟨s, rfl, by simp [Cut.blocksFrom], by simp [Cut.blocksFrom]⟩
  | cons i todo ih =>
    obtain ⟨hi, htodo⟩ := List.forall_mem_cons.mp hops
    obtain ⟨a, ha⟩ : ∃ a, (cur ++ [i]).head? = some a := by
      cases cur with
      | nil => exact ⟨i, rfl⟩
      | cons a cur => exact ⟨a, rfl⟩
    have hfirst : lines[s.bbStart]? = some a.line := by
      have hhead : (cur ++ i :: todo).head? = some a := by
        rw [List.append_cons, List.head?_append, ha]
        rfl
      rw [hlines, hstart, List.append_assoc, List.map_append, List.getElem?_append_right (by simp),
        List.length_map, Nat.sub_self, ← List.head?_eq_getElem?, List.head?_map, hhead]
      rfl
    have hcurrent : lines[s.bbEnd]? = some i.line := by
      rw [hlines, hend, List.map_append, List.getElem?_append_right (by simp)]
      simp
    rw [List.map_cons, Loop.forEach_cons, bbStep_insn hi hfirst hcurrent, Option.bind_some]
    by_cases hterm : i.IsTerminator
    · -- the block is closed, and a new one begins behind it
      rw [if_pos hterm, Cut.blocksFrom_cons_of_pos hterm]
      obtain ⟨t, hrun, hcnt, hsize⟩ := ih (done ++ cur ++ [i]) []
        { bbStart := s.bbEnd + 1, bbEnd := s.bbEnd + 1, bbCnt := s.bbCnt + 1,
          bbSize := s.bbSize ++ [(i.addr : ℤ) - a.addr + 2] }
        htodo (by rw [hlines]; simp) (by simp [hend]; omega) (by simp [hend]; omega)
      refine ⟨t, hrun, ?_, ?_⟩
      · rw [hcnt, List.length_cons]
        dsimp only
        omega
      · have hrec : recordedSize (cur ++ [i]) = (i.addr : ℤ) - a.addr + 2 := by
          unfold recordedSize startAddr
          rw [ha, List.getLast?_concat]
          rfl
        rw [hsize, List.map_cons, hrec]
        simp
    · rw [if_neg hterm, Cut.blocksFrom_cons_of_neg hterm]
      exact ih done (cur ++ [i]) { s with bbEnd := s.bbEnd + 1 } htodo (by rw [hlines]; simp) hstart
        (by simp [hend]; omega)

/-- The loop records the blocks of the instructions up to the one that stops the scan. -/
theorem Found.bbBlocks_insns (h : Found lines f) (his : f.items = is.map Insn.item)
    (hops : ∀ i ∈ is, i.operands ≠ []) :
    ∃ s, bbBlocks lines f.name = some s ∧
      s.bbCnt = (Cut.blocksFrom Insn.IsTerminator []
        (is.take (stopIndex lines.getLast? f.items + 1))).length ∧
      s.bbSize = (Cut.blocksFrom Insn.IsTerminator []
        (is.take (stopIndex lines.getLast? f.items + 1))).map recordedSize := by
  have hlines : bbLines lines f.name =
      (is.take (stopIndex lines.getLast? f.items + 1)).map Insn.line := by
    rw [h.bbLines_eq]
    generalize stopIndex lines.getLast? f.items + 1 = k
    rw [his, ← List.map_take, List.map_map]
    rfl
  obtain ⟨s, hrun, hcnt, hsize⟩ := bbLoop_eq [] [] {}
    (fun i hi => hops i (List.mem_of_mem_take hi)) hlines rfl rfl
  rw [← hlines] at hrun
  exact ⟨s, hrun, by simpa using hcnt, by simpa using hsize⟩

/-! ## What is measured -/

/-- The function is cut into blocks that end at its branches and returns, and the size recorded for a
block is the number of its bytes. So many bytes lead from its start to the next instruction, and all
of them from the start of the function to the end of the last terminator. -/
def MeasuresBlocks (lines : List Str) (name : Str) (is : List Insn) : Prop :=
  ∃ (s : BBState) (blocks : List (List Insn)) (rest : List Insn), bbBlocks lines name = some s ∧
    Cut.IsCut Insn.IsTerminator is blocks rest ∧
    s.bbCnt = blocks.length ∧
    s.bbSize = blocks.map (fun b => (bytes b : ℤ)) ∧
    (∀ (before : List (List Insn)) (b : List Insn) (after : List (List Insn)),
      blocks = before ++ b :: after → ∀ size ∈ s.bbSize[before.length]?,
        ∀ next ∈ (after.flatten ++ rest).head?, startAddr b + size = next.addr) ∧
    ∀ t ∈ blocks.flatten.getLast?, s.bbSize.sum = t.addr + t.size - startAddr is

theorem startAddr_append {is : List Insn} (h : is ≠ []) (js : List Insn) :
    startAddr (is ++ js) = startAddr is := by
  unfold startAddr
  rw [List.head?_append_of_ne_nil _ h]

/-- With the right sizes, the blocks lie one behind the other. -/
theorem startAddr_add_bytes {blocks : List (List Insn)} {rest : List Insn}
    (hcut : Cut.IsCut Insn.IsTerminator is blocks rest) (hnext : is.IsChain Insn.Next)
    {before after : List (List Insn)} {b : List Insn} (hb : blocks = before ++ b :: after)
    {next : Insn} (hmem : next ∈ (after.flatten ++ rest).head?) :
    startAddr b + bytes b = next.addr := by
  obtain ⟨tl, htl⟩ : ∃ tl, after.flatten ++ rest = next :: tl := List.head?_eq_some_iff.mp hmem
  have hparts : before.flatten ++ ((b ++ [next]) ++ tl) = is := by
    rw [← hcut.parts, hb, List.flatten_append, List.flatten_cons, List.append_assoc b,
      List.append_assoc, List.append_assoc b, htl, List.singleton_append]
  have hchain : (b ++ [next]).IsChain Insn.Next := by
    rw [← hparts] at hnext
    exact hnext.right_of_append.left_of_append
  obtain ⟨front, t, hfront, -⟩ := hcut.ends b (by rw [hb]; simp)
  rw [addr_eq_of_isChain hchain, startAddr_append (by simp [hfront])]

theorem bytes_flatten_eq {blocks : List (List Insn)} {rest : List Insn}
    (hcut : Cut.IsCut Insn.IsTerminator is blocks rest) (hnext : is.IsChain Insn.Next)
    {t : Insn} (ht : t ∈ blocks.flatten.getLast?) :
    startAddr is + bytes blocks.flatten = t.addr + t.size := by
  obtain ⟨front, hfront⟩ := List.getLast?_eq_some_iff.mp ht
  have hchain : (front ++ [t]).IsChain Insn.Next := by
    rw [← hcut.parts, hfront] at hnext
    exact hnext.left_of_append
  rw [← hcut.parts, hfront, startAddr_append (by simp), addr_eq_of_isChain hchain, bytes_append]
  simp [bytes, Nat.add_assoc]

/-- No terminator is missed exactly when none stands behind a line that reads like the last one. -/
theorem forall_mem_missed_iff (last : Option Str) (is : List Insn) :
    (∀ i ∈ is.drop (stopIndex last (is.map Insn.item) + 1), ¬ i.IsTerminator) ↔
      is.Pairwise fun i j => j.IsTerminator → some i.line ≠ last := by
  have hstop : stopIndex last (is.map Insn.item) =
      is.dropLast.findIdx fun i => decide (some i.line = last) := by
    unfold stopIndex
    rw [← List.map_dropLast, List.findIdx_map]
    rfl
  rw [hstop, Cut.forall_mem_drop_findIdx_iff]
  simp only [decide_eq_false_iff_not, ne_eq]

/-- **The sizes of the blocks.** They are right for a function of consecutive instructions with
operands exactly when all its branches and returns have two bytes and none stands behind a line that
reads like the last line of the file. -/
theorem measuresBlocks_iff (L : Listing) (hf : f ∈ L.symbols) (his : f.items = is.map Insn.item)
    (hops : ∀ i ∈ is, i.operands ≠ []) (hnext : is.IsChain Insn.Next) :
    MeasuresBlocks L.lines f.name is ↔ (∀ i ∈ is, i.IsTerminator → i.size = 2) ∧
      is.Pairwise fun i j => j.IsTerminator → some i.line ≠ L.lines.getLast? := by
  obtain ⟨h⟩ := L.nonempty_found hf
  obtain ⟨s, hrun, hcnt, hsize⟩ := h.bbBlocks_insns his hops
  rw [← forall_mem_missed_iff, ← his]
  generalize stopIndex L.lines.getLast? f.items + 1 = k at hcnt hsize
  constructor
  · rintro ⟨s', blocks, rest, hrun', hcut, hcnt', hsize', -⟩
    obtain rfl : s = s' := Option.some.inj (hrun.symm.trans hrun')
    have hblocks := hcut.unique
    have hmissed := Cut.forall_mem_drop_of_length_eq (hcnt.symm.trans (hblocks ▸ hcnt'))
    rw [hsize, Cut.blocksFrom_take hmissed, ← hblocks] at hsize'
    exact ⟨(map_recordedSize_eq_iff hcut hnext).mp hsize', hmissed⟩
  · rintro ⟨hshort, hmissed⟩
    have hcut := Cut.isCut_blocksFrom_nil Insn.IsTerminator is
    rw [Cut.blocksFrom_take hmissed] at hcnt hsize
    have hsize' := hsize.trans ((map_recordedSize_eq_iff hcut hnext).mpr hshort)
    refine ⟨s, _, _, hrun, hcut, hcnt, hsize', ?_, ?_⟩
    · intro before b after hb size hmem next hnext'
      have hsz : size = bytes b := by
        rw [hsize', hb] at hmem
        simpa using hmem.symm
      rw [hsz]
      exact_mod_cast startAddr_add_bytes hcut hnext hb hnext'
    · intro t ht
      have hsum : s.bbSize.sum = (bytes (Cut.blocksFrom Insn.IsTerminator [] is).flatten : ℤ) := by
        rw [hsize', bytes_flatten, Nat.cast_list_sum, List.map_map]
        rfl
      have hend := bytes_flatten_eq hcut hnext ht
      rw [hsum]
      omega

/-- Two blocks, the first of which ends in a branch of four bytes. -/
def jumpInsns : List Insn := [
  { addr := 0x8004000, pad := 1, enc := .narrow 0x2002, mnemonic := "movs".toList,
    operands := "r0, #2".toList },
  { addr := 0x8004002, pad := 1, enc := .wide 0xf7ff 0xbffd, mnemonic := "b.w".toList,
    operands := "8004000 <Sum>".toList },
  bxAt 0x8004006 (by decide)]

def jumpSymbol : Symbol where
  pad := 1
  addr := 0x8004000
  name := "Sum".toList
  items := jumpInsns.map Insn.item
  after := ["\n".toList]
  name_lt := wideSymbol.name_lt
  name_gt := wideSymbol.name_gt
  blank := wideSymbol.blank
  plain := wideSymbol.plain

/-- Two blocks that end in two bytes each. -/
def popInsns : List Insn := [
  movwInsn 0x8004008 (by decide),
  { addr := 0x800400c, pad := 1, enc := .narrow 0xe7ff, mnemonic := "b.n".toList,
    operands := "800400e <main+0x6>".toList },
  { addr := 0x800400e, pad := 1, enc := .narrow 0xbd80, mnemonic := "pop".toList,
    operands := "\x7br7, pc\x7d".toList }]

def popSymbol : Symbol where
  pad := 1
  addr := 0x8004008
  name := mainName
  items := popInsns.map Insn.item
  after := []
  name_lt := narrowSymbol.name_lt
  name_gt := narrowSymbol.name_gt
  blank := mainSymbol.blank
  plain := mainSymbol.plain

def jumpListing : Listing where
  preamble := ["\n".toList]
  symbols := [jumpSymbol, popSymbol]
  plain := wideSymbol.plain

/-- The script records 4 bytes for a first block of 6. -/
theorem not_measuresBlocks_jump : jumpSymbol ∈ jumpListing.symbols ∧
    jumpSymbol.items = jumpInsns.map Insn.item ∧ (∀ i ∈ jumpInsns, i.operands ≠ []) ∧
    jumpInsns.IsChain Insn.Next ∧
    ¬ MeasuresBlocks jumpListing.lines jumpSymbol.name jumpInsns := by
  refine ⟨List.mem_cons_self, rfl, by decide, by decide, ?_⟩
  rintro ⟨s, blocks, rest, hrun, hcut, -, hsize, -⟩
  have hrecorded : (bbBlocks jumpListing.lines jumpSymbol.name).map BBState.bbSize = some [4, 2] := by
    decide
  rw [hrun, Option.map_some, hsize, hcut.unique] at hrecorded
  revert hrecorded; decide

theorem measuresBlocks_pop : MeasuresBlocks jumpListing.lines popSymbol.name popInsns :=
  (measuresBlocks_iff jumpListing (List.mem_cons_of_mem _ List.mem_cons_self) rfl (by decide)
    (by decide)).mpr ⟨by decide, by decide⟩

/-! ## Both scripts -/

/-- The instructions up to the one that stops the scan. -/
def readInsns (last : Option Str) (is : List Insn) : List Insn :=
  is.take (stopIndex last (is.map Insn.item) + 1)

/-- The bytes that the branches and returns have beyond two each. -/
def surplus (is : List Insn) : ℕ :=
  ((is.filter fun i => decide i.IsTerminator).map fun i => i.size - 2).sum

theorem surplus_append (is js : List Insn) : surplus (is ++ js) = surplus is + surplus js := by
  unfold surplus
  rw [List.filter_append, List.map_append, List.sum_append]

theorem surplus_of_open {is : List Insn} (h : ∀ i ∈ is, ¬ i.IsTerminator) : surplus is = 0 := by
  unfold surplus
  rw [List.filter_eq_nil_iff.mpr fun i hi => by simpa using h i hi]
  rfl

theorem surplus_singleton {t : Insn} (ht : t.IsTerminator) : surplus [t] = t.size - 2 := by
  simp [surplus, ht]

theorem surplus_eq_zero_iff : surplus is = 0 ↔ ∀ i ∈ is, i.IsTerminator → i.size = 2 := by
  unfold surplus
  rw [List.sum_eq_zero_iff, List.forall_mem_map]
  refine forall_congr' fun i => ?_
  rw [List.mem_filter, decide_eq_true_eq, and_imp]
  have hsize := i.enc.size_eq
  refine imp_congr_right fun _ => imp_congr_right fun _ => ?_
  show i.enc.size - 2 = 0 ↔ i.enc.size = 2
  omega

/-- The sizes recorded for the blocks lack what the branches and returns have beyond two bytes. -/
theorem sum_recordedSize {blocks : List (List Insn)} {rest : List Insn}
    (hcut : Cut.IsCut Insn.IsTerminator is blocks rest) (hnext : is.IsChain Insn.Next) :
    (blocks.map recordedSize).sum + surplus is = bytes blocks.flatten := by
  have hchain : ∀ b ∈ blocks, b.IsChain Insn.Next := fun b hb => hcut.isChain hnext hb
  obtain ⟨rfl, hends, hopen⟩ := hcut
  rw [surplus_append, surplus_of_open hopen, Nat.add_zero]
  clear hnext hopen
  induction blocks with
  | nil => rfl
  | cons b blocks ih =>
    obtain ⟨⟨front, t, rfl, ht, hfront⟩, hends'⟩ := List.forall_mem_cons.mp hends
    obtain ⟨hb, hchain'⟩ := List.forall_mem_cons.mp hchain
    have hrest := ih hchain' hends'
    have hsize : 2 ≤ t.size := by
      have h := t.enc.size_eq
      unfold Insn.size
      omega
    rw [List.map_cons, List.sum_cons, List.flatten_cons, surplus_append, surplus_append,
      surplus_of_open hfront, surplus_singleton ht, bytes_append, recordedSize_eq hb]
    omega

section Read

variable {front : List Insn} {t : Insn}

/-- An instruction at the end that is no branch or return is in no block. -/
theorem sum_blocksFrom_le (hnext : (front ++ [t]).IsChain Insn.Next) (ht : ¬ t.IsTerminator) :
    ((Cut.blocksFrom Insn.IsTerminator [] (front ++ [t])).map recordedSize).sum ≤ bytes front := by
  have hopen : ∀ x ∈ [t], ¬ x.IsTerminator := fun x hx => List.mem_singleton.mp hx ▸ ht
  have hcut := Cut.isCut_blocksFrom_nil Insn.IsTerminator front
  have hsum := sum_recordedSize hcut hnext.left_of_append
  have hbytes := congrArg bytes hcut.parts
  rw [bytes_append] at hbytes
  rw [Cut.blocksFrom_append_open hopen]
  omega

/-- With a branch or return at the end all instructions are in blocks. -/
theorem sum_blocksFrom_eq (hnext : (front ++ [t]).IsChain Insn.Next) (ht : t.IsTerminator) :
    ((Cut.blocksFrom Insn.IsTerminator [] (front ++ [t])).map recordedSize).sum + surplus front =
      bytes front + 2 := by
  have hcut := Cut.isCut_blocksFrom_nil Insn.IsTerminator (front ++ [t])
  have hsum := sum_recordedSize hcut hnext
  have hrest : Cut.restFrom Insn.IsTerminator [] (front ++ [t]) = [] := by
    rcases List.eq_nil_or_concat (Cut.restFrom Insn.IsTerminator [] (front ++ [t])) with
      hnil | ⟨r, x, hr⟩
    · exact hnil
    · have hparts := hcut.parts
      rw [hr, List.concat_eq_append, ← List.append_assoc] at hparts
      have hx : x = t := List.singleton_inj.mp (List.append_inj' hparts rfl).2
      exact absurd ht (hcut.rest_open t (by rw [hr, hx]; simp))
  have hparts := hcut.parts
  rw [hrest, List.append_nil] at hparts
  have hsize : 2 ≤ t.size := by
    have h := t.enc.size_eq
    unfold Insn.size
    omega
  rw [hparts, surplus_append, surplus_singleton ht, bytes_append] at hsum
  have hone : bytes [t] = t.size := by simp [bytes]
  omega

theorem exists_end_iff : (∃ front' t', front ++ [t] = front' ++ [t'] ∧ t'.IsTerminator ∧
      ∀ i ∈ front', i.IsTerminator → i.size = 2) ↔ t.IsTerminator ∧ surplus front = 0 := by
  rw [surplus_eq_zero_iff]
  constructor
  · rintro ⟨front', t', heq, ht, hfront⟩
    obtain ⟨rfl, hone⟩ := List.append_inj' heq rfl
    obtain rfl := List.singleton_inj.mp hone
    exact ⟨ht, hfront⟩
  · exact fun ⟨ht, hfront⟩ => ⟨front, t, rfl, ht, hfront⟩

end Read

/-- The addresses that `function_size.py` takes are those of the first and the last instruction that is
read. -/
theorem Symbol.exists_read (f : Symbol) (last : Option Str) (his : f.items = is.map Insn.item) :
    ∃ front t, readInsns last is = front ++ [t] ∧ (f.stop last).addr = t.addr ∧
      f.first.addr = startAddr (front ++ [t]) := by
  have hlt := stopIndex_lt last f.nonempty
  have hstop : f.items[stopIndex last f.items]? = some (f.stop last) := List.getElem?_eq_getElem hlt
  have hfirst : f.items.head? = some f.first := List.head?_eq_some_head f.nonempty
  have hread : readInsns last is = is.take (stopIndex last f.items + 1) := by
    unfold readInsns
    rw [his]
  rw [hread]
  generalize stopIndex last f.items = n at hstop
  rw [his, List.getElem?_map] at hstop
  rw [his, List.head?_map] at hfirst
  obtain ⟨t, ht, hstop⟩ := Option.map_eq_some_iff.mp hstop
  obtain ⟨i, hi, hfirst⟩ := Option.map_eq_some_iff.mp hfirst
  have htake : is.take (n + 1) = is.take n ++ [t] := by
    rw [List.take_add_one, ht]
    rfl
  refine ⟨is.take n, t, htake, ?_, ?_⟩
  · rw [← hstop]
    rfl
  · rw [← htake, ← hfirst]
    unfold startAddr
    rw [List.head?_take, if_neg (Nat.succ_ne_zero n), hi]
    rfl

/-- **Both scripts measure a function.** Where a blank line follows, the sizes of the blocks never add up
to more than the size of the function. They add up to it exactly if the last instruction that is read is
a branch or return and every branch or return before it has two bytes. -/
theorem blockSizes_sum (L : Listing) (hf : f ∈ L.symbols) (his : f.items = is.map Insn.item)
    (hops : ∀ i ∈ is, i.operands ≠ []) (hnext : is.IsChain Insn.Next) (hafter : f.after ≠ []) :
    ∃ s size, bbBlocks L.lines f.name = some s ∧ functionSizeOf L.lines f.name = some size ∧
      s.bbSize.sum ≤ size ∧ (s.bbSize.sum = size ↔ ∃ front t,
        readInsns L.lines.getLast? is = front ++ [t] ∧ t.IsTerminator ∧
          ∀ i ∈ front, i.IsTerminator → i.size = 2) := by
  obtain ⟨h⟩ := L.nonempty_found hf
  obtain ⟨s, hrun, -, hsize⟩ := h.bbBlocks_insns his hops
  obtain ⟨front, t, hread, hlast, hfirst⟩ := f.exists_read L.lines.getLast? his
  have hchain : (front ++ [t]).IsChain Insn.Next := hread ▸ hnext.take _
  have hblocks : s.bbSize =
      (Cut.blocksFrom Insn.IsTerminator [] (front ++ [t])).map recordedSize := by
    rw [← hread, hsize, his]
    rfl
  have haddr := addr_eq_of_isChain hchain
  refine ⟨s, _, hrun, h.functionSizeOf_eq hafter, ?_⟩
  rw [hblocks, hlast, hfirst, haddr, hread]
  rw [exists_end_iff]
  by_cases ht : t.IsTerminator
  · have hsum := sum_blocksFrom_eq hchain ht
    refine ⟨by push_cast; omega, ?_⟩
    rw [and_iff_right ht]
    push_cast
    omega
  · have hsum := sum_blocksFrom_le hchain ht
    refine ⟨by push_cast; omega, ?_⟩
    refine iff_of_false ?_ fun h => ht h.1
    push_cast
    omega

theorem blockSizes_sum_jump : ∃ s size, bbBlocks jumpListing.lines jumpSymbol.name = some s ∧
    functionSizeOf jumpListing.lines jumpSymbol.name = some size ∧ s.bbSize.sum ≤ size ∧
      (s.bbSize.sum = size ↔ ∃ front t,
        readInsns jumpListing.lines.getLast? jumpInsns = front ++ [t] ∧ t.IsTerminator ∧
          ∀ i ∈ front, i.IsTerminator → i.size = 2) :=
  blockSizes_sum jumpListing List.mem_cons_self rfl (by decide) (by decide) (by decide)

end MpuPasses
