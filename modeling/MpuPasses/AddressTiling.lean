import MpuPasses.Lib.Packing
import MpuPasses.AddrInfo

/-!
# The addresses of the blocks

When the entries of `Funcs` are different objects, the address loop of `Addr_info.py` puts their
blocks one behind the other from `function_start` on: `addrLoop_tiles`. The reading loop leaves the
last object in `Funcs` twice, so this is about the lists that it should have left.
-/

namespace MpuPasses

open Chars

/-- Different objects, each with blocks that have no address yet. -/
structure Records (funcs : List ℕ) (heap : List AddrFunc) : Prop where
  nonempty : funcs ≠ []
  nodup : funcs.Nodup
  known : ∀ func ∈ funcs, func < heap.length
  wellSized : ∀ func ∈ funcs, ∀ f, heap[func]? = some f → f.WellSized
  unplaced : ∀ func ∈ funcs, ∀ f, heap[func]? = some f → f.bbAddr = []

/-- The sizes of the blocks of an object. -/
def sizesAt (heap : List AddrFunc) (func : ℕ) : List ℤ :=
  (heap[func]?).elim [] AddrFunc.bbSize

/-- The blocks of all entries in order, with their addresses and sizes. -/
def placedBlocks (heap : List AddrFunc) (funcs : List ℕ) : List (ℤ × ℤ) :=
  funcs.flatMap fun func => (heap[func]?).elim [] fun f => f.bbAddr.zip f.bbSize

/-- Where the sizes of the entries before number `i` end. -/
def entryStart (heap : List AddrFunc) (funcs : List ℕ) (i : ℕ) : ℤ :=
  functionStart + ((funcs.take i).map fun func => (sizesAt heap func).sum).sum

/-- The object with its blocks placed from an address on. -/
def AddrFunc.placed (f : AddrFunc) (start : ℤ) : AddrFunc :=
  { f with startAddr := start
           bbAddr := (List.range f.bbCnt).map fun j => start + (f.bbSize.take j).sum }

/-! ## One object -/

/-- The inner loop places the blocks of an object. -/
theorem fillAddrs_eq {f : AddrFunc} (hf : f.WellSized) (haddr : f.bbAddr = []) :
    fillAddrs f = some (f.placed f.startAddr) := by
  have hpos := hf.pos
  -- before turn `j` the first `j` blocks have their addresses
  have hturn : ∀ j g, 1 ≤ j → j < 1 + (f.bbCnt - 1) →
      g = { f with bbAddr := (List.range j).map fun k => f.startAddr + (f.bbSize.take k).sum } →
      ∃ g', nextAddr g j = some g' ∧ g' =
        { f with bbAddr := (List.range (j + 1)).map fun k =>
            f.startAddr + (f.bbSize.take k).sum } := by
    rintro j g hj hlt rfl
    have hprev : j - 1 < j := by omega
    have hsize : j - 1 < f.bbSize.length := by
      rw [hf.count]
      omega
    have haddr' : ((List.range j).map fun k => f.startAddr + (f.bbSize.take k).sum)[j - 1]? =
        some (f.startAddr + (f.bbSize.take (j - 1)).sum) := by
      rw [List.getElem?_map, List.getElem?_range hprev]
      rfl
    have hnext : f.startAddr + (f.bbSize.take (j - 1)).sum + f.bbSize[j - 1] =
        f.startAddr + (f.bbSize.take j).sum := by
      rw [add_assoc, ← List.sum_take_succ f.bbSize (j - 1) hsize, Nat.sub_add_cancel hj]
    refine ⟨_, ?_, rfl⟩
    unfold nextAddr
    simp only [haddr', List.getElem?_eq_getElem hsize, Option.bind_eq_bind, Option.bind_some,
      hnext]
    rw [List.range_succ, List.map_append]
    rfl
  have hstart : ({ f with bbAddr := f.bbAddr ++ [f.startAddr] } : AddrFunc) =
      { f with bbAddr := (List.range 1).map fun k => f.startAddr + (f.bbSize.take k).sum } := by
    rw [haddr]
    simp
  obtain ⟨g, hg, rfl⟩ := Loop.forEach_range' (fun j g => g =
    { f with bbAddr := (List.range j).map fun k => f.startAddr + (f.bbSize.take k).sum })
    hturn hstart
  unfold fillAddrs
  rw [hg, show 1 + (f.bbCnt - 1) = f.bbCnt by omega]
  rfl

section Placed

variable {f : AddrFunc} {start : ℤ}

@[simp] theorem AddrFunc.placed_bbSize : (f.placed start).bbSize = f.bbSize := rfl

@[simp] theorem AddrFunc.placed_bbCnt : (f.placed start).bbCnt = f.bbCnt := rfl

@[simp] theorem AddrFunc.length_placed : (f.placed start).bbAddr.length = f.bbCnt := by
  simp [placed]

theorem AddrFunc.placed_getElem? {j : ℕ} (hj : j < f.bbCnt) :
    (f.placed start).bbAddr[j]? = some (start + (f.bbSize.take j).sum) := by
  unfold placed
  rw [List.getElem?_map, List.getElem?_range hj]
  rfl

/-- The blocks of a placed object tile its range. -/
theorem AddrFunc.tiles_placed (hf : f.WellSized) :
    Packing.Tiles start ((f.placed start).bbAddr.zip f.bbSize) (start + f.bbSize.sum) := by
  have hlen : (f.placed start).bbAddr.length = f.bbSize.length := by
    rw [length_placed, hf.count]
  have hsizes : ((f.placed start).bbAddr.zip f.bbSize).map Prod.snd = f.bbSize :=
    List.map_snd_zip hlen.ge
  have hstarts : ∀ i p, ((f.placed start).bbAddr.zip f.bbSize)[i]? = some p →
      p.1 = start + ((((f.placed start).bbAddr.zip f.bbSize).take i).map Prod.snd).sum := by
    intro i p hp
    obtain ⟨haddr, hsize⟩ := List.getElem?_zip_eq_some.mp hp
    have hi : i < f.bbCnt := hf.count ▸ (List.getElem?_eq_some_iff.mp hsize).1
    rw [placed_getElem? hi] at haddr
    rw [List.map_take, hsizes]
    exact (Option.some.inj haddr).symm
  have htiles := Packing.tiles_of_getElem? hstarts
  rwa [hsizes] at htiles

variable (start) in
/-- Where the last block of a placed object ends. -/
theorem AddrFunc.placed_last (hf : f.WellSized) :
    ∃ addr size, pyGet (f.placed start).bbAddr ((f.bbCnt : ℤ) - 1) = some addr ∧
      pyGet f.bbSize ((f.bbCnt : ℤ) - 1) = some size ∧ addr + size = start + f.bbSize.sum := by
  have hpos := hf.pos
  have hsize : f.bbCnt - 1 < f.bbSize.length := by
    rw [hf.count]
    omega
  have hcast : (f.bbCnt : ℤ) - 1 = ((f.bbCnt - 1 : ℕ) : ℤ) := by omega
  refine ⟨start + (f.bbSize.take (f.bbCnt - 1)).sum, f.bbSize[f.bbCnt - 1], ?_, ?_, ?_⟩
  · rw [hcast, pyGet_natCast, placed_getElem? (by omega)]
  · rw [hcast, pyGet_natCast, List.getElem?_eq_getElem hsize]
  · rw [add_assoc, ← List.sum_take_succ f.bbSize (f.bbCnt - 1) hsize,
      Nat.sub_add_cancel hpos, ← hf.count, List.take_length]

end Placed

/-! ## All objects -/

section Loop

variable {funcs : List ℕ} {heap : List AddrFunc}

theorem entryStart_zero : entryStart heap funcs 0 = functionStart := by simp [entryStart]

theorem entryStart_succ {i func : ℕ} {f : AddrFunc} (hfunc : funcs[i]? = some func)
    (hf : heap[func]? = some f) :
    entryStart heap funcs (i + 1) = entryStart heap funcs i + f.bbSize.sum := by
  have hsizes : sizesAt heap func = f.bbSize := by
    unfold sizesAt
    rw [hf]
    rfl
  unfold entryStart
  rw [List.take_add_one, hfunc, Option.toList_some, List.map_append, List.sum_append,
    List.map_singleton, List.sum_singleton, hsizes, add_assoc]

/-- What the object of entry `j` has become when the loop is about to enter turn `i`: the ones
before it are placed, its own has the address to start from. -/
def turnObject (heap : List AddrFunc) (funcs : List ℕ) (i j : ℕ) (f : AddrFunc) : AddrFunc :=
  if j < i then f.placed (entryStart heap funcs j)
  else if j = i then { f with startAddr := entryStart heap funcs j }
  else f

/-- The invariant of the loop over the entries. -/
def PlacedTo (heap : List AddrFunc) (funcs : List ℕ) (i : ℕ) (now : List AddrFunc) : Prop :=
  ∀ j func f, funcs[j]? = some func → heap[func]? = some f →
    now[func]? = some (turnObject heap funcs i j f)

theorem Records.eq_of_getElem? (h : Records funcs heap) {i j func : ℕ}
    (hi : funcs[i]? = some func) (hj : funcs[j]? = some func) : i = j :=
  (List.getElem?_inj (List.getElem?_eq_some_iff.mp hi).1 h.nodup).mp (hi.trans hj.symm)

theorem Records.exists_getElem? (h : Records funcs heap) {i : ℕ} (hi : i < funcs.length) :
    ∃ func f, funcs[i]? = some func ∧ heap[func]? = some f := by
  have hlt := h.known _ (List.getElem_mem hi)
  exact ⟨_, _, List.getElem?_eq_getElem hi, List.getElem?_eq_getElem hlt⟩

/-- The hand-over of an address to the object of one entry. -/
theorem placedTo_modify (h : Records funcs heap) {i next : ℕ} {now : List AddrFunc}
    (hnext : funcs[i]? = some next)
    (hnow : ∀ j func f, funcs[j]? = some func → heap[func]? = some f →
      now[func]? = some (if j < i then f.placed (entryStart heap funcs j) else f)) :
    PlacedTo heap funcs i
      (now.modify next fun g => { g with startAddr := entryStart heap funcs i }) := by
  intro j func f hfunc hf
  rw [List.getElem?_modify, hnow j func f hfunc hf]
  unfold turnObject
  by_cases hji : j = i
  · subst hji
    obtain rfl := Option.some.inj (hnext.symm.trans hfunc)
    simp
  · have hne : next ≠ func := by
      rintro rfl
      exact hji (h.eq_of_getElem? hfunc hnext)
    simp [hji, hne]

/-- The assignment of the placed object: the entries up to this one are placed, the others are
untouched. -/
theorem placedTo_set (h : Records funcs heap) {i func : ℕ} {f : AddrFunc} {now : List AddrFunc}
    (hfunc : funcs[i]? = some func) (hf : heap[func]? = some f) (hnow : PlacedTo heap funcs i now) :
    ∀ j func' f', funcs[j]? = some func' → heap[func']? = some f' →
      (now.set func (f.placed (entryStart heap funcs i)))[func']? =
        some (if j < i + 1 then f'.placed (entryStart heap funcs j) else f') := by
  intro j func' f' hfunc' hf'
  by_cases hji : j = i
  · subst hji
    obtain rfl := Option.some.inj (hfunc.symm.trans hfunc')
    obtain rfl := Option.some.inj (hf.symm.trans hf')
    have hlt := (List.getElem?_eq_some_iff.mp (hnow j func f hfunc hf)).1
    rw [List.getElem?_set_self hlt, if_pos (Nat.lt_succ_self j)]
  · have hne : func ≠ func' := by
      rintro rfl
      exact hji (h.eq_of_getElem? hfunc' hfunc)
    rw [List.getElem?_set_ne hne, hnow j func' f' hfunc' hf']
    unfold turnObject
    by_cases hlt : j < i
    · rw [if_pos hlt, if_pos (by omega)]
    · rw [if_neg hlt, if_neg hji, if_neg (by omega)]

/-- One turn places the object of its entry and hands its end over to the next one. -/
theorem addrStep_eq (h : Records funcs heap) {i : ℕ} (hi : i < funcs.length)
    {now : List AddrFunc} (hnow : PlacedTo heap funcs i now) :
    ∃ now', addrStep funcs now i = some now' ∧ PlacedTo heap funcs (i + 1) now' := by
  obtain ⟨func, f, hfunc, hf⟩ := h.exists_getElem? hi
  have hmem := List.mem_of_getElem? hfunc
  have hwell := h.wellSized func hmem f hf
  have hget : now[func]? = some { f with startAddr := entryStart heap funcs i } := by
    rw [hnow i func f hfunc hf]
    simp [turnObject]
  have hfill : fillAddrs { f with startAddr := entryStart heap funcs i } =
      some (f.placed (entryStart heap funcs i)) :=
    fillAddrs_eq ⟨hwell.count, hwell.pos⟩ (h.unplaced func hmem f hf)
  have hset := placedTo_set h hfunc hf hnow
  obtain ⟨addr, size, haddr, hsize, hend⟩ :=
    AddrFunc.placed_last (entryStart heap funcs i) hwell
  unfold addrStep
  simp only [hfunc, hget, hfill, Option.bind_eq_bind, Option.bind_some]
  split_ifs with hlast
  · obtain ⟨next, f', hnext, -⟩ := h.exists_getElem? (i := i + 1) (by omega)
    have hstart : addr + size = entryStart heap funcs (i + 1) := by
      rw [hend, entryStart_succ hfunc hf]
    simp only [AddrFunc.placed_bbCnt, AddrFunc.placed_bbSize, haddr, hsize, hnext,
      Option.bind_some, hstart]
    exact ⟨_, rfl, placedTo_modify h hnext hset⟩
  · refine ⟨_, rfl, ?_⟩
    intro j func' f' hfunc' hf'
    have hj := (List.getElem?_eq_some_iff.mp hfunc').1
    rw [hset j func' f' hfunc' hf', if_pos (by omega)]
    unfold turnObject
    rw [if_pos (by omega)]

/-- The loop places every object. -/
theorem addrLoop_eq (h : Records funcs heap) :
    ∃ heap', addrLoop funcs heap = some heap' ∧ ∀ (i func : ℕ) (f : AddrFunc),
      funcs[i]? = some func → heap[func]? = some f →
        heap'[func]? = some (f.placed (entryStart heap funcs i)) := by
  obtain ⟨first, f, hfirst, -⟩ := h.exists_getElem? (List.length_pos_of_ne_nil h.nonempty)
  have hstart : PlacedTo heap funcs 0
      (heap.modify first fun g => { g with startAddr := functionStart }) := by
    have hzero : entryStart heap funcs 0 = functionStart := entryStart_zero
    rw [← hzero]
    apply placedTo_modify h hfirst
    intro j func f _ hf
    rw [hf, if_neg (Nat.not_lt_zero j)]
  have hturn : ∀ i now, 0 ≤ i → i < 0 + funcs.length → PlacedTo heap funcs i now →
      ∃ now', addrStep funcs now i = some now' ∧ PlacedTo heap funcs (i + 1) now' :=
    fun i now _ hi hnow => addrStep_eq h (by omega) hnow
  obtain ⟨heap', hloop, hplaced⟩ := Loop.forEach_range' (PlacedTo heap funcs) hturn hstart
  refine ⟨heap', ?_, ?_⟩
  · unfold addrLoop
    rw [hfirst]
    exact hloop
  · intro i func f hfunc hf
    have hi := (List.getElem?_eq_some_iff.mp hfunc).1
    rw [hplaced i func f hfunc hf]
    unfold turnObject
    rw [if_pos (by omega)]

/-- Placed objects tile one range. -/
theorem tiles_placedBlocks (h : Records funcs heap) {heap' : List AddrFunc}
    (hplaced : ∀ (i func : ℕ) (f : AddrFunc), funcs[i]? = some func → heap[func]? = some f →
      heap'[func]? = some (f.placed (entryStart heap funcs i))) :
    Packing.Tiles functionStart (placedBlocks heap' funcs)
      (functionStart + (funcs.map fun k => (sizesAt heap k).sum).sum) := by
  have hpieces : ∀ i func, funcs[i]? = some func →
      Packing.Tiles (entryStart heap funcs i)
        ((heap'[func]?).elim [] fun f => f.bbAddr.zip f.bbSize)
        (entryStart heap funcs (i + 1)) := by
    intro i func hfunc
    have hmem := List.mem_of_getElem? hfunc
    have hf := List.getElem?_eq_getElem (h.known func hmem)
    rw [entryStart_succ hfunc hf, hplaced i func _ hfunc hf]
    exact AddrFunc.tiles_placed (h.wellSized func hmem _ hf)
  have hall := Packing.tiles_flatMap hpieces
  rw [entryStart_zero] at hall
  unfold entryStart at hall
  rwa [List.take_length] at hall

/-- **The address loop.** The blocks of all entries follow one another from `function_start` on:
block `j` of entry `i` starts behind the blocks of the entries before it and the blocks before it in
its own. Sizes that are not negative leave no gap and no overlap. -/
theorem addrLoop_tiles (h : Records funcs heap) :
    ∃ heap', addrLoop funcs heap = some heap' ∧
      (∀ (i func : ℕ) (f : AddrFunc), funcs[i]? = some func → heap[func]? = some f →
        ∃ g, heap'[func]? = some g ∧ g.bbSize = f.bbSize ∧ g.bbCnt = f.bbCnt ∧
          g.bbAddr.length = g.bbCnt ∧ ∀ j < g.bbCnt, g.bbAddr[j]? = some (functionStart +
            ((funcs.take i).map fun k => (sizesAt heap k).sum).sum + (f.bbSize.take j).sum)) ∧
      Packing.Tiles functionStart (placedBlocks heap' funcs)
        (functionStart + (funcs.map fun k => (sizesAt heap k).sum).sum) ∧
      ((∀ p ∈ placedBlocks heap' funcs, 0 ≤ p.2) → ∀ x, functionStart ≤ x →
        x < functionStart + (funcs.map fun k => (sizesAt heap k).sum).sum →
        ∃! k : ℕ, ∃ p : ℤ × ℤ, (placedBlocks heap' funcs)[k]? = some p ∧
          p.1 ≤ x ∧ x < p.1 + p.2) := by
  obtain ⟨heap', hloop, hplaced⟩ := addrLoop_eq h
  have htiles := tiles_placedBlocks h hplaced
  refine ⟨heap', hloop, ?_, htiles, ?_⟩
  · intro i func f hfunc hf
    refine ⟨_, hplaced i func f hfunc hf, rfl, rfl, AddrFunc.length_placed, fun j hj => ?_⟩
    exact AddrFunc.placed_getElem? hj
  · intro hsize x hlo hhi
    exact htiles.existsUnique hsize hlo hhi

end Loop

/-- Two objects, entered in the other order. -/
def twoObjects : List AddrFunc :=
  [{ name := "main".toList, bbCnt := 1, bbSize := [12] },
   { name := "Sum".toList, bbCnt := 2, bbSize := [6, 4] }]

theorem addrLoop_twoObjects : ∃ heap', addrLoop [1, 0] twoObjects = some heap' ∧
    Packing.Tiles functionStart (placedBlocks heap' [1, 0]) (functionStart + 22) := by
  have hwell : ∀ f ∈ twoObjects, f.WellSized ∧ f.bbAddr = [] := by
    intro f hf
    simp only [twoObjects, List.mem_cons, List.not_mem_nil, or_false] at hf
    rcases hf with rfl | rfl <;> exact ⟨⟨rfl, by decide⟩, rfl⟩
  have h : Records [1, 0] twoObjects :=
    { nonempty := List.cons_ne_nil _ _
      nodup := by decide
      known := by decide
      wellSized := fun func _ f hf => (hwell f (List.mem_of_getElem? hf)).1
      unplaced := fun func _ f hf => (hwell f (List.mem_of_getElem? hf)).2 }
  obtain ⟨heap', hloop, -, htiles, -⟩ := addrLoop_tiles h
  exact ⟨heap', hloop, htiles⟩

end MpuPasses
