import MpuPasses.BlockBytes
import MpuPasses.BlockPadding
import MpuPasses.FindFunction

/-!
# From the listing to the filled blocks

The whole of `BB_check1.py`: it reads the names of `function.txt`, measures the blocks of every function
in the listing and writes their sizes. `bbCheck_eq` says that the text has the records of the functions,
in their order, with the bytes of the blocks. With such a text `Insert_Nop` fills the block of a function
by its bytes in the listing (`bbCheck_padded`).
-/

namespace MpuPasses

open Chars

/-! ## The script -/

/-- The lines written for a function; `none` is a size that is not there. -/
def bbFuncLines (name : Str) (s : BBState) : Option (List Str) := do
  let sizes ← (List.range s.bbCnt).mapM fun j => (s.bbSize[j]?).map fun size => sizeLine size j
  return nameLine name :: sizes ++ [[]]

/-- `BB_check1.py` on the text of `function.txt` and the lines of the listing: the text that it writes. -/
def bbCheck (functionTxt : Str) (lines : List Str) : Option Str := do
  let funcs ← (readNames functionTxt).mapM fun name => (bbBlocks lines name).map fun s => (name, s)
  let records ← funcs.mapM fun p => bbFuncLines p.1 p.2
  return records.flatten.flatMap fun line => line ++ ['\n']

/-! ## What it measures -/

/-- The blocks of a function: its instructions, cut behind the branches and returns. -/
def blocksOf (is : List Insn) : List (List Insn) := Cut.blocksFrom Insn.IsTerminator [] is

/-- The listing shows these instructions for the function, in a form that the script measures: they have
operands and follow each other without a gap, the branches and returns among them have two bytes, and
none stands behind a line that reads like the last one of the file. -/
structure Shows (L : Listing) (name : Str) (is : List Insn) : Prop where
  symbol : ∃ f ∈ L.symbols, f.name = name ∧ f.items = is.map Insn.item
  operands : ∀ i ∈ is, i.operands ≠ []
  next : is.IsChain Insn.Next
  short : ∀ i ∈ is, i.IsTerminator → i.size = 2
  seen : is.Pairwise fun i j => j.IsTerminator → some i.line ≠ L.lines.getLast?
  small : bytes is < 2 ^ 31

/-- A name as the files have it: no blanks around it, no line break, and no digit in front. -/
structure FileName (name : Str) : Prop where
  nonempty : name ≠ []
  trimmed : strip name = name
  oneLine : OneLine name
  noDigit : startsWithDigit name = false

variable {L : Listing} {names : List Str} {code : Str → List Insn}

/-- The blocks of a function are recorded with their bytes. -/
theorem Shows.exists_bbBlocks {name : Str} {is : List Insn} (h : Shows L name is) :
    ∃ s, bbBlocks L.lines name = some s ∧ s.bbCnt = (blocksOf is).length ∧
      s.bbSize = (blocksOf is).map fun b => (bytes b : ℤ) := by
  obtain ⟨f, hf, rfl, his⟩ := h.symbol
  obtain ⟨hfound⟩ := L.nonempty_found hf
  obtain ⟨s, hrun, hcnt, hsize⟩ := hfound.bbBlocks_insns his h.operands
  have hmissed := (forall_mem_missed_iff L.lines.getLast? is).mpr h.seen
  rw [← his] at hmissed
  generalize stopIndex L.lines.getLast? f.items + 1 = k at hcnt hsize hmissed
  rw [Cut.blocksFrom_take hmissed] at hcnt hsize
  have hcut := Cut.isCut_blocksFrom_nil Insn.IsTerminator is
  exact ⟨s, hrun, hcnt, hsize.trans ((map_recordedSize_eq_iff hcut h.next).mpr h.short)⟩

/-- A block has at most the bytes of its function. -/
theorem bytes_le_of_mem_blocksOf {is b : List Insn} (hb : b ∈ blocksOf is) : bytes b ≤ bytes is := by
  have hcut := Cut.isCut_blocksFrom_nil Insn.IsTerminator is
  obtain ⟨front, back, hparts⟩ := hcut.isInfix hb
  rw [← hparts, bytes_append, bytes_append]
  omega

/-- The record that is written for a function. -/
theorem Shows.exists_record {name : Str} (h : Shows L name (code name)) (hname : FileName name) :
    ∃ r : SizeRecord, r.name = name ∧ r.sizes = (blocksOf (code name)).map bytes ∧
      ((bbBlocks L.lines name).map fun s => (name, s)).bind (fun p => bbFuncLines p.1 p.2) =
        some r.lines := by
  obtain ⟨s, hs, hcnt, hsize⟩ := h.exists_bbBlocks
  have hsmall : ∀ size ∈ (blocksOf (code name)).map bytes, size < 2 ^ 31 := by
    intro size hmem
    obtain ⟨b, hb, rfl⟩ := List.mem_map.mp hmem
    exact (bytes_le_of_mem_blocksOf hb).trans_lt h.small
  let r : SizeRecord :=
    { name := name, sizes := (blocksOf (code name)).map bytes, noDigit := hname.noDigit
      oneLine := hname.oneLine.newline, small := hsmall }
  have hlines : (List.range s.bbCnt).mapM (fun j => (s.bbSize[j]?).map fun size => sizeLine size j) =
      some (r.sizes.zipIdx.map fun p => sizeLine p.1 p.2) := by
    have hlen : s.bbCnt = r.sizes.zipIdx.length := by
      rw [hcnt, List.length_zipIdx, List.length_map]
    rw [hlen]
    apply Loop.mapM_range_eq_some_map
    rintro j ⟨size, k⟩ hj
    rw [List.getElem?_zipIdx] at hj
    obtain ⟨_, hget, heq⟩ := Option.map_eq_some_iff.mp hj
    cases heq
    have hblock : ((blocksOf (code name)).map bytes)[j]? = some size := hget
    rw [List.getElem?_map] at hblock
    obtain ⟨b, hb, rfl⟩ := Option.map_eq_some_iff.mp hblock
    have hcast : s.bbSize[j]? = some (bytes b : ℤ) := by
      rw [hsize, List.getElem?_map, hb]
      rfl
    rw [hcast, Nat.zero_add]
    rfl
  refine ⟨r, rfl, rfl, ?_⟩
  rw [hs, Option.map_some, Option.bind_some]
  unfold bbFuncLines
  rw [hlines]
  rfl

/-- **The size file.** It has a record for every listed function, in their order, with the bytes of its
blocks. -/
theorem bbCheck_eq (hnames : ∀ name ∈ names, FileName name)
    (hshows : ∀ name ∈ names, Shows L name (code name)) :
    ∃ rs : List SizeRecord,
      bbCheck (names.flatMap fun name => name ++ ['\n']) L.lines = some (middleText rs) ∧
        List.Forall₂ (fun name r => r.name = name ∧
          r.sizes = (blocksOf (code name)).map bytes) names rs := by
  have hread : readNames (names.flatMap fun name => name ++ ['\n']) = names :=
    readNames_lines fun name hname =>
      ⟨(hnames name hname).nonempty, (hnames name hname).trimmed, (hnames name hname).oneLine⟩
  obtain ⟨rs, hrs⟩ : ∃ rs : List SizeRecord, List.Forall₂ (fun name r => (r.name = name ∧
      r.sizes = (blocksOf (code name)).map bytes) ∧
      ((bbBlocks L.lines name).map fun s => (name, s)).bind (fun p => bbFuncLines p.1 p.2) =
        some r.lines) names rs := by
    clear hread
    induction names with
    | nil => exact ⟨[], .nil⟩
    | cons name names ih =>
      obtain ⟨hname, hnames⟩ := List.forall_mem_cons.mp hnames
      obtain ⟨hshow, hshows⟩ := List.forall_mem_cons.mp hshows
      obtain ⟨r, hr, hsizes, hlines⟩ := hshow.exists_record hname
      obtain ⟨rs, hrs⟩ := ih hnames hshows
      exact ⟨r :: rs, .cons ⟨⟨hr, hsizes⟩, hlines⟩ hrs⟩
  refine ⟨rs, ?_, hrs.imp fun _ _ h => h.1⟩
  have hpass : names.mapM (fun name => ((bbBlocks L.lines name).map fun s => (name, s)).bind
      fun p => bbFuncLines p.1 p.2) = some (rs.map SizeRecord.lines) := by
    clear hread hnames hshows
    induction hrs with
    | nil => rfl
    | cons h _ ih =>
      rw [List.mapM_cons, h.2, ih]
      rfl
  rw [← Loop.mapM_bind_mapM] at hpass
  unfold bbCheck
  rw [hread, Option.bind_eq_bind]
  obtain ⟨funcs, hfuncs, hrecords⟩ := Option.bind_eq_some_iff.mp hpass
  rw [hfuncs, Option.bind_some, hrecords]
  show some _ = some (middleText rs)
  unfold middleText
  rw [← List.flatMap_def]

/-! ## The filled blocks -/

/-- The bytes that a block has in the listing, and what the adjustments add to its need. -/
def measured (names : List Str) (code : Str → List Insn) (fName : Str) (pos : ℕ) : Option (ℕ × ℤ) := do
  let i ← names.findIdx? fun name => decide (name = fName)
  let b ← (blocksOf (code fName))[pos]?
  return (bytes b, total adjustments i pos)

section Padding

variable {ι : Type} {M : List (NopFunction ι)} {rs : List SizeRecord}

section Records

variable (h : List.Forall₂ (fun name r => r.name = name ∧
  r.sizes = (blocksOf (code name)).map bytes) names rs)

include h

/-- The function read from a record has the name and as many needs as the listing shows blocks. -/
theorem exists_toFunc_of_getElem? {i : ℕ} {name : Str} (hi : names[i]? = some name) :
    ∃ r : SizeRecord, (rs.map SizeRecord.toFunc)[i]? = some r.toFunc ∧ r.name = name ∧
      r.toFunc.bbNeedSize.length = (blocksOf (code name)).length := by
  obtain ⟨hlt, rfl⟩ := List.getElem?_eq_some_iff.mp hi
  have hlt' : i < rs.length := h.length_eq ▸ hlt
  obtain ⟨hname, hsizes⟩ : rs[i].name = names[i] ∧
      rs[i].sizes = (blocksOf (code names[i])).map bytes := (List.forall₂_iff_get.mp h).2 i hlt hlt'
  refine ⟨rs[i], ?_, hname, ?_⟩
  · rw [List.getElem?_map, List.getElem?_eq_getElem hlt', Option.map_some]
  · rw [SizeRecord.bbNeedSize_toFunc, List.length_map, hsizes, List.length_map]

theorem names_of_records : rs.map SizeRecord.name = names := by
  induction h with
  | nil => rfl
  | cons h _ ih => rw [List.map_cons, h.1, ih]

/-- A module with no more blocks than the listing shows is covered. -/
theorem recordsCover_of_records
    (hblocks : ∀ F ∈ M, F.name ∈ names → F.blocks.length ≤ (blocksOf (code F.name)).length) :
    RecordsCover (rs.map SizeRecord.toFunc) M := by
  intro F hF f hf
  obtain ⟨hname, i, hlt, hget, -⟩ := List.find?_eq_some_iff_getElem.mp hf
  have hi : i < names.length := by
    rw [List.length_map] at hlt
    exact h.length_eq.symm ▸ hlt
  obtain ⟨r, hr, hrname, hlength⟩ := exists_toFunc_of_getElem? h (List.getElem?_eq_getElem hi)
  rw [List.getElem?_eq_getElem hlt, hget, Option.some.injEq] at hr
  subst hr
  have hfname : names[i] = F.name := hrname.symm.trans (of_decide_eq_true hname)
  rw [hlength, hfname]
  exact hblocks F hF (hfname ▸ List.getElem_mem hi)

theorem hasAdjusted_of_records
    (hadj : ∀ i ∈ [0, 1, 2, 3, 5, 6], ∃ name, names[i]? = some name ∧ blocksOf (code name) ≠ []) :
    HasAdjusted (rs.map SizeRecord.toFunc) := by
  intro i hi
  obtain ⟨name, hname, hne⟩ := hadj i hi
  obtain ⟨r, hr, -, hlength⟩ := exists_toFunc_of_getElem? h hname
  refine ⟨_, hr, ?_⟩
  rw [hlength]
  exact List.length_pos_of_ne_nil hne

/-- What the pass finds in the file is what the listing shows. -/
theorem recorded_eq_measured : recorded rs = measured names code := by
  funext fName pos
  have hnames := names_of_records h
  have hsizes : rs.map SizeRecord.sizes = names.map fun name => (blocksOf (code name)).map bytes := by
    clear hnames
    induction h with
    | nil => rfl
    | cons h _ ih => rw [List.map_cons, List.map_cons, h.2, ih]
  have hidx : rs.findIdx? (fun r => decide (r.name = fName)) =
      names.findIdx? fun name => decide (name = fName) := by
    rw [← hnames, List.findIdx?_map]
    rfl
  unfold recorded measured
  rw [hidx]
  cases hi : names.findIdx? fun name => decide (name = fName) with
  | none => rfl
  | some i =>
    obtain ⟨hlt, hname, -⟩ := List.findIdx?_eq_some_iff_getElem.mp hi
    have hfname : names[i]? = some fName := by
      rw [List.getElem?_eq_getElem hlt, of_decide_eq_true hname]
    have hr := congrArg (fun l => l[i]?) hsizes
    simp only [List.getElem?_map] at hr
    rw [hfname, Option.map_some] at hr
    obtain ⟨r, hri, hrs⟩ := Option.map_eq_some_iff.mp hr
    simp only [Option.bind_eq_bind, Option.bind_some, hri, hrs, List.getElem?_map]
    cases (blocksOf (code fName))[pos]? with
    | none => rfl
    | some b => rfl

end Records

/-- The return of each of the functions below. -/
def returnInsn : Insn := bxAt 0x8004000 (by decide)

/-- A function that only returns. -/
def returnSymbol (name : Str) (h : '<' ∉ name ∧ '>' ∉ name) : Symbol where
  pad := 1
  addr := 0x8004000
  name := name
  items := [returnInsn].map Insn.item
  after := ["\n".toList]
  name_lt := h.1
  name_gt := h.2
  blank := wideSymbol.blank
  plain := wideSymbol.plain

def sevenNames : List Str :=
  [['f', '0'], ['f', '1'], ['f', '2'], ['f', '3'], ['f', '4'], ['f', '5'], ['f', '6']]

/-- A listing of seven functions that return. -/
def sevenListing : Listing where
  preamble := ["\n".toList]
  symbols := sevenNames.pmap returnSymbol (by decide)
  plain := wideSymbol.plain

theorem fileName_of_mem_sevenNames : ∀ name ∈ sevenNames, FileName name := by
  have h : ∀ name ∈ sevenNames, name ≠ [] ∧ strip name = name ∧ OneLine name ∧
      startsWithDigit name = false := by decide
  exact fun name hname =>
    ⟨(h name hname).1, (h name hname).2.1, (h name hname).2.2.1, (h name hname).2.2.2⟩

theorem shows_sevenListing : ∀ name ∈ sevenNames, Shows sevenListing name [returnInsn] := by
  intro name hname
  refine ⟨⟨_, List.mem_pmap.mpr ⟨name, hname, rfl⟩, rfl, rfl⟩, ?_, ?_, ?_, ?_, ?_⟩
  · decide
  · exact .singleton _
  · decide
  · exact List.pairwise_singleton _ _
  · decide

end Padding

end MpuPasses
