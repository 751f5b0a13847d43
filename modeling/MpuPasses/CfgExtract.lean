import MpuPasses.DotFile
import MpuPasses.FindFunction
import MpuPasses.Lib.Loop

/-!
# `cfg_extract.py`

The script reads the dot files twice: for the addresses and names of the blocks, then for the edges.
It takes a line for a block if it has `Node` and `label` in it and for an edge if it has an arrow, and
it cuts a block's name at the first colon. The name of the function stands in the header, in the title
and in front of every block's name, so it must have none of these in it: `cfgExtract_iff`.
-/

namespace MpuPasses

open Chars

/-! ## The script -/

/-- `class Func` of `cfg_extract.py`. -/
structure CfgFunc where
  name : Str
  bbName : List Str := []
  bbirAddr : List Str := []
  bbCnt : ℕ := 0
  nextBB : List (List Str) := []
  deriving DecidableEq, Repr

/-- `path`. -/
def cfgPath : Str := "/home/sblee/llvm-project/build/basic_block/".toList

def functionListFile : Str := cfgPath ++ "information/function.txt".toList

/-- The dot file from the directory that the script is run in. -/
def dotFile (fName : Str) : Str := ".".toList ++ fName ++ ".dot".toList

/-- The address and the name that a line adds to the blocks. The name has room for three digits. -/
def blockOf (fName line : Str) : Option (Str × Str) :=
  if "Node".toList <:+: line then
    (Search.find "label".toList line).map fun labelIndex =>
      let node := strip (Search.before ['['] line)
      let bbIndex := labelIndex + labelKey.length
      let bbLine := slice line bbIndex (bbIndex + fName.length + "_BB".toList.length + 3)
      (node, Search.before [':'] bbLine)
  else none

/-- The loop over the lines that finds the blocks. -/
def mapBlocks (fName : Str) (lines : List Str) : CfgFunc :=
  let found := lines.filterMap (blockOf fName)
  { name := fName, bbName := found.map Prod.snd, bbirAddr := found.map Prod.fst,
    bbCnt := found.length }

/-- One line of the loop that finds the edges; `none` is an address that is no block's. -/
def edgeStep (f : CfgFunc) (totalNexts : List (List Str)) (line : Str) :
    Option (List (List Str)) :=
  if "->".toList <:+: line then do
    let curr := strip (Search.before [':'] (Search.before "->".toList line))
    let next ← Search.after "->".toList line
    let next := strip (Search.before [';'] next)
    let currIndex ← f.bbirAddr.idxOf? curr
    let nextIndex ← f.bbirAddr.idxOf? next
    let nextBB ← f.bbName[nextIndex]?
    let _ ← totalNexts[currIndex]?
    return totalNexts.modify currIndex fun nexts => nexts ++ [nextBB]
  else some totalNexts

/-- The edges of a function. -/
def addEdges (f : CfgFunc) (lines : List Str) : Option CfgFunc := do
  let totalNexts ← Loop.forEach (edgeStep f) (List.replicate f.bbCnt []) lines
  return { f with nextBB := totalNexts }

/-- The lines that are written for a function. -/
def branchEntry (f : CfgFunc) : Option (List Str) := do
  let rows ← (List.range f.bbCnt).mapM fun z => do
    let name ← f.bbName[z]?
    let next ← f.nextBB[z]?
    return blockLines name next
  return ("func name: ".toList ++ f.name) :: (f.name ++ "_BB_cnt: ".toList ++ pyStr f.bbCnt) ::
    rows.flatten ++ [[]]

/-- The text of `branch.txt`; `none` is a file that is not there or an error. -/
def cfgExtract (read : Str → Option Str) : Option Str := do
  let list ← read functionListFile
  let funcs ← (readNames list).mapM fun name => do
    let text ← read (cfgPath ++ dotFile name)
    return mapBlocks name (readlines text)
  let funcs ← funcs.mapM fun f => do
    let text ← read (dotFile f.name)
    addEdges f (readlines text)
  let entries ← funcs.mapM branchEntry
  return entries.flatten.flatMap fun line => line ++ ['\n']

/-! ## The pieces of a line -/

theorem notMem_nodeId {c : Char} (hkey : c ∉ "Node0x".toList)
    (hdigit : ∀ d < 16, c ≠ Nat.digitChar d) (addr : ℕ) : c ∉ nodeId addr := by
  intro h
  have hid : nodeId addr = "Node0x".toList ++ Nat.toDigits 16 addr := rfl
  rw [hid] at h
  rcases List.mem_append.mp h with h | h
  · exact hkey h
  · obtain ⟨d, hd, rfl⟩ := exists_digitChar_of_mem (by omega) h
    exact hdigit d hd rfl

theorem notMem_pyStr {c : Char} (hdigit : ∀ d < 10, c ≠ Nat.digitChar d) (k : ℕ) :
    c ∉ pyStr k := by
  intro h
  obtain ⟨d, hd, rfl⟩ := exists_digitChar_of_mem (by omega) h
  exact hdigit d hd rfl

theorem isSpace_of_mem_nodeId {addr : ℕ} {c : Char} (h : c ∈ nodeId addr) : isSpace c = false := by
  have hid : nodeId addr = "Node0x".toList ++ Nat.toDigits 16 addr := rfl
  rw [hid] at h
  rcases List.mem_append.mp h with h | h
  · revert h
    have hall : ("Node0x".toList).all (fun c => !isSpace c) = true := by decide
    intro h
    simpa using List.all_eq_true.mp hall c h
  · exact (plain_of_mem_hex h).space

theorem nodeId_injective : Function.Injective nodeId := fun a b h => by
  have hlist : "Node0x".toList ++ Nat.toDigits 16 a = "Node0x".toList ++ Nat.toDigits 16 b := h
  have hdigits := List.append_cancel_left hlist
  have hread : pyInt 16 (Nat.toDigits 16 a) = some (a : ℤ) := pyInt_toDigits (by omega) (by omega) a
  rw [hdigits, pyInt_toDigits (by omega) (by omega)] at hread
  exact (Nat.cast_injective (Option.some.inj hread)).symm

theorem strip_nodeId {pad post : Str} (hpad : ∀ c ∈ pad, isSpace c = true)
    (hpost : ∀ c ∈ post, isSpace c = true) (addr : ℕ) :
    strip (pad ++ nodeId addr ++ post) = nodeId addr :=
  strip_append_append hpad (fun c hc => isSpace_of_mem_nodeId hc) (by simp [nodeId]) hpost

/-- What follows a text at a separator, or nothing, does not matter in front of the separator. -/
theorem before_append_take (c : Char) (s t : Str) (k : ℕ) :
    Search.before [c] (s ++ (c :: t).take k) = Search.before [c] s := by
  by_cases hc : c ∈ s
  · obtain ⟨a, b, rfl, ha⟩ := List.eq_append_cons_of_mem hc
    have hlong : a ++ c :: b ++ (c :: t).take k = a ++ (c :: [] ++ (b ++ (c :: t).take k)) := by simp
    rw [hlong, Search.before_append ha]
    exact (Search.before_append ha b).symm
  · rw [Search.before_of_notMem hc]
    cases k with
    | zero =>
      rw [List.take_zero, List.append_nil]
      exact Search.before_of_notMem hc
    | succ k =>
      rw [List.take_succ_cons]
      exact Search.before_append hc _

/-! ## Which lines are taken for blocks -/

/-- A pattern without quotes that is not in what is always there stands in the header just if it
stands in the name. -/
theorem infix_dotHeader {pat fName : Str} (hquote : '\'' ∉ pat)
    (hfront : ¬ pat <:+: "digraph \"CFG for ".toList)
    (hback : ¬ pat <:+: " function\" \x7b\n".toList) :
    pat <:+: dotHeader fName ++ ['\n'] ↔ pat <:+: fName := by
  have hline : dotHeader fName ++ ['\n'] = "digraph \"CFG for ".toList ++ '\'' :: fName ++
      '\'' :: " function\" \x7b\n".toList := by
    unfold dotHeader
    rw [List.append_assoc, List.append_assoc]
    rfl
  rw [hline, Search.infix_append_cons_append_cons_iff hquote hquote, or_iff_right hfront,
    or_iff_left hback]

theorem infix_dotTitle {pat fName : Str} (hquote : '\'' ∉ pat)
    (hfront : ¬ pat <:+: "\tlabel=\"CFG for ".toList)
    (hback : ¬ pat <:+: " function\";\n".toList) :
    pat <:+: dotTitle fName ++ ['\n'] ↔ pat <:+: fName := by
  have hline : dotTitle fName ++ ['\n'] = "\tlabel=\"CFG for ".toList ++ '\'' :: fName ++
      '\'' :: " function\";\n".toList := by
    unfold dotTitle
    rw [List.append_assoc, List.append_assoc]
    rfl
  rw [hline, Search.infix_append_cons_append_cons_iff hquote hquote, or_iff_right hfront,
    or_iff_left hback]

theorem node_infix_header {fName : Str} :
    "Node".toList <:+: dotHeader fName ++ ['\n'] ↔ "Node".toList <:+: fName :=
  infix_dotHeader (by decide) (by decide) (by decide)

theorem node_infix_title {fName : Str} :
    "Node".toList <:+: dotTitle fName ++ ['\n'] ↔ "Node".toList <:+: fName :=
  infix_dotTitle (by decide) (by decide) (by decide)

theorem arrow_infix_header {fName : Str} :
    "->".toList <:+: dotHeader fName ++ ['\n'] ↔ "->".toList <:+: fName :=
  infix_dotHeader (by decide) (by decide) (by decide)

theorem arrow_infix_title {fName : Str} :
    "->".toList <:+: dotTitle fName ++ ['\n'] ↔ "->".toList <:+: fName :=
  infix_dotTitle (by decide) (by decide) (by decide)

/-- The title is taken for a block just if the name has `Node` in it. -/
theorem blockOf_title_isSome {fName : Str} :
    (blockOf fName (dotTitle fName ++ ['\n'])).isSome ↔ "Node".toList <:+: fName := by
  have hlabel : "label".toList <:+: dotTitle fName ++ ['\n'] := by
    have hfront : "label".toList <:+: "\tlabel=\"CFG for '".toList := by decide
    unfold dotTitle
    rw [List.append_assoc, List.append_assoc]
    exact hfront.trans (List.prefix_append _ _).isInfix
  unfold blockOf
  split_ifs with hnode
  · rw [Option.isSome_map, Search.find_isSome_iff]
    exact iff_of_true hlabel (node_infix_title.mp hnode)
  · exact iff_of_false Bool.false_ne_true (mt node_infix_title.mpr hnode)

theorem blockOf_header {fName : Str} (h : ¬ "Node".toList <:+: fName) :
    blockOf fName (dotHeader fName ++ ['\n']) = none := by
  unfold blockOf
  exact if_neg (mt node_infix_header.mp h)

/-- A line without an `l` adds no block. -/
theorem blockOf_of_notMem {fName line : Str} (h : 'l' ∉ line) : blockOf fName line = none := by
  unfold blockOf
  rw [Search.find_eq_none (Search.not_infix_of_notMem (by decide) h), Option.map_none, ite_self]

/-- The name that a block's line gives: the block's, up to a colon. -/
def cutLabel (fName : Str) (n : DotNode) : Str := Search.before [':'] (bbName fName n.num)

theorem length_bbName_le (fName : Str) (n : DotNode) :
    (bbName fName n.num).length ≤ fName.length + "_BB".toList.length + 3 := by
  have hdigits : (pyStr (n.num : ℤ)).length ≤ 3 :=
    Nat.toDigits_length 10 n.num 3 (by omega) (Nat.lt_succ_of_le n.num_le)
  unfold bbName
  rw [List.length_append, List.length_append]
  omega

/-- A block's line, cut at its bracket and at its label. -/
theorem nodeText_eq (fName : Str) (n : DotNode) :
    nodeText fName n ++ ['\n'] = ('\t' :: nodeId n.addr ++ [' ']) ++ '[' ::
      (n.attrs ++ (labelKey ++ (bbName fName n.num ++ ':' :: (n.rest ++ ['\n'])))) := by
  unfold nodeText
  simp

theorem notMem_nodePad {c : Char} (hkey : c ∉ "Node0x\t ".toList)
    (hdigit : ∀ d < 16, c ≠ Nat.digitChar d) (addr : ℕ) : c ∉ '\t' :: nodeId addr ++ [' '] := by
  have hsplit : "Node0x\t ".toList = "Node0x".toList ++ ['\t', ' '] := rfl
  rw [hsplit, List.mem_append, not_or] at hkey
  have hid := notMem_nodeId hkey.1 hdigit addr
  have hpad := hkey.2
  simp only [List.mem_cons, List.not_mem_nil, or_false, not_or] at hpad
  simp [hid, hpad]

theorem node_infix_node (fName : Str) (n : DotNode) :
    "Node".toList <:+: nodeText fName n ++ ['\n'] := by
  refine ⟨['\t'], pyHex n.addr ++ ' ' :: '[' ::
    (n.attrs ++ (labelKey ++ (bbName fName n.num ++ ':' :: (n.rest ++ ['\n'])))), ?_⟩
  rw [nodeText_eq]
  unfold nodeId
  simp

/-- The label is the first thing in a block's line that the script takes for one. -/
theorem find_label_node (fName : Str) (n : DotNode) :
    Search.find "label".toList (nodeText fName n ++ ['\n']) =
      some (n.attrs.length + (('\t' :: nodeId n.addr ++ [' ']).length + 1)) := by
  have hl := notMem_nodePad (show 'l' ∉ "Node0x\t ".toList by decide) (by decide) n.addr
  have hkey : labelKey = "label".toList ++ "=\"\x7b".toList := rfl
  rw [nodeText_eq, Search.find_append_cons (by decide) (by decide)
    (Search.not_infix_of_notMem (by decide) hl), hkey, List.append_assoc,
    Search.find_append_self n.attrs_label, Option.map_some]

/-- A block's line gives its address and its name. -/
theorem blockOf_node (fName : Str) (n : DotNode) :
    blockOf fName (nodeText fName n ++ ['\n']) = some (nodeId n.addr, cutLabel fName n) := by
  have hbracket : Search.before ['['] (nodeText fName n ++ ['\n']) =
      '\t' :: nodeId n.addr ++ [' '] := by
    rw [nodeText_eq]
    exact Search.before_append (notMem_nodePad (by decide) (by decide) n.addr) _
  have hstrip : strip ('\t' :: nodeId n.addr ++ [' ']) = nodeId n.addr := by
    have hpad : ∀ c ∈ ['\t'], isSpace c = true := List.forall_mem_singleton.mpr rfl
    exact strip_nodeId hpad (List.forall_mem_singleton.mpr rfl) n.addr
  have hname : Search.before [':'] (slice (nodeText fName n ++ ['\n'])
      (n.attrs.length + (('\t' :: nodeId n.addr ++ [' ']).length + 1) + labelKey.length)
      (n.attrs.length + (('\t' :: nodeId n.addr ++ [' ']).length + 1) + labelKey.length +
        fName.length + "_BB".toList.length + 3)) = cutLabel fName n := by
    have hline : nodeText fName n ++ ['\n'] =
        (('\t' :: nodeId n.addr ++ [' ']) ++ '[' :: (n.attrs ++ labelKey)) ++
          (bbName fName n.num ++ ':' :: (n.rest ++ ['\n'])) := by
      rw [nodeText_eq]
      simp
    have hstart : n.attrs.length + (('\t' :: nodeId n.addr ++ [' ']).length + 1) +
        labelKey.length =
        (('\t' :: nodeId n.addr ++ [' ']) ++ '[' :: (n.attrs ++ labelKey)).length := by
      simp only [List.length_append, List.length_cons]
      omega
    have hlen := length_bbName_le fName n
    rw [Nat.add_assoc _ _ 3, Nat.add_assoc _ fName.length, hstart, hline, slice_append,
      List.take_append, List.take_of_length_le (by omega), before_append_take]
    rfl
  unfold blockOf
  rw [if_pos (node_infix_node fName n), find_label_node, Option.map_some, ← hname]
  show some (strip _, _) = some (_, _)
  rw [hbracket, hstrip]

/-- An edge's line, cut at its arrow. -/
theorem edgeText_eq (e : DotEdge) :
    edgeText e ++ ['\n'] = ('\t' :: nodeId e.src ++ e.portText ++ [' ']) ++
      ("->".toList ++ (' ' :: nodeId e.dst ++ ';' :: ['\n'])) := by
  unfold edgeText
  simp

theorem notMem_portText {c : Char} (hkey : c ∉ [':', 's']) (hdigit : ∀ d < 10, c ≠ Nat.digitChar d)
    (e : DotEdge) : c ∉ e.portText := by
  unfold DotEdge.portText
  cases e.port with
  | none => exact List.not_mem_nil
  | some k =>
    have hk := notMem_pyStr hdigit k
    simp only [List.mem_cons, List.not_mem_nil, or_false, not_or] at hkey
    simp [hkey, hk]

theorem blockOf_edge (fName : Str) (e : DotEdge) : blockOf fName (edgeText e ++ ['\n']) = none := by
  apply blockOf_of_notMem
  have hsrc : 'l' ∉ nodeId e.src := notMem_nodeId (by decide) (by decide) e.src
  have hdst : 'l' ∉ nodeId e.dst := notMem_nodeId (by decide) (by decide) e.dst
  have hport : 'l' ∉ e.portText := notMem_portText (by decide) (by decide) e
  rw [edgeText_eq]
  simp [hsrc, hdst, hport]

theorem blockOf_item (fName : Str) (x : DotItem) : blockOf fName (itemText fName x ++ ['\n']) =
    x.node?.map fun n => (nodeId n.addr, cutLabel fName n) := by
  cases x with
  | node n => exact blockOf_node fName n
  | edge e => exact blockOf_edge fName e

/-- The lines of the file, one kind after the other. -/
theorem readlines_eq (d : DotFunc) : readlines d.dotText =
    (dotHeader d.name ++ ['\n']) :: (dotTitle d.name ++ ['\n']) :: ([] ++ ['\n']) ::
      ((d.items.map fun x => itemText d.name x ++ ['\n']) ++ ["\x7d".toList ++ ['\n']]) := by
  rw [readlines_dotText]
  unfold DotFunc.dotLines
  simp

/-- The blocks that the script finds: the header and the title may count as two more. -/
theorem filterMap_blockOf (d : DotFunc) : (readlines d.dotText).filterMap (blockOf d.name) =
    ((blockOf d.name (dotHeader d.name ++ ['\n'])).toList ++
      (blockOf d.name (dotTitle d.name ++ ['\n'])).toList) ++
      d.nodes.map fun n => (nodeId n.addr, cutLabel d.name n) := by
  have hitems : (d.items.map fun x => itemText d.name x ++ ['\n']).filterMap (blockOf d.name) =
      d.nodes.map fun n => (nodeId n.addr, cutLabel d.name n) := by
    unfold DotFunc.nodes
    rw [List.filterMap_map, List.map_filterMap]
    congr
    funext x
    exact blockOf_item d.name x
  have hblank : blockOf d.name ([] ++ ['\n']) = none := blockOf_of_notMem (by decide)
  have hend : blockOf d.name ("\x7d".toList ++ ['\n']) = none := blockOf_of_notMem (by decide)
  rw [← hitems, List.filterMap_eq_flatMap_toList, List.filterMap_eq_flatMap_toList, readlines_eq,
    List.flatMap_cons, List.flatMap_cons, List.flatMap_cons, List.flatMap_append, List.flatMap_cons,
    hblank, hend]
  simp

/-! ## The edges -/

/-- The blocks of a function whose name adds none. -/
def DotFunc.blocks (d : DotFunc) : CfgFunc :=
  { name := d.name, bbName := d.nodes.map (cutLabel d.name),
    bbirAddr := d.nodes.map fun n => nodeId n.addr, bbCnt := d.nodes.length }

theorem mapBlocks_eq_blocks {d : DotFunc} (h : ¬ "Node".toList <:+: d.name) :
    mapBlocks d.name (readlines d.dotText) = d.blocks := by
  have htitle : blockOf d.name (dotTitle d.name ++ ['\n']) = none := by
    rw [← Option.not_isSome_iff_eq_none, blockOf_title_isSome]
    exact h
  unfold mapBlocks DotFunc.blocks
  rw [filterMap_blockOf, blockOf_header h, htitle]
  simp [Function.comp_def]

/-- A function whose name has `Node` in it gets a block too many. -/
theorem length_lt_bbCnt {d : DotFunc} (h : "Node".toList <:+: d.name) :
    d.nodes.length < (mapBlocks d.name (readlines d.dotText)).bbCnt := by
  obtain ⟨b, hb⟩ := Option.isSome_iff_exists.mp (blockOf_title_isSome.mpr h)
  unfold mapBlocks
  show _ < ((readlines d.dotText).filterMap (blockOf d.name)).length
  rw [filterMap_blockOf, hb]
  simp only [List.length_append, List.length_map, Option.toList_some, List.length_singleton]
  omega

theorem DotFunc.nodup_addr (d : DotFunc) : (d.nodes.map fun n => nodeId n.addr).Nodup := by
  have h := d.nodup.map nodeId_injective
  rw [List.map_map] at h
  exact h

/-- The place of a block is the place of its address. -/
theorem DotFunc.idxOf?_nodeId {d : DotFunc} {i : ℕ} {n : DotNode} (h : d.nodes[i]? = some n) :
    d.blocks.bbirAddr.idxOf? (nodeId n.addr) = some i := by
  obtain ⟨hi, hn⟩ := List.getElem?_eq_some_iff.mp h
  have hlen : i < (d.nodes.map fun n => nodeId n.addr).length := by rwa [List.length_map]
  have hget : (d.nodes.map fun n => nodeId n.addr)[i] = nodeId n.addr := by rw [List.getElem_map, hn]
  refine List.idxOf?_eq_some_iff.mpr ⟨hlen, hget, fun j hj heq => ?_⟩
  have hji := (d.nodup_addr.getElem_inj_iff).mp (heq.trans hget.symm)
  omega

theorem DotFunc.find?_addr {d : DotFunc} {n : DotNode} (h : n ∈ d.nodes) :
    (d.nodes.find? fun m => decide (m.addr = n.addr)) = some n := by
  have hsome : (d.nodes.find? fun m => decide (m.addr = n.addr)).isSome :=
    List.find?_isSome.mpr ⟨n, h, decide_eq_true rfl⟩
  obtain ⟨m, hm⟩ := Option.isSome_iff_exists.mp hsome
  have haddr : m.addr = n.addr := by simpa using List.find?_some hm
  rw [hm, List.inj_on_of_nodup_map d.nodup (List.mem_of_find?_eq_some hm) h haddr]

theorem DotFunc.succsAlong_concat (d : DotFunc) (label : DotNode → Str) (es : List DotEdge)
    (e : DotEdge) (n : DotNode) : d.succsAlong label (es ++ [e]) n = d.succsAlong label es n ++
      if e.src = n.addr then ((d.nodes.find? fun m => decide (m.addr = e.dst)).map label).toList
      else [] := by
  unfold DotFunc.succsAlong
  rw [List.filter_append, List.filterMap_append, List.filter_singleton]
  congr 1
  by_cases h : e.src = n.addr
  · rw [if_pos h, decide_eq_true h, cond_true, List.filterMap_cons]
    cases (d.nodes.find? fun m => decide (m.addr = e.dst)).map label with
    | none => rfl
    | some succ => rfl
  · rw [if_neg h, decide_eq_false h]
    rfl

theorem edgeStep_of_not_infix {f : CfgFunc} {line : Str} (h : ¬ "->".toList <:+: line)
    (nexts : List (List Str)) : edgeStep f nexts line = some nexts := by
  unfold edgeStep
  exact if_neg h

theorem arrow_infix_edge (e : DotEdge) : "->".toList <:+: edgeText e ++ ['\n'] := by
  rw [edgeText_eq]
  exact ⟨_, _, List.append_assoc _ _ _⟩

theorem dash_notMem_edgeFront (e : DotEdge) : '-' ∉ '\t' :: nodeId e.src ++ e.portText ++ [' '] := by
  have hid : '-' ∉ nodeId e.src := notMem_nodeId (by decide) (by decide) e.src
  have hport : '-' ∉ e.portText := notMem_portText (by decide) (by decide) e
  simp [hid, hport]

/-- In front of the arrow stands the address of the first block, with or without a port. -/
theorem curr_edge (e : DotEdge) :
    strip (Search.before [':'] (Search.before "->".toList (edgeText e ++ ['\n']))) = nodeId e.src := by
  have hbefore : Search.before "->".toList (edgeText e ++ ['\n']) =
      '\t' :: nodeId e.src ++ e.portText ++ [' '] := by
    rw [edgeText_eq]
    exact Search.before_append (dash_notMem_edgeFront e) _
  have hid : ':' ∉ '\t' :: nodeId e.src := by
    have := notMem_nodeId (show ':' ∉ "Node0x".toList by decide) (by decide) e.src
    simp [this]
  have hpad : ∀ c ∈ ['\t'], isSpace c = true := List.forall_mem_singleton.mpr rfl
  rw [hbefore]
  unfold DotEdge.portText
  cases e.port with
  | none =>
    have hpost : ∀ c ∈ [' '], isSpace c = true := List.forall_mem_singleton.mpr rfl
    have hcolon : ':' ∉ '\t' :: nodeId e.src ++ [] ++ [' '] := by simpa using hid
    rw [Option.elim_none, Search.before_of_notMem hcolon, List.append_nil]
    exact strip_nodeId hpad hpost e.src
  | some k =>
    show strip (Search.before [':'] ('\t' :: nodeId e.src ++ ':' :: 's' :: pyStr k ++ [' '])) = _
    rw [List.append_assoc]
    refine (congrArg strip (Search.before_append hid _)).trans ?_
    have hnone : ∀ c ∈ ([] : Str), isSpace c = true := by simp
    have hstrip := strip_nodeId hpad hnone e.src
    rwa [List.append_nil] at hstrip

/-- Behind the arrow stands the address of the second block. -/
theorem next_edge (e : DotEdge) :
    ∃ next, Search.after "->".toList (edgeText e ++ ['\n']) = some next ∧
      strip (Search.before [';'] next) = nodeId e.dst := by
  have hid : ';' ∉ ' ' :: nodeId e.dst := by
    have := notMem_nodeId (show ';' ∉ "Node0x".toList by decide) (by decide) e.dst
    simp [this]
  refine ⟨' ' :: nodeId e.dst ++ ';' :: ['\n'], ?_, ?_⟩
  · rw [edgeText_eq]
    exact Search.after_append (dash_notMem_edgeFront e) _
  · refine (congrArg strip (Search.before_append hid ['\n'])).trans ?_
    have hpad : ∀ c ∈ [' '], isSpace c = true := List.forall_mem_singleton.mpr rfl
    have hnone : ∀ c ∈ ([] : Str), isSpace c = true := by simp
    have hstrip := strip_nodeId hpad hnone e.dst
    rwa [List.append_nil] at hstrip

theorem DotFunc.exists_place {d : DotFunc} {addr : ℕ} (h : addr ∈ d.nodes.map DotNode.addr) :
    ∃ (i : ℕ) (n : DotNode), d.nodes[i]? = some n ∧ n.addr = addr := by
  obtain ⟨n, hn, hna⟩ := List.mem_map.mp h
  obtain ⟨i, hi⟩ := List.mem_iff_getElem?.mp hn
  exact ⟨i, n, hi, hna⟩

/-- One more edge changes the successors of its first block only. -/
theorem DotFunc.map_succsAlong_concat {d : DotFunc} {e : DotEdge} {i j : ℕ} {n m : DotNode}
    (hi : d.nodes[i]? = some n) (hj : d.nodes[j]? = some m) (hn : n.addr = e.src)
    (hm : m.addr = e.dst) (label : DotNode → Str) (es : List DotEdge) :
    d.nodes.map (d.succsAlong label (es ++ [e])) =
      (d.nodes.map (d.succsAlong label es)).modify i fun nexts => nexts ++ [label m] := by
  have hfind : (d.nodes.find? fun m => decide (m.addr = e.dst)) = some m := by
    rw [← hm]
    exact DotFunc.find?_addr (List.mem_of_getElem? hj)
  apply List.ext_getElem?
  intro k
  rw [List.getElem?_modify, List.getElem?_map, List.getElem?_map, Option.map_eq_map, Option.map_map]
  cases hk : d.nodes[k]? with
  | none => rfl
  | some x =>
    rw [Option.map_some, Option.map_some, DotFunc.succsAlong_concat, hfind, Option.map_some,
      Option.toList_some]
    by_cases hik : i = k
    · -- the block itself
      obtain rfl := hik
      obtain rfl := Option.some.inj (hi.symm.trans hk)
      rw [if_pos hn.symm]
      simp
    · have hne : e.src ≠ x.addr := by
        intro heq
        have hnodup : (d.nodes.map DotNode.addr).Nodup := d.nodup
        have hadj : (d.nodes.map DotNode.addr)[i]? = (d.nodes.map DotNode.addr)[k]? := by
          rw [List.getElem?_map, List.getElem?_map, hi, hk, Option.map_some, Option.map_some, hn, heq]
        have hlt : i < (d.nodes.map DotNode.addr).length := by
          rw [List.length_map]
          exact (List.getElem?_eq_some_iff.mp hi).1
        exact hik ((List.getElem?_inj hlt hnodup).mp hadj)
      rw [if_neg hne]
      simp [hik]

/-- An edge's line adds the name of its second block behind the successors of its first. -/
theorem edgeStep_edge {d : DotFunc} {e : DotEdge} (he : e ∈ d.edges) (es : List DotEdge) :
    edgeStep d.blocks (d.nodes.map (d.succsAlong (cutLabel d.name) es)) (edgeText e ++ ['\n']) =
      some (d.nodes.map (d.succsAlong (cutLabel d.name) (es ++ [e]))) := by
  obtain ⟨hsrc, hdst⟩ := d.closed e he
  obtain ⟨i, n, hi, hn⟩ := DotFunc.exists_place hsrc
  obtain ⟨j, m, hj, hm⟩ := DotFunc.exists_place hdst
  obtain ⟨next, hafter, hnext⟩ := next_edge e
  have hcurrIndex : d.blocks.bbirAddr.idxOf? (nodeId e.src) = some i := by
    rw [← hn]
    exact DotFunc.idxOf?_nodeId hi
  have hnextIndex : d.blocks.bbirAddr.idxOf? (nodeId e.dst) = some j := by
    rw [← hm]
    exact DotFunc.idxOf?_nodeId hj
  have hname : d.blocks.bbName[j]? = some (cutLabel d.name m) := by
    show (d.nodes.map (cutLabel d.name))[j]? = _
    rw [List.getElem?_map, hj, Option.map_some]
  have hrow : (d.nodes.map (d.succsAlong (cutLabel d.name) es))[i]? =
      some (d.succsAlong (cutLabel d.name) es n) := by
    rw [List.getElem?_map, hi, Option.map_some]
  unfold edgeStep
  rw [if_pos (arrow_infix_edge e), DotFunc.map_succsAlong_concat hi hj hn hm]
  simp only [curr_edge, hafter, hnext, hcurrIndex, hnextIndex, hname, hrow, Option.bind_eq_bind,
    Option.bind_some, Option.pure_def]

theorem arrow_not_infix_bbName {fName : Str} (h : ¬ "->".toList <:+: fName) (num : ℕ) :
    ¬ "->".toList <:+: bbName fName num := by
  have hname : bbName fName num = fName ++ '_' :: ("BB".toList ++ pyStr num) := by
    unfold bbName
    simp
  have hnum : '-' ∉ "BB".toList ++ pyStr num := by
    rw [List.mem_append, not_or]
    exact ⟨by decide, notMem_pyStr (by decide) num⟩
  rw [hname, Search.infix_append_cons_iff (by decide), not_or]
  exact ⟨h, Search.not_infix_of_notMem (by decide) hnum⟩

/-- A block's line is no edge's. -/
theorem arrow_not_infix_node {fName : Str} (h : ¬ "->".toList <:+: fName) (n : DotNode) :
    ¬ "->".toList <:+: nodeText fName n ++ ['\n'] := by
  have hdash := notMem_nodePad (show '-' ∉ "Node0x\t ".toList by decide) (by decide) n.addr
  have hkey : labelKey = 'l' :: "abel=\"".toList ++ ['\x7b'] := rfl
  have hlabel : ¬ "->".toList <:+: "abel=\"".toList ++ '\x7b' ::
      (bbName fName n.num ++ ':' :: (n.rest ++ ['\n'])) := by
    rw [Search.infix_append_cons_iff (d := '\x7b') (by decide),
      Search.infix_append_cons_iff (d := ':') (by decide),
      Search.infix_append_cons_iff (d := '\n') (by decide)]
    simp only [not_or]
    exact ⟨by decide, arrow_not_infix_bbName h n.num, n.rest_arrow, by decide⟩
  have hline : nodeText fName n ++ ['\n'] = ('\t' :: nodeId n.addr ++ [' ']) ++ '[' ::
      (n.attrs ++ 'l' :: ("abel=\"".toList ++ '\x7b' ::
        (bbName fName n.num ++ ':' :: (n.rest ++ ['\n'])))) := by
    rw [nodeText_eq, hkey]
    simp
  rw [hline, Search.infix_append_cons_iff (d := '[') (by decide),
    Search.infix_append_cons_iff (d := 'l') (by decide)]
  simp only [not_or]
  exact ⟨Search.not_infix_of_notMem (by decide) hdash, n.attrs_arrow, hlabel⟩

/-- The loop over the blocks' and the edges' lines collects the successors along the edges. -/
theorem forEach_items {d : DotFunc} (h : ¬ "->".toList <:+: d.name) {items : List DotItem}
    (hsub : ∀ x ∈ items, ∀ e, x.edge? = some e → e ∈ d.edges) (es : List DotEdge) :
    Loop.forEach (edgeStep d.blocks) (d.nodes.map (d.succsAlong (cutLabel d.name) es))
      (items.map fun x => itemText d.name x ++ ['\n']) =
      some (d.nodes.map (d.succsAlong (cutLabel d.name) (es ++ items.filterMap DotItem.edge?))) := by
  induction items generalizing es with
  | nil =>
    rw [List.filterMap_nil, List.append_nil]
    rfl
  | cons x items ih =>
    obtain ⟨hx, hrest⟩ := List.forall_mem_cons.mp hsub
    rw [List.map_cons, Loop.forEach_cons]
    cases x with
    | node n =>
      have hstep := edgeStep_of_not_infix (f := d.blocks) (arrow_not_infix_node h n)
        (d.nodes.map (d.succsAlong (cutLabel d.name) es))
      exact (congrArg (Option.bind · _) hstep).trans (ih hrest es)
    | edge e =>
      have hstep := edgeStep_edge (hx e rfl) es
      refine (congrArg (Option.bind · _) hstep).trans ((ih hrest (es ++ [e])).trans ?_)
      rw [List.append_assoc]
      rfl

theorem addEdges_blocks {d : DotFunc} (h : ¬ "->".toList <:+: d.name) :
    addEdges d.blocks (readlines d.dotText) = some
      { d.blocks with nextBB := d.nodes.map (d.succsAlong (cutLabel d.name) d.edges) } := by
  have hstart : List.replicate d.blocks.bbCnt [] = d.nodes.map (d.succsAlong (cutLabel d.name) []) :=
    List.map_const.symm
  have hsub : ∀ x ∈ d.items, ∀ e, x.edge? = some e → e ∈ d.edges := fun x hx e he =>
    List.mem_filterMap.mpr ⟨x, hx, he⟩
  have hitems := forEach_items h hsub []
  have hheader := edgeStep_of_not_infix (f := d.blocks) (mt arrow_infix_header.mp h)
  have htitle := edgeStep_of_not_infix (f := d.blocks) (mt arrow_infix_title.mp h)
  have hblank := edgeStep_of_not_infix (f := d.blocks)
    (show ¬ "->".toList <:+: [] ++ ['\n'] by decide)
  have hend := edgeStep_of_not_infix (f := d.blocks)
    (show ¬ "->".toList <:+: "\x7d".toList ++ ['\n'] by decide)
  unfold addEdges
  rw [hstart, readlines_eq, Loop.forEach_cons, hheader, Option.bind_some, Loop.forEach_cons, htitle,
    Option.bind_some, Loop.forEach_cons, hblank, Option.bind_some, Loop.forEach_append, hitems,
    Option.bind_some, Loop.forEach_cons, hend]
  rfl

/-- An arrow in the name makes an edge of the header, whose first block is not there. -/
theorem addEdges_eq_none {d : DotFunc} (hnode : ¬ "Node".toList <:+: d.name)
    (harrow : "->".toList <:+: d.name) : addEdges d.blocks (readlines d.dotText) = none := by
  have hidx : d.blocks.bbirAddr.idxOf? (strip (Search.before [':']
      (Search.before "->".toList (dotHeader d.name ++ ['\n'])))) = none := by
    rw [List.idxOf?_eq_none_iff]
    intro hmem
    obtain ⟨n, -, hn⟩ := List.mem_map.mp hmem
    have hnodeId : "Node".toList <:+: nodeId n.addr := ⟨[], pyHex n.addr, rfl⟩
    rw [hn] at hnodeId
    have hline := hnodeId.trans ((isInfix_strip _).trans
      ((Search.before_prefix _ _).isInfix.trans (Search.before_prefix _ _).isInfix))
    exact hnode (node_infix_header.mp hline)
  have hstep : ∀ nexts, edgeStep d.blocks nexts (dotHeader d.name ++ ['\n']) = none := by
    intro nexts
    unfold edgeStep
    rw [if_pos (arrow_infix_header.mpr harrow)]
    simp only [hidx]
    cases Search.after "->".toList (dotHeader d.name ++ ['\n']) with
    | none => rfl
    | some next => rfl
  unfold addEdges
  rw [readlines_eq, Loop.forEach_cons, hstep]
  rfl

/-! ## The report -/

/-- The lines that the script writes for a function. -/
def entryOf (d : DotFunc) : Option (List Str) :=
  (addEdges (mapBlocks d.name (readlines d.dotText)) (readlines d.dotText)).bind branchEntry

/-- A function's name is taken for nothing else: it adds no block and no edge, and no block's name
ends inside it. -/
def NameFits (fName : Str) : Prop :=
  ¬ "Node".toList <:+: fName ∧ ¬ "->".toList <:+: fName ∧ ':' ∉ fName

/-- Without `Node` and an arrow the blocks are reported by what is in front of a colon. -/
theorem entryOf_eq_linesBy {d : DotFunc} (hnode : ¬ "Node".toList <:+: d.name)
    (harrow : ¬ "->".toList <:+: d.name) : entryOf d = some (d.linesBy (cutLabel d.name)) := by
  have hrows : (List.range d.nodes.length).mapM (fun z => do
      let name ← (d.nodes.map (cutLabel d.name))[z]?
      let next ← (d.nodes.map (d.succsAlong (cutLabel d.name) d.edges))[z]?
      return blockLines name next) = some (d.nodes.map fun n =>
        blockLines (cutLabel d.name n) (d.succsAlong (cutLabel d.name) d.edges n)) := by
    apply Loop.mapM_range_eq_some_map
    intro z n hz
    rw [List.getElem?_map, List.getElem?_map, hz]
    rfl
  unfold entryOf
  rw [mapBlocks_eq_blocks hnode, addEdges_blocks harrow, Option.bind_some]
  unfold branchEntry
  refine (congrArg (Option.bind · _) hrows).trans ?_
  unfold DotFunc.linesBy
  rw [List.flatMap_def]
  rfl

theorem notMem_bbName {c : Char} {fName : Str} (hname : c ∉ fName) (hkey : c ∉ "_BB".toList)
    (hdigit : ∀ d < 10, c ≠ Nat.digitChar d) (num : ℕ) : c ∉ bbName fName num := by
  unfold bbName
  rw [List.mem_append, List.mem_append, not_or, not_or]
  exact ⟨⟨hname, hkey⟩, notMem_pyStr hdigit num⟩

theorem entryOf_of_nameFits {d : DotFunc} (h : NameFits d.name) : entryOf d = some d.branchLines := by
  have hlabel : cutLabel d.name = d.label := by
    funext n
    exact Search.before_of_notMem (notMem_bbName h.2.2 (by decide) (by decide) n.num)
  rw [entryOf_eq_linesBy h.1 h.2.1, hlabel]
  rfl

/-- What is written first for a function. -/
theorem branchEntry_spec {f : CfgFunc} {lines : List Str} (h : branchEntry f = some lines) :
    ∃ rest, lines = ("func name: ".toList ++ f.name) ::
      (f.name ++ "_BB_cnt: ".toList ++ pyStr f.bbCnt) :: rest := by
  unfold branchEntry at h
  obtain ⟨rows, -, hlines⟩ := Option.bind_eq_some_iff.mp h
  cases hlines
  exact ⟨_, rfl⟩

/-- The edges leave the blocks as they are. -/
theorem addEdges_frame {f g : CfgFunc} {lines : List Str} (h : addEdges f lines = some g) :
    g.name = f.name ∧ g.bbCnt = f.bbCnt := by
  unfold addEdges at h
  obtain ⟨nexts, -, hg⟩ := Option.bind_eq_some_iff.mp h
  cases hg
  exact ⟨rfl, rfl⟩

/-- The first of some written lines. -/
theorem getlines_lines_cons {line : Str} (h : '\n' ∉ line) (lines : List Str) (x : Str) :
    getlines (((line :: lines).flatMap fun line => line ++ ['\n']) ++ x) =
      line :: getlines ((lines.flatMap fun line => line ++ ['\n']) ++ x) := by
  rw [List.flatMap_cons, List.append_assoc, List.append_assoc, List.singleton_append,
    getlines_append h]

theorem newline_notMem_funcLine (d : DotFunc) : '\n' ∉ "func name: ".toList ++ d.name := by
  rw [List.mem_append, not_or]
  exact ⟨by decide, d.oneLine.newline⟩

theorem newline_notMem_cntLine (d : DotFunc) (cnt : ℕ) :
    '\n' ∉ d.name ++ "_BB_cnt: ".toList ++ pyStr cnt := by
  rw [List.mem_append, List.mem_append, not_or, not_or]
  exact ⟨⟨d.oneLine.newline, by decide⟩, newline_notMem_pyStr cnt⟩

theorem newline_notMem_rowLine {name : Str} (h : '\n' ∉ name) (k : ℕ) :
    '\n' ∉ name ++ ": ".toList ++ pyStr k := by
  rw [List.mem_append, List.mem_append, not_or, not_or]
  exact ⟨⟨h, by decide⟩, newline_notMem_pyStr k⟩

/-- Two reports on a function, with whatever comes after them, agree on what is behind the number of
its blocks only if they agree on the number. -/
theorem cnt_eq_of_lines_eq {d : DotFunc} {m n : ℕ} {rows rows' : List Str} {x y : Str}
    (h : ((("func name: ".toList ++ d.name) :: (d.name ++ "_BB_cnt: ".toList ++ pyStr m) ::
      rows).flatMap fun line => line ++ ['\n']) ++ x =
      ((("func name: ".toList ++ d.name) :: (d.name ++ "_BB_cnt: ".toList ++ pyStr n) ::
      rows').flatMap fun line => line ++ ['\n']) ++ y) :
    m = n ∧ getlines ((rows.flatMap fun line => line ++ ['\n']) ++ x) =
      getlines ((rows'.flatMap fun line => line ++ ['\n']) ++ y) := by
  have hlines := congrArg getlines h
  rw [getlines_lines_cons (newline_notMem_funcLine d), getlines_lines_cons (newline_notMem_funcLine d),
    getlines_lines_cons (newline_notMem_cntLine d m),
    getlines_lines_cons (newline_notMem_cntLine d n)] at hlines
  obtain ⟨hcnt, hrest⟩ := List.cons.inj (List.cons.inj hlines).2
  have hdigits := pyStr_injective (List.append_cancel_left hcnt)
  exact ⟨by exact_mod_cast hdigits, hrest⟩

/-- What is written first for a function, down to its first block. -/
theorem linesBy_eq {d : DotFunc} {n : DotNode} {ns : List DotNode} (h : d.nodes = n :: ns)
    (label : DotNode → Str) : ∃ rest, d.linesBy label = ("func name: ".toList ++ d.name) ::
      (d.name ++ "_BB_cnt: ".toList ++ pyStr d.nodes.length) ::
      (label n ++ ": ".toList ++ pyStr (d.succsAlong label d.edges n).length) :: rest := by
  unfold DotFunc.linesBy
  rw [h, List.flatMap_cons]
  exact ⟨_, rfl⟩

/-- With a colon in the function's name a block's name ends inside it. -/
theorem row_ne_of_colon {fName : Str} (h : ':' ∈ fName) (n : DotNode) (k k' : ℕ) :
    cutLabel fName n ++ ": ".toList ++ pyStr k ≠ bbName fName n.num ++ ": ".toList ++ pyStr k' := by
  obtain ⟨a, b, hab, ha⟩ := List.eq_append_cons_of_mem h
  have hname : bbName fName n.num = a ++ (':' :: [] ++ (b ++ "_BB".toList ++ pyStr n.num)) := by
    unfold bbName
    rw [hab]
    simp
  have hcut : cutLabel fName n = a := by
    unfold cutLabel
    rw [hname]
    exact Search.before_append ha _
  intro heq
  rw [hcut, hname, List.append_assoc, List.append_assoc, List.append_assoc] at heq
  have htail : ' ' :: pyStr k = b ++ "_BB".toList ++ pyStr n.num ++ (": ".toList ++ pyStr k') := by
    simpa using List.append_cancel_left heq
  -- only one of them has the underscore of a block's name
  have hmem : '_' ∈ ' ' :: pyStr k := by
    rw [htail]
    simp
  have hnum : '_' ∉ pyStr k := notMem_pyStr (by decide) k
  simp [hnum] at hmem

/-- The beginning of what has to be written for a function whose name does not fit is not what the
script writes for it. -/
theorem nameFits_of_lines_eq {d : DotFunc} {lines : List Str} {x y : Str}
    (hentry : entryOf d = some lines) (h : (lines.flatMap fun line => line ++ ['\n']) ++ x =
      (d.branchLines.flatMap fun line => line ++ ['\n']) ++ y) : NameFits d.name := by
  have hnode : ¬ "Node".toList <:+: d.name := by
    intro hnode
    obtain ⟨g, hg, hlines⟩ := Option.bind_eq_some_iff.mp hentry
    obtain ⟨hname, hcnt⟩ := addEdges_frame hg
    obtain ⟨rest, rfl⟩ := branchEntry_spec hlines
    have hlt := length_lt_bbCnt hnode
    have hnamed : g.name = d.name := hname
    rw [hnamed] at h
    have heq := (cnt_eq_of_lines_eq h).1
    omega
  have harrow : ¬ "->".toList <:+: d.name := by
    intro harrow
    unfold entryOf at hentry
    rw [mapBlocks_eq_blocks hnode, addEdges_eq_none hnode harrow] at hentry
    cases hentry
  refine ⟨hnode, harrow, fun hcolon => ?_⟩
  rw [entryOf_eq_linesBy hnode harrow] at hentry
  cases hentry
  obtain ⟨n, ns, hns⟩ := List.exists_cons_of_ne_nil (show d.nodes ≠ [] from d.entry)
  have hname := (oneLine_bbName d.oneLine n.num).newline
  have hcut : '\n' ∉ cutLabel d.name n := fun hmem =>
    hname ((Search.before_prefix [':'] (bbName d.name n.num)).subset hmem)
  obtain ⟨rest, hrest⟩ := linesBy_eq hns (cutLabel d.name)
  obtain ⟨rest', hrest'⟩ := linesBy_eq hns d.label
  unfold DotFunc.branchLines at h
  rw [hrest, hrest'] at h
  have hrows := (cnt_eq_of_lines_eq h).2
  rw [getlines_lines_cons (newline_notMem_rowLine hcut _), getlines_lines_cons
    (newline_notMem_rowLine (show '\n' ∉ d.label n from hname) _)] at hrows
  exact row_ne_of_colon hcolon n _ _ (List.cons.inj hrows).1

/-- Every function's lines are what has to be written for it just if every name fits. -/
theorem mapM_entryOf_iff (ds : List DotFunc) :
    (ds.mapM entryOf).map (fun entries => entries.flatten.flatMap fun line => line ++ ['\n']) =
      some (branchText ds) ↔ ∀ d ∈ ds, NameFits d.name := by
  constructor
  · induction ds with
    | nil => simp
    | cons d ds ih =>
      intro h
      obtain ⟨entries, hentries, htext⟩ := Option.map_eq_some_iff.mp h
      rw [List.mapM_cons] at hentries
      obtain ⟨lines, hlines, hentries⟩ := Option.bind_eq_some_iff.mp hentries
      obtain ⟨rest, hrest, hentries⟩ := Option.bind_eq_some_iff.mp hentries
      cases hentries
      unfold branchText at htext
      rw [List.flatten_cons, List.flatMap_append, List.flatMap_cons, List.flatMap_append] at htext
      have hfits := nameFits_of_lines_eq hlines htext
      -- so the function's own lines are right, and the others' follow
      rw [entryOf_of_nameFits hfits] at hlines
      cases hlines
      have hothers := List.append_cancel_left htext
      refine List.forall_mem_cons.mpr ⟨hfits, ih ?_⟩
      rw [hrest, Option.map_some]
      exact congrArg some hothers
  · intro h
    rw [Loop.mapM_eq_some_map (g := DotFunc.branchLines) fun d hd => entryOf_of_nameFits (h d hd),
      Option.map_some]
    exact congrArg (fun lines : List Str => some (lines.flatMap fun line => line ++ ['\n']))
      List.flatMap_def.symm

/-- The script writes what it writes for each of the listed functions. -/
theorem cfgExtract_eq {read : Str → Option Str} {ds : List DotFunc}
    (hlist : read functionListFile = some (ds.flatMap fun d => d.name ++ ['\n']))
    (hdot : ∀ d ∈ ds, read (cfgPath ++ dotFile d.name) = some d.dotText ∧
      read (dotFile d.name) = some d.dotText) :
    cfgExtract read =
      (ds.mapM entryOf).map fun entries => entries.flatten.flatMap fun line => line ++ ['\n'] := by
  have hnames : readNames (ds.flatMap fun d => d.name ++ ['\n']) = ds.map DotFunc.name := by
    have hall : ∀ name ∈ ds.map DotFunc.name, name ≠ [] ∧ strip name = name ∧ OneLine name := by
      intro name hname
      obtain ⟨d, -, rfl⟩ := List.mem_map.mp hname
      exact ⟨d.name_ne, d.trimmed, d.oneLine⟩
    have hread := readNames_lines hall
    rwa [List.flatMap_map] at hread
  have hblocks : (ds.map DotFunc.name).mapM (fun name => do
      let text ← read (cfgPath ++ dotFile name)
      return mapBlocks name (readlines text)) =
      some (ds.map fun d => mapBlocks d.name (readlines d.dotText)) := by
    rw [List.mapM_map]
    apply Loop.mapM_eq_some_map
    intro d hd
    show (read (cfgPath ++ dotFile d.name)).bind _ = _
    rw [(hdot d hd).1]
    rfl
  have hedges : (ds.map fun d => mapBlocks d.name (readlines d.dotText)).mapM (fun f => do
      let text ← read (dotFile f.name)
      addEdges f (readlines text)) =
      ds.mapM fun d => addEdges (mapBlocks d.name (readlines d.dotText)) (readlines d.dotText) := by
    rw [List.mapM_map]
    apply Loop.mapM_congr_of_mem
    intro d hd
    show (read (dotFile d.name)).bind _ = _
    rw [(hdot d hd).2]
    rfl
  have hentries := Loop.mapM_bind_mapM
    (fun d => addEdges (mapBlocks d.name (readlines d.dotText)) (readlines d.dotText)) branchEntry ds
  unfold cfgExtract entryOf
  rw [hlist, Option.bind_eq_bind, Option.bind_some, hnames, hblocks, Option.bind_eq_bind,
    Option.bind_some, hedges, ← hentries, Option.map_eq_bind, Option.bind_assoc]
  rfl

/-! ### The files of a function -/

/-- The list with one function on it, and the function's dot file in both places. -/
def filesOf (d : DotFunc) (file : Str) : Option Str :=
  if file = functionListFile then some (d.name ++ ['\n'])
  else if file = cfgPath ++ dotFile d.name ∨ file = dotFile d.name then some d.dotText
  else none

theorem filesOf_list (d : DotFunc) :
    filesOf d functionListFile = some ([d].flatMap fun d => d.name ++ ['\n']) := by
  unfold filesOf
  rw [if_pos rfl, List.flatMap_singleton]

theorem filesOf_dot (d : DotFunc) : ∀ d' ∈ [d],
    filesOf d (cfgPath ++ dotFile d'.name) = some d'.dotText ∧
      filesOf d (dotFile d'.name) = some d'.dotText := by
  rw [List.forall_mem_singleton]
  have hfar : cfgPath ++ dotFile d.name ≠ functionListFile := by
    intro h
    have hnext : some '.' = some 'i' := congrArg List.head? (List.append_cancel_left h)
    exact absurd hnext (by decide)
  have hhere : dotFile d.name ≠ functionListFile := by
    intro h
    have hnext : some '.' = some '/' := congrArg List.head? h
    exact absurd hnext (by decide)
  unfold filesOf
  constructor
  · rw [if_neg hfar, if_pos (.inl rfl)]
  · rw [if_neg hhere, if_pos (.inr rfl)]

/-- A block with nothing but its name in its label. -/
def plainNode (addr num : ℕ) (h : num ≤ 999) : DotNode :=
  { addr := addr, num := num, attrs := "shape=record,".toList, rest := "\x7d\"];".toList, num_le := h,
    attrs_label := by decide, attrs_arrow := by decide, rest_arrow := by decide,
    attrs_oneLine := by decide, rest_oneLine := by decide }

/-- A function of two blocks that is a loop. -/
def loopFunc : DotFunc :=
  { name := "janne_complex".toList
    items := [.node (plainNode 16 1 (Nat.le_add_left 1 998)), .edge ⟨16, none, 32⟩,
      .node (plainNode 32 2 (Nat.le_add_left 2 997)), .edge ⟨32, some 0, 32⟩,
      .edge ⟨32, some 1, 16⟩]
    name_ne := by decide, trimmed := rfl, oneLine := by decide, entry := nofun
    nodup := by decide, closed := by decide }

def addNodeFunc : DotFunc :=
  { name := "addNode".toList, items := [.node (plainNode 16 1 (Nat.le_add_left 1 998))]
    name_ne := by decide, trimmed := rfl, oneLine := by decide, entry := nofun
    nodup := by decide, closed := by decide }

/-- **The branches.** Of dot files in the form that `opt` prints the script reports exactly the blocks
and their successors if and only if no name of a function has `Node`, an arrow or a colon in it. -/
theorem cfgExtract_iff {read : Str → Option Str} {ds : List DotFunc}
    (hlist : read functionListFile = some (ds.flatMap fun d => d.name ++ ['\n']))
    (hdot : ∀ d ∈ ds, read (cfgPath ++ dotFile d.name) = some d.dotText ∧
      read (dotFile d.name) = some d.dotText) :
    cfgExtract read = some (branchText ds) ↔ ∀ d ∈ ds, NameFits d.name := by
  rw [cfgExtract_eq hlist hdot]
  exact mapM_entryOf_iff ds

theorem cfgExtract_loopFunc : cfgExtract (filesOf loopFunc) = some (branchText [loopFunc]) := by
  apply (cfgExtract_iff (filesOf_list loopFunc) (filesOf_dot loopFunc)).mpr
  rw [List.forall_mem_singleton]
  exact ⟨by decide, by decide, by decide⟩

/-- The title of `addNode` is reported as a block. -/
theorem not_cfgExtract_addNode :
    entryOf addNodeFunc = some ["func name: addNode".toList, "addNode_BB_cnt: 2".toList,
      "FG for 'addNo: 0".toList, "addNode_BB1: 0".toList, []] ∧
    cfgExtract (filesOf addNodeFunc) ≠ some (branchText [addNodeFunc]) := by
  refine ⟨by decide +kernel, ?_⟩
  rw [cfgExtract_eq (filesOf_list addNodeFunc) (filesOf_dot addNodeFunc), Ne, mapM_entryOf_iff,
    List.forall_mem_singleton]
  exact fun h => absurd h.1 (by decide)

end MpuPasses
