import MpuPasses.BBLabel
import MpuPasses.Lib.Search

/-!
# The dot file of a function

`opt -dot-cfg` prints a control-flow graph as a header, a title, one line for every block and one for
every edge. `DotFunc` is what it prints, `dotText` how. `DotFunc.branchLines` says what a report on the
graph has to contain: the blocks in the order of the file, each with its successors in the order of
the edges.
-/

namespace MpuPasses

open Chars

/-! ## The graph -/

/-- A block: its address, the number in its name, the attributes in front of its label and the text
behind its name. The first `label` in the line is the label's. A label has its `>` escaped, so no
arrow stands in it. -/
structure DotNode where
  addr : ℕ
  num : ℕ
  attrs : Str
  rest : Str
  num_le : num ≤ 999
  attrs_label : ¬ "label".toList <:+: attrs ++ "labe".toList
  attrs_arrow : ¬ "->".toList <:+: attrs
  rest_arrow : ¬ "->".toList <:+: rest
  attrs_oneLine : OneLine attrs
  rest_oneLine : OneLine rest

/-- An edge, with the port of the source's label if it has one. -/
structure DotEdge where
  src : ℕ
  port : Option ℕ
  dst : ℕ
  deriving DecidableEq, Repr

inductive DotItem
  | node (n : DotNode)
  | edge (e : DotEdge)

def DotItem.node? : DotItem → Option DotNode
  | .node n => some n
  | .edge _ => none

def DotItem.edge? : DotItem → Option DotEdge
  | .node _ => none
  | .edge e => some e

/-- A function with its graph: the blocks have different addresses, and the edges lead from block to
block. Its name is one that `function.txt` can list. -/
structure DotFunc where
  name : Str
  items : List DotItem
  name_ne : name ≠ []
  trimmed : strip name = name
  oneLine : OneLine name
  entry : items.filterMap DotItem.node? ≠ []
  nodup : ((items.filterMap DotItem.node?).map DotNode.addr).Nodup
  closed : ∀ e ∈ items.filterMap DotItem.edge?,
    e.src ∈ (items.filterMap DotItem.node?).map DotNode.addr ∧
      e.dst ∈ (items.filterMap DotItem.node?).map DotNode.addr

def DotFunc.nodes (d : DotFunc) : List DotNode := d.items.filterMap DotItem.node?

def DotFunc.edges (d : DotFunc) : List DotEdge := d.items.filterMap DotItem.edge?

/-! ## The text -/

/-- `Node<addr>`. -/
def nodeId (addr : ℕ) : Str := "Node".toList ++ pyHex addr

def dotHeader (fName : Str) : Str :=
  "digraph \"CFG for '".toList ++ fName ++ "' function\" \x7b".toList

def dotTitle (fName : Str) : Str := "\tlabel=\"CFG for '".toList ++ fName ++ "' function\";".toList

/-- What the script takes for the beginning of a block's name. -/
def labelKey : Str := "label=\"\x7b".toList

def nodeText (fName : Str) (n : DotNode) : Str :=
  '\t' :: nodeId n.addr ++ ' ' :: '[' :: n.attrs ++ labelKey ++ bbName fName n.num ++ ':' :: n.rest

def DotEdge.portText (e : DotEdge) : Str := e.port.elim [] fun k => ':' :: 's' :: pyStr k

def edgeText (e : DotEdge) : Str :=
  '\t' :: nodeId e.src ++ e.portText ++ " -> ".toList ++ nodeId e.dst ++ ";".toList

def itemText (fName : Str) : DotItem → Str
  | .node n => nodeText fName n
  | .edge e => edgeText e

def DotFunc.dotLines (d : DotFunc) : List Str :=
  dotHeader d.name :: dotTitle d.name :: [] :: d.items.map (itemText d.name) ++ ["\x7d".toList]

/-- The text of the file. Names stand as they are: `opt` itself would print a quote, a brace or an angle
bracket in a name with a backslash in front. -/
def DotFunc.dotText (d : DotFunc) : Str := d.dotLines.flatMap fun line => line ++ ['\n']

/-! ## The report -/

/-- What a block has to be reported with. -/
def DotFunc.label (d : DotFunc) (n : DotNode) : Str := bbName d.name n.num

/-- The names of a block's successors, along some of the edges, when the blocks go by `label`. -/
def DotFunc.succsAlong (d : DotFunc) (label : DotNode → Str) (edges : List DotEdge) (n : DotNode) :
    List Str :=
  (edges.filter fun e => decide (e.src = n.addr)).filterMap fun e =>
    (d.nodes.find? fun m => decide (m.addr = e.dst)).map label

/-- The lines for a block. -/
def blockLines (name : Str) (next : List Str) : List Str :=
  (name ++ ": ".toList ++ pyStr next.length) :: next.map fun succ => " -> ".toList ++ succ

/-- The lines for a function whose blocks go by `label`. -/
def DotFunc.linesBy (d : DotFunc) (label : DotNode → Str) : List Str :=
  ("func name: ".toList ++ d.name) :: (d.name ++ "_BB_cnt: ".toList ++ pyStr d.nodes.length) ::
    (d.nodes.flatMap fun n => blockLines (label n) (d.succsAlong label d.edges n)) ++ [[]]

/-- The lines for a function. -/
def DotFunc.branchLines (d : DotFunc) : List Str := d.linesBy d.label

/-- The text of `branch.txt`. -/
def branchText (ds : List DotFunc) : Str :=
  (ds.flatMap DotFunc.branchLines).flatMap fun line => line ++ ['\n']

/-! ## The lines as they are read -/

theorem oneLine_nodeId (addr : ℕ) : OneLine (nodeId addr) := by
  unfold nodeId
  simp

theorem oneLine_bbName {fName : Str} (hname : OneLine fName) (num : ℕ) : OneLine (bbName fName num) := by
  unfold bbName
  simp [hname]

theorem oneLine_itemText {fName : Str} (hname : OneLine fName) (x : DotItem) :
    OneLine (itemText fName x) := by
  cases x with
  | node n =>
    have hkey : OneLine labelKey := by decide
    show OneLine (nodeText fName n)
    unfold nodeText
    simp [oneLine_nodeId, oneLine_bbName hname, hkey, n.attrs_oneLine, n.rest_oneLine]
  | edge e =>
    have hport : OneLine e.portText := by
      unfold DotEdge.portText
      cases e.port with
      | none => exact oneLine_nil
      | some k => simp
    show OneLine (edgeText e)
    unfold edgeText
    simp [oneLine_nodeId, hport]

theorem readlines_dotText (d : DotFunc) :
    readlines d.dotText = d.dotLines.map fun line => line ++ ['\n'] := by
  unfold DotFunc.dotText
  apply readlines_flatMap
  intro line hline
  unfold DotFunc.dotLines at hline
  simp only [List.cons_append, List.mem_cons, List.mem_append, List.mem_map, List.not_mem_nil,
    or_false] at hline
  rcases hline with rfl | rfl | rfl | ⟨x, -, rfl⟩ | rfl
  · unfold dotHeader
    rw [oneLine_append, oneLine_append]
    exact ⟨⟨by decide, d.oneLine⟩, by decide⟩
  · unfold dotTitle
    rw [oneLine_append, oneLine_append]
    exact ⟨⟨by decide, d.oneLine⟩, by decide⟩
  · exact oneLine_nil
  · exact oneLine_itemText d.oneLine x
  · decide

end MpuPasses
