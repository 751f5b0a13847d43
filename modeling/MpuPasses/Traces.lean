import MpuPasses.Ir

/-!
# What a function does

The actions of an execution are the PHI nodes it evaluates, with the block that control comes from,
its instructions, the choices its branches make and its return. An unconditional branch is no action,
so a function does the same if its blocks are cut differently. Executions are followed up to any
point; `Function.Traces` holds the actions of all of them.
-/

namespace MpuPasses

inductive Action
  | phis (pred : Option ℕ) (ps : List Phi)
  | inst (i : Instr)
  | branch (operands : List Val) (choice : ℕ)
  | ret (operands : List Val)
  deriving DecidableEq, Repr

/-- The PHI nodes and the instructions of a block. -/
def Block.actions (b : Block) (pred : Option ℕ) : List Action :=
  (if b.phis = [] then [] else [.phis pred b.phis]) ++ b.insts.map .inst

/-- A branch; one without operands that has one successor is unconditional. -/
def branchActions (operands : List Val) (succs : List ℕ) (choice : ℕ) : List Action :=
  if operands = [] ∧ succs.length = 1 then [] else [.branch operands choice]

/-- The actions of an execution that enters a block from another one. -/
inductive Function.Exec (F : Function) : Option ℕ → Block → List Action → Prop
  | cut {pred : Option ℕ} {b : Block} {t : List Action} (h : t <+: b.actions pred) : F.Exec pred b t
  | ret {pred : Option ℕ} {b : Block} {operands : List Val} (h : b.term = .ret operands) :
      F.Exec pred b (b.actions pred ++ [.ret operands])
  | go {pred : Option ℕ} {b c : Block} {operands : List Val} {succs : List ℕ} {choice : ℕ}
      {t : List Action} (hterm : b.term = .branch operands succs)
      (hsucc : succs[choice]? = some c.label) (hc : c ∈ F.blocks) (h : F.Exec (some b.label) c t) :
      F.Exec pred b (b.actions pred ++ branchActions operands succs choice ++ t)

/-- The actions of the executions from the entry. -/
def Function.Traces (F : Function) : Set (List Action) :=
  {t | ∃ b, F.blocks.head? = some b ∧ F.Exec none b t}

end MpuPasses
