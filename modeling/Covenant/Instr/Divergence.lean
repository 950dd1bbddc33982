import Covenant.Instr.Basic

/-!
# Covenant — code that always aborts

Control never continues past `failwith`, nor past a branch both of whose blocks abort. Of a block
the last instruction decides, notes not counted: what aborts ends its block.
-/

namespace Covenant

mutual

/-- Control never continues past the instruction. -/
def Instr.diverges : Instr → Bool
  | .failwith => true
  | .ifElse a b | .ifNone a b => diverges a && diverges b
  | _ => false

/-- Control never reaches the end of the block. -/
def diverges : Code → Bool
  | [] => false
  | i :: rest => if rest.all Instr.isNote then i.diverges else diverges rest

end

end Covenant
