import LimbMachine.Program.Microcode

/-!
  Fragments: microcodes of a split instruction whose branches are not yet
  settled. A branch is given by where it has to land in the instruction before
  splitting, or by the failure that stands at the end of a split instruction.
-/

namespace LimbMachine

/-- Where a branch has to land. -/
inductive Branch where
  /-- The first fragment of the microcode at this offset before splitting. -/
  | offset (offset : Nat)
  /-- The failure after the last fragment. -/
  | trailer
deriving DecidableEq

/-- A microcode, and where it has to land if it branches. -/
structure Fragment where
  code : Microcode
  branch : Option Branch

/-- A microcode that does not branch. -/
def Fragment.plain (code : Microcode) : Fragment := ⟨code, none⟩

/-- A comparison of a limb with a constant. -/
def Fragment.compareConst (id : RegId) (constant : Nat) (branch : Branch) : Fragment :=
  ⟨.skip id .unused constant 0, some branch⟩

end LimbMachine
