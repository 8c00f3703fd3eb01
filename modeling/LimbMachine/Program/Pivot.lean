import LimbMachine.Program.Register

/-!
  How a subtraction shares out its targets. The low ones, together exactly as
  wide as the minuend, take the difference modulo `2 ^ width`; the others take
  how many times `2 ^ width` had to be borrowed.
-/

namespace LimbMachine

/-- How many targets make up exactly `width` bits, given that the targets before these make up
`sofar` bits and are `taken` in number. -/
def pivotFrom (rs : RegisterFile) (width sofar taken : Nat) : List RegId → Option Nat
  | [] => none
  | target :: rest =>
    let reached := Word.add sofar (rs.widthOf target)
    if reached = width then
      some (taken + 1)
    else if width < reached then
      none
    else
      pivotFrom rs width reached (taken + 1) rest

/-- How many targets of a subtraction take the difference: the shortest run of them that is as
wide as the minuend. The others take the borrow. -/
def subPivot (targets : List RegId) (rs : RegisterFile) (width : Nat) : Option Nat :=
  if width = 0 then some 0 else pivotFrom rs width 0 0 targets

/-- Whether a sum overruns on the way to the pivot, given that the targets before these make up
`sofar` bits. -/
def pivotOverruns (rs : RegisterFile) (width sofar : Nat) : List RegId → Bool
  | [] => false
  | target :: rest =>
    let reached := sofar + rs.widthOf target
    Word.overruns reached || (reached < width && pivotOverruns rs width reached rest)

def subPivotOverruns (targets : List RegId) (rs : RegisterFile) (width : Nat) : Bool :=
  width ≠ 0 && pivotOverruns rs width 0 targets

def subPivot? (targets : List RegId) (rs : RegisterFile) (width : Nat) : Option (Option Nat) :=
  Word.checked (subPivotOverruns targets rs width) (subPivot targets rs width)

/-- The least number of borrows of `2 ^ width` that make up for a deficit. -/
def borrowsFor (deficit width : Nat) : Nat :=
  if deficit = 0 then 0 else (deficit - 1) >>> width + 1

end LimbMachine
