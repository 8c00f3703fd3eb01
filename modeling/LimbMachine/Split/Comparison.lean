import LimbMachine.Split.Fragment
import LimbMachine.Split.Pool

/-!
  Comparisons limb group by limb group.

  Two packed operands of equal width differ if and only if they differ between
  two neighbouring bits where both have a limb boundary. Their limbs are grouped at
  these common boundaries, and every group is compared on its own, all of them
  branching to the same place. A constant is cut along the limbs it is compared
  with.
-/

namespace LimbMachine

namespace Limb

/-- Limbs of both operands between two common boundaries. -/
abbrev Group := List RegId × List RegId

/-- Takes limbs until bit `goal` is reached: the ids with those taken before, the bit reached,
and the limbs that remain; nothing if the limbs do not reach. -/
def takeUntil (goal : Nat) :
    Nat → List RegId → List Limb → Option (List RegId × Nat × List Limb)
  | _, _, [] => none
  | reached, taken, limb :: rest =>
    let reached := Word.add reached limb.width
    let taken := taken ++ [limb.id]
    if goal ≤ reached then some (taken, reached, rest) else takeUntil goal reached taken rest

/-- The groups of two operands of which bits `endLeft` and `endRight` are reached, with the limbs
of the open group. -/
def groupsFrom : Nat → Nat → Group → List Limb → List Limb → List Group
  | _, _, _, [], _ => []
  | endLeft, endRight, (left, right), limb :: lefts, rights =>
    let endLeft := Word.add endLeft limb.width
    let left := left ++ [limb.id]
    if endLeft = endRight then
      (left, right) :: groupsFrom endLeft endRight ([], []) lefts rights
    else if endLeft ≤ endRight then
      groupsFrom endLeft endRight (left, right) lefts rights
    else
      match takeUntil endLeft endRight right rights with
      | none => []
      | some (right, endRight, rights) =>
        if endLeft = endRight then
          (left, right) :: groupsFrom endLeft endRight ([], []) lefts rights
        else
          groupsFrom endLeft endRight (left, right) lefts rights

/-- The groups of two operands of equal width; a limb of no width is always zero. -/
def groups (left right : List Limb) : List Group :=
  let wide (limbs : List Limb) : List Limb := limbs.filter fun limb => 0 < limb.width
  groupsFrom 0 0 ([], []) (wide left) (wide right)

/-- The comparison of one group. -/
def compareGroup : Group → Microcode
  | ([left], [right]) => .skip left right 0 0
  | (left, right) => .skipIf left right 0 0

end Limb

/-- Whether a sum overruns that splitting a comparison comes to; `landing` is the exact offset where
it goes when the operands differ. -/
def Pool.comparisonOverruns (pool : Pool) (left right : List RegId) (landing : Nat) : Bool :=
  pool.layoutOverruns right ||
    ((pool.layout right).isOk &&
      (pool.layoutOverruns left || ((pool.layout left).isOk && Word.overruns landing)))

/-- Splits a comparison of packed operands, the right one a constant if it is left out; `landing`
is where it goes when they differ. -/
def splitComparison (site : Site) (left : List RegId) (right : Option (List RegId))
    (constant landing : Nat) : SplitM (List Fragment) := do
  let other ← Pool.asking fun pool =>
    match right with
    | some ids => (pool.layout ids).map some
    | none => .ok none
  let limbs ← Pool.asking fun pool => pool.layout left
  match other with
  | none =>
    return (limbs.zip (Limb.cutAt constant limbs)).map fun (limb, chunk) =>
      Fragment.compareConst limb.id chunk (.offset landing)
  | some other =>
    if Limb.total limbs ≠ Limb.total other then
      throw (.misalignedComparison site)
    return (Limb.groups limbs other).map fun group =>
      ⟨Limb.compareGroup group, some (.offset landing)⟩

end LimbMachine
