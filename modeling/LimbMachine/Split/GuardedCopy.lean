import LimbMachine.Split.Equations
import LimbMachine.Split.Fragment

/-!
  Casts as guarded copies.

  A source limb above the width that is kept has to be zero: a guard compares
  it with zero and goes to the failure at the end of the instruction if it is
  not. A limb below the width is kept whole, and the limb that straddles it is
  cast on its own. If every kept piece starts where a target limb wide enough
  for it does, the pieces are copied and the other target limbs cleared; else
  they are distributed over the targets like the terms of a sum.
-/

namespace LimbMachine

/-- A source limb of which the low `kept` bits are kept. -/
structure Piece where
  limb : Limb
  kept : Nat

namespace Piece

/-- The pieces of a cast to `width` bits; a limb of no width is always zero. -/
def ofLimbs (width : Nat) (limbs : List Limb) : List Piece :=
  (limbs.filter fun limb => 0 < limb.width).map fun limb =>
    ⟨limb, min (width - limb.offset) limb.width⟩

/-- The target limb, with its place, that a piece can be copied to. -/
def slot? (piece : Piece) (targets : List Limb) : Option (Limb × Nat) :=
  targets.zipIdx.find? fun (t, _) => t.offset = piece.limb.offset && piece.kept ≤ t.width

/-- The microcode that copies a piece. -/
def copyTo (piece : Piece) (target : RegId) : Microcode :=
  if piece.kept = piece.limb.width then
    .assign [target] (.var piece.limb.id)
  else
    .cast [target] piece.limb.id piece.kept

/-- Copies the pieces to their slots and clears the other target limbs. -/
def copies (pieces : List Piece) (slots : List (Limb × Nat)) (targets : List Limb) :
    List Microcode :=
  (pieces.zip slots).map (fun (piece, target, _) => piece.copyTo target.id)
    ++ (targets.zipIdx.filter fun (_, i) => !(slots.map Prod.snd).contains i).map
      fun (target, _) => .assign [target.id] .zero

/-- The terms that the pieces stand for, after the casts that make them whole registers. -/
def gather : List Piece → SplitM (List Microcode × List Term)
  | [] => pure ([], [])
  | piece :: rest => do
    if piece.kept < piece.limb.width then
      let whole ← Pool.allocate "tmp" piece.kept
      let (casts, terms) ← gather rest
      return (.cast [whole] piece.limb.id piece.kept :: casts,
        Term.ofLimb whole piece.limb.offset :: terms)
    else
      let (casts, terms) ← gather rest
      return (casts, Term.ofLimb piece.limb.id piece.limb.offset :: terms)

/-- Microcodes that move kept pieces to target limbs. -/
def move (site : Site) (pieces : List Piece) (targets : List Limb) : SplitM (List Microcode) :=
  match pieces.mapM fun piece => piece.slot? targets with
  | some slots => pure (copies pieces slots targets)
  | none => do
    let (casts, terms) ← gather pieces
    return casts ++ (← distribute site terms targets)

end Piece

/-- Splits a cast. -/
def splitCast (site : Site) (targets : List RegId) (source : RegId) (width : Nat) :
    SplitM (List Fragment) := do
  let sourceLimbs ← Pool.asking fun pool => pool.layout [source]
  let targetLimbs ← Pool.asking fun pool => pool.layout targets
  let (dropped, kept) := (Piece.ofLimbs width sourceLimbs).partition fun piece => piece.kept = 0
  let guards := dropped.map fun piece => Fragment.compareConst piece.limb.id 0 .trailer
  return guards ++ (← Piece.move site kept targetLimbs).map Fragment.plain

end LimbMachine
