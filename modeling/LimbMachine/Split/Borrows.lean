import LimbMachine.Program.Pivot
import LimbMachine.Split.Equations

/-!
  Subtractions as chains of stages with borrows.

  There is one stage per limb of the minuend. A stage subtracts the limbs of
  the subtrahends that start at the same bit, its part of the constant and what
  the stage before borrowed; it writes the low target limb there and a borrow
  register that holds exactly the most it can borrow. Weighted by where they
  stand, the borrows cancel, so the last stage borrows what the whole
  subtraction does.

  Limbs of a subtrahend above the minuend are whole borrows: they are added to
  the last borrow. Low targets that are cut in other places than the minuend
  take the result through scratch registers.
-/

namespace LimbMachine

/-- The parts of a subtraction over limbs. -/
structure Subtraction where
  site : Site
  /-- The width of the minuend. -/
  width : Nat
  /-- The limbs that take the difference. -/
  low : List Limb
  /-- The limbs that take the borrow. -/
  high : List Limb
  /-- The limbs of subtrahends above the minuend, weighted in units of the borrow. -/
  above : List Term

/-- One limb of the minuend and what is subtracted from it. -/
structure Stage where
  minuend : Limb
  /-- The target limb that takes the difference, where the low targets are cut like the minuend. -/
  low : Option RegId
  subtracted : List RegId
  constant : Nat

namespace Subtraction

/-- The target of a stage's difference, and what of it still has to reach the low targets. -/
def difference (plan : Subtraction) (stage : Stage) : SplitM (List RegId × List Term) :=
  if plan.width = 0 then
    pure ([], [])
  else
    match stage.low with
    | some id => pure ([id], [])
    | none => do
      let scratch ← Pool.allocate "tmp" stage.minuend.width
      return if scratch.isUsed then
          ([scratch], [Term.ofLimb scratch stage.minuend.offset])
        else
          ([], [])

/-- One stage: its microcode, what it leaves for the low targets, and its borrow. -/
def stage (plan : Subtraction) (isLast : Bool) (borrow : RegId) (stage : Stage) :
    SplitM (Microcode × List Term × RegId) := do
  let others := stage.subtracted ++ if borrow.isUsed then [borrow] else []
  let most := stage.constant + (others.map (← get).registers.maxOf).sum
  let bits := bitLength (borrowsFor most stage.minuend.width)
  let (targets, scratch) ← plan.difference stage
  let sources := stage.minuend.id :: others
  if isLast && plan.above.isEmpty then
    if Limb.total plan.high < bits then
      throw (.overflow plan.site)
    return (.sub (targets ++ plan.high.map Limb.id) sources stage.constant, scratch, borrow)
  else
    let next ← Pool.allocate "borrow" bits
    let targets := targets ++ if next.isUsed then [next] else []
    return (.sub targets sources stage.constant, scratch, next)

/-- A chain of stages that a borrow enters. -/
def stages (plan : Subtraction) :
    RegId → List Stage → SplitM (List Microcode × List Term × RegId)
  | borrow, [] => pure ([], [], borrow)
  | borrow, stage :: rest => do
    let (code, scratch, next) ← plan.stage rest.isEmpty borrow stage
    let (codes, more, final) ← plan.stages next rest
    return (code :: codes, scratch ++ more, final)

/-- The microcodes of a subtraction, given its stages. -/
def codes (plan : Subtraction) (aligned : Bool) (stages : List Stage) :
    SplitM (List Microcode) := do
  let (chain, scratch, borrow) ← plan.stages .unused stages
  let moved ← if aligned then pure [] else distribute plan.site scratch plan.low
  if plan.above.isEmpty then
    return chain ++ moved
  if plan.high.isEmpty then
    throw (.overflow plan.site)
  let borrowed := if borrow.isUsed then [Term.ofLimb borrow 0] else []
  let raised ← distribute plan.site (plan.above ++ borrowed) plan.high
  return chain ++ moved ++ raised

end Subtraction

namespace Pool

/-- The limbs of some registers, each register on its own; a limb of no width is always zero. -/
def limbsOfEach (pool : Pool) (ids : List RegId) : Except SplitError (List Limb) := do
  let layouts ← ids.mapM fun id => pool.layout [id]
  return layouts.flatten.filter fun limb => 0 < limb.width

/-- The plan of a subtraction: its parts, whether the low targets are cut like the minuend, and
the stages. -/
def planSubtraction (pool : Pool) (site : Site) (targets sources : List RegId) (constant : Nat) :
    Except SplitError (Subtraction × Bool × List Stage) :=
  match sources with
  | [] => .error (.misalignedSubtraction site)
  | minuend :: subtrahends =>
    let width := site.registers.widthOf minuend
    match subPivot targets site.registers width with
    | none => .error (.misalignedSubtraction site)
    | some pivot => do
      let all ← pool.layout [minuend]
      let limbs := if width = 0 then all.take 1 else all
      let low ← pool.layout (targets.take pivot)
      let high ← pool.layout (targets.drop pivot)
      let others ← pool.limbsOfEach subtrahends
      let (below, above) := others.partition fun limb => limb.offset < width
      if below.any fun limb => limbs.all fun m => m.offset ≠ limb.offset then
        throw (.misalignedSubtraction site)
      let aligned := low.map Limb.width == limbs.map Limb.width
      let stages := (limbs.zip (Limb.cutAt constant limbs)).zipIdx.map fun ((m, chunk), i) =>
        { minuend := m
          low := if aligned then (low[i]?).map Limb.id else none
          subtracted := (below.filter fun limb => limb.offset = m.offset).map Limb.id
          constant := chunk : Stage }
      let above := above.map fun limb => Term.ofLimb limb.id (limb.offset - width)
      return (⟨site, width, low, high, above⟩, aligned, stages)

/-- Whether a sum overruns that planning a subtraction comes to. -/
def subtractionOverruns (pool : Pool) (rs : RegisterFile) (targets sources : List RegId) : Bool :=
  match sources with
  | [] => false
  | minuend :: _ =>
    let width := rs.widthOf minuend
    subPivotOverruns targets rs width ||
      (subPivot targets rs width).any fun pivot =>
        (pool.layout [minuend]).isOk &&
          (pool.layoutOverruns (targets.take pivot) ||
            ((pool.layout (targets.take pivot)).isOk &&
              pool.layoutOverruns (targets.drop pivot)))

end Pool

/-- Splits a subtraction. -/
def splitSubtraction (site : Site) (targets sources : List RegId) (constant : Nat) :
    SplitM (List Microcode) := do
  let (plan, aligned, stages) ←
    Pool.asking fun pool => pool.planSubtraction site targets sources constant
  plan.codes aligned stages

end LimbMachine
