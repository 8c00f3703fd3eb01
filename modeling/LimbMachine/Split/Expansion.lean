import LimbMachine.Program.Routine
import LimbMachine.Split.Borrows
import LimbMachine.Split.Comparison
import LimbMachine.Split.GuardedCopy

/-!
  Instructions over limbs.

  Every microcode expands into fragments; one whose registers all have a single
  limb keeps its form. Once all expansions are known the branches are settled:
  a comparison goes to the first fragment of the microcode it went to before,
  and a guard to a failure that is appended to the instruction.
-/

namespace LimbMachine

namespace Pool

/-- The first limb of a register; an unknown register stays as it is. -/
def firstLimb (pool : Pool) (id : RegId) : RegId := ((pool.limbs? id).bind List.head?).getD id

/-- The only limb of an operand of a division, which may be left out. -/
def onlyLimb (pool : Pool) (site : Site) (id : RegId) : Except SplitError RegId :=
  if id.isUsed then do
    match ← pool.tryLimbs id with
    | [limb] => return limb
    | _ => throw (.unsupportedDivision site)
  else
    .ok id

/-- Whether all registers that a microcode reads or writes have a single limb. -/
def isSingle (pool : Pool) (code : Microcode) : Except SplitError Bool := do
  let limbs ← (code.reads ++ code.writes).mapM pool.tryLimbs
  return limbs.all fun ids => ids.length == 1

end Pool

namespace Microcode

/-- A microcode over registers with a single limb each. -/
def rename (code : Microcode) (offset : Nat) (pool : Pool) : Fragment :=
  ⟨code.mapRegs pool.firstLimb, code.skipDistance.map fun skip => .offset (landing offset skip)⟩

/-- The fragments of a microcode with some register of several limbs. -/
def lower (site : Site) (offset : Nat) : SplitM (List Fragment) := do
  let plain (codes : List Microcode) : List Fragment := codes.map Fragment.plain
  let code := site.code
  match code with
  | assign targets rhs => return plain (← splitPolynomial site targets rhs)
  | add targets _ _ | mul targets _ _ =>
    return plain (← splitPolynomial site targets (code.polynomial?.getD .zero))
  | sub targets sources constant =>
    return plain (← splitSubtraction site targets sources constant)
  | cast targets source width => splitCast site targets source width
  | div quotient remainder witness dividend divisor =>
    Pool.asking fun pool => do
      let quotient ← pool.onlyLimb site quotient
      let remainder ← pool.onlyLimb site remainder
      let witness ← pool.onlyLimb site witness
      let dividend ← pool.onlyLimb site dividend
      let divisor ← pool.onlyLimb site divisor
      return plain [div quotient remainder witness dividend divisor]
  | skip left right constant distance =>
    splitComparison site [left] (if right.isUsed then some [right] else none) constant
      (landing offset distance)
  | skipIf left right constant distance =>
    splitComparison site left (if right = [] then none else some right) constant
      (landing offset distance)
  | call bus targets sources =>
    Pool.asking fun pool => do
      let targets ← pool.flatten targets
      let sources ← pool.flatten sources
      return plain [call bus targets sources]
  | jmp _ | ret | fail => return plain [code]

/-- The fragments of the microcode at `offset`, shown over `rs` where it is at fault. -/
def expand (rs : RegisterFile) (offset : Nat) (code : Microcode) : SplitM (List Fragment) := do
  if ← Pool.asking fun pool => pool.isSingle code then
    return [code.rename offset (← get)]
  else
    lower ⟨code, rs⟩ offset

/-- Whether a sum overruns that lowering a microcode comes to. -/
def lowerOverruns (rs : RegisterFile) (offset : Nat) (pool : Pool) (code : Microcode) : Bool :=
  match code with
  | assign targets _ | add targets _ _ | mul targets _ _ =>
    pool.assignOverruns targets (code.polynomial?.getD .zero)
  | sub targets sources _ => pool.subtractionOverruns rs targets sources
  | cast targets source _ => (pool.layout [source]).isOk && pool.layoutOverruns targets
  | skip left right _ distance =>
    pool.comparisonOverruns [left] (if right.isUsed then [right] else []) (offset + 1 + distance)
  | skipIf left right _ distance =>
    pool.comparisonOverruns left right (offset + 1 + distance)
  | div .. | call .. | jmp _ | ret | fail => false

/-- Whether a sum overruns that expanding the microcode at `offset` comes to. -/
def expandOverruns (rs : RegisterFile) (offset : Nat) (pool : Pool) (code : Microcode) : Bool :=
  match pool.isSingle code with
  | .error _ => false
  | .ok true => code.skipDistance.any fun distance => Word.overruns (offset + 1 + distance)
  | .ok false => code.lowerOverruns rs offset pool

end Microcode

namespace Fragment

/-- Where each expansion starts in the split instruction, and where the last one ends. -/
def starts : Nat → List (List Fragment) → List Nat
  | start, [] => [start]
  | start, expansion :: rest => start :: starts (start + expansion.length) rest

/-- The offset in the split instruction where a branch lands. -/
def target (expansions : List (List Fragment)) : Branch → Nat
  | .offset offset =>
    let finish := expansions.flatten.length
    ((starts 0 expansions)[offset]?).getD (Word.add finish (offset - expansions.length))
  | .trailer => expansions.flatten.length

/-- The microcode of a fragment at offset `here`, its branch settled. -/
def settle (expansions : List (List Fragment)) (fragment : Fragment) (here : Nat) : Microcode :=
  match fragment.branch with
  | some branch => fragment.code.withSkip (target expansions branch - (here + 1))
  | none => fragment.code

/-- The split instruction that expansions make up. -/
def link (expansions : List (List Fragment)) : Instruction :=
  let fragments := expansions.flatten
  let body := fragments.zipIdx.map fun (fragment, here) => settle expansions fragment here
  body ++ if fragments.any fun f => f.branch = some .trailer then [.fail] else []

/-- Whether the offset overruns where a branch lands that leaves the instruction. -/
def linkOverruns (expansions : List (List Fragment)) : Bool :=
  let finish := expansions.flatten.length
  expansions.flatten.any fun fragment =>
    match fragment.branch with
    | some (.offset offset) => Word.overruns (finish + (offset - expansions.length))
    | _ => false

end Fragment

namespace Instruction

/-- The expansions of microcodes from `offset` on. -/
def expandFrom (rs : RegisterFile) : Nat → List Microcode → SplitM (List (List Fragment))
  | _, [] => pure []
  | offset, code :: rest => do
    let expansion ← code.expand rs offset
    return expansion :: (← expandFrom rs (offset + 1) rest)

/-- Splits an instruction over the registers `rs`. -/
def split (rs : RegisterFile) (instruction : Instruction) : SplitM Instruction := do
  return Fragment.link (← expandFrom rs 0 instruction)

/-- Whether a sum overruns that expanding microcodes from `offset` on comes to. -/
def expandOverruns (rs : RegisterFile) : Nat → List Microcode → Pool → Bool
  | _, [], _ => false
  | offset, code :: rest, pool =>
    code.expandOverruns rs offset pool ||
      match code.expand rs offset pool with
      | .error _ _ => false
      | .ok _ pool => expandOverruns rs (offset + 1) rest pool

/-- Whether a sum overruns that splitting an instruction comes to. -/
def splitOverruns (rs : RegisterFile) (instruction : Instruction) (pool : Pool) : Bool :=
  expandOverruns rs 0 instruction pool ||
    match expandFrom rs 0 instruction pool with
    | .error _ _ => false
    | .ok expansions _ => Fragment.linkOverruns expansions

def split? (rs : RegisterFile) (instruction : Instruction) (pool : Pool) :
    Option (EStateM.Result SplitError Pool Instruction) :=
  Word.checked (instruction.splitOverruns rs pool) (instruction.split rs pool)

/-- Splits instructions one after the other. -/
def splitAll (rs : RegisterFile) : List Instruction → SplitM (List Instruction)
  | [] => pure []
  | instruction :: rest => do
    let first ← instruction.split rs
    return first :: (← splitAll rs rest)

/-- Whether a sum overruns that splitting instructions one after the other comes to. -/
def splitAllOverruns (rs : RegisterFile) : List Instruction → Pool → Bool
  | [], _ => false
  | instruction :: rest, pool =>
    instruction.splitOverruns rs pool ||
      match instruction.split rs pool with
      | .error _ _ => false
      | .ok _ pool => splitAllOverruns rs rest pool

end Instruction

end LimbMachine
