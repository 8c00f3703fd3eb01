import LimbMachine.Split.Pool

/-!
  Sums of products over limbs, as a chain of equations with carries.

  A sum of weighted terms is distributed over target limbs, one equation per
  limb. A coefficient too wide for its limb passes its upper bits on to the
  next equation; equation `k` writes limb `k` and a carry register that holds
  exactly what does not fit, and the carry enters equation `k + 1`. The last
  equation with any term writes all limbs from its own on.

  The equations run one after the other, while the sum they stand for reads all
  its variables at once. A target limb that a later equation reads is therefore
  copied before the first equation runs.
-/

namespace LimbMachine

/-- A monomial over limbs, times `2 ^ shift`. -/
structure Term where
  monomial : Monomial
  shift : Nat

/-- What one limb receives. -/
structure LimbEquation where
  limb : Limb
  terms : List Monomial

namespace Term

/-- A limb on its own, times `2 ^ shift`. -/
def ofLimb (id : RegId) (shift : Nat) : Term := ⟨⟨1, [id]⟩, shift⟩

/-- A coefficient cut along limbs from the lowest on; the last limb takes all bits that remain. -/
def carryUp : List Limb → Nat → List Nat
  | [], _ => []
  | [_], remaining => [remaining]
  | limb :: rest, remaining =>
    remaining % 2 ^ limb.width :: carryUp rest (remaining >>> limb.width)

/-- The part of a weighted coefficient that each limb receives: nothing below the last limb that
starts at or before the weight. -/
def parts (coefficient shift : Nat) : List Limb → List Nat
  | [] => []
  | limb :: rest =>
    if rest.any fun next => next.offset ≤ shift then
      0 :: parts coefficient shift rest
    else
      carryUp (limb :: rest) (coefficient <<< (shift - limb.offset))

/-- Adds one term to the right-hand sides of the limbs. -/
def addTo (layout : List Limb) (term : Term) (sides : List (List Monomial)) :
    List (List Monomial) :=
  List.zipWith
    (fun part side => if part = 0 then side else ⟨part, term.monomial.vars⟩ :: side)
    (parts term.monomial.coefficient term.shift layout) sides

end Term

namespace LimbEquation

/-- One equation per limb; together they stand for the sum of the terms. -/
def ofTerms (layout : List Limb) (terms : List Term) : List LimbEquation :=
  List.zipWith mk layout (terms.foldr (Term.addTo layout) (layout.map fun _ => []))

/-- The variables read after they are written; `written` are the limbs of the equations before
these. -/
def hazards : List RegId → List LimbEquation → List RegId
  | _, [] => []
  | written, eq :: rest =>
    (eq.terms.flatMap Monomial.vars).filter (· ∈ written) ++ hazards (eq.limb.id :: written) rest

/-- Allocates a copy of each limb. -/
def copy : List RegId → SplitM (List (RegId × RegId))
  | [] => pure []
  | id :: rest => do
    let saved ← Pool.allocate "tmp" ((← get).registers.widthOf id)
    return (id, saved) :: (← copy rest)

/-- The id to read instead of a copied limb. -/
def reading (copies : List (RegId × RegId)) (id : RegId) : RegId := (copies.lookup id).getD id

/-- The right-hand side of an equation once a carry has entered. -/
def rhs (eq : LimbEquation) (carry : RegId) : Polynomial :=
  ⟨eq.terms ++ if carry.isUsed then [⟨1, [carry]⟩] else []⟩

/-- The microcodes of a chain of equations that a carry enters. -/
def chain (site : Site) : RegId → List LimbEquation → SplitM (List Microcode)
  | _, [] => pure []
  | carry, eq :: rest => do
    let rhs := eq.rhs carry
    let bits := rhs.width (← get).registers
    if rest.all fun later => later.terms.isEmpty then
      let limbs := eq.limb :: rest.map LimbEquation.limb
      if Limb.total limbs < bits then
        throw (.overflow site)
      return [.assign (limbs.map Limb.id) rhs]
    else
      let next ← Pool.allocate "carry" (bits - eq.limb.width)
      let targets := eq.limb.id :: if next.isUsed then [next] else []
      return .assign targets rhs :: (← chain site next rest)

end LimbEquation

/-- Microcodes that store a sum of weighted terms into the limbs of `layout`. -/
def distribute (site : Site) (terms : List Term) (layout : List Limb) :
    SplitM (List Microcode) := do
  let equations := LimbEquation.ofTerms layout terms
  let copies ← LimbEquation.copy (LimbEquation.hazards [] equations).eraseDups
  let moved := equations.map fun eq =>
    { eq with terms := eq.terms.map (Monomial.mapVars (LimbEquation.reading copies)) }
  let saves := copies.map fun (id, saved) => Microcode.assign [saved] (.var id)
  return saves ++ (← LimbEquation.chain site .unused moved)

namespace Pool

/-- The products of limbs that a product of registers consists of, with their weights. A limb of
no width is always zero. -/
def products (pool : Pool) : List RegId → Except SplitError (List (List RegId × Nat))
  | [] => .ok [([], 0)]
  | id :: rest => do
    let limbs ← pool.layout [id]
    let inner ← pool.products rest
    return (limbs.filter fun limb => 0 < limb.width).flatMap fun limb =>
      inner.map fun (ids, shift) => (limb.id :: ids, Word.add limb.offset shift)

/-- The weighted terms over limbs that a polynomial over registers consists of. -/
def terms (pool : Pool) (p : Polynomial) : Except SplitError (List Term) := do
  let expanded ← p.terms.mapM fun m => do
    return (← pool.products m.vars).map fun (ids, shift) => Term.mk ⟨m.coefficient, ids⟩ shift
  return expanded.flatten

/-- Whether the weight of a product overruns, given the largest weight of the factors before
these. -/
def weightOverruns (pool : Pool) : Nat → List RegId → Bool
  | _, [] => false
  | weight, id :: rest =>
    match pool.layout [id] with
    | .error _ => false
    | .ok limbs =>
      match (limbs.filter fun limb => 0 < limb.width).getLast? with
      | none => false
      | some limb =>
        Word.overruns (weight + limb.offset) || pool.weightOverruns (weight + limb.offset) rest

/-- Whether a sum overruns that splitting the assignment of a polynomial comes to. -/
def assignOverruns (pool : Pool) (targets : List RegId) (p : Polynomial) : Bool :=
  let expands (m : Monomial) : Bool := (pool.products m.vars).isOk
  pool.layoutOverruns targets ||
    ((pool.layout targets).isOk &&
      (Word.passed expands p.terms).any fun m => pool.weightOverruns 0 m.vars)

end Pool

/-- Splits the assignment of a polynomial. -/
def splitPolynomial (site : Site) (targets : List RegId) (rhs : Polynomial) :
    SplitM (List Microcode) := do
  let layout ← Pool.asking fun pool => pool.layout targets
  let terms ← Pool.asking fun pool => pool.terms rhs
  distribute site terms layout

end LimbMachine
