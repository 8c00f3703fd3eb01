import LimbMachine.Program.Polynomial

/-!
  Microcodes: the atomic operations that instructions are made of.

  Lists of targets are given least significant first: a result wider than one
  register is spread over the list, and the last target takes the highest bits.
  A comparison moves on by one microcode when its sides agree and by `1 + skip`
  when they differ. The text of a microcode puts the most significant target
  first.
-/

namespace LimbMachine

/-- An atomic operation. -/
inductive Microcode where
  /-- The targets take the value of a polynomial. -/
  | assign (targets : List RegId) (rhs : Polynomial)
  /-- The targets take the sum of the sources and a constant. -/
  | add (targets sources : List RegId) (constant : Nat)
  /-- The first source minus the other sources and a constant. The low targets, together as wide
  as the first source, take the difference; the others take how often that width was borrowed. -/
  | sub (targets sources : List RegId) (constant : Nat)
  /-- The targets take the product of the sources and a constant. -/
  | mul (targets sources : List RegId) (constant : Nat)
  /-- The targets take the source, which must fit into `width` bits. -/
  | cast (targets : List RegId) (source : RegId) (width : Nat)
  /-- Quotient and remainder; the witness takes the divisor minus the remainder minus one. -/
  | div (quotient remainder witness dividend divisor : RegId)
  /-- Compare two registers, or a register and a constant if `right` is left out. -/
  | skip (left right : RegId) (constant skip : Nat)
  /-- Compare two packed lists, or a packed list and a constant if `right` is empty. -/
  | skipIf (left right : List RegId) (constant skip : Nat)
  /-- The targets take what the bus answers to the sources. -/
  | call (bus : Nat) (targets sources : List RegId)
  /-- Go on with another instruction. -/
  | jmp (target : Nat)
  /-- Leave the routine, accepting the inputs. -/
  | ret
  /-- Leave the routine, rejecting the inputs. -/
  | fail
deriving DecidableEq

namespace Microcode

/-- Whether control always leaves the instruction. -/
def isTerminal : Microcode → Bool
  | jmp _ | ret | fail => true
  | _ => false

/-- How far a comparison branches. -/
def skipDistance : Microcode → Option Nat
  | skip _ _ _ distance | skipIf _ _ _ distance => some distance
  | _ => none

/-- The comparison with another distance; other microcodes stay as they are. -/
def withSkip (distance : Nat) : Microcode → Microcode
  | skip left right constant _ => skip left right constant distance
  | skipIf left right constant _ => skipIf left right constant distance
  | code => code

/-- Where a comparison at `offset` goes when its sides differ. -/
def landing (offset distance : Nat) : Nat := Word.add (Word.add offset 1) distance

/-- The offsets that control may reach from `offset`. -/
def successors (code : Microcode) (offset : Nat) : List Nat :=
  if code.isTerminal then
    []
  else
    match code.skipDistance with
    | some (distance + 1) => [Word.add offset 1, landing offset (distance + 1)]
    | _ => [Word.add offset 1]

/-- Whether an offset that control may reach from `offset` runs past the largest size. -/
def offsetOverruns (code : Microcode) (offset : Nat) : Bool :=
  !code.isTerminal && Word.overruns (offset + 1 + code.skipDistance.getD 0)

def successors? (code : Microcode) (offset : Nat) : Option (List Nat) :=
  Word.checked (code.offsetOverruns offset) (code.successors offset)

/-- The ids a microcode takes values from, left-out ones included. -/
def operands : Microcode → List RegId
  | assign _ rhs => rhs.registers
  | add _ sources _ | sub _ sources _ | mul _ sources _ | call _ _ sources => sources
  | cast _ source _ => [source]
  | div _ _ _ dividend divisor => [dividend, divisor]
  | skip left right _ _ => [left, right]
  | skipIf left right _ _ => left ++ right
  | jmp _ | ret | fail => []

/-- The ids a microcode stores to, left-out ones included. -/
def targets : Microcode → List RegId
  | assign targets _ | add targets _ _ | sub targets _ _ | mul targets _ _ => targets
  | cast targets _ _ | call _ targets _ => targets
  | div quotient remainder witness _ _ => [quotient, remainder, witness]
  | skip .. | skipIf .. | jmp _ | ret | fail => []

/-- The registers read. -/
def reads (code : Microcode) : List RegId := code.operands.filter RegId.isUsed

/-- The registers written, least significant first. -/
def writes (code : Microcode) : List RegId := code.targets.filter RegId.isUsed

/-- The microcode over other registers; left-out operands stay left out. -/
def mapRegs (f : RegId → RegId) (code : Microcode) : Microcode :=
  let one (id : RegId) : RegId := if id.isUsed then f id else id
  match code with
  | assign targets rhs => assign (targets.map one) (rhs.mapVars one)
  | add targets sources constant => add (targets.map one) (sources.map one) constant
  | sub targets sources constant => sub (targets.map one) (sources.map one) constant
  | mul targets sources constant => mul (targets.map one) (sources.map one) constant
  | cast targets source width => cast (targets.map one) (one source) width
  | div quotient remainder witness dividend divisor =>
    div (one quotient) (one remainder) (one witness) (one dividend) (one divisor)
  | skip left right constant distance => skip (one left) (one right) constant distance
  | skipIf left right constant distance =>
    skipIf (left.map one) (right.map one) constant distance
  | call bus targets sources => call bus (targets.map one) (sources.map one)
  | jmp target => jmp target
  | ret => ret
  | fail => fail

/-- The right-hand side of a sum or product as a polynomial. -/
def polynomial? : Microcode → Option Polynomial
  | assign _ rhs => some rhs
  | add _ sources constant => some ((Polynomial.sum sources).push ⟨constant, []⟩)
  | mul _ sources constant => some (Polynomial.zero.push ⟨constant, sources⟩)
  | _ => none

/-! ## Text -/

/-- The operands of a chain of one operation; a constant that changes nothing is left out. -/
def renderChain (rs : RegisterFile) (op : String) (neutral : Nat) (sources : List RegId)
    (constant : Nat) : String :=
  let names := sources.map rs.nameOf
  op.intercalate (if constant ≠ neutral ∨ names = [] then names ++ [toString constant]
    else names)

/-- The microcode as text, with register names from `rs`. -/
def render (rs : RegisterFile) (code : Microcode) : String :=
  let stored (ids : List RegId) : String := ", ".intercalate (ids.reverse.map rs.nameOf)
  let packed (ids : List RegId) : String := "::".intercalate (ids.reverse.map rs.nameOf)
  let listed (ids : List RegId) : String := ", ".intercalate (ids.map rs.nameOf)
  match code with
  | assign targets rhs => stored targets ++ " = " ++ rhs.render rs
  | add targets sources constant =>
    stored targets ++ " = " ++ renderChain rs " + " 0 sources constant
  | sub targets sources constant =>
    stored targets ++ " = " ++ renderChain rs " - " 0 sources constant
  | mul targets sources constant =>
    stored targets ++ " = " ++ renderChain rs " * " 1 sources constant
  | cast targets source width => stored targets ++ s!" = (u{width}) " ++ rs.nameOf source
  | div quotient remainder witness dividend divisor =>
    let results := [quotient, remainder] ++ (if witness.isUsed then [witness] else [])
    listed results ++ " = " ++ rs.nameOf dividend ++ " / " ++ rs.nameOf divisor
  | skip left right constant distance =>
    let other := if right.isUsed then rs.nameOf right else toString constant
    "skip " ++ rs.nameOf left ++ " != " ++ other ++ s!" {distance}"
  | skipIf left right constant distance =>
    let other := if right = [] then toString constant else packed right
    "skip_if " ++ packed left ++ " != " ++ other ++ s!" {distance}"
  | call bus targets sources =>
    s!"call {bus} (" ++ listed sources ++ ") -> (" ++ listed targets ++ ")"
  | jmp target => s!"jmp {target}"
  | ret => "ret"
  | fail => "fail"

end Microcode

/-- A microcode together with the registers its ids refer to: the place a complaint is about. -/
structure Site where
  code : Microcode
  registers : RegisterFile

/-- The text of the microcode at a place. -/
def Site.text (site : Site) : String := site.code.render site.registers

end LimbMachine
