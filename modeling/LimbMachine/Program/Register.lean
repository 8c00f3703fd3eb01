import LimbMachine.Arith.Bits
import LimbMachine.Arith.Word

/-!
  Registers and the ids that name them.

  A register holds a natural number of at most `width` bits and starts out
  with its `pad`. Ids count positions in a register list; `RegId.unused` stands
  where an operand is left out: it reads as zero and swallows what is stored.
  Looking up an unused id, or one past the end of the list, finds nothing.
-/

namespace LimbMachine

/-- The role of a register. -/
inductive RegKind where
  | input
  | output
  | temp
  | const
deriving DecidableEq

/-- The word that names a role. -/
def RegKind.render : RegKind → String
  | .input => "input"
  | .output => "output"
  | .temp => "temp"
  | .const => "const"

/-- An operand: a position in a register list, or left out. -/
inductive RegId where
  | unused
  | reg (index : Nat)
deriving DecidableEq

namespace RegId

def isUsed : RegId → Bool
  | unused => false
  | reg _ => true

/-- The position an id stands for; a left-out operand has the largest size. -/
def index : RegId → Nat
  | unused => Word.top
  | reg i => i

/-- The id at a position; the largest size is the left-out operand. -/
def ofIndex (i : Nat) : RegId := if i = Word.top then unused else reg i

theorem index_ofIndex (i : Nat) : (ofIndex i).index = i := by
  unfold ofIndex
  split
  · subst_vars; rfl
  · rfl

end RegId

/-- A register: its role, name and width, and the value it starts with. -/
structure Register where
  kind : RegKind
  name : String
  width : Nat
  pad : Nat := 0
deriving DecidableEq

namespace Register

def isInput (r : Register) : Bool := r.kind == .input

def isOutput (r : Register) : Bool := r.kind == .output

/-- The least number that does not fit. -/
def bound (r : Register) : Nat := 2 ^ r.width

/-- The largest number that fits. -/
def maxValue (r : Register) : Nat := r.bound - 1

/-- Whether `value` can be held. -/
def fits (r : Register) (value : Nat) : Bool := bitLength value ≤ r.width

/-- The register in one line of text. -/
def render (r : Register) : String :=
  let kind := r.kind.render
  let width := r.width
  kind ++ " " ++ r.name ++ s!" u{width}"

theorem fits_iff (r : Register) (value : Nat) : r.fits value = true ↔ value < 2 ^ r.width := by
  simp [fits, bitLength_le_iff]

theorem fits_maxValue (r : Register) : r.fits r.maxValue = true := by
  rw [fits_iff]
  exact Nat.sub_lt (Nat.two_pow_pos _) Nat.one_pos

end Register

/-- The registers of a routine, in the order their ids count. -/
abbrev RegisterFile := List Register

namespace RegisterFile

/-- The register an id names. -/
def find? (rs : RegisterFile) : RegId → Option Register
  | .unused => none
  | .reg i => rs[i]?

/-- Whether an id names a register. -/
def declares (rs : RegisterFile) (id : RegId) : Bool := (rs.find? id).isSome

/-- The width behind an id; an id without a register has none. -/
def widthOf (rs : RegisterFile) (id : RegId) : Nat := ((rs.find? id).map Register.width).getD 0

/-- The largest value behind an id; an id without a register reads as zero. -/
def maxOf (rs : RegisterFile) (id : RegId) : Nat := ((rs.find? id).map Register.maxValue).getD 0

/-- The total width of a packed list of ids. -/
def totalWidth (rs : RegisterFile) (ids : List RegId) : Nat := Word.sum (ids.map rs.widthOf)

/-- Whether the total width of a packed list of ids runs past the largest size. -/
def overruns (rs : RegisterFile) (ids : List RegId) : Bool :=
  Word.overruns (ids.map rs.widthOf).sum

/-- Whether an id names an input. -/
def isInput (rs : RegisterFile) (id : RegId) : Bool := (rs.find? id).any Register.isInput

/-- The name shown for an id. -/
def nameOf (rs : RegisterFile) : RegId → String
  | .unused => "_"
  | .reg i =>
    match rs[i]? with
    | some r => r.name
    | none => s!"?{i}"

end RegisterFile

end LimbMachine
