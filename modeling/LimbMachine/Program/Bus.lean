import LimbMachine.Program.Register

/-!
  Buses join a call site to whatever answers it. A bus has address lines, which
  carry the request, and data lines, which take the answer; it is linked once
  it has a number.
-/

namespace LimbMachine

/-- A named group of address and data lines. -/
structure Bus where
  name : String
  id : Option Nat
  address : List RegId
  data : List RegId
deriving DecidableEq

namespace Bus

def isLinked (bus : Bus) : Bool := bus.id.isSome

/-- The bus under a given number. -/
def link (bus : Bus) (id : Nat) : Bus := { bus with id := some id }

/-- All lines, address lines first. -/
def lines (bus : Bus) : List RegId := bus.address ++ bus.data

/-- The bus with every line replaced by the lines that `f` gives for it. -/
def expand (bus : Bus) (f : RegId → List RegId) : Bus :=
  { bus with address := bus.address.flatMap f, data := bus.data.flatMap f }

end Bus

end LimbMachine
