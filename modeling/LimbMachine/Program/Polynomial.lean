import LimbMachine.Program.Register

/-!
  Polynomials over registers with natural coefficients. A polynomial is the
  list of its monomials as written: nothing is merged or sorted. Because no
  coefficient is negative, the largest value is reached with every register at
  its own largest value (`Polynomial.maxValue`).
-/

namespace LimbMachine

/-- A coefficient times a product of registers. -/
structure Monomial where
  coefficient : Nat
  vars : List RegId
deriving DecidableEq

namespace Monomial

/-- The value where `load` gives the registers' values. -/
def eval (load : RegId → Nat) (m : Monomial) : Nat :=
  m.vars.foldl (fun acc id => acc * load id) m.coefficient

/-- The largest value over registers of the given widths. -/
def maxValue (rs : RegisterFile) (m : Monomial) : Nat := m.eval rs.maxOf

/-- The monomial over other registers. -/
def mapVars (f : RegId → RegId) (m : Monomial) : Monomial := { m with vars := m.vars.map f }

/-- The monomial as text: the coefficient is left out where it is one. -/
def render (rs : RegisterFile) (m : Monomial) : String :=
  let factors := m.vars.map rs.nameOf
  let shown :=
    if m.coefficient = 1 ∧ m.vars ≠ [] then factors else toString m.coefficient :: factors
  "*".intercalate shown

end Monomial

/-- A sum of monomials. -/
structure Polynomial where
  terms : List Monomial
deriving DecidableEq

namespace Polynomial

def zero : Polynomial := ⟨[]⟩

/-- The sum with one more monomial; a zero coefficient adds nothing. -/
def push (p : Polynomial) (m : Monomial) : Polynomial :=
  if m.coefficient = 0 then p else ⟨p.terms ++ [m]⟩

/-- The polynomial that is always `value`. -/
def constant (value : Nat) : Polynomial := zero.push ⟨value, []⟩

/-- A single register. -/
def var (id : RegId) : Polynomial := ⟨[⟨1, [id]⟩]⟩

/-- The sum of some registers. -/
def sum (ids : List RegId) : Polynomial := ⟨ids.map fun id => ⟨1, [id]⟩⟩

def isZero (p : Polynomial) : Bool := p.terms.isEmpty

/-- The ids mentioned, in the order of first mention. -/
def registers (p : Polynomial) : List RegId := (p.terms.flatMap Monomial.vars).eraseDups

/-- The value where `load` gives the registers' values. -/
def eval (load : RegId → Nat) (p : Polynomial) : Nat := (p.terms.map (Monomial.eval load)).sum

/-- The largest value over registers of the given widths. -/
def maxValue (rs : RegisterFile) (p : Polynomial) : Nat := p.eval rs.maxOf

/-- The bits that hold every value of the polynomial. -/
def width (rs : RegisterFile) (p : Polynomial) : Nat := bitLength (p.maxValue rs)

/-- The polynomial over other registers. -/
def mapVars (f : RegId → RegId) (p : Polynomial) : Polynomial :=
  ⟨p.terms.map (Monomial.mapVars f)⟩

/-- The polynomial as text. -/
def render (rs : RegisterFile) (p : Polynomial) : String :=
  if p.isZero then "0" else " + ".intercalate (p.terms.map (Monomial.render rs))

end Polynomial

end LimbMachine
