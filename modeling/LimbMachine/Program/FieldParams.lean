import LimbMachine.Arith.Word

/-!
  The field a routine is prepared for. Two numbers of it matter: how many bits
  one field element carries before arithmetic wraps around the field's order
  (`bandwidth`), and how wide a single register may be (`registerWidth`).
-/

namespace LimbMachine

/-- Widths imposed by a field. The largest size stands for "no limit". -/
structure FieldParams where
  name : String
  bandwidth : Nat
  registerWidth : Nat
deriving DecidableEq

/-- Why a pair of widths cannot be used. -/
inductive FieldError where
  | zeroRegisterWidth
  | registerWiderThanBand (registerWidth bandwidth : Nat)
deriving DecidableEq

/-- The text reported for an unusable pair of widths. -/
def FieldError.message : FieldError → String
  | .zeroRegisterWidth => "register width must be at least one bit"
  | .registerWiderThanBand registerWidth bandwidth =>
    s!"register width {registerWidth} exceeds field bandwidth {bandwidth}"

namespace FieldParams

/-- A tiny prime field of order 251. -/
def gf251 : FieldParams := ⟨"GF_251", 7, 3⟩

/-- A prime field of order 8209. -/
def gf8209 : FieldParams := ⟨"GF_8209", 13, 6⟩

/-- The prime field of order `2 ^ 31 - 2 ^ 24 + 1` with sixteen-bit registers. -/
def koalaBear16 : FieldParams := ⟨"KOALABEAR_16", 30, 16⟩

/-- The scalar field of a 377-bit pairing curve. -/
def bls12x377 : FieldParams := ⟨"BLS12_377", 252, 160⟩

/-- No limit on any width: what a routine is checked against before it is split. -/
def unbounded : FieldParams := ⟨"UNBOUNDED", Word.top, Word.top⟩

instance : Inhabited FieldParams := ⟨bls12x377⟩

/-- Whether the field limits no right-hand side. -/
def isUnbounded (field : FieldParams) : Bool := field.bandwidth == Word.top

/-- A register must hold at least one bit and fit into a field element. -/
def validate (field : FieldParams) : Except FieldError Unit :=
  if field.registerWidth = 0 then
    .error .zeroRegisterWidth
  else if field.bandwidth < field.registerWidth then
    .error (.registerWiderThanBand field.registerWidth field.bandwidth)
  else
    .ok ()

/-- The field with the given widths, if they can be used together. -/
def make? (name : String) (bandwidth registerWidth : Nat) : Except FieldError FieldParams :=
  let field : FieldParams := ⟨name, bandwidth, registerWidth⟩
  field.validate.map fun _ => field

/-- The field in one line of text. -/
def render (field : FieldParams) : String :=
  if field.isUnbounded then
    field.name ++ " \x7b unbounded \x7d"
  else
    let bandwidth := field.bandwidth
    let registerWidth := field.registerWidth
    field.name ++ s!" \x7b bandwidth: {bandwidth} bits, registers: {registerWidth} bits \x7d"

theorem validate_ok_iff (field : FieldParams) :
    field.validate = .ok () ↔ 0 < field.registerWidth ∧
      field.registerWidth ≤ field.bandwidth := by
  unfold validate
  split
  · simp; omega
  · split
    · simp; omega
    · simp; omega

end FieldParams

end LimbMachine
