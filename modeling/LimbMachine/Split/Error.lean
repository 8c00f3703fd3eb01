import LimbMachine.Program.Error

/-!
  Why a routine cannot be split. A microcode at fault is shown over the
  registers of the routine that was to be split.
-/

namespace LimbMachine

/-- Why a routine cannot be split into limbs. -/
inductive SplitError where
  | unsupportedDivision (site : Site)
  | misalignedSubtraction (site : Site)
  | misalignedComparison (site : Site)
  | overflow (site : Site)
  | unknownRegister (register : RegId)
  | invalid (reason : RoutineError)

/-- The text reported for a routine that cannot be split. -/
def SplitError.message : SplitError → String
  | unsupportedDivision site =>
    "Division over multi-limb operands is not supported: \"" ++ site.text ++ "\""
  | misalignedSubtraction site =>
    "Subtraction has no target prefix as wide as its minuend: \"" ++ site.text ++ "\""
  | misalignedComparison site => "Comparison operands differ in width: \"" ++ site.text ++ "\""
  | overflow site => "Result overflows the most significant limb: \"" ++ site.text ++ "\""
  | unknownRegister register =>
    let index := register.index
    s!"Unknown register {index}"
  | invalid reason => "Split function is invalid: " ++ reason.message

end LimbMachine
