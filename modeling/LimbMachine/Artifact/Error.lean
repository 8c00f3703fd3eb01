import LimbMachine.Program.Error

/-!
  Why an artifact is refused: its binary form is at fault, or the routine in it
  is.
-/

namespace LimbMachine

/-- Why an artifact is refused. -/
inductive ArtifactError where
  | truncated (expected found : Nat)
  | invalidMagic (found : Nat)
  | invalidVersion (expected found : Nat)
  | checksumMismatch
  /-- The payload is not the binary form of a routine. -/
  | encoding
  | routine (reason : RoutineError)

namespace ArtifactError

/-- Whether the binary form is at fault. -/
def isFormat : ArtifactError → Bool
  | routine _ => false
  | _ => true

/-- A 32-bit number in base sixteen, with all its eight digits. -/
def hex32 (n : Nat) : String :=
  let digits := Nat.toDigits 16 n
  "0x" ++ String.ofList (List.replicate (8 - digits.length) '0' ++ digits)

/-- The text reported for a refusal. -/
def message : ArtifactError → String
  | truncated expected found =>
    s!"Truncated artifact: expected {expected} bytes, found {found} bytes"
  | invalidMagic found => "Invalid artifact magic: expected 0x5A4B4153, got " ++ hex32 found
  | invalidVersion expected found =>
    "Invalid artifact version: expected " ++ hex32 expected ++ ", found " ++ hex32 found
  | checksumMismatch => "Artifact checksum mismatch"
  | encoding => "Encoding error"
  | routine reason => reason.message

end ArtifactError

end LimbMachine
