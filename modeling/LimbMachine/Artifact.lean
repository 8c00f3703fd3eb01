import LimbMachine.Artifact.Error
import LimbMachine.Artifact.Payload
import LimbMachine.Artifact.Sha256

/-!
  Artifacts: routines in a checked binary form.

  An artifact is a header of 48 bytes and a payload. The header holds a magic
  number, a version, the length of the payload and its digest. Reading compares
  all of them before it looks at the payload; bytes of the payload after the
  routine are not looked at. Which digest it is makes no difference to the
  rest of the format, so it is a parameter up to the last two definitions.
-/

namespace LimbMachine.Artifact

/-- The number every artifact starts with. -/
def magic : Nat := 0x5A4B4153

/-- The version of the format. -/
def version : Nat := 0x00010000

/-- The length of a header in bytes. -/
def headerSize : Nat := 48

/-- The number made up by `count` bytes at position `start`, least significant first. -/
def wordAt (bytes : Bytes) (start count : Nat) : Nat :=
  ((bytes.drop start).take count).foldr (fun b n => b.toNat + 256 * n) 0

/-- A function from messages to 32 bytes. -/
structure Digest where
  /-- The digest of a message. -/
  of : Bytes → Bytes
  length_of : ∀ message, (of message).length = 32

namespace Digest

variable (d : Digest)

/-- The header that goes with a payload. -/
def header (payload : Bytes) : Bytes :=
  putWord 4 magic ++ putWord 4 version ++ putSize payload.length ++ d.of payload

/-- The payload behind a header that fits it. -/
def open? (bytes : Bytes) : Except ArtifactError Bytes :=
  let payload := bytes.drop headerSize
  if bytes.length < headerSize then
    .error (.truncated headerSize bytes.length)
  else if wordAt bytes 0 4 ≠ magic then
    .error (.invalidMagic (wordAt bytes 0 4))
  else if wordAt bytes 4 4 ≠ version then
    .error (.invalidVersion version (wordAt bytes 4 4))
  else if payload.length ≠ wordAt bytes 8 8 then
    .error (.truncated (Word.capped headerSize (wordAt bytes 8 8)) bytes.length)
  else if (bytes.drop 16).take 32 ≠ d.of payload then
    .error .checksumMismatch
  else
    .ok payload

/-- The artifact of a routine, with this digest in its header. -/
def encode (f : Routine) : Bytes :=
  let payload := putRoutine f
  d.header payload ++ payload

/-- The routine of an artifact that has this digest in its header. -/
def decode (bytes : Bytes) : Except ArtifactError Routine := do
  let payload ← d.open? bytes
  match getRoutine payload with
  | none => throw .encoding
  | some (f, _) =>
    f.checkOrder.mapError .routine
    return f

end Digest

/-- The digest of the format. -/
def sha256 : Digest := ⟨Sha256.digest, Sha256.length_digest⟩

/-- The artifact of a routine. -/
def encode (f : Routine) : Bytes := sha256.encode f

/-- The routine of an artifact. -/
def decode (bytes : Bytes) : Except ArtifactError Routine := sha256.decode bytes

end LimbMachine.Artifact
