import LimbMachine.Arith.Bits

/-!
  Values as bytes, writers beside readers.

  Numbers of a fixed size are little-endian. A list is its length and then its
  items, a text is the list of its UTF-8 bytes, and an optional value is a byte
  zero, or a byte one and the value. A natural number of any size is the list
  of its 32-bit digits, least significant first; a writer never ends it with a
  zero digit, but a reader does not mind one. A reader takes bytes from the
  front and leaves the others.
-/

namespace LimbMachine.Artifact

abbrev Bytes := List UInt8

/-- Takes a value from the front of some bytes, or refuses them. -/
abbrev Reader := StateT Bytes Option

variable {α : Type}

/-! ## Words -/

/-- The lowest `count` bytes of a number, least significant first. -/
def putWord : Nat → Nat → Bytes
  | 0, _ => []
  | count + 1, n => UInt8.ofNat n :: putWord count (n / 256)

/-- One byte. -/
def getByte : Reader UInt8
  | [] => none
  | b :: rest => some (b, rest)

/-- A number of `count` bytes, least significant first. -/
def getWord : Nat → Reader Nat
  | 0 => pure 0
  | count + 1 => do
    let low ← getByte
    let high ← getWord count
    return low.toNat + 256 * high

/-- A size: eight bytes. -/
def putSize (n : Nat) : Bytes := putWord 8 n

def getSize : Reader Nat := getWord 8

/-- The number of a case: four bytes. -/
def putTag (n : Nat) : Bytes := putWord 4 n

def getTag : Reader Nat := getWord 4

/-! ## Lists, optional values, texts -/

/-- Exactly `count` items. -/
def getItems (item : Reader α) : Nat → Reader (List α)
  | 0 => pure []
  | count + 1 => do
    let first ← item
    let rest ← getItems item count
    return first :: rest

/-- A list: its length, then its items. -/
def putList (item : α → Bytes) (items : List α) : Bytes :=
  putSize items.length ++ items.flatMap item

def getList (item : Reader α) : Reader (List α) := do
  let count ← getSize
  getItems item count

/-- An optional value: a byte zero, or a byte one and the value. -/
def putOption (item : α → Bytes) : Option α → Bytes
  | none => [0]
  | some a => 1 :: item a

def getOption (item : Reader α) : Reader (Option α) := do
  match ← getByte with
  | 0 => return none
  | 1 => return some (← item)
  | _ => failure

/-- A text: the list of its UTF-8 bytes. -/
def putText (text : String) : Bytes := putList (fun b => [b]) text.toByteArray.data.toList

/-- A text; bytes that are not UTF-8 are refused. -/
def getText : Reader String := do
  let bytes ← getList getByte
  match String.fromUTF8? ⟨bytes.toArray⟩ with
  | some text => return text
  | none => failure

/-! ## Numbers of any size -/

/-- The number of 32-bit digits that a number needs. -/
def digitCount (n : Nat) : Nat := (bitLength n + 31) / 32

/-- The lowest `count` 32-bit digits of a number, least significant first. -/
def digits : Nat → Nat → List Nat
  | 0, _ => []
  | count + 1, n => n % 2 ^ (32 : Nat) :: digits count (n / 2 ^ (32 : Nat))

/-- The number that 32-bit digits make up, least significant first. -/
def ofDigits : List Nat → Nat
  | [] => 0
  | d :: rest => d + 2 ^ (32 : Nat) * ofDigits rest

/-- A number of any size: the list of its digits. -/
def putNat (n : Nat) : Bytes := putList (putWord 4) (digits (digitCount n) n)

def getNat : Reader Nat := do
  let ds ← getList (getWord 4)
  return ofDigits ds

end LimbMachine.Artifact
