import LimbMachine.Program.Microcode

/-!
  Which registers have been written on the way to a microcode.

  Within one instruction control only moves forward, so one pass over the
  microcodes settles, for every offset, the registers written on at least one
  way there (`maybe`) and on every way there (`definitely`). Branches back or
  past the end are no ways into the instruction. An offset that no way leads to
  has no state.
-/

namespace LimbMachine

/-- The registers written on the ways to one offset, each list in ascending order. -/
structure WriteState where
  maybe : List Nat
  definitely : List Nat
deriving DecidableEq

namespace WriteState

/-- Adds one index to an ascending list, keeping it ascending and free of repetitions. -/
def insert (i : Nat) : List Nat → List Nat
  | [] => [i]
  | j :: rest => if i < j then i :: j :: rest else if i = j then j :: rest else j :: insert i rest

/-- Nothing has been written. -/
def empty : WriteState := ⟨[], []⟩

/-- What is known where two ways meet. -/
def join (a b : WriteState) : WriteState where
  maybe := b.maybe.foldr insert a.maybe
  definitely := a.definitely.filter (· ∈ b.definitely)

/-- What is known after some registers were written. -/
def record (s : WriteState) (written : List RegId) : WriteState where
  maybe := (written.map RegId.index).foldr insert s.maybe
  definitely := (written.map RegId.index).foldr insert s.definitely

/-- Written on some way. -/
def mayWrite (s : WriteState) (id : RegId) : Bool := s.maybe.contains id.index

/-- Written on some way but not on every way. -/
def isAmbiguous (s : WriteState) (id : RegId) : Bool :=
  s.maybe.contains id.index && !s.definitely.contains id.index

theorem mem_insert {i j : Nat} {l : List Nat} : i ∈ insert j l ↔ i = j ∨ i ∈ l := by
  induction l with
  | nil => simp [insert]
  | cons k rest ih =>
    unfold insert
    split
    · simp
    · split
      · subst_vars; simp
      · simp only [List.mem_cons, ih]
        constructor
        · rintro (h | h | h) <;> simp [h]
        · rintro (h | h | h) <;> simp [h]

end WriteState

/-- The state on entry to every microcode; `none` where no way leads. -/
abbrev WriteMap := List (Option WriteState)

namespace WriteMap

/-- The state once another way arrives. -/
def arrive (exit : WriteState) : Option WriteState → Option WriteState
  | none => some exit
  | some s => some (s.join exit)

/-- Carries what is known on leaving the microcode at `offset` to its successors; `later` are the
states from offset `offset + 1` on. -/
def flow (code : Microcode) (offset : Nat) (entry : WriteState) (later : WriteMap) : WriteMap :=
  (code.successors offset).foldl
    (fun states next =>
      if offset < next then
        states.modify (next - (offset + 1)) (arrive (entry.record code.writes))
      else
        states)
    later

/-- Settles the states from `offset` on: the first of them has all its ways already. -/
def settle : Nat → List Microcode → WriteMap → WriteMap
  | offset, code :: codes, entry :: later =>
    let later :=
      match entry with
      | some s => flow code offset s later
      | none => later
    entry :: settle (offset + 1) codes later
  | _, _, _ => []

/-- The states of an instruction. -/
def ofCodes : List Microcode → WriteMap
  | [] => []
  | code :: codes => settle 0 (code :: codes) (some .empty :: codes.map fun _ => none)

/-- Whether an offset overruns that some way leads on to. -/
def overruns (codes : List Microcode) : Bool :=
  (codes.zip (ofCodes codes)).zipIdx.any fun ((code, entry), offset) =>
    entry.isSome && code.offsetOverruns offset

def ofCodes? (codes : List Microcode) : Option WriteMap :=
  Word.checked (overruns codes) (ofCodes codes)

/-- The state on entry to the microcode at `offset`. -/
def get? (map : WriteMap) (offset : Nat) : Option WriteState := (map[offset]?).join

end WriteMap

end LimbMachine
