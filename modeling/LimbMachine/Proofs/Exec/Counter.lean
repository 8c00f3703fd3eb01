import LimbMachine.Proofs.Exec.Effect
import LimbMachine.Proofs.Failure

/-!
# What executing keeps

A microcode changes the state of its routine by storing into its targets, and in no other way. So
whatever these stores keep, the microcode keeps, whether it succeeds or breaks off with an error
(`Microcode.keeps_of_store`). Every store keeps the `State.Shape`: the registers, how many values
there are, and the program counter. Control moves only after a microcode, so the microcodes of an
instruction are fetched from one place (`Microcode.execute_pc`).
-/

namespace LimbMachine

namespace State

variable {R : State → State → Prop} [IsPreorder State R] {targets : List RegId}

theorem keeps_storeEach {lines : List (RegId × Nat)}
    (h : ∀ line ∈ lines, ∀ v, Keeps R (store line.1 v)) : Keeps R (storeEach lines) := by
  induction lines with
  | nil => exact .pure ()
  | cons line rest ih =>
    rw [List.forall_mem_cons] at h
    exact (h.1 _).bind fun _ => ih h.2

theorem keeps_storeSlices (h : ∀ id ∈ targets, ∀ v, Keeps R (store id v)) (negative : Bool)
    (source offset : Nat) : Keeps R (storeSlices negative source offset targets) := by
  induction targets generalizing offset with
  | nil => exact .pure offset
  | cons target rest ih =>
    rw [List.forall_mem_cons] at h
    exact Keeps.get.bind fun _ => (h.1 _).bind fun _ => ih h.2 _

theorem keeps_storeAcross (h : ∀ id ∈ targets, ∀ v, Keeps R (store id v)) (v : Int) :
    Keeps R (storeAcross v targets) := by
  refine (keeps_storeSlices h _ _ _).bind fun width => Keeps.ite ?_ (.pure ())
  exact Keeps.get.bind fun _ => .throw _

theorem keeps_subtract (h : ∀ id ∈ targets, ∀ v, Keeps R (store id v)) (sources : List RegId)
    (constant : Nat) : Keeps R (subtract targets sources constant) := by
  refine Keeps.get.bind fun s => (keeps_storeAcross ?_ _).bind fun _ => keeps_storeAcross ?_ _
  · exact fun id hid => h id (List.mem_of_mem_take hid)
  · exact fun id hid => h id (List.mem_of_mem_drop hid)

end State

/-! ## One microcode -/

section Frames

variable {σ α : Type} {R : State → State → Prop} {code : Microcode}

/-- The states of the routine are in relation; the memory of the boundary may be anything. -/
def Frame.Relates (R : State → State → Prop) (frame frame₁ : Frame σ) : Prop :=
  R frame.state frame₁.state

instance [IsPreorder State R] : IsPreorder (Frame σ) (Frame.Relates R) where
  refl frame := refl_of R frame.state
  trans _ _ _ h h' := trans_of R h h'

theorem Frame.keeps_onState {x : Update α} (h : Keeps R x) :
    Keeps (Frame.Relates R) (Frame.onState x : Exec σ α) := by
  intro frame
  have hleft := h frame.state
  unfold Frame.onState
  cases hx : x frame.state with
  | ok a s =>
    rw [hx] at hleft
    exact hleft
  | error e s =>
    rw [hx] at hleft
    exact hleft

variable [IsPreorder State R]

theorem Frame.keeps_onMemory (x : EStateM RunError σ α) :
    Keeps (Frame.Relates R) (Frame.onMemory x) := by
  intro frame
  unfold Frame.onMemory
  cases x frame.memory with
  | ok a m => exact refl_of R frame.state
  | error e m => exact refl_of R frame.state

/-- Whatever the boundary answers, only the lines it answers to are stored into. -/
theorem Frame.keeps_transact (io : Boundary σ) (bus : Nat) (address : List RegId)
    {data : List RegId} (h : ∀ id ∈ data, ∀ v, Keeps R (State.store id v)) :
    Keeps (Frame.Relates R) (Frame.transact io bus address data) := by
  refine Keeps.get.bind fun frame => (keeps_onMemory _).bind fun answer => ?_
  cases answer with
  | none => exact .pure false
  | some response =>
    refine Keeps.ite (Keeps.throw _) ?_
    refine (keeps_onState (State.keeps_storeEach fun line hline => ?_)).bind fun _ => .pure true
    exact h line.1 (List.of_mem_zip hline).1

/-- A microcode stores into its targets only: what these stores keep, it keeps. -/
theorem Microcode.keeps_of_store (io : Boundary σ)
    (h : ∀ id ∈ code.targets, ∀ v, Keeps R (State.store id v)) :
    Keeps (Frame.Relates R) (code.execute io) := by
  have hstore : ∀ {x : Update Unit}, Keeps R x →
      Keeps (Frame.Relates R) (do Frame.onState x; return .skip 1 : Exec σ Step) :=
    fun hx => (Frame.keeps_onState hx).bind fun _ => .pure _
  refine Keeps.get.bind fun frame => ?_
  cases code with
  | assign targets rhs => exact hstore (State.keeps_storeAcross h _)
  | add targets sources constant => exact hstore (State.keeps_storeAcross h _)
  | mul targets sources constant => exact hstore (State.keeps_storeAcross h _)
  | sub targets sources constant => exact hstore (State.keeps_subtract h _ _)
  | cast targets source width =>
    exact Keeps.ite (Keeps.pure _) (hstore (State.keeps_storeAcross h _))
  | div quotient remainder witness dividend divisor =>
    refine Keeps.ite (Keeps.pure _) (hstore ?_)
    rw [State.divide_eq_storeEach]
    exact State.keeps_storeEach fun line hline => h line.1 (List.of_mem_zip hline).1
  | skip left right constant distance => exact .pure _
  | skipIf left right constant distance => exact .pure _
  | call bus targets sources =>
    refine (Frame.keeps_transact io bus sources h).bind fun answered => ?_
    exact Keeps.ite (Keeps.pure _) (Keeps.pure _)
  | jmp target => exact .pure _
  | ret => exact .pure _
  | fail => exact .pure _

end Frames

/-! ## Shape -/

/-- The same registers, as many values and the same program counter. -/
structure State.Shape (s s₁ : State) : Prop where
  registers_eq : s₁.registers = s.registers
  length_eq : s₁.values.length = s.values.length
  pc_eq : s₁.pc = s.pc

instance : IsPreorder State State.Shape where
  refl _ := ⟨rfl, rfl, rfl⟩
  trans _ _ _ h h' := ⟨h'.registers_eq.trans h.registers_eq, h'.length_eq.trans h.length_eq,
    h'.pc_eq.trans h.pc_eq⟩

theorem State.shape_store (id : RegId) (v : Nat) : Keeps Shape (store id v) := by
  intro s
  have hsame : s.Shape s := refl_of Shape s
  unfold store
  cases id with
  | unused => exact hsame
  | reg i =>
    dsimp only
    cases s.registers[i]? with
    | none => exact hsame
    | some r =>
      dsimp only
      split
      · exact ⟨rfl, List.length_set, rfl⟩
      · exact hsame

section Shape

variable {σ : Type} {io : Boundary σ} {frame frame₁ : Frame σ} {code : Microcode} {step : Step}

theorem Microcode.execute_shape (h : code.execute io frame = .ok step frame₁) :
    frame.state.Shape frame₁.state :=
  (code.keeps_of_store io fun id _ => State.shape_store id).of_ok h

/-- A microcode never changes the program counter; control moves after it. -/
theorem Microcode.execute_pc (h : code.execute io frame = .ok step frame₁) :
    frame₁.state.pc = frame.state.pc := (execute_shape h).pc_eq

end Shape

end LimbMachine
