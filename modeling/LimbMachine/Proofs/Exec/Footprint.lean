import LimbMachine.Proofs.Check.Rules
import LimbMachine.Proofs.Exec.Counter
import LimbMachine.Proofs.Exec.Safety
import Mathlib.Data.List.TakeWhile

/-!
# What a run leaves alone

A microcode changes the registers it writes and no others, whether it succeeds or breaks off with an
error (`Microcode.keeps_execute`). So a register that no microcode of a routine writes holds the
same value throughout a run (`Routine.Spares.visits`), with whatever boundary. An accepted routine
never writes an input. It may write a constant, since nothing but the role of an input is checked.
-/

namespace LimbMachine

/-- All but `ids` read the same. -/
def State.Outside (ids : List RegId) (s s₁ : State) : Prop :=
  ∀ id, id ∉ ids → s₁.load id = s.load id

namespace State

variable {ids : List RegId} {id : RegId}

instance : IsPreorder State (Outside ids) where
  refl _ _ _ := rfl
  trans _ _ _ h h' id hid := (h' id hid).trans (h id hid)

theorem outside_write {i : Nat} (hid : .reg i ∈ ids) (s : State) (v : Nat) :
    s.Outside ids (s.write i v) := by
  intro id hnot
  cases id with
  | unused => rfl
  | reg j =>
    have hne : i ≠ j := fun heq => hnot (heq ▸ hid)
    simp [load, write, List.getElem?_set_ne hne]

theorem keeps_store (hid : id ∈ ids) (v : Nat) : Keeps (Outside ids) (store id v) := by
  intro s
  have hsame : s.Outside ids s := refl_of (Outside ids) s
  unfold store
  cases id with
  | unused => exact hsame
  | reg i =>
    dsimp only
    cases s.registers[i]? with
    | none => exact hsame
    | some r =>
      dsimp only
      split
      · exact outside_write hid s v
      · exact hsame

end State

/-! ## One microcode -/

section Frames

variable {σ : Type} {code : Microcode}

/-- A microcode stores into its targets only. -/
theorem Microcode.keeps_execute (code : Microcode) (io : Boundary σ) :
    Keeps (Frame.Relates (State.Outside code.targets)) (code.execute io) :=
  code.keeps_of_store io fun _ hid => State.keeps_store hid

theorem Microcode.execute_load {id : RegId} (hid : id ∉ code.writes) (io : Boundary σ)
    (frame : Frame σ) :
    (finalState (code.execute io frame)).state.load id = frame.state.load id := by
  cases id with
  | unused => rfl
  | reg i =>
    refine code.keeps_execute io frame _ fun hmem => hid ?_
    exact List.mem_filter.2 ⟨hmem, rfl⟩

end Frames

/-- An accepted microcode writes no input. -/
theorem Microcode.notInput_of_rule {scope : Scope} {code : Microcode} (h : code.Rule scope)
    {id : RegId} (hid : id ∈ code.writes) : scope.registers.isInput id = false := by
  have htarget : id ∈ code.targets := (List.mem_filter.1 hid).1
  cases code with
  | assign targets rhs => exact h.1.notInput id htarget
  | add targets sources constant => exact h.1.notInput id htarget
  | mul targets sources constant => exact h.1.notInput id htarget
  | sub targets sources constant => exact h.1.notInput id htarget
  | cast targets source width => exact h.1.notInput id htarget
  | div quotient remainder witness dividend divisor => exact h.1.notInput id hid
  | call bus targets sources => exact h.1.notInput id htarget
  | _ => cases htarget

/-! ## Runs -/

theorem Thread.move_load {σ : Type} (t : Thread σ) (step : Step) (id : RegId) :
    (t.move step).frame.state.load id = t.frame.state.load id := by
  cases step <;> rfl

namespace Routine

variable {σ : Type} {f : Routine} {field : FieldParams} {trace : Bool} {io : Boundary σ}
  {t t₁ : Thread σ} {s : State} {id : RegId} {inputs : List Nat}

/-- No microcode of the routine writes the register. -/
def Spares (f : Routine) (id : RegId) : Prop :=
  ∀ instruction ∈ f.code, ∀ code ∈ instruction, id ∉ code.writes

instance : Decidable (f.Spares id) :=
  inferInstanceAs (Decidable (∀ instruction ∈ f.code, ∀ code ∈ instruction,
    id ∉ code.writes))

/-- The states of a run that goes on from `t`: those it reaches, and the one that a microcode leaves
which ends it with an error. -/
inductive Visits (f : Routine) (trace : Bool) (io : Boundary σ) (t : Thread σ) : State → Prop
  | reached {k : Nat} {t₁ : Thread σ} (path : f.Reaches trace io k t t₁) :
    Visits f trace io t t₁.frame.state
  | broken {k : Nat} {t₁ : Thread σ} {code : Microcode} {e : RunError} {frame : Frame σ}
    (path : f.Reaches trace io k t t₁) (running : t₁.frame.state.isTerminated = false)
    (fetched : f.fetch t₁.pc t₁.offset = some code)
    (fails : code.execute io t₁.frame = .error e frame) : Visits f trace io t frame.state

theorem Spares.execute (h : f.Spares id) {pc offset : Nat} {code : Microcode}
    (hfetch : f.fetch pc offset = some code) (io : Boundary σ) (frame : Frame σ) :
    (finalState (code.execute io frame)).state.load id = frame.state.load id := by
  obtain ⟨instruction, hi, hc⟩ := fetch_eq_some_iff.1 hfetch
  exact Microcode.execute_load (h _ (List.mem_of_getElem? hi) _ (List.mem_of_getElem? hc)) io frame

theorem Spares.advances (h : f.Spares id) (hadv : f.Advances trace io t t₁) :
    t₁.frame.state.load id = t.frame.state.load id := by
  obtain ⟨-, code, step, frame, hfetch, hexec, rfl⟩ := hadv
  have hleft := h.execute hfetch io t.frame
  rw [hexec] at hleft
  exact (Thread.move_load _ step id).trans hleft

/-- A register that no microcode writes holds the same value throughout a run. -/
theorem Spares.visits (h : f.Spares id) (hvisit : f.Visits trace io t s) :
    s.load id = t.frame.state.load id := by
  have hreach : ∀ {k t₁}, f.Reaches trace io k t t₁ →
      t₁.frame.state.load id = t.frame.state.load id := fun path =>
    path.invariant (I := fun t₁ => t₁.frame.state.load id = t.frame.state.load id)
      (fun ht hadv => (h.advances hadv).trans ht) rfl
  cases hvisit with
  | reached path => exact hreach path
  | @broken k t₁ code e frame path _ hfetch hfails =>
    have hleft := h.execute hfetch io t₁.frame
    rw [hfails] at hleft
    exact hleft.trans (hreach path)

/-- An accepted routine never writes an input. -/
theorem spares_input (hvalid : f.validate field = .ok ()) (hid : f.registers.isInput id = true) :
    f.Spares id := by
  intro instruction hi code hc hwrites
  have hinstruction := (validate_ok_iff.1 hvalid).2.2 instruction hi
  have hcode := (Instruction.validate_ok_iff.1 hinstruction).2.1 code hc
  have hnot := Microcode.notInput_of_rule (Microcode.validate_ok_iff.1 hcode).2 hwrites
  rw [scope, hid] at hnot
  cases hnot

/-- Registers in order: the inputs come first. -/
theorem inputs_getElem?_of_isInput {i : Nat} {r : Register} (hord : f.registers.isOrdered = true)
    (hr : f.registers[i]? = some r) (hin : r.isInput = true) : f.inputs[i]? = some r := by
  have hrank : r.kind.rank = 0 := by
    rw [Register.isInput, beq_iff_eq] at hin
    rw [hin]
    rfl
  rw [RegisterFile.isOrdered_iff] at hord
  unfold inputs
  generalize f.registers = rs at hord hr
  induction rs generalizing i with
  | nil => simp at hr
  | cons first rest ih =>
    rw [List.pairwise_cons] at hord
    cases i with
    | zero =>
      cases hr
      rw [List.takeWhile_cons_of_pos hin]
      rfl
    | succ i =>
      have hle := hord.1 r (List.mem_of_getElem? hr)
      have hfirst : first.isInput = true := by
        cases hkind : first.kind <;> simp_all [RegKind.rank, Register.isInput]
      rw [List.takeWhile_cons_of_pos hfirst]
      exact ih hord.2 hr

theorem Accepts.load_input (h : f.Accepts inputs)
    (hs : (State.fresh f.registers).Assigned f.inputIds inputs s) {i : Nat} (hi : i < f.numInputs) :
    inputs[i]? = some (s.load (.reg i)) := by
  have hids : i < f.inputIds.length := by simpa [inputIds] using hi
  have hlen : i < inputs.length := h.length_eq ▸ hi
  have htaken := (List.forall₂_iff_get.1 hs.taken).2 i hids hlen
  have hid : f.inputIds.get ⟨i, hids⟩ = .reg i := by simp [inputIds]
  rw [hid] at htaken
  rw [htaken rfl, List.getElem?_eq_getElem hlen]
  rfl

theorem isInput_of_mem_inputIds {i : Nat} (h : .reg i ∈ f.inputIds) :
    ∃ r, f.registers[i]? = some r ∧ r.isInput = true := by
  obtain ⟨j, hj, hji⟩ := List.mem_map.1 h
  cases hji
  have hget := List.getElem?_eq_getElem (List.mem_range.1 hj)
  exact ⟨_, inputs_getElem? hget, List.mem_takeWhile_imp (List.mem_of_getElem? hget)⟩

/-- **What never changes**: in every state of a run of an accepted routine, whatever it is attached
to, each input holds what was passed for it, and each constant that no microcode writes holds its
pad. -/
theorem visits_unchanged (hvalid : f.validate field = .ok ()) (hin : f.Accepts inputs)
    (config : RunConfig) (io : Boundary σ) (m : σ) :
    ∃ s₀, f.start inputs = .ok s₀ ∧
      ∀ s, f.Visits config.trace io { frame := ⟨s₀, m⟩ } s →
      ∀ i r, f.registers[i]? = some r →
        (r.kind = .input → inputs[i]? = some (s.load (.reg i))) ∧
        (r.kind = .const → f.Spares (.reg i) → s.load (.reg i) = r.pad) := by
  obtain ⟨s₀, hstart, hs₀⟩ := start_assigned hin
  refine ⟨s₀, hstart, fun s hvisit i r hr => ⟨fun hkind => ?_, fun hkind hspares => ?_⟩⟩
  · have hinput : r.isInput = true := by simp [Register.isInput, hkind]
    have hid : f.registers.isInput (.reg i) = true := by
      simp [RegisterFile.isInput, RegisterFile.find?, hr, hinput]
    rw [(spares_input hvalid hid).visits hvisit]
    have hget := inputs_getElem?_of_isInput (validate_ok_iff.1 hvalid).2.1 hr hinput
    exact hin.load_input hs₀ (List.getElem?_eq_some_iff.1 hget).1
  · rw [hspares.visits hvisit]
    have hout : RegId.reg i ∉ f.inputIds := by
      intro hmem
      obtain ⟨r', hr', hinput⟩ := isInput_of_mem_inputIds hmem
      rw [hr] at hr'
      cases hr'
      simp [Register.isInput, hkind] at hinput
    rw [hs₀.frame _ hout]
    simp [State.fresh, State.load, hr]

/-- Adds its constant to what a bus answers. -/
def raise : Routine where
  name := "raise"
  registers := [⟨.input, "x", 8, 0⟩, ⟨.output, "y", 9, 0⟩, ⟨.const, "k", 8, 7⟩,
    ⟨.temp, "t", 8, 0⟩]
  buses := [⟨"ask", some 0, [.reg 0], [.reg 3]⟩]
  code := [[.call 0 [.reg 3] [.reg 0], .add [.reg 1] [.reg 3, .reg 2] 0, .ret]]

theorem visits_unchanged_raise :
    (raise.validate .unbounded = .ok () ∧ raise.Accepts [3] ∧ raise.Spares (.reg 2)) ∧
    ∃ s₀, raise.start [3] = .ok s₀ ∧ ∀ s, raise.Visits false
        (Boundary.ofFn fun _ address => .ok (some (address.map (2 * ·))))
          { frame := ⟨s₀, ()⟩ } s →
      s.load (.reg 0) = 3 ∧ s.load (.reg 2) = 7 := by
  have hvalid : raise.validate .unbounded = .ok () := rfl
  have hin : raise.Accepts [3] := .cons (by decide) .nil
  have hspares : raise.Spares (.reg 2) := by decide
  refine ⟨⟨hvalid, hin, hspares⟩, ?_⟩
  obtain ⟨s₀, hstart, hkept⟩ := visits_unchanged hvalid hin {}
    (Boundary.ofFn fun _ address => .ok (some (address.map (2 * ·)))) ()
  refine ⟨s₀, hstart, fun s hvisit => ⟨?_, ?_⟩⟩
  · have hinput := (hkept s hvisit 0 _ rfl).1 rfl
    exact (Option.some.inj hinput).symm
  · exact (hkept s hvisit 2 _ rfl).2 rfl hspares

/-- Stores its input into its constant. -/
def drift : Routine where
  name := "drift"
  registers := [⟨.input, "x", 8, 0⟩, ⟨.output, "y", 8, 0⟩, ⟨.const, "k", 8, 7⟩]
  buses := []
  code := [[.add [.reg 2] [.reg 0] 0, .add [.reg 1] [.reg 2] 0, .ret]]

/-- A constant may be a target: an accepted routine returns another value than its pad. -/
theorem constant_overwritten :
    drift.validate .unbounded = .ok () ∧ drift.Accepts [3] ∧
      drift.run {} .closed [3] () = .ok ⟨.returned, [3], 3, []⟩ () ∧
      ∃ s₀ s, drift.start [3] = .ok s₀ ∧
        drift.Visits false .closed { frame := ⟨s₀, ()⟩ } s ∧
        drift.registers[2]? = some ⟨.const, "k", 8, 7⟩ ∧ s.load (.reg 2) = 3 := by
  have hstart : drift.start [3] = .ok ⟨drift.registers, [3, 0, 7], 0⟩ := rfl
  have hadv :
      drift.Advances false .closed { frame := ⟨⟨drift.registers, [3, 0, 7], 0⟩, ()⟩ }
      { frame := ⟨⟨drift.registers, [3, 0, 3], 0⟩, ()⟩, offset := 1, steps := 1 } :=
    ⟨rfl, _, _, _, rfl, rfl, rfl⟩
  exact ⟨rfl, .cons (by decide) .nil, rfl, _, _, hstart, .reached (.single hadv), rfl, rfl⟩

end Routine

end LimbMachine
