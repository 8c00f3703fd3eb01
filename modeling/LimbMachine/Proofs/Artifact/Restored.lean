import LimbMachine.Proofs.Artifact.Intact
import LimbMachine.Proofs.Split.Interface

/-!
# What reading an artifact restores

A routine that is put together part by part has its registers in order and initial values that fit.
One that is read from an artifact has its registers in order too: reading checks it, and order is
all that inputs and outputs need (`Routine.isOrdered_iff_arranged`). Initial values are not checked.
The routines that some bytes are read as are just those that can be written and have their registers
in order (`exists_decode_iff`), so an initial value of any size comes through (`overfull_restored`).
-/

namespace LimbMachine

/-! ## Registers in order -/

section Prefixes

variable {α : Type} {p : α → Bool} {l : List α}

/-- Where no element of `p` comes after another one, `p` holds of a first part of the list. -/
theorem takeWhile_eq_filter (h : l.Pairwise fun a b => p b = true → p a = true) :
    l.takeWhile p = l.filter p ∧ l.dropWhile p = l.filter fun a => !p a := by
  induction l with
  | nil => exact ⟨rfl, rfl⟩
  | cons a l ih =>
    obtain ⟨ha, hl⟩ := List.pairwise_cons.1 h
    cases hp : p a with
    | true =>
      obtain ⟨htake, hdrop⟩ := ih hl
      simp [hp, htake, hdrop]
    | false =>
      have hnone : ∀ b ∈ l, ¬ p b = true := fun b hb hpb => by
        rw [ha b hb hpb] at hp
        cases hp
      have hall : ∀ b ∈ l, (!p b) = true := fun b hb => by simpa using hnone b hb
      rw [List.takeWhile_cons_of_neg (by simp [hp]), List.dropWhile_cons_of_neg (by simp [hp]),
        List.filter_cons_of_neg (by simp [hp]), List.filter_cons_of_pos (by simp [hp]),
        List.filter_eq_nil_iff.2 hnone, List.filter_eq_self.2 hall]
      exact ⟨rfl, rfl⟩

end Prefixes

namespace Register

/-- Neither an input nor an output. -/
def isInner (r : Register) : Bool := !r.isInput && !r.isOutput

variable {a b r : Register}

theorem rank_of_isInput (h : r.isInput = true) : r.kind.rank = 0 := by
  have hkind : r.kind = .input := by simpa [isInput] using h
  rw [hkind]
  rfl

theorem rank_of_isOutput (h : r.isOutput = true) : r.kind.rank = 1 := by
  have hkind : r.kind = .output := by simpa [isOutput] using h
  rw [hkind]
  rfl

theorem rank_of_isInner (h : r.isInner = true) : r.kind.rank = 2 := by
  cases hkind : r.kind with
  | input => simp [isInner, isInput, hkind] at h
  | output => simp [isInner, isOutput, hkind] at h
  | temp => rfl
  | const => rfl

theorem isInput_of_rank_le (h : a.kind.rank ≤ b.kind.rank) (hb : b.isInput = true) :
    a.isInput = true := by
  rw [rank_of_isInput hb] at h
  cases hkind : a.kind with
  | input => simp [isInput, hkind]
  | _ => simp [hkind, RegKind.rank] at h

theorem isOutput_of_rank_le (h : a.kind.rank ≤ b.kind.rank) (ha : a.isInput = false)
    (hb : b.isOutput = true) : a.isOutput = true := by
  rw [rank_of_isOutput hb] at h
  cases hkind : a.kind with
  | input => simp [isInput, hkind] at ha
  | output => simp [isOutput, hkind]
  | _ => simp [hkind, RegKind.rank] at h

end Register

/-- Inputs come first, outputs next and then the others, so that the inputs and outputs of the
routine are all the registers of these roles. -/
structure Routine.Arranged (f : Routine) : Prop where
  inputs_eq : f.inputs = f.registers.filter Register.isInput
  outputs_eq : f.outputs = f.registers.filter Register.isOutput
  registers_eq : f.registers = f.inputs ++ f.outputs ++ f.registers.filter Register.isInner

namespace Routine

variable {f : Routine}

theorem arranged_of_pairwise
    (h : f.registers.Pairwise fun a b => a.kind.rank ≤ b.kind.rank) : f.Arranged := by
  have hin := takeWhile_eq_filter (h.imp Register.isInput_of_rank_le)
  -- among the registers behind the inputs, the outputs come first
  have hbehind : (f.registers.dropWhile Register.isInput).Pairwise fun a b =>
      b.isOutput = true → a.isOutput = true := by
    rw [hin.2]
    refine (List.Pairwise.and_mem.1 (h.filter _)).imp fun ⟨ha, _, hle⟩ hb => ?_
    have hnot := (List.mem_filter.1 ha).2
    exact Register.isOutput_of_rank_le hle (by simpa using hnot) hb
  have hout := takeWhile_eq_filter hbehind
  have hother : ∀ r : Register, (!r.isOutput && !r.isInput) = r.isInner :=
    fun r => Bool.and_comm _ _
  have houtput : ∀ r : Register, (r.isOutput && !r.isInput) = r.isOutput := by
    intro r
    cases hkind : r.kind <;> simp [Register.isInput, Register.isOutput, hkind]
  rw [hin.2, List.filter_filter, List.filter_filter] at hout
  simp only [hother, houtput] at hout
  refine ⟨hin.1, ?_, ?_⟩
  · rw [outputs, hin.2]
    exact hout.1
  · rw [← hout.2, ← hin.2, inputs, outputs, List.append_assoc, List.takeWhile_append_dropWhile,
      List.takeWhile_append_dropWhile]

theorem Arranged.pairwise (h : f.Arranged) :
    f.registers.Pairwise fun a b => a.kind.rank ≤ b.kind.rank := by
  have hinput : ∀ r ∈ f.inputs, r.kind.rank = 0 := by
    intro r hr
    rw [h.inputs_eq] at hr
    exact Register.rank_of_isInput (List.mem_filter.1 hr).2
  have houtput : ∀ r ∈ f.outputs, r.kind.rank = 1 := by
    intro r hr
    rw [h.outputs_eq] at hr
    exact Register.rank_of_isOutput (List.mem_filter.1 hr).2
  have hinner : ∀ r ∈ f.registers.filter Register.isInner, r.kind.rank = 2 :=
    fun r hr => Register.rank_of_isInner (List.mem_filter.1 hr).2
  rw [h.registers_eq, List.pairwise_append, List.pairwise_append]
  refine ⟨⟨?_, ?_, ?_⟩, ?_, ?_⟩
  · exact List.pairwise_of_forall_mem_list fun a ha b hb => by rw [hinput a ha, hinput b hb]
  · exact List.pairwise_of_forall_mem_list fun a ha b hb => by rw [houtput a ha, houtput b hb]
  · exact fun a ha b hb => by rw [hinput a ha, houtput b hb]; decide
  · exact List.pairwise_of_forall_mem_list fun a ha b hb => by rw [hinner a ha, hinner b hb]
  · intro a ha b hb
    rw [hinner b hb]
    rcases List.mem_append.1 ha with ha | ha
    · rw [hinput a ha]
      decide
    · rw [houtput a ha]
      decide

/-- Registers are in order exactly if inputs and outputs are what the routine takes them for. -/
theorem isOrdered_iff_arranged : f.registers.isOrdered = true ↔ f.Arranged := by
  rw [RegisterFile.isOrdered_iff]
  exact ⟨arranged_of_pairwise, Arranged.pairwise⟩

end Routine

theorem State.fits_fresh_iff {rs : RegisterFile} :
    (fresh rs).Fits ↔ ∀ r ∈ rs, r.fits r.pad = true := by
  refine ⟨fun h r hr => ?_, fits_fresh⟩
  obtain ⟨i, hi⟩ := List.mem_iff_getElem?.1 hr
  have hlt := h.load_lt (.reg i)
  rw [load_fresh, fresh, RegisterFile.widthOf_reg hi, RegisterFile.find?, hi] at hlt
  exact (r.fits_iff r.pad).2 hlt

namespace Artifact

theorem Digest.Carries.encodable {d : Digest} {bytes : Bytes} {f : Routine}
    (h : d.Carries bytes f) : f.Encodable := by
  obtain ⟨own, rest, hsize, -, hreads⟩ := h
  exact (encodable_of_read (hreads rest) hsize).1

/-- Reading gives just the routines that can be written and have their registers in order. -/
theorem exists_decode_iff {d : Digest} {f : Routine} :
    (∃ bytes, d.decode bytes = .ok f) ↔ f.registers.isOrdered = true ∧ f.Encodable := by
  constructor
  · rintro ⟨bytes, h⟩
    obtain ⟨hcarries, hord⟩ := decode_ok_iff.1 h
    exact ⟨hord, hcarries.encodable⟩
  · rintro ⟨hord, h⟩
    exact ⟨d.encode f, decode_ok_iff.2 ⟨carries_encode h, hord⟩⟩

/-- **Reading restores the order of registers**, with any digest, so that inputs and outputs are the
registers of these roles, and that numbers are sizes; it restores nothing else. In particular the
initial values may or may not fit, and every register starts out with a value that fits exactly if
they do. -/
theorem decode_restores (d : Digest) (f : Routine) :
    ((∃ bytes, d.decode bytes = .ok f) ↔ f.Arranged ∧ f.Encodable) ∧
      ((State.fresh f.registers).Fits ↔ ∀ r ∈ f.registers, r.fits r.pad = true) := by
  rw [exists_decode_iff, Routine.isOrdered_iff_arranged]
  exact ⟨Iff.rfl, State.fits_fresh_iff⟩

/-- Its only register has eight bits and starts out with a number of nine. -/
def overfull : Routine where
  name := "overfull"
  registers := [⟨.output, "y", 8, 256⟩]
  buses := []
  code := [[.ret]]

/-- An initial value that does not fit is read from an artifact. -/
theorem overfull_restored : decode (encode overfull) = .ok overfull ∧
    ¬ (∀ r ∈ overfull.registers, r.fits r.pad = true) ∧
      ¬ (State.fresh overfull.registers).Fits := by
  have hpad : ¬ ∀ r ∈ overfull.registers, r.fits r.pad = true := by decide
  have hpayload : (putRoutine overfull).length < Word.modulus := by decide +kernel
  have hencodable : overfull.Encodable := ⟨by decide, by decide, by decide, hpayload⟩
  refine ⟨decode_ok_iff.2 ⟨carries_encode hencodable, rfl⟩, hpad, ?_⟩
  rw [State.fits_fresh_iff]
  exact hpad

end Artifact

end LimbMachine
