import LimbMachine.Proofs.Exec.Boundaries
import LimbMachine.Proofs.Exec.Footprint

/-!
# What a microcode depends on

A microcode reads its operands before it stores, and a store looks at nothing but the registers'
declarations. So in two states that `Agree` on what it reads, a microcode gives the same step or the
same error. The states that it leaves then agree on every target that was stored into: a run of
stores that succeeds has stored into all of them, and one that breaks off breaks off at the same one
in both states (`Microcode.execute_matched`).
-/

namespace LimbMachine

/-! ## Stores -/

/-- Two states of the same registers, each with a value for every register, that read alike at
`ids`. -/
structure State.Agree (ids : List RegId) (s s' : State) : Prop where
  registers_eq : s'.registers = s.registers
  length_eq : s.values.length = s.registers.length
  length_eq' : s'.values.length = s'.registers.length
  load_eq : ∀ id ∈ ids, s.load id = s'.load id

namespace State

variable {s s' : State} {ids ids' targets : List RegId}

theorem Agree.mono (h : Agree ids s s') (hsub : ids' ⊆ ids) : Agree ids' s s' :=
  ⟨h.registers_eq, h.length_eq, h.length_eq', fun id hid => h.load_eq id (hsub hid)⟩

theorem Agree.map_load (h : Agree ids s s') (hsub : ids' ⊆ ids) :
    ids'.map s.load = ids'.map s'.load :=
  List.map_congr_left fun id hid => h.load_eq id (hsub hid)

/-- What a register takes, it takes in both states. -/
theorem Agree.write (h : Agree ids s s') {i : Nat} (hi : i < s.registers.length) (v : Nat) :
    Agree (.reg i :: ids) (s.write i v) (s'.write i v) := by
  have hlen : i < s.values.length := h.length_eq ▸ hi
  have hlen' : i < s'.values.length := by rwa [h.length_eq', h.registers_eq]
  refine ⟨h.registers_eq, ?_, ?_, fun id hid => ?_⟩
  · exact List.length_set.trans h.length_eq
  · exact List.length_set.trans h.length_eq'
  · rw [load_write hlen, load_write hlen']
    split
    · rfl
    · next hne => exact h.load_eq id ((List.mem_cons.1 hid).resolve_left hne)

/-- A store succeeds in both states or fails in both with the same error, as it looks at the
declaration of its target only. -/
theorem Agree.store (h : Agree ids s s') (id : RegId) (v : Nat) :
    Matched (fun _ => Agree (id :: ids)) (store id v s) (store id v s') := by
  unfold State.store
  rw [h.registers_eq]
  cases id with
  | unused =>
    refine .ok ⟨h.registers_eq, h.length_eq, h.length_eq', fun id hid => ?_⟩
    rcases List.mem_cons.1 hid with rfl | hid
    · rfl
    · exact h.load_eq id hid
  | reg i =>
    dsimp only
    cases hr : s.registers[i]? with
    | none => exact .error trivial
    | some r =>
      dsimp only
      split
      · exact .ok (h.write (List.getElem?_eq_some_iff.1 hr).1 v)
      · exact .error trivial

/-- A run of stores that succeeds has stored into every target. -/
theorem Agree.storeEach (h : Agree ids s s') {vs : List Nat} (hlen : targets.length = vs.length) :
    Matched (fun _ => Agree (targets ++ ids)) (storeEach (targets.zip vs) s)
      (storeEach (targets.zip vs) s') := by
  induction targets generalizing s s' ids vs with
  | nil => exact .ok h
  | cons target rest ih =>
    cases vs with
    | nil => cases hlen
    | cons v vs =>
      refine (h.store target v).bind fun _ s₁ s₁' h₁ => ?_
      exact (ih h₁ (Nat.succ.inj hlen)).imp (fun _ _ h => h) fun _ _ _ h₂ => h₂.mono (by simp)

theorem Agree.storeSlices (h : Agree ids s s') (negative : Bool) (source offset : Nat)
    (targets : List RegId) :
    Matched (fun _ => Agree (targets ++ ids)) (storeSlices negative source offset targets s)
      (storeSlices negative source offset targets s') := by
  induction targets generalizing s s' ids offset with
  | nil => exact .ok h
  | cons target rest ih =>
    unfold State.storeSlices
    rw [estate_get_bind, estate_get_bind, h.registers_eq]
    refine (h.store target _).bind fun _ s₁ s₁' h₁ => ?_
    exact (ih h₁ _).imp (fun _ _ h => h) fun _ _ _ h₂ => h₂.mono (by simp)

theorem Agree.storeAcross (h : Agree ids s s') (v : Int) (targets : List RegId) :
    Matched (fun _ => Agree (targets ++ ids)) (storeAcross v targets s)
      (storeAcross v targets s') := by
  refine (h.storeSlices _ _ 0 targets).bind fun width s₁ s₁' h₁ => ?_
  split
  · rw [estate_get_bind, estate_get_bind, h₁.registers_eq]
    exact .error trivial
  · exact .ok h₁

/-- Minuend, subtrahends and pivot are those of the state before, so they are the same in both. -/
theorem Agree.subtract {sources : List RegId} (h : Agree sources s s') (targets : List RegId)
    (constant : Nat) :
    Matched (fun _ => Agree (targets ++ sources)) (subtract targets sources constant s)
      (subtract targets sources constant s') := by
  have hhead : (sources.head?).map s.load = (sources.head?).map s'.load := by
    rw [← List.head?_map, ← List.head?_map, h.map_load (List.Subset.refl _)]
  have htail := h.map_load fun _ => List.mem_of_mem_tail (l := sources)
  unfold State.subtract
  rw [estate_get_bind, estate_get_bind, h.registers_eq, ← hhead, ← htail]
  generalize (subPivot targets _ _).getD _ = pivot
  refine (h.storeAcross _ _).bind fun _ s₁ s₁' h₁ => ?_
  refine (h₁.storeAcross _ _).imp (fun _ _ h => h) fun _ _ _ h₂ => h₂.mono fun id hid => ?_
  -- every target stands before the pivot or after it
  rcases List.mem_append.1 hid with htarget | hsource
  · rw [← List.take_append_drop pivot targets] at htarget
    rcases List.mem_append.1 htarget with hlow | hhigh
    · exact List.mem_append_right _ (List.mem_append_left _ hlow)
    · exact List.mem_append_left _ hhigh
  · exact List.mem_append_right _ (List.mem_append_right _ hsource)

/-- Packed numbers are those of the registers that are packed. -/
theorem Agree.packFrom (h : Agree ids s s') (hsub : ids' ⊆ ids) (offset : Nat) :
    s.packFrom offset ids' = s'.packFrom offset ids' := by
  induction ids' generalizing offset with
  | nil => rfl
  | cons id rest ih =>
    rw [List.cons_subset] at hsub
    rw [State.packFrom, State.packFrom, h.load_eq id hsub.1, h.registers_eq, ih hsub.2]

end State

/-! ## One microcode -/

/-- The same request is answered alike, and an answer that is not rejected is stored into every
line. -/
theorem Frame.matched_transact {σ : Type} {io : Boundary σ} (hio : io.Steady) {s s' : State}
    {address : List RegId} (h : State.Agree address s s') (bus : Nat) (data : List RegId)
    (m m' : σ) :
    Matched (fun answered => Relates fun s₁ s₁' =>
        answered = true → State.Agree (data ++ address) s₁ s₁')
      (transact io bus address data ⟨s, m⟩) (transact io bus address data ⟨s', m'⟩) := by
  have hread := hio.alike bus (address.map s.load) m m'
  refine same_transact (A := Relates (State.Agree address)) (h.map_load (List.Subset.refl _))
    (hread.imp (fun _ _ h => h) fun _ _ _ _ => h) (fun _ _ _ => trivial)
    (fun _ _ _ hanswered => by cases hanswered) ?_
  intro response frame frame' hlen hagree
  refine same_onState ((State.Agree.storeEach hagree hlen.symm).imp (fun _ _ h => h) ?_)
  exact fun _ _ _ hstored _ => hstored

namespace Microcode

variable {σ : Type} {io : Boundary σ} {code : Microcode} {s s' : State}

/-- Left-out operands read as zero in every state. -/
theorem agree_operands (h : State.Agree code.reads s s') : State.Agree code.operands s s' := by
  refine ⟨h.registers_eq, h.length_eq, h.length_eq', fun id hid => ?_⟩
  cases id with
  | unused => rfl
  | reg i => exact h.load_eq _ (List.mem_filter.2 ⟨hid, rfl⟩)

/-- What holds of the states that a microcode leaves: where control goes on to another microcode,
they agree on the targets. -/
def Settles (code : Microcode) (step : Step) : Frame σ → Frame σ → Prop :=
  Frame.Relates fun s₁ s₁' => ∀ n, step = .skip n → State.Agree code.targets s₁ s₁'

/-- In states that agree on its operands a microcode gives the same, and it settles its targets. -/
theorem execute_matched (hio : io.Steady) (h : State.Agree code.operands s s') (m m' : σ) :
    Matched code.Settles (code.execute io ⟨s, m⟩) (code.execute io ⟨s', m'⟩) := by
  have hstore : ∀ {x x' : Update Unit},
      Matched (fun _ => State.Agree (code.targets ++ code.operands)) (x s) (x' s') →
      Matched code.Settles
        ((Frame.onState x >>= fun _ => pure (Step.skip 1) : Exec σ Step) ⟨s, m⟩)
        ((Frame.onState x' >>= fun _ => pure (Step.skip 1) : Exec σ Step) ⟨s', m'⟩) :=
    fun hx => (Frame.same_onState (R := fun _ => Frame.Relates (State.Agree _)) hx).bind
      fun _ _ _ h₁ => .ok fun _ _ => h₁.mono (List.subset_append_left _ _)
  unfold execute
  rw [estate_get_bind, estate_get_bind]
  cases code with
  | assign targets rhs =>
    have hvalue : rhs.eval s.load = rhs.eval s'.load := Polynomial.eval_congr h.load_eq
    simp only [hvalue]
    exact hstore (h.storeAcross _ targets)
  | add targets sources constant =>
    have hloads : sources.map s.load = sources.map s'.load := h.map_load (List.Subset.refl _)
    simp only [hloads]
    exact hstore (h.storeAcross _ targets)
  | mul targets sources constant =>
    have hvalue : sources.foldl (fun acc id => acc * s.load id) constant =
        sources.foldl (fun acc id => acc * s'.load id) constant :=
      Monomial.eval_congr (m := ⟨constant, sources⟩) h.load_eq
    simp only [hvalue]
    exact hstore (h.storeAcross _ targets)
  | sub targets sources constant => exact hstore (h.subtract targets constant)
  | cast targets source width =>
    have hsource : s.load source = s'.load source := h.load_eq source List.mem_cons_self
    simp only [hsource]
    split
    · exact .ok fun n hskip => by cases hskip
    · exact hstore (h.storeAcross _ targets)
  | div quotient remainder witness dividend divisor =>
    have hdividend : s.load dividend = s'.load dividend := h.load_eq dividend (by simp [operands])
    have hdivisor : s.load divisor = s'.load divisor := h.load_eq divisor (by simp [operands])
    simp only [hdividend, hdivisor, State.divide_eq_storeEach]
    split
    · exact .ok fun n hskip => by cases hskip
    · exact hstore (h.storeEach rfl)
  | skip left right constant distance =>
    have hleft : s.load left = s'.load left := h.load_eq left (by simp [operands])
    have hright : s.load right = s'.load right := h.load_eq right (by simp [operands])
    simp only [hleft, hright]
    exact .ok fun _ _ => h.mono (List.nil_subset _)
  | skipIf left right constant distance =>
    have hleft : s.pack left = s'.pack left := h.packFrom (List.subset_append_left _ _) 0
    have hright : s.pack right = s'.pack right := h.packFrom (List.subset_append_right _ _) 0
    simp only [hleft, hright]
    exact .ok fun _ _ => h.mono (List.nil_subset _)
  | call bus targets sources =>
    refine (Frame.matched_transact hio h bus targets m m').bind fun answered _ _ h₁ => ?_
    cases answered with
    | true => exact .ok fun _ _ => (h₁ rfl).mono (List.subset_append_left _ _)
    | false => exact .ok fun n hskip => by cases hskip
  | jmp target => exact .ok fun n hskip => by cases hskip
  | ret => exact .ok fun n hskip => by cases hskip
  | fail => exact .ok fun n hskip => by cases hskip

/-- **The footprint of a microcode**: in two states that agree on the registers it reads, and with
any memories at a steady boundary, it gives the same step or the same error. If it goes on to
another microcode, the states that it leaves agree on the registers it writes. In both states every
other register keeps its value, whatever comes out. -/
theorem execute_footprint (hio : io.Steady) (h : State.Agree code.reads s s') (m m' : σ) :
    let result := code.execute io ⟨s, m⟩
    let result' := code.execute io ⟨s', m'⟩
    given result = given result' ∧
    (∀ n, given result = .ok (.skip n) → ∀ id ∈ code.writes,
      (finalState result).state.load id = (finalState result').state.load id) ∧
    ∀ id, id ∉ code.writes →
      (finalState result).state.load id = s.load id ∧
      (finalState result').state.load id = s'.load id := by
  intro result result'
  have hmatched := execute_matched hio (agree_operands h) m m'
  refine ⟨hmatched.given_eq, fun n hgiven id hid => ?_, fun id hid => ?_⟩
  · have hagree := hmatched.related hgiven n rfl
    exact hagree.load_eq id (List.mem_filter.1 hid).1
  · exact ⟨execute_load hid io ⟨s, m⟩, execute_load hid io ⟨s', m'⟩⟩

/-- A subtraction out of order: it takes away a register that does not exist, and it has one target
twice and one left out. -/
def tangled : Microcode := .sub [.reg 1, .unused, .reg 1] [.reg 0, .reg 9] 5

/-- A state with a fixed `x`; `y` is the target of `tangled`, `z` is not mentioned. -/
def tangledState (y z : Nat) : State where
  registers := [⟨.input, "x", 8, 0⟩, ⟨.temp, "y", 8, 0⟩, ⟨.temp, "z", 8, 0⟩]
  values := [3, y, z]

theorem execute_footprint_tangled :
    let result := tangled.execute .closed ⟨tangledState 200 7, ()⟩
    let result' := tangled.execute .closed ⟨tangledState 11 8, ()⟩
    (Boundary.closed.Steady ∧
      State.Agree tangled.reads (tangledState 200 7) (tangledState 11 8)) ∧
    (given result = .ok (.skip 1) ∧ given result' = .ok (.skip 1)) ∧
    (finalState result).state.load (.reg 1) = (finalState result').state.load (.reg 1) ∧
    (finalState result).state.load (.reg 2) = 7 ∧
    (finalState result').state.load (.reg 2) = 8 := by
  intro result result'
  have hio : Boundary.closed.Steady := fun _ _ _ _ => rfl
  have hagree : State.Agree tangled.reads (tangledState 200 7) (tangledState 11 8) :=
    ⟨rfl, rfl, rfl, by decide⟩
  obtain ⟨hsame, hwritten, hkept⟩ := execute_footprint hio hagree () ()
  have hgiven : given result = .ok (.skip 1) := rfl
  have hspare := hkept (.reg 2) (by decide)
  exact ⟨⟨hio, hagree⟩, ⟨hgiven, hsame.symm.trans hgiven⟩,
    hwritten 1 hgiven _ (by decide), hspare⟩

end Microcode

end LimbMachine
