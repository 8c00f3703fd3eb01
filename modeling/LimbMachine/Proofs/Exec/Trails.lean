import LimbMachine.Proofs.Check.Paths
import LimbMachine.Proofs.Exec.Counter
import LimbMachine.Proofs.Exec.Footprint

/-!
# Executing an instruction

While an instruction is executed, one microcode after the other says how far control moves on. The
offsets executed so far and the one that comes next are a `Trail`; it ends where a microcode sends
control out of the instruction or breaks off with an error (`Instruction.Departs`), and a run that
stands at the start of the instruction comes out of it just so (`Departs.comesOut`).

Every step of a microcode goes to one of its successors (`Microcode.gives_leads`), so the trails of
an accepted instruction are paths, whatever the values and the answers of the boundary are. What the
check of writes establishes for all paths then holds of all executions
(`Instruction.trails_conflict_free`).
-/

namespace LimbMachine

variable {σ : Type}

/-- Whatever a microcode does, it sends control where it may. -/
theorem Microcode.gives_leads (code : Microcode) (io : Boundary σ) :
    Gives code.Leads (code.execute io) := by
  refine .bind fun frame => ?_
  cases code with
  | assign targets rhs => exact .bind fun _ => .pure ⟨rfl, .inl rfl⟩
  | add targets sources constant => exact .bind fun _ => .pure ⟨rfl, .inl rfl⟩
  | mul targets sources constant => exact .bind fun _ => .pure ⟨rfl, .inl rfl⟩
  | sub targets sources constant => exact .bind fun _ => .pure ⟨rfl, .inl rfl⟩
  | cast targets source width =>
    exact .ite (.pure trivial) (.bind fun _ => .pure ⟨rfl, .inl rfl⟩)
  | div quotient remainder witness dividend divisor =>
    exact .ite (.pure trivial) (.bind fun _ => .pure ⟨rfl, .inl rfl⟩)
  | skip left right constant distance => exact .pure (leads_compare rfl rfl)
  | skipIf left right constant distance => exact .pure (leads_compare rfl rfl)
  | call bus targets sources =>
    exact .bind fun _ => .ite (.pure ⟨rfl, .inl rfl⟩) (.pure trivial)
  | jmp target => exact .pure rfl
  | ret => exact .pure trivial
  | fail => exact .pure trivial

namespace Instruction

/-- An execution of the instruction on its way: it has executed the microcodes at the offsets of a
list, in this order, comes next to the one at an offset, and has arrived at a frame. -/
inductive Trail (instruction : Instruction) (io : Boundary σ) (start : Frame σ) :
    List Nat → Nat → Frame σ → Prop
  | enter : Trail instruction io start [] 0 start
  | skip {path : List Nat} {offset count : Nat} {code : Microcode} {frame frame₁ : Frame σ}
    (before : Trail instruction io start path offset frame)
    (fetched : instruction[offset]? = some code)
    (executed : code.execute io frame = .ok (.skip count) frame₁) :
    Trail instruction io start (path ++ [offset]) (Word.add offset count) frame₁

/-- A whole execution of the instruction: the offsets of the microcodes executed, and what came of
the last one, which sent control out of the instruction or broke off with an error. -/
inductive Departs (instruction : Instruction) (io : Boundary σ) (start : Frame σ) :
    List Nat → EStateM.Result RunError (Frame σ) Step → Prop
  | intro {path : List Nat} {offset : Nat} {code : Microcode} {frame : Frame σ}
    {result : EStateM.Result RunError (Frame σ) Step}
    (before : Trail instruction io start path offset frame)
    (fetched : instruction[offset]? = some code) (executed : code.execute io frame = result)
    (out : ∀ count frame₁, result ≠ .ok (.skip count) frame₁) :
    Departs instruction io start (path ++ [offset]) result

/-- An instruction that control stays within, and in which no way is in conflict with a
microcode. -/
structure Sound (instruction : Instruction) : Prop where
  nonempty : instruction ≠ []
  addressed : Addressed instruction
  flows : instruction.Flows
  settles : ∀ {offset : Nat} {code : Microcode}, instruction[offset]? = some code →
    instruction.Settles offset code

variable {instruction : Instruction} {io : Boundary σ} {start frame : Frame σ} {path : List Nat}
  {offset : Nat} {code : Microcode}

theorem Sound.of_validate {scope : Scope} (hvalid : instruction.validate scope = .ok ())
    (haddressed : Addressed instruction) : instruction.Sound := by
  obtain ⟨hne, -, hflows, hwrites⟩ := validate_ok_iff.1 hvalid
  exact ⟨hne, haddressed, hflows, fun hcode => checkWrites_ok_iff.1 hwrites _ _ hcode⟩

/-! ## Paths without conflicts -/

/-- What a path has written, the microcode it leads to does not write. -/
theorem Sound.not_writesAlong (h : instruction.Sound) (hpath : Path instruction path offset)
    {id : RegId} (hid : WritesAt instruction offset id) : ¬ WritesAlong instruction path id := by
  obtain ⟨code, hcode, hid⟩ := hid
  obtain ⟨written, hway, hwritten⟩ := hpath.way h.addressed
  exact fun hmem => (h.settles hcode).2 id hid written hway ((hwritten id).2 hmem)

/-- No register is written twice on a path. -/
theorem Sound.disjoint_writes (h : instruction.Sound) (hpath : Path instruction path offset) :
    (path ++ [offset]).Pairwise fun o o' => ∀ id, WritesAt instruction o id →
      ¬ WritesAt instruction o' id := by
  induction hpath with
  | start _ => exact List.pairwise_singleton _ _
  | step before edge ih =>
    refine List.pairwise_append.2 ⟨ih, List.pairwise_singleton _ _,
      fun o ho o' ho' id hid hid' => ?_⟩
    rw [List.mem_singleton.1 ho'] at hid'
    exact h.not_writesAlong (before.step edge) hid' ⟨o, ho, hid⟩

/-- All paths to a reader agree on whether they have written what it reads. -/
theorem Sound.writesAlong_iff (h : instruction.Sound) {path' : List Nat}
    (hpath : Path instruction path offset) (hpath' : Path instruction path' offset)
    (hcode : instruction[offset]? = some code) {id : RegId} (hid : id ∈ code.reads) :
    WritesAlong instruction path id ↔ WritesAlong instruction path' id := by
  obtain ⟨written, hway, hwritten⟩ := hpath.way h.addressed
  obtain ⟨written', hway', hwritten'⟩ := hpath'.way h.addressed
  rw [← hwritten, ← hwritten']
  have hagree := (h.settles hcode).1 id hid
  exact ⟨hagree written written' hway hway', hagree written' written hway' hway⟩

/-! ## Executions follow paths -/

namespace Trail

/-- An execution follows a path. -/
theorem isPath (h : instruction.Sound) (htrail : instruction.Trail io start path offset frame) :
    Path instruction path offset := by
  induction htrail with
  | enter => exact .start h.nonempty
  | @skip path offset count code frame frame₁ _ hcode hexec ih =>
    have hnext := ((code.gives_leads io).of_ok hexec).mem_successors offset
    exact ih.step ⟨code, hcode, hnext, h.flows offset code hcode _ hnext⟩

/-- What no executed microcode writes is left alone. -/
theorem load_eq (htrail : instruction.Trail io start path offset frame) {id : RegId}
    (hid : ¬ WritesAlong instruction path id) : frame.state.load id = start.state.load id := by
  induction htrail with
  | enter => rfl
  | @skip path offset count code frame frame₁ _ hcode hexec ih =>
    rw [writesAlong_snoc hcode, not_or] at hid
    have hleft := Microcode.execute_load hid.2 io frame
    rw [hexec] at hleft
    exact hleft.trans (ih hid.1)

/-- An execution on its way gets out of the instruction. -/
theorem departs (h : instruction.Sound) (htrail : instruction.Trail io start path offset frame) :
    ∃ path result, instruction.Departs io start path result := by
  -- the offsets grow and stay inside, so what is left of the instruction shrinks
  induction hleft :
    instruction.length - offset using Nat.strong_induction_on generalizing path offset frame with
  | _ left ih =>
    have hlt := (htrail.isPath h).offset_lt
    have hcode := List.getElem?_eq_getElem hlt
    cases hexec : instruction[offset].execute io frame with
    | error e frame₁ => exact ⟨_, _, htrail, hcode, hexec, fun _ _ heq => by cases heq⟩
    | ok step frame₁ =>
      cases step with
      | skip count =>
        have hnext := htrail.skip hcode hexec
        have hahead := (h.flows.moves_forward hcode (h.addressed.landing_lt hcode)
          ((instruction[offset].gives_leads io).of_ok hexec)).1
        exact ih _ (by omega) hnext rfl
      | jump pc => exact ⟨_, _, htrail, hcode, hexec, fun _ _ heq => by cases heq⟩
      | ret => exact ⟨_, _, htrail, hcode, hexec, fun _ _ heq => by cases heq⟩
      | fail => exact ⟨_, _, htrail, hcode, hexec, fun _ _ heq => by cases heq⟩

end Trail

theorem Departs.length_le (h : instruction.Sound)
    {result : EStateM.Result RunError (Frame σ) Step}
    (hdeparts : instruction.Departs io start path result) : path.length ≤ instruction.length := by
  obtain ⟨htrail, -, -, -⟩ := hdeparts
  rw [List.length_append]
  exact (htrail.isPath h).length_lt h.addressed

end Instruction

/-! ## Runs -/

/-- A run that goes on from `t` comes out of its instruction with a result after a number of
microcodes, and goes on from there. -/
def Routine.ComesOut (f : Routine) (config : RunConfig) (io : Boundary σ) (t : Thread σ)
    (count : Nat) : EStateM.Result RunError (Frame σ) Step → Prop
  | .ok step frame => ∃ t₁ : Thread σ, t₁.frame = frame ∧
    ∀ n, f.resume config io (count + n) t = f.resume config io n (t₁.move step)
  | .error e frame => ∀ n, f.resume config io (count + n) t = .error e frame.memory

namespace Instruction

variable {instruction : Instruction} {io : Boundary σ} {frame : Frame σ} {path : List Nat}
  {offset : Nat} {f : Routine} {config : RunConfig} {t : Thread σ}

/-- A thread at the start of the instruction executes it. -/
theorem Trail.reaches (htrail : instruction.Trail io t.frame path offset frame) (trace : Bool)
    (hi : f.code[t.pc]? = some instruction) (hzero : t.offset = 0)
    (hrun : t.frame.state.isTerminated = false) :
    ∃ t₁, f.Reaches trace io path.length t t₁ ∧ t₁.frame = frame ∧
      t₁.offset = offset ∧ t₁.pc = t.pc ∧ t₁.frame.state.isTerminated = false := by
  induction htrail with
  | enter => exact ⟨t, .refl t, rfl, hzero, rfl, hrun⟩
  | @skip path offset count code frame frame₁ _ hcode hexec ih =>
    obtain ⟨t₁, hreach, rfl, rfl, hpc, hrun₁⟩ := ih
    have hkept : frame₁.state.pc = t₁.frame.state.pc := Microcode.execute_pc hexec
    have hfetch : f.fetch t₁.pc t₁.offset = some code :=
      Routine.fetch_eq_some_iff.2 ⟨instruction, hpc ▸ hi, hcode⟩
    have hadv : f.Advances trace io t₁ ((t₁.record trace frame₁).move (.skip count)) :=
      ⟨hrun₁, code, _, frame₁, hfetch, hexec, rfl⟩
    refine ⟨(t₁.record trace frame₁).move (.skip count), ?_, rfl, rfl, hkept.trans hpc, ?_⟩
    · rw [List.length_append]
      exact hreach.trans (.single hadv)
    · show frame₁.state.isTerminated = false
      rw [State.isTerminated, hkept]
      exact hrun₁

/-- A run comes out of an instruction as its execution does. -/
theorem Departs.comesOut {result : EStateM.Result RunError (Frame σ) Step}
    (hdeparts : instruction.Departs io t.frame path result) (config : RunConfig)
    (hi : f.code[t.pc]? = some instruction) (hzero : t.offset = 0)
    (hrun : t.frame.state.isTerminated = false) : f.ComesOut config io t path.length result := by
  obtain ⟨htrail, hcode, hexec, -⟩ := hdeparts
  obtain ⟨t₁, hreach, rfl, rfl, hpc, hrun₁⟩ := htrail.reaches config.trace hi hzero hrun
  have hfetch := Routine.fetch_eq_some_iff.2 ⟨instruction, hpc ▸ hi, hcode⟩
  rw [List.length_append, List.length_singleton]
  cases result with
  | ok step frame₁ =>
    have hadv : f.Advances config.trace io t₁ ((t₁.record config.trace frame₁).move step) :=
      ⟨hrun₁, _, step, frame₁, hfetch, hexec, rfl⟩
    exact ⟨t₁.record config.trace frame₁, rfl,
      fun n => (hreach.trans (.single hadv)).resume n⟩
  | error e frame₁ =>
    intro n
    rw [Nat.add_assoc, hreach.resume, Nat.add_comm 1 n]
    exact Routine.resume_aborts ⟨hrun₁, .inr ⟨_, frame₁, hfetch, hexec, rfl⟩⟩

/-- **Accepted instructions are executed without conflicts**, from any state and with any boundary.
The executed offsets grow and stay inside, and no register is written by two of the executed
microcodes; control leaves the instruction, or breaks off with an error, after at most as many
microcodes as there are. Any two executions that get to the same microcode agree on whether they
have written what it reads. -/
theorem trails_conflict_free {scope : Scope} (hvalid : instruction.validate scope = .ok ())
    (haddressed : Addressed instruction) :
    (∀ {σ : Type} (io : Boundary σ) (start : Frame σ),
      (∀ path offset frame, instruction.Trail io start path offset frame →
        (path ++ [offset]).Pairwise (· < ·) ∧
          (∀ o ∈ path ++ [offset], o < instruction.length) ∧
        ((path ++ [offset]).Pairwise fun o o' => ∀ id, WritesAt instruction o id →
          ¬ WritesAt instruction o' id) ∧
        ∀ id, ¬ WritesAlong instruction path id →
          frame.state.load id = start.state.load id) ∧
      ∃ path result, instruction.Departs io start path result ∧
        path.length ≤ instruction.length ∧
        ∀ (f : Routine) (config : RunConfig) (t : Thread σ),
          f.code[t.pc]? = some instruction → t.offset = 0 → t.frame = start →
          t.frame.state.isTerminated = false →
          f.ComesOut config io t path.length result) ∧
    ∀ {σ σ' : Type} (io : Boundary σ) (io' : Boundary σ') (start frame : Frame σ)
      (start' frame' : Frame σ') (path path' : List Nat) (offset : Nat) (code : Microcode),
      instruction.Trail io start path offset frame →
        instruction.Trail io' start' path' offset frame' →
      instruction[offset]? = some code → ∀ id ∈ code.reads,
        (WritesAlong instruction path id ↔ WritesAlong instruction path' id) := by
  have hsound := Sound.of_validate hvalid haddressed
  refine ⟨fun io start => ⟨fun path offset frame htrail => ?_, ?_⟩, ?_⟩
  · have hpath := htrail.isPath hsound
    exact ⟨hpath.increasing haddressed, hpath.inside, hsound.disjoint_writes hpath,
      fun id hid => htrail.load_eq hid⟩
  · have hentered : instruction.Trail io start [] 0 start := .enter
    obtain ⟨path, result, hdeparts⟩ := hentered.departs hsound
    refine ⟨path, result, hdeparts, hdeparts.length_le hsound,
      fun f config t hi hzero hstart hrun => ?_⟩
    subst hstart
    exact hdeparts.comesOut config hi hzero hrun
  · intro σ σ' io io' start frame start' frame' path path' offset code htrail htrail'
      hcode id hid
    exact hsound.writesAlong_iff (htrail.isPath hsound) (htrail'.isPath hsound) hcode hid

/-- Two paths, one of which passes the call, meet before `y` is written from `t`. -/
def joined : Instruction :=
  [.add [.reg 2] [.reg 0] 1, .skip (.reg 0) .unused 0 1, .call 0 [.reg 3] [.reg 0],
    .add [.reg 1] [.reg 2] 0, .ret]

/-- The registers `x`, `y`, `t` and `u`, and a bus. -/
def joinedScope : Scope where
  field := .unbounded
  registers := [⟨.input, "x", 8, 0⟩, ⟨.output, "y", 9, 0⟩, ⟨.temp, "t", 9, 0⟩,
    ⟨.temp, "u", 8, 0⟩]
  buses := [⟨"ask", some 0, [.reg 0], [.reg 3]⟩]
  instructions := 1

theorem trails_conflict_free_joined : joined.validate joinedScope = .ok () ∧ Addressed joined ∧
    (∀ start, ∃ path result, joined.Departs .closed start path result ∧ path.length ≤ 5) ∧
    ∀ rows start start' path path' frame frame', joined.Trail .closed start path 3 frame →
      joined.Trail (.table rows) start' path' 3 frame' →
      (WritesAlong joined path (.reg 2) ↔ WritesAlong joined path' (.reg 2)) := by
  have hvalid : joined.validate joinedScope = .ok () := rfl
  have haddressed : Addressed joined := by decide
  obtain ⟨hone, htwo⟩ := trails_conflict_free hvalid haddressed
  refine ⟨hvalid, haddressed, fun start => ?_,
    fun rows start start' path path' frame frame' h h' => ?_⟩
  · obtain ⟨path, result, hdeparts, hlength, -⟩ := (hone .closed start).2
    exact ⟨path, result, hdeparts, hlength⟩
  · exact htwo _ _ _ _ _ _ _ _ 3 _ h h' rfl (.reg 2) (by decide)

end Instruction

end LimbMachine
