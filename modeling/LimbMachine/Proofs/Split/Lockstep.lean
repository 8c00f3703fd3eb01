import LimbMachine.Proofs.Related
import LimbMachine.Proofs.Split.Routine

/-!
# A routine and its split form in lockstep

A thread of a split routine `Mirrors` a thread of the routine when it stands at the first fragment
of the microcode that the other is about to execute, in a state that represents the other's. One
microcode of the routine is followed by the fragments of its expansion (`Mirrors.follows`), of which
there may be none, so a run of the routine is followed by a run of its split form and the other way
round.

What the boundaries have to do with each other is `Boundary.Splits`: a request limb by limb is
answered by the answer limb by limb. Each side may be ended by errors of its boundary; `Faults` says
which errors of the two sides go together and which are excused.
-/

namespace LimbMachine

/-- Two computations give results in relation, or errors that go together or are excused, whatever
memories errors leave. -/
abbrev Faults.Relates (faults : Faults) {σ σ' α β : Type}
    (P : α → σ → β → σ' → Prop) :
    EStateM.Result RunError σ α → EStateM.Result RunError σ' β → Prop :=
  Related faults (fun _ _ => True) P

variable {σ σ' : Type}

/-- An answer and the same answer limb by limb, with memories in relation. -/
def Answers (width : Nat) (totals : List Nat) (R : σ → σ' → Prop)
    (answer : Option (List Nat)) (m : σ) (answer' : Option (List Nat)) (m' : σ') : Prop :=
  R m m' ∧ answer' = answer.map (splitLines width totals) ∧
    ∀ vs, answer = some vs → Digits.Fit totals vs

/-- Whatever the routine asks, `io'` answers limb by limb what `io` answers. -/
def Boundary.Splits (io : Boundary σ) (io' : Boundary σ') (f : Routine) (width : Nat)
    (R : σ → σ' → Prop) (faults : Faults) : Prop :=
  ∀ instruction ∈ f.code, ∀ bus targets sources, Microcode.call bus targets sources ∈
    instruction → ∀ address m m', Digits.Fit (f.registers.widths sources) address → R m m' →
      faults.Relates (Answers width (f.registers.widths targets) R) (io.read bus address m)
        (io'.read bus (splitLines width (f.registers.widths sources) address) m')

theorem State.ne_failPc {s : State} (h : s.isTerminated = false) : s.pc ≠ failPc := by
  intro hpc
  rw [State.isTerminated, hpc] at h
  cases h

namespace Routine

/-- The two threads are about to execute the same microcode in the same state, one of them over
limbs. After a failure the registers no longer matter. -/
structure Mirrors (f : Routine) (split : SplitRoutine) (trace : Bool) (R : σ → σ' → Prop)
    (t : Thread σ) (t' : Thread σ') : Prop where
  registers_eq : t.frame.state.registers = f.registers
  pc_eq : t'.pc = t.pc
  memory : R t.frame.memory t'.frame.memory
  represents : t.pc ≠ failPc → split.pool.Represents t.frame.state t'.frame.state
  inside : t.frame.state.isTerminated = false → ∃ instruction expansions,
    f.code[t.pc]? = some instruction ∧ t.offset < instruction.length ∧
    split.routine.code[t.pc]? = some (Fragment.link expansions) ∧
    instruction.Expands f.registers split.pool expansions ∧
    t'.offset = Fragment.start expansions t.offset
  arrived_eq : trace = true → t'.arrived = t.arrived

/-- What becomes of two threads when one of them executes a microcode and the other its
expansion. -/
inductive Follows (f : Routine) (split : SplitRoutine) (trace : Bool) (R : σ → σ' → Prop)
    (faults : Faults) (io : Boundary σ) (io' : Boundary σ') (t : Thread σ) (t' : Thread σ') :
    Prop
  /-- They go on within the instruction; an expansion may be empty. -/
  | stay {k : Nat} {t₁ : Thread σ} {t₁' : Thread σ'} (advances : f.Advances trace io t t₁)
    (passes : split.routine.Passes trace io' k t' t₁')
    (mirrors : f.Mirrors split trace R t₁ t₁') (pc_eq : t₁.pc = t.pc)
    (later : t.offset < t₁.offset)
  /-- They leave the instruction. -/
  | leave {k : Nat} {t₁ : Thread σ} {u' t₁' : Thread σ'}
    (advances : f.Advances trace io t t₁) (passes : split.routine.Passes trace io' k t' u')
    (last : split.routine.Advances trace io' u' t₁')
    (mirrors : f.Mirrors split trace R t₁ t₁')
  | both {e e' : RunError} {m : σ} {m' : σ'} (aborts : f.Aborts io t e m)
    (aborts' : split.routine.Aborts io' t' e' m') (together : faults.both e e')
  | left {e : RunError} {m : σ} (aborts : f.Aborts io t e m) (excused : faults.left e)
  | right {e' : RunError} {m' : σ'} (aborts' : split.routine.Aborts io' t' e' m')
    (excused : faults.right e')

variable {f : Routine} {split : SplitRoutine} {trace : Bool} {R : σ → σ' → Prop}
    {faults : Faults}
  {io : Boundary σ} {io' : Boundary σ'} {t t₁ : Thread σ} {t' t₁' u' : Thread σ'} {k : Nat}
  {s₁ s₁' : State} {m₁ : σ} {m₁' : σ'}

/-- Both threads went on within the instruction. -/
theorem Mirrors.stay (hm : f.Mirrors split trace R t t') {instruction : Instruction}
    {expansions : List (List Fragment)} {count : Nat}
    (hadv : f.Advances trace io t ((t.record trace ⟨s₁, m₁⟩).move (.skip count)))
    (hpass : split.routine.Passes trace io' k t' t₁') (hframe : t₁'.frame = ⟨s₁', m₁'⟩)
    (hregs : s₁.registers = f.registers)
    (hrep : split.pool.Represents s₁ s₁') (hmem : R m₁ m₁') (hpc : s₁.pc = t.pc)
    (hi : f.code[t.pc]? = some instruction) (hlt : Word.add t.offset count < instruction.length)
    (hi' : split.routine.code[t.pc]? = some (Fragment.link expansions))
    (hexp : instruction.Expands f.registers split.pool expansions)
    (hlater : t.offset < Word.add t.offset count)
    (hoffset : t₁'.offset = Fragment.start expansions (Word.add t.offset count)) :
    f.Mirrors split trace R ((t.record trace ⟨s₁, m₁⟩).move (.skip count)) t₁' where
  registers_eq := hregs
  pc_eq := by
    rw [hpass.pc_eq, hm.pc_eq]
    exact hpc.symm
  memory := by
    rw [hframe]
    exact hmem
  represents _ := by
    rw [hframe]
    exact hrep
  inside _ := by
    refine ⟨instruction, expansions, ?_, hlt, ?_, hexp, hoffset⟩
    · exact (congrArg (f.code[·]?) hpc).trans hi
    · exact (congrArg (split.routine.code[·]?) hpc).trans hi'
  arrived_eq htrace := by
    subst htrace
    rw [hpass.arrived_eq, hm.arrived_eq rfl, hadv.arrived_later hlater]

end Routine

/-- Where control goes when it leaves the instruction. -/
def Step.destination : Step → Nat
  | .skip _ => 0
  | .jump pc => pc
  | .ret => returnPc
  | .fail => failPc

theorem Thread.move_leaves {step : Step} (h : step.leaves = true) (t : Thread σ) :
    t.move step = t.enter step.destination := by
  cases step with
  | skip count => cases h
  | jump pc => rfl
  | ret => rfl
  | fail => rfl

theorem Pool.Represents.enter {pool : Pool} {s s' : State} (h : pool.Represents s s') (pc : Nat) :
    pool.Represents { s with pc := pc } { s' with pc := pc } :=
  ⟨h.splits, ⟨h.fits.length_eq, h.fits.load_lt⟩, h.registers_eq,
    ⟨h.limbs_fit.length_eq, h.limbs_fit.load_lt⟩, rfl, h.read_eq⟩

namespace Routine

variable {f : Routine} {split : SplitRoutine} {trace : Bool} {R : σ → σ' → Prop}
    {faults : Faults}
  {io : Boundary σ} {io' : Boundary σ'} {t t₁ : Thread σ} {t' t₁' u' : Thread σ'} {k : Nat}
  {s₁ s₁' : State} {m₁ : σ} {m₁' : σ'} {field : FieldParams}

/-- Both threads left the instruction for the same one. -/
theorem Mirrors.enter (hm : f.Mirrors split trace R t t') (hf : f.WellFormed field)
    (hsplit : split.Of f) {step : Step} (hleaves : step.leaves = true)
    (hadv : f.Advances trace io t ((t.record trace ⟨s₁, m₁⟩).move step))
    (hpass : split.routine.Passes trace io' k t' u')
    (hadv' : split.routine.Advances trace io' u' ((u'.record trace ⟨s₁', m₁'⟩).move step))
    (hregs : s₁.registers = f.registers) (hmem : R m₁ m₁')
    (hrep : step ≠ .fail → split.pool.Represents s₁ s₁')
    (hjump : ∀ pc, step = .jump pc → pc < f.code.length) :
    f.Mirrors split trace R ((t.record trace ⟨s₁, m₁⟩).move step)
      ((u'.record trace ⟨s₁', m₁'⟩).move step) := by
  rw [Thread.move_leaves hleaves] at hadv hadv' ⊢
  rw [Thread.move_leaves hleaves]
  refine ⟨hregs, rfl, hmem, fun hne => ?_, fun hrun => ?_, fun htrace => ?_⟩
  · refine (hrep ?_).enter step.destination
    rintro rfl
    exact hne rfl
  · -- the run goes on only after a jump
    obtain ⟨pc, rfl⟩ : ∃ pc, step = .jump pc := by
      cases step with
      | skip count => cases hleaves
      | jump pc => exact ⟨pc, rfl⟩
      | ret => cases hrun
      | fail => cases hrun
    have hpc := List.getElem?_eq_getElem (hjump pc rfl)
    obtain ⟨expansions, hi', hexp⟩ := hsplit.expands hpc
    have hpos := List.length_pos_of_ne_nil (hf.flows (List.mem_of_getElem? hpc)).1
    exact ⟨_, expansions, hpc, hpos, hi', hexp, rfl⟩
  · subst htrace
    rw [hadv.arrived_enter rfl, hadv'.arrived_enter rfl, hpass.arrived_eq, hm.arrived_eq rfl]
    rfl

end Routine

/-! ## Microcodes that ask no bus -/

namespace Microcode

/-- Executing a runnable microcode leads where its effect does and keeps the registers. -/
theorem does_spec {code : Microcode} {s s₁ : State} {step : Step} (hlocal : code.isLocal = true)
    (hrun : code.Runnable s.registers) (hs : s.Fits) (h : code.Does s step s₁) :
    code.Leads step ∧ s₁.registers = s.registers := by
  obtain ⟨s₂, hdoes, hassigned, -⟩ := does_effect hlocal hrun hs
  obtain ⟨rfl, rfl⟩ := h.unique hdoes
  exact ⟨leads_effect _ _ _, hassigned.registers_eq⟩

end Microcode

namespace Routine

variable {f : Routine} {split : SplitRoutine} {trace : Bool} {R : σ → σ' → Prop}
    {faults : Faults}
  {io : Boundary σ} {io' : Boundary σ'} {t t₁ : Thread σ} {t' t₁' u' : Thread σ'} {k : Nat}
  {s₁ s₁' : State} {m₁ : σ} {m₁' : σ'} {field : FieldParams} {instruction : Instruction}
  {expansions : List (List Fragment)} {code : Microcode} {step : Step} {exit : Exit}

/-- Where fragments branch to lies behind them. -/
theorem branch_behind (hexp : instruction.Expands f.registers split.pool expansions)
    (hlen : (Fragment.link expansions).length < Word.modulus) {offset : Nat}
    {fragments : List Fragment} (hget : expansions[offset]? = some fragments)
    (hmatches : step.Matches offset exit)
    (hforward : ∀ count, step = .skip count →
      offset < Word.add offset count ∧ Word.add offset count < instruction.length)
    {b : Branch} (hexit : exit = .branch b) :
    Fragment.start expansions offset + fragments.length ≤ Fragment.target expansions b ∧
      Fragment.target expansions b < Word.modulus := by
  rw [← Fragment.start_succ hget]
  have hoffset := (List.getElem?_eq_some_iff.1 hget).1
  have hbound : ∀ landing, offset < landing → landing ≤ expansions.length →
      Fragment.start expansions (offset + 1) ≤ Fragment.start expansions landing ∧
        Fragment.start expansions landing < Word.modulus := by
    intro landing hlt hle
    have hmono : Fragment.start expansions landing ≤
        Fragment.start expansions expansions.length :=
      Fragment.start_mono hle
    have hlength := Fragment.length_flatten_le expansions
    rw [Fragment.start_length] at hmono
    exact ⟨Fragment.start_mono hlt, by omega⟩
  cases hmatches with
  | next => cases hexit
  | leave leaves => cases hexit
  | branch distance =>
    cases hexit
    obtain ⟨hlt, hle⟩ := hforward _ rfl
    rw [Microcode.landing_eq, Fragment.target_offset (by rw [hexp.length_eq]; omega)]
    exact hbound _ hlt (by rw [hexp.length_eq]; omega)
  | guard =>
    cases hexit
    rw [Fragment.target_trailer]
    exact hbound _ hoffset (Nat.le_refl _)

/-- What threads at a microcode of a routine and at its expansion stand before. -/
structure At (f : Routine) (split : SplitRoutine) (t : Thread σ) (t' : Thread σ')
    (instruction : Instruction) (expansions : List (List Fragment)) (code : Microcode) : Prop where
  running : t.frame.state.isTerminated = false
  source : f.code[t.pc]? = some instruction
  fetch : instruction[t.offset]? = some code
  target : split.routine.code[t.pc]? = some (Fragment.link expansions)
  expands : instruction.Expands f.registers split.pool expansions
  offset_eq : t'.offset = Fragment.start expansions t.offset

theorem Mirrors.at_microcode (hm : f.Mirrors split trace R t t')
    (hrun : t.frame.state.isTerminated = false) :
    ∃ instruction expansions code, f.At split t t' instruction expansions code := by
  obtain ⟨instruction, expansions, hi, hlt, hi', hexp, hoffset⟩ := hm.inside hrun
  exact ⟨instruction, expansions, _, hrun, hi, List.getElem?_eq_getElem hlt, hi', hexp, hoffset⟩

theorem At.fetch_eq (h : f.At split t t' instruction expansions code) :
    f.fetch t.pc t.offset = some code := fetch_eq_some_iff.2 ⟨instruction, h.source, h.fetch⟩

/-- A microcode that asks no bus is followed by its expansion. -/
theorem Mirrors.follows_local (hm : f.Mirrors split trace R t t') (hf : f.WellFormed field)
    (hsplit : split.Of f) (haddr : ∀ i ∈ split.routine.code, i.length < Word.modulus)
    (hat : f.At split t t' instruction expansions code) (hlocal : code.isLocal = true) :
    f.Follows split trace R faults io io' t t' := by
  have hmem := List.mem_of_getElem? hat.source
  have hmem' := List.mem_of_getElem? hat.target
  have hsound := hf.sound hmem (List.mem_of_getElem? hat.fetch)
  have hrep := hm.represents (State.ne_failPc hat.running)
  obtain ⟨fragments, hget, early, later, hexpand, hs, hext⟩ := hat.expands.expand hat.fetch
  obtain ⟨before, rest, hflat, hbefore⟩ := Fragment.flatten_eq_of_getElem? hget
  rw [List.append_assoc] at hflat
  have hnarrow : ∀ fragment ∈ fragments, fragment.code.Narrow split.pool.registers := by
    intro fragment hfragment
    refine Fragment.narrow_of_link (hsplit.narrow _ hmem') ?_
    rw [hflat]
    exact List.mem_append_right _ (List.mem_append_left _ hfragment)
  obtain ⟨step, s₁, exit, s₁', hdoes, hruns, hmatches, hrep₁⟩ :=
    (Microcode.expand_simulates hexpand hlocal hsound.runnable hsound.comparable hs
      hf.widthOf_lt).2 hext hrep hm.registers_eq hnarrow
  obtain ⟨hleads, hregs⟩ :=
    Microcode.does_spec hlocal (by rw [hm.registers_eq]; exact hsound.runnable) hrep.fits hdoes
  rw [hm.registers_eq] at hregs
  have hforward : ∀ count, step = .skip count →
      t.offset < Word.add t.offset count ∧ Word.add t.offset count < instruction.length := by
    rintro count rfl
    exact (hf.flows hmem).2.moves_forward hat.fetch (hf.sized.landing_lt hmem hat.fetch) hleads
  have hadv : f.Advances trace io t ((t.record trace ⟨s₁, t.frame.memory⟩).move step) :=
    ⟨hat.running, code, step, _, hat.fetch_eq, hdoes io t.frame.memory, rfl⟩
  have hpc : s₁.pc = t.pc := Microcode.does_pc hdoes
  have hcode' : split.routine.code[t'.pc]? = some (Fragment.link expansions) := by
    rw [hm.pc_eq]
    exact hat.target
  have hrun' : t'.frame.state.isTerminated = false :=
    (State.isTerminated_congr hrep.pc_eq).trans hat.running
  have hexits : split.routine.Exits trace io' expansions (before.length + fragments.length) t' s₁'
      exit := by
    refine hruns.exits before hcode' (haddr _ hmem') hflat hrun' rfl
      (hat.offset_eq.trans hbefore.symm) fun b hb => ?_
    rw [hbefore]
    exact branch_behind hat.expands (haddr _ hmem') hget hmatches hforward hb
  cases hmatches with
  | next =>
    obtain ⟨k, t₁', hpass, hframe, hoffset⟩ := hexits
    obtain ⟨hlater, hlt⟩ := hforward 1 rfl
    have hnext : Word.add t.offset 1 = t.offset + 1 := by
      have := hf.sized.landing_lt hmem hat.fetch
      exact Word.add_eq (by omega)
    refine .stay hadv hpass ?_ hpc hlater
    refine hm.stay hadv hpass hframe hregs (hrep₁ (by simp)) hm.memory hpc hat.source hlt
      hat.target
      hat.expands hlater ?_
    rw [hoffset, hbefore, hnext, Fragment.start_succ hget]
  | branch distance =>
    obtain ⟨k, t₁', hpass, hframe, hoffset⟩ := hexits
    obtain ⟨hlater, hlt⟩ := hforward _ rfl
    refine .stay hadv hpass ?_ hpc hlater
    refine hm.stay hadv hpass hframe hregs (hrep₁ (by simp)) hm.memory hpc hat.source hlt
      hat.target
      hat.expands hlater ?_
    rw [hoffset, Microcode.landing_eq, Fragment.target_offset]
    rw [hat.expands.length_eq]
    omega
  | leave leaves =>
    obtain ⟨k, u', code', hpass, hfetch, hexec⟩ := hexits
    have hadv' : split.routine.Advances trace io' u'
        ((u'.record trace ⟨s₁', t'.frame.memory⟩).move step) :=
      ⟨(State.isTerminated_congr hpass.pc_eq).trans hrun', code', step, _, hfetch, hexec, rfl⟩
    refine .leave hadv hpass hadv' ?_
    refine hm.enter hf hsplit leaves hadv hpass hadv' hregs hm.memory hrep₁ fun pc hjump => ?_
    subst hjump
    exact hf.jump_lt hmem (List.mem_of_getElem? hat.fetch) hleads
  | guard =>
    obtain ⟨k, u', hpass, hframe, hoffset⟩ := hexits
    obtain ⟨fragment, hfragment, hbranch⟩ := hruns.exists_branch rfl
    have hfetch : split.routine.fetch u'.pc u'.offset = some .fail := by
      refine fetch_eq_some_iff.2 ⟨_,
        (congrArg (split.routine.code[·]?) hpass.pc_eq).trans hcode', ?_⟩
      rw [hoffset, Fragment.target_trailer]
      refine Fragment.link_trailer ?_ hbranch
      rw [hflat]
      exact List.mem_append_right _ (List.mem_append_left _ hfragment)
    have hadv' : split.routine.Advances trace io' u'
        ((u'.record trace ⟨s₁', t'.frame.memory⟩).move .fail) :=
      ⟨(State.isTerminated_congr hpass.pc_eq).trans hrun', .fail, .fail, _, hfetch,
        by rw [← hframe]; rfl, rfl⟩
    refine .leave hadv hpass hadv' ?_
    exact hm.enter hf hsplit rfl hadv hpass hadv' hregs hm.memory (fun hne => absurd rfl hne)
      fun pc hjump => nomatch hjump

/-! ## Calls -/

section Calls

variable {bus : Nat} {targets sources : List RegId}

theorem WellFormed.knows_call (hf : f.WellFormed field) (hi : instruction ∈ f.code)
    (hc : Microcode.call bus targets sources ∈ instruction) :
    (∀ id ∈ sources, f.registers.Knows id) ∧ ∀ id ∈ targets, f.registers.Knows id := by
  have hknown := (Microcode.validate_ok_iff.1 (hf.validate_code hi hc)).1
  constructor
  · exact fun id hid hu => hknown id (List.mem_append_left _ (List.mem_filter.2 ⟨hid, hu⟩))
  · exact fun id hid hu => hknown id (List.mem_append_right _ (List.mem_filter.2 ⟨hid, hu⟩))

/-- The thread of the split routine comes to the call over limbs. -/
theorem At.fetch_call (hm : f.Mirrors split trace R t t')
    (hat : f.At split t t' instruction expansions (.call bus targets sources)) :
    ∃ fragments, expansions[t.offset]? = some fragments ∧ fragments.length = 1 ∧
      split.routine.fetch t'.pc t'.offset = some (.call bus (targets.flatMap split.pool.group)
        (sources.flatMap split.pool.group)) := by
  obtain ⟨fragments, hget, early, later, hexpand, -, hext⟩ := hat.expands.expand hat.fetch
  obtain ⟨rfl, rfl⟩ := Microcode.expand_call hexpand
  obtain ⟨before, rest, hflat, hbefore⟩ := Fragment.flatten_eq_of_getElem? hget
  have hcode' : split.routine.code[t'.pc]? = some (Fragment.link expansions) := by
    rw [hm.pc_eq]
    exact hat.target
  rw [List.append_assoc] at hflat
  obtain ⟨distance, hfetch, -⟩ :=
    Fragment.fetch_fragment hcode' (hat.offset_eq.trans hbefore.symm) hflat
  rw [hext.group_eq] at hfetch hget
  exact ⟨_, hget, rfl, hfetch⟩

/-- An answer is stored by both threads, by one of them limb by limb. -/
theorem Mirrors.follows_answer (hm : f.Mirrors split trace R t t') (hf : f.WellFormed field)
    (haddr : ∀ i ∈ split.routine.code, i.length < Word.modulus)
    (hat : f.At split t t' instruction expansions (.call bus targets sources)) {vs : List Nat}
    (hans : io.read bus (sources.map t.frame.state.load) t.frame.memory = .ok (some vs) m₁)
    (hans' : io'.read bus ((sources.flatMap split.pool.group).map t'.frame.state.load)
      t'.frame.memory =
        .ok (some (splitLines split.pool.width (f.registers.widths targets) vs)) m₁')
    (hmem₁ : R m₁ m₁') (hfit : Digits.Fit (f.registers.widths targets) vs) :
    f.Follows split trace R faults io io' t t' := by
  have hmem := List.mem_of_getElem? hat.source
  have hcmem := List.mem_of_getElem? hat.fetch
  have hrep := hm.represents (State.ne_failPc hat.running)
  obtain ⟨fragments, hget, hone, hfetch'⟩ := hat.fetch_call hm
  have htargets := (hf.knows_call hmem hcmem).2
  have hnd : targets.Nodup := (hf.runnable hmem hcmem).1
  have hlanding := hf.sized.landing_lt hmem hat.fetch
  have hsplits := hrep.splits
  rw [← hm.registers_eq] at htargets hfit hans'
  have htakes : List.Forall₂ (State.Takes t.frame.state.registers) targets vs :=
    ((List.forall₂_and_left _ _).2 ⟨htargets, List.forall₂_map_left_iff.1 hfit⟩).imp
      fun id v h hu => ⟨h.1 hu, h.2⟩
  have htakes' := hsplits.takes_lines htargets htakes.length_eq.symm
  rw [← hrep.registers_eq] at htakes'
  obtain ⟨s₁, hexec, hassigned⟩ := Microcode.execute_call_answered hrep.fits hnd htakes hans
  obtain ⟨s₁', hexec', hassigned'⟩ := Microcode.execute_call_answered hrep.limbs_fit
    (hsplits.nodup_lines htargets hnd) htakes' hans'
  have hrep₁ :=
    hrep.assign_lines htargets hfit hassigned (hassigned.fits hrep.fits htakes) hassigned'
    (hassigned'.fits hrep.limbs_fit htakes')
  have hrun' : t'.frame.state.isTerminated = false :=
    (State.isTerminated_congr hrep.pc_eq).trans hat.running
  have hadv : f.Advances trace io t ((t.record trace ⟨s₁, m₁⟩).move (.skip 1)) :=
    ⟨hat.running, _, _, _, hat.fetch_eq, hexec, rfl⟩
  have hadv' :
      split.routine.Advances trace io' t' ((t'.record trace ⟨s₁', m₁'⟩).move (.skip 1)) :=
    ⟨hrun', _, _, _, hfetch', hexec', rfl⟩
  have hnext : Word.add t.offset 1 = t.offset + 1 := Word.add_eq (by omega)
  have hlt : Word.add t.offset 1 < instruction.length :=
    ((hf.flows hmem).2.moves_forward hat.fetch hlanding ⟨rfl, .inl rfl⟩).2
  have hnext' : Word.add t'.offset 1 = Fragment.start expansions (t.offset + 1) := by
    have hlen := haddr _ (List.mem_of_getElem? hat.target)
    have hflat := Fragment.length_flatten_le expansions
    have hmono : Fragment.start expansions (t.offset + 1) ≤
        Fragment.start expansions expansions.length := by
      refine Fragment.start_mono ?_
      rw [hat.expands.length_eq]
      omega
    rw [Fragment.start_length] at hmono
    rw [Fragment.start_succ hget, hone] at hmono ⊢
    rw [hat.offset_eq, Word.add_eq (by omega)]
  have hpass :
      split.routine.Passes trace io' 1 t'
      ((t'.record trace ⟨s₁', m₁'⟩).move (.skip 1)) := by
    refine .step hadv' hassigned'.pc_eq ?_ (.refl _)
    show t'.offset < Word.add t'.offset 1
    rw [hnext', Fragment.start_succ hget, hone, hat.offset_eq]
    omega
  refine .stay hadv hpass ?_ hassigned.pc_eq ?_
  · refine hm.stay hadv hpass rfl ?_ hrep₁ hmem₁ hassigned.pc_eq hat.source hlt hat.target
      hat.expands
      (by omega) ?_
    · rw [hassigned.registers_eq, hm.registers_eq]
    · rw [hnext]
      exact hnext'
  · show t.offset < Word.add t.offset 1
    omega

/-- A call is followed by the call over limbs. -/
theorem Mirrors.follows_call (hm : f.Mirrors split trace R t t') (hf : f.WellFormed field)
    (hsplit : split.Of f) (haddr : ∀ i ∈ split.routine.code, i.length < Word.modulus)
    (hio : io.Splits io' f split.pool.width R faults)
    (hat : f.At split t t' instruction expansions (.call bus targets sources)) :
    f.Follows split trace R faults io io' t t' := by
  have hmem := List.mem_of_getElem? hat.source
  have hcmem := List.mem_of_getElem? hat.fetch
  have hrep := hm.represents (State.ne_failPc hat.running)
  obtain ⟨hsources, htargets⟩ := hf.knows_call hmem hcmem
  obtain ⟨fragments, hget, hone, hfetch'⟩ := hat.fetch_call hm
  have hfetch := hat.fetch_eq
  have hrun' : t'.frame.state.isTerminated = false :=
    (State.isTerminated_congr hrep.pc_eq).trans hat.running
  have hfit : Digits.Fit (f.registers.widths sources) (sources.map t.frame.state.load) := by
    rw [← hm.registers_eq]
    exact hrep.fits.fit sources
  have haddress := hrep.map_load_lines (by rw [hm.registers_eq]; exact hsources)
  rw [hm.registers_eq] at haddress
  have hread := hio instruction hmem bus targets sources hcmem _ _ _ hfit hm.memory
  rw [← haddress] at hread
  generalize hans : io.read bus (sources.map t.frame.state.load) t.frame.memory = result at hread
  generalize hans' : io'.read bus ((sources.flatMap split.pool.group).map t'.frame.state.load)
    t'.frame.memory = result' at hread
  cases hread with
  | both together =>
    have habort : f.Aborts io t _ _ :=
      ⟨hat.running, .inr ⟨_, _, hfetch, Microcode.execute_call_error hans, rfl⟩⟩
    have habort' : split.routine.Aborts io' t' _ _ :=
      ⟨hrun', .inr ⟨_, _, hfetch', Microcode.execute_call_error hans', rfl⟩⟩
    exact .both habort habort' together
  | left excused =>
    have habort : f.Aborts io t _ _ :=
      ⟨hat.running, .inr ⟨_, _, hfetch, Microcode.execute_call_error hans, rfl⟩⟩
    exact .left habort excused
  | right excused =>
    have habort' : split.routine.Aborts io' t' _ _ :=
      ⟨hrun', .inr ⟨_, _, hfetch', Microcode.execute_call_error hans', rfl⟩⟩
    exact .right habort' excused
  | @ok answer m₁ answer' m₁' h =>
    obtain ⟨hmem₁, rfl, hfits⟩ := h
    cases answer with
    | none =>
      have hadv : f.Advances trace io t ((t.record trace ⟨t.frame.state, m₁⟩).move .fail) :=
        ⟨hat.running, _, _, _, hfetch, Microcode.execute_call_rejected hans, rfl⟩
      have hadv' : split.routine.Advances trace io' t'
          ((t'.record trace ⟨t'.frame.state, m₁'⟩).move .fail) :=
        ⟨hrun', _, _, _, hfetch', Microcode.execute_call_rejected hans', rfl⟩
      refine .leave hadv (.refl t') hadv' ?_
      exact hm.enter hf hsplit rfl hadv (.refl t') hadv' hm.registers_eq hmem₁
        (fun hne => absurd rfl hne) fun pc hjump => nomatch hjump
    | some vs => exact hm.follows_answer hf haddr hat hans hans' hmem₁ (hfits vs rfl)

end Calls

/-- **Lockstep**: one microcode of a routine is followed by its expansion. -/
theorem Mirrors.follows (hm : f.Mirrors split trace R t t') (hf : f.WellFormed field)
    (hsplit : split.Of f) (haddr : ∀ i ∈ split.routine.code, i.length < Word.modulus)
    (hio : io.Splits io' f split.pool.width R faults)
    (hrun : t.frame.state.isTerminated = false) : f.Follows split trace R faults io io' t t' := by
  obtain ⟨instruction, expansions, code, hat⟩ := hm.at_microcode hrun
  cases hlocal : code.isLocal with
  | true => exact hm.follows_local hf hsplit haddr hat hlocal
  | false =>
    cases code with
    | call bus targets sources => exact hm.follows_call hf hsplit haddr hio hat
    | _ => cases hlocal

/-! ## Runs -/

section Runs

variable {t₂ : Thread σ} {n n' : Nat}

theorem Mirrors.isTerminated_eq (hm : f.Mirrors split trace R t t') :
    t'.frame.state.isTerminated = t.frame.state.isTerminated := State.isTerminated_congr hm.pc_eq

/-- Every thread that the routine reaches is mirrored by one that its split form reaches. -/
theorem Mirrors.reaches (hm : f.Mirrors split trace R t t') (hf : f.WellFormed field)
    (hsplit : split.Of f) (haddr : ∀ i ∈ split.routine.code, i.length < Word.modulus)
    (hio : io.Splits io' f split.pool.width R faults) (hright : ∀ e, ¬ faults.right e)
    (h : f.Reaches trace io k t t₁) :
    ∃ k' t₁', split.routine.Reaches trace io' k' t' t₁' ∧
      f.Mirrors split trace R t₁ t₁' := by
  induction h generalizing t' with
  | refl t => exact ⟨0, t', .refl t', hm⟩
  | @step k t t₂ t₁ first rest ih =>
    cases hm.follows hf hsplit haddr hio first.running with
    | @stay j t₃ t₃' advances passes mirrors _ _ =>
      obtain rfl := first.unique advances
      obtain ⟨k', t₁', hreach, hm₁⟩ := ih mirrors
      exact ⟨j + k', t₁', passes.reaches.trans hreach, hm₁⟩
    | @leave j t₃ u' t₃' advances passes last mirrors =>
      obtain rfl := first.unique advances
      obtain ⟨k', t₁', hreach, hm₁⟩ := ih mirrors
      exact ⟨j + (k' + 1), t₁', passes.reaches.trans (.step last hreach), hm₁⟩
    | both aborts _ _ => exact absurd aborts first.not_aborts
    | left aborts _ => exact absurd aborts first.not_aborts
    | right _ excused => exact absurd excused (hright _)

/-- How many microcodes lie ahead in the instruction of a thread. -/
def ahead (f : Routine) (t : Thread σ) : Nat := ((f.code[t.pc]?).map List.length).getD 0 - t.offset

theorem Mirrors.ahead_lt (hm : f.Mirrors split trace R t t')
    (hrun : t.frame.state.isTerminated = false) (hpc : t₁.pc = t.pc)
    (hlater : t.offset < t₁.offset) : f.ahead t₁ < f.ahead t := by
  obtain ⟨instruction, -, hi, hlt, -⟩ := hm.inside hrun
  rw [ahead, ahead, hpc, hi, Option.map_some, Option.getD_some]
  omega

/-- Every thread that the split form reaches is on its way from a thread that mirrors one that the
routine reaches. -/
theorem Mirrors.reached (hm : f.Mirrors split trace R t t') (hf : f.WellFormed field)
    (hsplit : split.Of f) (haddr : ∀ i ∈ split.routine.code, i.length < Word.modulus)
    (hio : io.Splits io' f split.pool.width R faults) (hleft : ∀ e, ¬ faults.left e)
    (hright : ∀ e, ¬ faults.right e) (h : split.routine.Reaches trace io' n' t' u') :
    ∃ k t₁ j t₁', f.Reaches trace io k t t₁ ∧ f.Mirrors split trace R t₁ t₁' ∧
      split.routine.Passes trace io' j t₁' u' := by
  -- on the number of microcodes of the split form; where an expansion is empty, on those ahead
  induction n' using Nat.strong_induction_on generalizing t t' with
  | _ n' ih =>
    induction hahead : f.ahead t using Nat.strong_induction_on generalizing t t' with
    | _ r ihr =>
      cases hrun : t.frame.state.isTerminated with
      | true =>
        cases h with
        | refl => exact ⟨0, t, 0, _, .refl t, hm, .refl _⟩
        | step first _ =>
          have hrun' := first.running
          rw [hm.isTerminated_eq, hrun] at hrun'
          cases hrun'
      | false =>
        cases hm.follows hf hsplit haddr hio hrun with
        | @stay j t₂ t₂' advances passes mirrors pc_eq later =>
          by_cases hlt : n' < j
          · exact ⟨0, t, n', t', .refl t, hm, passes.of_reaches (Nat.le_of_lt hlt) h⟩
          · have hrest := h.rest passes.reaches (by omega)
            rcases Nat.eq_zero_or_pos j with rfl | hpos
            · rw [Nat.sub_zero] at hrest
              obtain ⟨k, t₁, i, t₁', hreach, hm₁, hpass⟩ :=
                ihr (f.ahead t₂) (hahead ▸ hm.ahead_lt hrun pc_eq later) mirrors hrest rfl
              exact ⟨k + 1, t₁, i, t₁', .step advances hreach, hm₁, hpass⟩
            · obtain ⟨k, t₁, i, t₁', hreach, hm₁, hpass⟩ :=
                ih (n' - j) (by omega) mirrors hrest
              exact ⟨k + 1, t₁, i, t₁', .step advances hreach, hm₁, hpass⟩
        | @leave j t₂ w' t₂' advances passes last mirrors =>
          by_cases hle : n' ≤ j
          · exact ⟨0, t, n', t', .refl t, hm, passes.of_reaches hle h⟩
          · have hrest := h.rest (passes.reaches.trans (.single last)) (by omega)
            obtain ⟨k, t₁, i, t₁', hreach, hm₁, hpass⟩ :=
              ih (n' - (j + 1)) (by omega) mirrors hrest
            exact ⟨k + 1, t₁, i, t₁', .step advances hreach, hm₁, hpass⟩
        | both _ aborts _ =>
          cases h with
          | refl => exact ⟨0, t, 0, _, .refl t, hm, .refl _⟩
          | step first _ => exact absurd aborts first.not_aborts
        | left _ excused => exact absurd excused (hleft _)
        | right _ excused => exact absurd excused (hright _)

/-- An abort ends a run, unless its limit does so before. -/
theorem Aborts.resume {config : RunConfig} {e : RunError} {m : σ} (h : f.Aborts io t e m)
    (n : Nat) : f.resume config io n t = .error e m ∨
      ∃ m₁, f.resume config io n t = .error (.stepLimit config.maxSteps) m₁ := by
  cases n with
  | succ n => exact .inl (resume_aborts h)
  | zero =>
    obtain ⟨hrun, ⟨hfetch, rfl, rfl⟩ | ⟨code, frame, hfetch, -, -⟩⟩ := h
    · refine .inl ?_
      rw [Routine.resume]
      simp [hrun, hfetch]
    · refine .inr ⟨t.frame.memory, ?_⟩
      rw [Routine.resume]
      simp [hrun, hfetch]

section Limits

variable {config : RunConfig} (hleft : faults.left (.stepLimit config.maxSteps))
  (hright : faults.right (.stepLimit config.maxSteps))
include hleft hright

/-- A thread is over, goes on and is followed, or ends with an error that is accounted for. -/
theorem Mirrors.resume_cases (hm : f.Mirrors split config.trace R t t') (hf : f.WellFormed field)
    (hsplit : split.Of f) (haddr : ∀ i ∈ split.routine.code, i.length < Word.modulus)
    (hio : io.Splits io' f split.pool.width R faults) :
    t.frame.state.isTerminated = true ∨
    (∃ t₁ k t₁', f.Advances config.trace io t t₁ ∧
      split.routine.Reaches config.trace io' k t' t₁' ∧
        f.Mirrors split config.trace R t₁ t₁') ∨
    ∀ (P : Thread σ → σ → Thread σ' → σ' → Prop) n n',
      faults.Relates P (f.resume config io n t) (split.routine.resume config io' n' t') := by
  cases hrun : t.frame.state.isTerminated with
  | true => exact .inl rfl
  | false =>
    refine .inr ?_
    cases hm.follows hf hsplit haddr hio hrun with
    | stay advances passes mirrors _ _ =>
      exact .inl ⟨_, _, _, advances, passes.reaches, mirrors⟩
    | leave advances passes last mirrors =>
      exact .inl ⟨_, _, _, advances, passes.reaches.trans (.single last), mirrors⟩
    | both aborts aborts' together =>
      refine .inr fun P n n' => ?_
      rcases aborts.resume n with heq | ⟨m₁, heq⟩
      · rcases aborts'.resume n' with heq' | ⟨m₁', heq'⟩
        · rw [heq, heq']
          exact .both together trivial
        · rw [heq']
          exact .right hright
      · rw [heq]
        exact .left hleft
    | left aborts excused =>
      refine .inr fun P n n' => ?_
      rcases aborts.resume n with heq | ⟨m₁, heq⟩
      · rw [heq]
        exact .left excused
      · rw [heq]
        exact .left hleft
    | right aborts' excused =>
      refine .inr fun P n n' => ?_
      rcases aborts'.resume n' with heq | ⟨m₁', heq⟩
      · rw [heq]
        exact .right excused
      · rw [heq]
        exact .right hright

/-- Runs with limits give mirroring threads, or errors that are accounted for. -/
theorem Mirrors.resume (hm : f.Mirrors split config.trace R t t') (hf : f.WellFormed field)
    (hsplit : split.Of f) (haddr : ∀ i ∈ split.routine.code, i.length < Word.modulus)
    (hio : io.Splits io' f split.pool.width R faults) (n n' : Nat) :
    faults.Relates (fun t₁ m t₁' m' => f.Mirrors split config.trace R t₁ t₁' ∧
        m = t₁.frame.memory ∧ m' = t₁'.frame.memory ∧ t₁.frame.state.isTerminated = true)
      (f.resume config io n t) (split.routine.resume config io' n' t') := by
  induction n generalizing t t' n' with
  | zero =>
    rcases hm.resume_cases hleft hright hf hsplit haddr hio with
      hterm | ⟨t₁, k, t₁', hadv, -, -⟩ | habort
    · rw [resume_terminated hterm, resume_terminated (hm.isTerminated_eq.trans hterm)]
      exact .ok ⟨hm, rfl, rfl, hterm⟩
    · rw [resume_advances_zero hadv]
      exact .left hleft
    · exact habort _ 0 n'
  | succ n ih =>
    rcases hm.resume_cases hleft hright hf hsplit haddr hio with
      hterm | ⟨t₁, k, t₁', hadv, hreach, hm₁⟩ | habort
    · rw [resume_terminated hterm, resume_terminated (hm.isTerminated_eq.trans hterm)]
      exact .ok ⟨hm, rfl, rfl, hterm⟩
    · by_cases hlt : n' < k
      · obtain ⟨m₁', heq⟩ := hreach.resume_lt hlt
        rw [heq]
        exact .right hright
      · obtain ⟨rest, rfl⟩ := Nat.exists_eq_add_of_le (Nat.le_of_not_lt hlt)
        rw [resume_advances hadv, hreach.resume rest]
        exact ih hm₁ rest
    · exact habort _ (n + 1) n'

end Limits

end Runs

end Routine

end LimbMachine
