import LimbMachine.Proofs.Exec.Footprint
import LimbMachine.Proofs.Split.Emission
import Mathlib.Order.Bounds.Basic

/-!
# Carries are as narrow as they can be

An equation of a chain stores its right-hand side into a limb and a carry. The carry is the
narrowest register that holds what exceeds the limb for all values of the operands, and there is
none where nothing can exceed it (`LimbEquation.Carries`). Copies and carries are all that is
allocated, so a distributed sum changes its limbs and these and no other register
(`distribute_stores`).
-/

namespace LimbMachine

/-! ## What exceeds a limb -/

namespace Polynomial

/-- The widths that hold what exceeds `width` bits of a sum, whatever its registers hold. -/
def overflowWidths (rs : RegisterFile) (p : Polynomial) (width : Nat) : Set Nat :=
  {n | ∀ load : RegId → Nat, (∀ id ∈ p.registers, load id < 2 ^ rs.widthOf id) →
    p.eval load / 2 ^ width < 2 ^ n}

/-- The least such width is what the width of the sum leaves: it is reached where every register
holds its largest value. -/
theorem isLeast_overflowWidths (rs : RegisterFile) (p : Polynomial) (width : Nat) :
    IsLeast (p.overflowWidths rs width) (p.width rs - width) := by
  constructor
  · intro load hload
    have hle : p.eval load ≤ p.maxValue rs := eval_mono fun m hm id hid => by
      have hlt := hload id (mem_registers.2 ⟨m, hm, hid⟩)
      rw [RegisterFile.maxOf_eq]
      omega
    rw [Nat.div_lt_iff_lt_mul (Nat.two_pow_pos _), ← Nat.pow_add]
    calc p.eval load ≤ p.maxValue rs := hle
      _ < 2 ^ p.width rs := lt_two_pow_bitLength _
      _ ≤ 2 ^ (p.width rs - width + width) := Nat.pow_le_pow_right (by decide) (by omega)
  · intro n hn
    have hmost := hn rs.maxOf fun id _ => by
      rw [RegisterFile.maxOf_eq]
      exact Nat.sub_lt (Nat.two_pow_pos _) Nat.one_pos
    rw [Nat.div_lt_iff_lt_mul (Nat.two_pow_pos _), ← Nat.pow_add] at hmost
    have hle : p.width rs ≤ n + width := bitLength_le_iff.2 hmost
    omega

end Polynomial

/-! ## What is allocated -/

namespace Pool

variable {pool mid later : Pool} {width : Nat} {id : RegId} {label : String}

/-- The ids of the registers that were allocated between two pools. -/
def newIds (pool later : Pool) : List RegId :=
  (List.range' pool.registers.length (later.registers.length - pool.registers.length)).map .reg

theorem newIds_self (pool : Pool) : pool.newIds pool = [] := by
  simp [newIds]

theorem newIds_append (h : pool.Extends mid) (h' : mid.Extends later) :
    pool.newIds mid ++ mid.newIds later = pool.newIds later := by
  have hle := h.registers.length_le
  have hle' := h'.registers.length_le
  have hstart : mid.registers.length =
      pool.registers.length + (mid.registers.length - pool.registers.length) := by omega
  have hlength : later.registers.length - pool.registers.length =
      mid.registers.length - pool.registers.length +
        (later.registers.length - mid.registers.length) := by omega
  rw [newIds, newIds, newIds, hlength, ← List.range'_append_1, List.map_append, ← hstart]

theorem newIds_allocate (h : allocate label width pool = .ok id later) :
    pool.newIds later = id.listed := by
  unfold allocate at h
  split at h
  · cases h
    exact pool.newIds_self
  · cases h
    simp [newIds, RegId.isUsed]

end Pool

/-! ## Chains -/

namespace LimbEquation

variable {site : Site} {pool later : Pool} {carry : RegId} {eqs : List LimbEquation}
  {codes : List Microcode} {ids : List RegId} {copies : List (RegId × RegId)}

/-- Assignments to `limbs`, one after the other. Each but the last stores its sum into one limb and,
unless it always fits, into the narrowest carry for the rest; the last one stores its sum into all
limbs that remain. -/
inductive Carries (rs : RegisterFile) : List RegId → List RegId → List Microcode → Prop
  | last (limbs : List RegId) (rhs : Polynomial) : Carries rs limbs [] [.assign limbs rhs]
  | exact {limb : RegId} {limbs carries : List RegId} {rhs : Polynomial} {codes : List Microcode}
    (none : IsLeast (rhs.overflowWidths rs (rs.widthOf limb)) 0)
    (rest : Carries rs limbs carries codes) :
    Carries rs (limb :: limbs) carries (.assign [limb] rhs :: codes)
  | carry {limb carry : RegId} {limbs carries : List RegId} {rhs : Polynomial}
    {codes : List Microcode}
    (least : IsLeast (rhs.overflowWidths rs (rs.widthOf limb)) (rs.widthOf carry))
    (wide : 0 < rs.widthOf carry) (rest : Carries rs limbs carries codes) :
    Carries rs (limb :: limbs) (carry :: carries) (.assign [limb, carry] rhs :: codes)

theorem Carries.writes_subset {rs : RegisterFile} {limbs carries : List RegId}
    (h : Carries rs limbs carries codes) :
    ∀ code ∈ codes, ∀ id ∈ code.writes, id ∈ limbs ∨ id ∈ carries := by
  induction h with
  | last limbs rhs =>
    intro code hcode id hid
    rw [List.mem_singleton.1 hcode] at hid
    exact .inl (List.mem_filter.1 hid).1
  | exact none rest ih =>
    intro code hcode id hid
    rcases List.mem_cons.1 hcode with rfl | hcode
    · have htarget := (List.mem_filter.1 hid).1
      rw [List.mem_singleton.1 htarget]
      exact .inl List.mem_cons_self
    · exact (ih code hcode id hid).imp_left (List.mem_cons_of_mem _)
  | carry least wide rest ih =>
    intro code hcode id hid
    rcases List.mem_cons.1 hcode with rfl | hcode
    · have htarget := (List.mem_filter.1 hid).1
      simp only [Microcode.targets, List.mem_cons, List.not_mem_nil, or_false] at htarget
      rcases htarget with rfl | rfl
      · exact .inl List.mem_cons_self
      · exact .inr List.mem_cons_self
    · exact (ih code hcode id hid).imp (List.mem_cons_of_mem _) (List.mem_cons_of_mem _)

theorem chain_extends (h : chain site carry eqs pool = .ok codes later)
    (hready : Ready pool.registers eqs) (hcarry : pool.registers.Knows carry) (hne : eqs ≠ []) :
    pool.Extends later :=
  (chain_runs h hready hcarry fun hnil => absurd hnil hne).1

/-- A chain allocates its carries, each as narrow as it can be, and nothing else. -/
theorem chain_carries (h : chain site carry eqs pool = .ok codes later)
    (hready : Ready pool.registers eqs) (hcarry : pool.registers.Knows carry) (hne : eqs ≠ []) :
    Carries later.registers (written eqs) (pool.newIds later) codes := by
  induction eqs generalizing carry pool codes with
  | nil => exact absurd rfl hne
  | cons eq rest ih =>
    rcases chain_cons_ok h with ⟨-, -, rfl, rfl⟩ | ⟨hrest, next, mid, codes', hallocate,
      hchain, rfl⟩
    · have hids : Limb.ids (eq.limb :: rest.map limb) = written (eq :: rest) := by
        simp [Limb.ids, written]
      rw [later.newIds_self, hids]
      exact .last _ _
    · have halloc := Pool.allocate_ok hallocate
      have htail := hready.tail.mono halloc.grows.registers
      have hgrows := chain_extends hchain htail halloc.known hrest
      have hpre := (halloc.grows.trans hgrows).registers
      have hmem : eq ∈ eq :: rest := List.mem_cons_self
      have hlimb : later.registers.widthOf eq.limb.id = eq.limb.width := by
        rw [RegisterFile.widthOf_mono hpre (hready.declared eq hmem), hready.width_eq eq hmem]
      have hnext : later.registers.widthOf next =
          (eq.rhs carry).width later.registers - later.registers.widthOf eq.limb.id := by
        rw [halloc.known.widthOf_eq hgrows.registers, halloc.widthOf_eq, hlimb,
          width_rhs hpre (hready.known eq hmem) hcarry]
      have hleast := (eq.rhs carry).isLeast_overflowWidths later.registers
        (later.registers.widthOf eq.limb.id)
      rw [← hnext] at hleast
      have hcarries := ih hchain htail halloc.known hrest
      rw [← Pool.newIds_append halloc.grows hgrows, Pool.newIds_allocate hallocate, written_cons]
      cases next with
      | unused => exact .exact hleast hcarries
      | reg i =>
        refine .carry hleast ?_ hcarries
        rw [halloc.known.widthOf_eq hgrows.registers, halloc.widthOf_eq]
        exact halloc.used_iff.1 rfl

/-- No right-hand side of a chain is wider than a size. -/
theorem chain_narrow (h : chain site carry eqs pool = .ok codes later)
    (hready : Ready pool.registers eqs) (hcarry : pool.registers.Knows carry)
    {rs : RegisterFile} (hpre : later.registers <+: rs) : ∀ code ∈ codes, code.Narrow rs := by
  induction eqs generalizing carry pool codes with
  | nil =>
    obtain ⟨rfl, rfl⟩ := estate_pure_ok.1 h
    simp
  | cons eq rest ih =>
    have hgrows := chain_extends h hready hcarry (List.cons_ne_nil _ _)
    have hwidth : (eq.rhs carry).width rs < Word.modulus := by
      rw [width_rhs (hgrows.registers.trans hpre) (hready.known eq List.mem_cons_self) hcarry]
      exact Nat.lt_of_le_of_lt (width_rhs_le h hready.known) hready.size
    rcases chain_cons_ok h with ⟨-, -, rfl, rfl⟩ |
      ⟨-, next, mid, codes', halloc, hchain, rfl⟩
    · exact List.forall_mem_singleton.2 hwidth
    · have halloc := Pool.allocate_ok halloc
      exact List.forall_mem_cons.2 ⟨hwidth,
        ih hchain (hready.tail.mono halloc.grows.registers) halloc.known⟩

/-- Copies are all that copying allocates. -/
theorem copy_newIds (h : copy ids pool = .ok copies later)
    (hids : ∀ id ∈ ids, 0 < pool.registers.widthOf id) :
    pool.newIds later = copies.map Prod.snd := by
  induction ids generalizing pool copies with
  | nil =>
    obtain ⟨rfl, rfl⟩ := estate_pure_ok.1 h
    exact pool.newIds_self
  | cons id ids ih =>
    obtain ⟨saved, mid, rest, hallocate, hcopy, rfl⟩ := copy_cons_ok h
    have halloc := Pool.allocate_ok hallocate
    rw [List.forall_mem_cons] at hids
    have hpos : ∀ id ∈ ids, 0 < mid.registers.widthOf id := fun id' hid' => by
      rw [RegisterFile.widthOf_mono halloc.grows.registers
        (RegisterFile.declares_of_widthOf_pos (hids.2 id' hid'))]
      exact hids.2 id' hid'
    have hgrows := (copy_runs hcopy fun id' hid' =>
      RegisterFile.declares_of_widthOf_pos (hpos id' hid')).1
    have hlisted : saved.listed = [saved] := if_pos (halloc.used_iff.2 hids.1)
    rw [← Pool.newIds_append halloc.grows hgrows, Pool.newIds_allocate hallocate, ih hcopy hpos,
      hlisted]
    rfl

end LimbEquation

/-! ## Distributed sums -/

/-- Microcodes without branches change only what they write. -/
theorem Microcode.Runs.load_eq {codes : List Microcode} {s s₁ : State} (h : Runs codes s s₁)
    {id : RegId} (hid : ∀ code ∈ codes, id ∉ code.writes) : s₁.load id = s.load id := by
  induction h with
  | nil s => rfl
  | @cons code codes s s₁ s₂ first _ ih =>
    rw [List.forall_mem_cons] at hid
    have hleft := Microcode.execute_load hid.1 Boundary.closed ⟨s, ()⟩
    rw [first Boundary.closed ()] at hleft
    exact (ih hid.2).trans hleft

section Distribute

variable {site : Site} {terms : List Term} {layout : List Limb} {pool later : Pool}
  {codes : List Microcode}

/-- No right-hand side of a distributed sum is wider than a size. -/
theorem distribute_narrow (h : distribute site terms layout pool = .ok codes later)
    (hplaced : Limb.Placed pool.registers layout)
    (hknown : ∀ term ∈ terms, ∀ id ∈ term.monomial.vars, pool.registers.Knows id)
    {rs : RegisterFile} (hpre : later.registers <+: rs) : ∀ code ∈ codes, code.Narrow rs := by
  have hgrows := (distribute_runs h hplaced hknown).1
  obtain ⟨copies, mid, chained, hcopy, hchain, rfl⟩ := distribute_ok h
  have hhazards := LimbEquation.hazards_layout layout terms
  obtain ⟨hmid, hfst, hcopied, -⟩ := LimbEquation.copy_runs hcopy fun id hid =>
    hplaced.declared id (hhazards id hid)
  have hready := LimbEquation.ready_moved hmid.registers hplaced hknown hfst hcopied
  refine List.forall_mem_append.2 ⟨fun code hcode => ?_,
    LimbEquation.chain_narrow hchain hready (fun hu => (nomatch hu)) hpre⟩
  -- what is copied is a limb of the layout
  obtain ⟨pair, hpair, rfl⟩ := List.mem_map.1 hcode
  have hid := hhazards pair.1 (hfst ▸ List.mem_map_of_mem hpair)
  rw [Microcode.Narrow, Polynomial.width_var,
    RegisterFile.widthOf_mono (hgrows.registers.trans hpre) (hplaced.declared _ hid)]
  exact hplaced.width_lt _ hid

/-- A distributed sum is made up of copies and of a chain with carries, which are all that is
allocated for it, and no right-hand side is wider than a size. -/
theorem distribute_carries (h : distribute site terms layout pool = .ok codes later)
    (hplaced : Limb.Placed pool.registers layout) (hne : layout ≠ [])
    (hterms : ∀ id ∈ Term.reads terms, 0 < pool.registers.widthOf id) :
    (∃ (copies : List (RegId × RegId)) (carries : List RegId) (chained : List Microcode),
      codes = copies.map LimbEquation.save ++ chained ∧
      LimbEquation.Carries later.registers (Limb.ids layout) carries chained ∧
      pool.newIds later = copies.map Prod.snd ++ carries) ∧
    ∀ {rs : RegisterFile}, later.registers <+: rs → ∀ code ∈ codes, code.Narrow rs := by
  have hknown : ∀ term ∈ terms, ∀ id ∈ term.monomial.vars, pool.registers.Knows id :=
    fun term hterm id hid => .of_declares (RegisterFile.declares_of_widthOf_pos
      (hterms id (List.mem_flatMap.2 ⟨term, hterm, hid⟩)))
  obtain ⟨copies, mid, chained, hcopy, hchain, rfl⟩ := distribute_ok h
  have hhazards := LimbEquation.hazards_layout layout terms
  have hpos : ∀ id ∈ (LimbEquation.hazards [] (LimbEquation.ofTerms layout terms)).eraseDups,
      0 < pool.registers.widthOf id := fun id hid => hterms id
    (LimbEquation.vars_ofTerms_subset layout terms
      (LimbEquation.hazards_vars (List.mem_eraseDups.1 hid)))
  obtain ⟨hmid, hfst, hcopied, -⟩ := LimbEquation.copy_runs hcopy fun id hid =>
    hplaced.declared id (hhazards id hid)
  have hready := LimbEquation.ready_moved hmid.registers hplaced hknown hfst hcopied
  have hmoved := LimbEquation.written_moved layout terms copies
  have hnil : (LimbEquation.ofTerms layout terms).map (fun eq =>
      { eq with terms := eq.terms.map (Monomial.mapVars (LimbEquation.reading copies)) }) ≠
        [] := by
    intro hnil
    rw [hnil] at hmoved
    exact hne (List.map_eq_nil_iff.1 hmoved.symm)
  have hunused : mid.registers.Knows .unused := fun hu => (nomatch hu)
  have hgrows := LimbEquation.chain_extends hchain hready hunused hnil
  have hcarries := LimbEquation.chain_carries hchain hready hunused hnil
  rw [hmoved] at hcarries
  refine ⟨⟨copies, _, chained, rfl, hcarries, ?_⟩, distribute_narrow h hplaced hknown⟩
  rw [← Pool.newIds_append hmid hgrows, LimbEquation.copy_newIds hcopy hpos]

/-- **Limb equations compute the sum**: from every state in which all values fit, the microcodes run
and store the weighted sum of the values from before into the limbs, also where the limbs occur in
it, and change nothing else but registers that were allocated for it. These are copies of limbs, and
carries that are as narrow as they can be. -/
theorem distribute_stores (h : distribute site terms layout pool = .ok codes later)
    (hplaced : Limb.Placed pool.registers layout) (hne : layout ≠ [])
    (hterms : ∀ id ∈ Term.reads terms, 0 < pool.registers.widthOf id) :
    pool.Extends later ∧
    (∀ s : State, later.registers <+: s.registers → s.Fits →
      ∃ s₁, Microcode.Runs codes s s₁ ∧
        s₁.packed (Limb.ids layout) = (terms.map (Term.value s.load)).sum ∧
      ∀ id, id ∉ Limb.ids layout → id ∉ pool.newIds later → s₁.load id = s.load id) ∧
    ∃ (copies : List (RegId × RegId)) (carries : List RegId) (chained : List Microcode),
      codes = copies.map LimbEquation.save ++ chained ∧
      LimbEquation.Carries later.registers (Limb.ids layout) carries chained ∧
      pool.newIds later = copies.map Prod.snd ++ carries := by
  have hknown : ∀ term ∈ terms, ∀ id ∈ term.monomial.vars, pool.registers.Knows id :=
    fun term hterm id hid => .of_declares (RegisterFile.declares_of_widthOf_pos
      (hterms id (List.mem_flatMap.2 ⟨term, hterm, hid⟩)))
  obtain ⟨hgrows, hruns⟩ := distribute_runs h hplaced hknown
  obtain ⟨⟨copies, carries, chained, rfl, hcarries, hnew⟩, hnarrow⟩ :=
    distribute_carries h hplaced hne hterms
  refine ⟨hgrows, fun s hpre hs => ?_, copies, carries, chained, rfl, hcarries, hnew⟩
  obtain ⟨s₁, hrun, -, hpacked⟩ := hruns hpre hs (hnarrow hpre) fun hnil => absurd hnil hne
  refine ⟨s₁, hrun, hpacked, fun id hlimb hfresh => hrun.load_eq fun code hcode hwrites => ?_⟩
  rw [hnew, List.mem_append, not_or] at hfresh
  rcases List.mem_append.1 hcode with hcode | hcode
  · obtain ⟨pair, hpair, rfl⟩ := List.mem_map.1 hcode
    have htarget : id ∈ [pair.2] := (List.mem_filter.1 hwrites).1
    rw [List.mem_singleton.1 htarget] at hfresh
    exact hfresh.1 (List.mem_map_of_mem hpair)
  · exact (hcarries.writes_subset code hcode id hwrites).elim hlimb hfresh.2

/-- The limbs of a wide register, and one bit above it. -/
def raised : List Limb := [⟨.reg 0, 0, 8⟩, ⟨.reg 1, 8, 8⟩, ⟨.reg 3, 16, 1⟩]

/-- A register of two limbs, one of a single limb and one of a single bit. -/
def raisedPool : Pool :=
  .ofRegisters [⟨.temp, "x", 16, 0⟩, ⟨.temp, "y", 8, 0⟩, ⟨.temp, "z", 1, 0⟩] 8

/-- The low limb is read by both equations, so it is copied before the first one writes it; the
carry has one bit. -/
theorem distribute_stores_raised : ∃ codes later s₁,
    distribute ⟨.ret, []⟩ [.ofLimb (.reg 2) 0, .ofLimb (.reg 0) 0, .ofLimb (.reg 0) 8] raised
      raisedPool = .ok codes later ∧ raisedPool.newIds later = [.reg 4, .reg 5] ∧
    Microcode.Runs codes ⟨later.registers, [200, 0, 100, 0, 0, 0], 0⟩ s₁ ∧
    s₁.packed (Limb.ids raised) = 100 + 200 + 2 ^ 8 * 200 ∧ s₁.load (.reg 2) = 100 := by
  obtain ⟨codes, later, hdistribute, hnew, hfits⟩ : ∃ codes later,
      distribute ⟨.ret, []⟩ [.ofLimb (.reg 2) 0, .ofLimb (.reg 0) 0, .ofLimb (.reg 0) 8] raised
        raisedPool = .ok codes later ∧ raisedPool.newIds later = [.reg 4, .reg 5] ∧
      later.registers.length = 6 ∧ ∀ pair ∈ List.zip [200, 0, 100, 0, 0, 0] later.registers,
        pair.1 < 2 ^ pair.2.width := ⟨_, _, rfl, rfl, rfl, by decide⟩
  have hplaced : Limb.Placed raisedPool.registers raised :=
    ⟨by decide, by decide, ⟨rfl, rfl, rfl, rfl, rfl, rfl, trivial⟩, by decide⟩
  obtain ⟨-, hruns, -⟩ := distribute_stores hdistribute hplaced (by decide) (by decide)
  obtain ⟨s₁, hrun, hpacked, hframe⟩ := hruns ⟨later.registers, [200, 0, 100, 0, 0, 0], 0⟩
    (List.prefix_refl _) (.of_values hfits.1.symm fun i v r hv hr =>
      hfits.2 (v, r) (List.mem_of_getElem? (List.getElem?_zip_eq_some.2 ⟨hv, hr⟩)))
  refine ⟨codes, later, s₁, hdistribute, hnew, hrun, hpacked.trans ?_, ?_⟩
  · simp [Term.value, Term.ofLimb, Monomial.eval, State.load]
  · exact hframe (.reg 2) (by decide) (by rw [hnew]; decide)

end Distribute

end LimbMachine
