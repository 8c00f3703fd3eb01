import LimbMachine.Proofs.Split.Represents
import LimbMachine.Proofs.Split.Terms

/-!
# Chains of limb equations

A chain of equations runs one after the other and still stores the sum they stand for
(`LimbEquation.chain_runs`): limb and carry of an equation hold its right-hand side exactly, so the
carries cancel, and no equation reads what an earlier one wrote. `distribute` meets the second
condition by copying (`distribute_runs`).
-/

namespace LimbMachine

namespace LimbEquation

variable {site : Site} {pool later : Pool} {carry : RegId} {eqs : List LimbEquation}
  {codes : List Microcode} {s : State}

/-- The ids that a chain of equations writes. -/
abbrev written (eqs : List LimbEquation) : List RegId := eqs.map fun eq => eq.limb.id

theorem written_cons (eq : LimbEquation) (rest : List LimbEquation) :
    written (eq :: rest) = eq.limb.id :: written rest := rfl

/-- A chain that can be run in order: distinct limbs of known widths, known variables, and no
variable that an earlier equation writes. -/
structure Ready (rs : RegisterFile) (eqs : List LimbEquation) : Prop where
  nodup : (written eqs).Nodup
  declared : ∀ eq ∈ eqs, rs.declares eq.limb.id = true
  width_eq : ∀ eq ∈ eqs, eq.limb.width = rs.widthOf eq.limb.id
  size : (eqs.map fun eq => eq.limb.width).sum < Word.modulus
  known : ∀ eq ∈ eqs, ∀ m ∈ eq.terms, ∀ id ∈ m.vars, rs.Knows id
  ordered : eqs.Pairwise fun eq later => ∀ m ∈ later.terms, eq.limb.id ∉ m.vars

theorem Ready.tail {rs : RegisterFile} {eq : LimbEquation} (h : Ready rs (eq :: eqs)) :
    Ready rs eqs where
  nodup := (List.nodup_cons.1 h.nodup).2
  declared := fun eq heq => h.declared eq (List.mem_cons_of_mem _ heq)
  width_eq := fun eq heq => h.width_eq eq (List.mem_cons_of_mem _ heq)
  size := by
    have := h.size
    rw [List.map_cons, List.sum_cons] at this
    omega
  known := fun eq heq => h.known eq (List.mem_cons_of_mem _ heq)
  ordered := (List.pairwise_cons.1 h.ordered).2

theorem Ready.mono {rs later : RegisterFile} (h : Ready rs eqs) (hpre : rs <+: later) :
    Ready later eqs where
  nodup := h.nodup
  declared := fun eq heq => RegisterFile.declares_mono hpre (h.declared eq heq)
  width_eq := fun eq heq => by
    rw [h.width_eq eq heq, RegisterFile.widthOf_mono hpre (h.declared eq heq)]
  size := h.size
  known := fun eq heq m hm id hid => (h.known eq heq m hm id hid).mono hpre
  ordered := h.ordered

theorem eval_rhs {load : RegId → Nat} (hload : load .unused = 0) (eq : LimbEquation)
    (carry : RegId) : (eq.rhs carry).eval load = sideValue load eq.terms + load carry := by
  cases carry with
  | unused => simp [rhs, RegId.isUsed, sideValue, hload]
  | reg i => simp [rhs, RegId.isUsed, sideValue, Polynomial.eval, Monomial.eval]

/-- The width of a right-hand side does not change while the pool grows. -/
theorem width_rhs {rs later : RegisterFile} (hpre : rs <+: later) {eq : LimbEquation}
    (hknown : ∀ m ∈ eq.terms, ∀ id ∈ m.vars, rs.Knows id) (hcarry : rs.Knows carry) :
    (eq.rhs carry).width later = (eq.rhs carry).width rs := by
  unfold Polynomial.width
  congr 1
  refine sideValue_congr fun m hm id hid => ?_
  rcases List.mem_append.1 hm with hm | hm
  · exact (hknown m hm id hid).maxOf_eq hpre
  · split at hm
    · rw [List.mem_singleton.1 hm, List.mem_singleton] at hid
      rw [hid]
      exact hcarry.maxOf_eq hpre
    · cases hm

theorem assign_runs {targets : List RegId} {rhs : Polynomial} (hs : s.Fits)
    (ht : s.registers.Storable targets)
    (hfit : rhs.width s.registers ≤ (s.registers.widths targets).sum) :
    ∃ s₁, (Microcode.assign targets rhs).Does s (.skip 1) s₁ ∧
      s₁.packed targets = rhs.eval s.load ∧ ∀ known, s.Touches known targets s₁ := by
  have hmax : rhs.maxValue s.registers < 2 ^ (s.registers.widths targets).sum :=
    bitLength_le_iff.1 hfit
  have hrun : (Microcode.assign targets rhs).Runnable s.registers := ⟨ht, hmax⟩
  obtain ⟨s₁, hdoes, hassigned, htakes⟩ := Microcode.does_effect rfl hrun hs
  refine ⟨s₁, hdoes, ?_, fun known => hassigned.touches hs htakes⟩
  exact hassigned.packed_eq (Nat.lt_of_le_of_lt (rhs.eval_le_maxValue hs.load_le_maxOf) hmax)

theorem Ready.widths_written {rs : RegisterFile} (h : Ready rs eqs) :
    rs.widths (written eqs) = eqs.map fun eq => eq.limb.width := by
  rw [RegisterFile.widths, List.map_map]
  exact List.map_congr_left fun eq heq => (h.width_eq eq heq).symm

/-- The last equation with terms writes all limbs from its own on. -/
theorem last_runs {eq : LimbEquation} {rest : List LimbEquation}
    (hready : Ready s.registers (eq :: rest)) (hs : s.Fits)
    (hempty : ∀ eq ∈ rest, eq.terms = [])
    (hfit : (eq.rhs carry).width s.registers ≤
      Limb.total (eq.limb :: rest.map LimbEquation.limb)) :
    ∃ s₁,
      Microcode.Runs [.assign (Limb.ids (eq.limb :: rest.map limb)) (eq.rhs carry)] s s₁ ∧
      (∀ known, s.Touches known (written (eq :: rest)) s₁) ∧
      s₁.packed (written (eq :: rest)) = total s.load (eq :: rest) + s.load carry := by
  have hids : Limb.ids (eq.limb :: rest.map limb) = written (eq :: rest) := by
    simp [Limb.ids, written]
  have hwidths := hready.widths_written
  have htotal : Limb.total (eq.limb :: rest.map limb) =
      (s.registers.widths (written (eq :: rest))).sum := by
    have hsize := hready.size
    rw [hwidths, Limb.total, ← List.map_cons, List.map_map]
    exact Word.sum_eq hsize
  have hstore : s.registers.Storable (written (eq :: rest)) := by
    refine ⟨hready.nodup, fun id hid _ => ?_, by rw [hwidths]; exact hready.size⟩
    obtain ⟨eq', heq', rfl⟩ := List.mem_map.1 hid
    exact hready.declared eq' heq'
  rw [htotal] at hfit
  obtain ⟨s₁, hdoes, hpacked, htouch⟩ := assign_runs hs hstore hfit
  rw [hids]
  refine ⟨s₁, .cons hdoes (.nil s₁), htouch, ?_⟩
  rw [hpacked, eval_rhs (State.load_unused s), total_cons, total_eq_zero hempty, Nat.mul_zero,
    Nat.add_zero]

/-- An equation before the last leaves its limb and its carry, which together hold its right-hand
side. -/
theorem first_runs {eq : LimbEquation} {rest : List LimbEquation} {next : RegId}
    (hready : Ready pool.registers (eq :: rest)) (hcarry : pool.registers.Knows carry)
    (halloc : pool.Allocated ((eq.rhs carry).width pool.registers - eq.limb.width) next later)
    (hpre : later.registers <+: s.registers) (hs : s.Fits)
    (hnarrow : (eq.rhs carry).width s.registers < Word.modulus) :
    ∃ s₁,
      (Microcode.assign (eq.limb.id :: next.listed) (eq.rhs carry)).Does s (.skip 1) s₁ ∧
      s.Touches pool.registers [eq.limb.id] s₁ ∧
      s₁.load eq.limb.id + 2 ^ eq.limb.width * s₁.load next =
        sideValue s.load eq.terms + s.load carry := by
  have hpre₀ : pool.registers <+: s.registers := halloc.grows.registers.trans hpre
  have hmem : eq ∈ eq :: rest := List.mem_cons_self
  have hwidth : s.registers.widthOf eq.limb.id = eq.limb.width := by
    rw [RegisterFile.widthOf_mono hpre₀ (hready.declared eq hmem), hready.width_eq eq hmem]
  have hbits := width_rhs hpre₀ (hready.known eq hmem) hcarry
  have hnext : s.registers.widthOf next = (eq.rhs carry).width s.registers - eq.limb.width := by
    rw [halloc.known.widthOf_eq hpre, halloc.widthOf_eq, hbits]
  have hsize : eq.limb.width < Word.modulus := by
    have := hready.size
    rw [List.map_cons, List.sum_cons] at this
    omega
  have hne : eq.limb.id ∉ next.listed := by
    intro hin
    have hdecl := hready.declared eq hmem
    rw [(RegId.mem_listed.1 hin).1, halloc.fresh] at hdecl
    cases hdecl
  -- limb and carry are together as wide as the right-hand side needs, whether or not there is a
  -- carry
  have hsum : (s.registers.widths (eq.limb.id :: next.listed)).sum =
      eq.limb.width + ((eq.rhs carry).width s.registers - eq.limb.width) := by
    rw [RegisterFile.widths_cons, List.sum_cons, RegisterFile.sum_widths_listed, hwidth, hnext]
  have hlisted := (halloc.known.mono hpre).storable (by omega)
  have hstore : s.registers.Storable (eq.limb.id :: next.listed) := by
    refine ⟨List.nodup_cons.2 ⟨hne, hlisted.nodup⟩, fun id hid hu => ?_, by omega⟩
    rcases List.mem_cons.1 hid with rfl | hid
    · exact RegisterFile.declares_mono hpre₀ (hready.declared eq hmem)
    · exact hlisted.declared id hid hu
  have hfit : (eq.rhs carry).width s.registers ≤
      (s.registers.widths (eq.limb.id :: next.listed)).sum := by omega
  obtain ⟨s₁, hdoes, hpacked, htouch⟩ := assign_runs hs hstore hfit
  refine ⟨s₁, hdoes, (htouch pool.registers).narrow fun id hid hdecl => ?_, ?_⟩
  · rcases List.mem_cons.1 hid with rfl | hid
    · exact List.mem_cons_self
    · rw [(RegId.mem_listed.1 hid).1, halloc.fresh] at hdecl
      cases hdecl
  · rw [← eval_rhs (State.load_unused s), ← hpacked, State.packed_cons, State.packed_listed,
      (htouch pool.registers).registers_eq, hwidth]

/-- A chain ends with the last equation that has terms, and goes on with a carry before it. -/
theorem chain_cons_ok {eq : LimbEquation} {rest : List LimbEquation}
    (h : chain site carry (eq :: rest) pool = .ok codes later) :
    ((∀ eq ∈ rest, eq.terms = []) ∧
      (eq.rhs carry).width pool.registers ≤ Limb.total (eq.limb :: rest.map limb) ∧
      codes = [.assign (Limb.ids (eq.limb :: rest.map limb)) (eq.rhs carry)] ∧ later = pool) ∨
    (rest ≠ [] ∧ ∃ next mid codes',
      Pool.allocate "carry" ((eq.rhs carry).width pool.registers - eq.limb.width) pool =
        .ok next mid ∧
      chain site next rest mid = .ok codes' later ∧
      codes = .assign (eq.limb.id :: next.listed) (eq.rhs carry) :: codes') := by
  unfold chain at h
  rw [estate_get_bind] at h
  split at h
  · rename_i hall
    by_cases hover : Limb.total (eq.limb :: rest.map limb) < (eq.rhs carry).width pool.registers
    · simp only [hover, if_true] at h
      cases h
    · simp only [hover, if_false] at h
      obtain ⟨rfl, rfl⟩ := estate_pure_ok.1 h
      exact .inl ⟨by simpa using hall, Nat.not_lt.1 hover, rfl, rfl⟩
  · rename_i hall
    obtain ⟨next, mid, halloc, h⟩ := estate_bind_ok.1 h
    obtain ⟨codes', later', hchain, h⟩ := estate_bind_ok.1 h
    obtain ⟨rfl, rfl⟩ := estate_pure_ok.1 h
    refine .inr ⟨?_, next, mid, codes', halloc, hchain, rfl⟩
    rintro rfl
    exact hall rfl

/-- A chain of equations stores the sum that the equations stand for. -/
theorem chain_runs (h : chain site carry eqs pool = .ok codes later)
    (hready : Ready pool.registers eqs) (hcarry : pool.registers.Knows carry)
    (hnil : eqs = [] → carry = .unused) :
    pool.Extends later ∧ ∀ {s : State}, later.registers <+: s.registers → s.Fits →
      (∀ code ∈ codes, code.Narrow s.registers) →
        ∃ s₁, Microcode.Runs codes s s₁ ∧ s.Touches pool.registers (written eqs) s₁ ∧
          s₁.packed (written eqs) = total s.load eqs + s.load carry := by
  induction eqs generalizing carry pool codes with
  | nil =>
    obtain ⟨rfl, rfl⟩ := estate_pure_ok.1 h
    refine ⟨.refl pool, fun _ hs _ => ⟨_, .nil _, .refl hs, ?_⟩⟩
    rw [hnil rfl]
    rfl
  | cons eq rest ih =>
    rcases chain_cons_ok h with ⟨hempty, hbits, rfl, rfl⟩ |
      ⟨hrest_ne, next, mid, codes', halloc, hchain, rfl⟩
    · refine ⟨.refl later, fun {s} hpre hs _ => ?_⟩
      have hfit : (eq.rhs carry).width s.registers ≤
          Limb.total (eq.limb :: rest.map LimbEquation.limb) := by
        rw [width_rhs hpre (hready.known eq List.mem_cons_self) hcarry]
        exact hbits
      obtain ⟨s₁, hrun, htouch, hpacked⟩ := last_runs (hready.mono hpre) hs hempty hfit
      exact ⟨s₁, hrun, htouch _, hpacked⟩
    · have halloc := Pool.allocate_ok halloc
      obtain ⟨hgrows, hruns⟩ := ih hchain (hready.tail.mono halloc.grows.registers) halloc.known
        fun hnil => absurd hnil hrest_ne
      refine ⟨halloc.grows.trans hgrows, fun {s} hpre hs hnarrow => ?_⟩
      have hpre' := hgrows.registers.trans hpre
      obtain ⟨s₁, hdoes, htouch, hvalue⟩ := first_runs hready hcarry halloc hpre' hs
        (hnarrow _ List.mem_cons_self)
      have hregs := htouch.registers_eq
      have hrest := fun code hc => hnarrow code (List.mem_cons_of_mem _ hc)
      obtain ⟨s₂, hrun, htouch', hpacked⟩ :=
        hruns (s := s₁) (by rwa [hregs]) htouch.fits (by rwa [hregs])
      refine ⟨s₂, .cons hdoes hrun, htouch.trans htouch' halloc.grows.registers, ?_⟩
      -- later equations still read the values from before the first one
      have htotal : total s₁.load rest = total s.load rest := by
        refine total_congr fun eq' heq' m hm id hid => ?_
        have hord := (List.pairwise_cons.1 hready.ordered).1 eq' heq' m hm
        have hknown := hready.known eq' (List.mem_cons_of_mem _ heq') m hm id hid
        cases id with
        | unused => rfl
        | reg i =>
          refine htouch.frame _ (hknown rfl) fun hmem => ?_
          rw [List.mem_singleton] at hmem
          exact hord (hmem ▸ hid)
      have hkept : s₂.load eq.limb.id = s₁.load eq.limb.id :=
        htouch'.frame _ (RegisterFile.declares_mono halloc.grows.registers
          (hready.declared eq List.mem_cons_self)) (List.nodup_cons.1 hready.nodup).1
      have hwidth : s.registers.widthOf eq.limb.id = eq.limb.width := by
        rw [RegisterFile.widthOf_mono (halloc.grows.registers.trans hpre')
          (hready.declared eq List.mem_cons_self), hready.width_eq eq List.mem_cons_self]
      calc s₂.packed (written (eq :: rest))
          = s₁.load eq.limb.id + 2 ^ eq.limb.width * s₂.packed (written rest) := by
            rw [written_cons, State.packed_cons, hkept, htouch'.registers_eq, htouch.registers_eq,
              hwidth]
        _ = s₁.load eq.limb.id + 2 ^ eq.limb.width * s₁.load next +
              2 ^ eq.limb.width * total s.load rest := by
            rw [hpacked, htotal]
            ring
        _ = total s.load (eq :: rest) + s.load carry := by
            rw [hvalue, total_cons]
            ring

/-! ## Copies -/

section Copies

variable {ids : List RegId} {copies : List (RegId × RegId)}

/-- The microcode that saves a limb into its copy. -/
abbrev save : RegId × RegId → Microcode := fun (id, saved) => .assign [saved] (.var id)

theorem save_runs {id saved : RegId} {width : Nat} (halloc : pool.Allocated width saved later)
    (hpre : later.registers <+: s.registers) (hs : s.Fits) (hwidth : s.registers.widthOf id = width)
    (hsize : width < Word.modulus) :
    ∃ s₁, (save (id, saved)).Does s (.skip 1) s₁ ∧ s.Touches pool.registers [] s₁ ∧
      s₁.load saved = s.load id := by
  have hsaved : s.registers.widthOf saved = width := by
    rw [halloc.known.widthOf_eq hpre, halloc.widthOf_eq]
  have hstore : s.registers.Storable [saved] := by
    refine ⟨List.nodup_singleton _, fun id' hid' => ?_, by simpa [hsaved] using hsize⟩
    rw [List.mem_singleton.1 hid']
    exact halloc.known.mono hpre
  have hfit : (Polynomial.var id).width s.registers ≤ (s.registers.widths [saved]).sum := by
    refine bitLength_le_iff.2 ?_
    simp only [Polynomial.maxValue, Polynomial.eval, Polynomial.var, Monomial.eval, List.map_cons,
      List.map_nil, List.sum_cons, List.sum_nil, List.foldl_cons, List.foldl_nil, Nat.one_mul,
      Nat.add_zero, RegisterFile.widths, hsaved, RegisterFile.maxOf_eq, hwidth]
    exact Nat.sub_lt (Nat.two_pow_pos _) Nat.one_pos
  obtain ⟨s₁, hdoes, hpacked, htouch⟩ := assign_runs hs hstore hfit
  refine ⟨s₁, hdoes, (htouch _).narrow fun id' hid' hdecl => ?_, ?_⟩
  · rw [List.mem_singleton.1 hid', halloc.fresh] at hdecl
    cases hdecl
  · rw [← State.packed_singleton, hpacked]
    simp [Polynomial.var, Polynomial.eval, Monomial.eval]

/-- Copies are taken without changing anything that was there before. -/
theorem copy_runs (h : copy ids pool = .ok copies later)
    (hids : ∀ id ∈ ids, pool.registers.declares id = true) :
    pool.Extends later ∧ copies.map Prod.fst = ids ∧
      (∀ pair ∈ copies, later.registers.Knows pair.2 ∧
        pool.registers.declares pair.2 = false) ∧
      ∀ {s : State}, later.registers <+: s.registers → s.Fits →
        (∀ id ∈ ids, pool.registers.widthOf id < Word.modulus) →
          ∃ s₁, Microcode.Runs (copies.map save) s s₁ ∧ s.Touches pool.registers [] s₁ ∧
            ∀ pair ∈ copies, s₁.load pair.2 = s.load pair.1 := by
  induction ids generalizing pool copies with
  | nil =>
    obtain ⟨rfl, rfl⟩ := estate_pure_ok.1 h
    exact ⟨.refl pool, rfl, by simp, fun _ hs _ => ⟨_, .nil _, .refl hs, by simp⟩⟩
  | cons id ids ih =>
    unfold copy at h
    rw [estate_get_bind] at h
    obtain ⟨saved, mid, halloc, h⟩ := estate_bind_ok.1 h
    obtain ⟨copies', later', hcopy, h⟩ := estate_bind_ok.1 h
    obtain ⟨rfl, rfl⟩ := estate_pure_ok.1 h
    have halloc := Pool.allocate_ok halloc
    have hdecl : ∀ id' ∈ ids, pool.registers.declares id' = true :=
      fun id' hid' => hids id' (List.mem_cons_of_mem _ hid')
    have hmid := halloc.grows.registers
    obtain ⟨hgrows, hfst, hsaved, hruns⟩ := ih hcopy fun id' hid' =>
      RegisterFile.declares_mono hmid (hdecl id' hid')
    refine ⟨halloc.grows.trans hgrows, by rw [List.map_cons, hfst], ?_,
      fun {s} hpre hs hsize => ?_⟩
    · intro pair hpair
      rcases List.mem_cons.1 hpair with rfl | hpair
      · exact ⟨halloc.known.mono hgrows.registers, halloc.fresh⟩
      · obtain ⟨hknown, hfresh⟩ := hsaved pair hpair
        exact ⟨hknown, RegisterFile.not_declares_mono hmid hfresh⟩
    · have hpre' := hgrows.registers.trans hpre
      have hwidth : s.registers.widthOf id = pool.registers.widthOf id :=
        RegisterFile.widthOf_mono (hmid.trans hpre') (hids id List.mem_cons_self)
      obtain ⟨s₁, hdoes, htouch, hload⟩ := save_runs halloc hpre' hs hwidth
        (hsize id List.mem_cons_self)
      obtain ⟨s₂, hrun, htouch', hloads⟩ :=
        hruns (s := s₁) (by rw [htouch.registers_eq]; exact hpre)
        htouch.fits fun id' hid' => by
          rw [RegisterFile.widthOf_mono hmid (hdecl id' hid')]
          exact hsize id' (List.mem_cons_of_mem _ hid')
      refine ⟨s₂, .cons hdoes hrun, htouch.trans htouch' hmid, fun pair hpair => ?_⟩
      rcases List.mem_cons.1 hpair with rfl | hpair
      · rw [← hload]
        cases saved with
        | unused => rfl
        | reg i => exact htouch'.frame _ (halloc.known rfl) (List.not_mem_nil)
      · have hin : pair.1 ∈ ids := hfst ▸ List.mem_map_of_mem hpair
        rw [hloads pair hpair, htouch.frame _ (hdecl _ hin) List.not_mem_nil]

theorem mem_of_lookup {id saved : RegId} (h : copies.lookup id = some saved) :
    (id, saved) ∈ copies := by
  induction copies with
  | nil => cases h
  | cons pair copies ih =>
    obtain ⟨key, value⟩ := pair
    rw [List.lookup_cons] at h
    split at h
    · rename_i heq
      cases h
      rw [show id = key by simpa using heq]
      exact List.mem_cons_self
    · exact List.mem_cons_of_mem _ (ih h)

theorem lookup_eq_none {id : RegId} (h : copies.lookup id = none) : id ∉ copies.map Prod.fst := by
  intro hmem
  obtain ⟨⟨key, value⟩, hpair, rfl⟩ := List.mem_map.1 hmem
  have := List.lookup_eq_none_iff.1 h _ hpair
  simp at this

/-- Reading a copied limb elsewhere gives the value it had. -/
theorem load_reading {s₁ : State} {id : RegId}
    (hcopied : ∀ pair ∈ copies, s₁.load pair.2 = s.load pair.1)
    (hkept : s₁.load id = s.load id) : s₁.load (reading copies id) = s.load id := by
  unfold reading
  cases hlookup : copies.lookup id with
  | none => exact hkept
  | some saved => exact hcopied _ (mem_of_lookup hlookup)

/-- What is read where a copied limb was read is known once the copies are. -/
theorem knows_reading {rs : RegisterFile} {id : RegId}
    (hcopied : ∀ pair ∈ copies, rs.Knows pair.2) (hid : rs.Knows id) :
    rs.Knows (reading copies id) := by
  unfold reading
  cases hlookup : copies.lookup id with
  | none => exact hid
  | some saved => exact hcopied _ (mem_of_lookup hlookup)

end Copies

/-! ## Hazards -/

theorem mem_hazards_of_written {id : RegId} {before : List RegId} {eq : LimbEquation} {m : Monomial}
    (hbefore : id ∈ before) (heq : eq ∈ eqs) (hm : m ∈ eq.terms) (hid : id ∈ m.vars) :
    id ∈ hazards before eqs := by
  induction eqs generalizing before with
  | nil => cases heq
  | cons first rest ih =>
    rw [hazards, List.mem_append]
    rcases List.mem_cons.1 heq with rfl | heq
    · refine .inl (List.mem_filter.2
        ⟨List.mem_flatMap.2 ⟨m, hm, hid⟩, by simpa using hbefore⟩)
    · exact .inr (ih (List.mem_cons_of_mem _ hbefore) heq)

/-- A limb that a later equation reads is a hazard. -/
theorem pairwise_hazards (before : List RegId) (eqs : List LimbEquation) :
    eqs.Pairwise fun eq later => ∀ m ∈ later.terms, eq.limb.id ∈ m.vars →
      eq.limb.id ∈ hazards before eqs := by
  induction eqs generalizing before with
  | nil => exact .nil
  | cons eq rest ih =>
    refine .cons (fun later hlater m hm hid => ?_) ((ih (eq.limb.id :: before)).imp ?_)
    · exact List.mem_append_right _
        (mem_hazards_of_written (List.mem_cons_self) hlater hm hid)
    · intro a b hab m hm hid
      exact List.mem_append_right _ (hab m hm hid)

theorem hazards_subset {id : RegId} {before : List RegId} (h : id ∈ hazards before eqs) :
    id ∈ before ∨ id ∈ written eqs := by
  induction eqs generalizing before with
  | nil => cases h
  | cons eq rest ih =>
    rw [hazards, List.mem_append] at h
    rcases h with h | h
    · exact .inl (by simpa using (List.mem_filter.1 h).2)
    · rcases ih h with hbefore | hrest
      · rcases List.mem_cons.1 hbefore with rfl | hbefore
        · exact .inr List.mem_cons_self
        · exact .inl hbefore
      · exact .inr (List.mem_cons_of_mem _ hrest)

/-- Equations that read copies read what is known. -/
theorem knows_moved {rs later : RegisterFile} {terms : List Term} {copies : List (RegId × RegId)}
    (layout : List Limb) (hpre : rs <+: later)
    (hknown : ∀ term ∈ terms, ∀ id ∈ term.monomial.vars, rs.Knows id)
    (hcopied : ∀ pair ∈ copies, later.Knows pair.2) :
    ∀ moved ∈ (ofTerms layout terms).map (fun eq =>
        { eq with terms := eq.terms.map (Monomial.mapVars (reading copies)) }),
      ∀ m ∈ moved.terms, ∀ id ∈ m.vars, later.Knows id := by
  intro moved hmoved m hm id hid
  obtain ⟨eq, heq, rfl⟩ := List.mem_map.1 hmoved
  obtain ⟨m₀, hm₀, rfl⟩ := List.mem_map.1 hm
  obtain ⟨id₀, hid₀, rfl⟩ := List.mem_map.1 hid
  obtain ⟨term, hterm, hvars⟩ := vars_ofTerms heq hm₀
  exact knows_reading hcopied ((hknown term hterm id₀ (hvars ▸ hid₀)).mono hpre)

/-- Equations that read copies of the hazards can be run in order. -/
theorem ready_moved {rs : RegisterFile} {terms : List Term} {layout : List Limb}
    {copies : List (RegId × RegId)} {later : RegisterFile} (hpre : rs <+: later)
    (hplaced : Limb.Placed rs layout)
    (hknown : ∀ term ∈ terms, ∀ id ∈ term.monomial.vars, rs.Knows id)
    (hfst : copies.map Prod.fst = (hazards [] (ofTerms layout terms)).eraseDups)
    (hcopied : ∀ pair ∈ copies, later.Knows pair.2 ∧ rs.declares pair.2 = false) :
    Ready later ((ofTerms layout terms).map fun eq =>
      { eq with terms := eq.terms.map (Monomial.mapVars (reading copies)) }) := by
  have hlimbs := map_limb_ofTerms layout terms
  have hmem : ∀ eq ∈ ofTerms layout terms, eq.limb ∈ layout := fun eq heq =>
    hlimbs ▸ List.mem_map_of_mem heq
  have hdecl : ∀ eq ∈ ofTerms layout terms, rs.declares eq.limb.id = true := fun eq heq =>
    hplaced.declared _ (List.mem_map_of_mem (hmem eq heq))
  refine ⟨?_, ?_, ?_, ?_, ?_, ?_⟩
  · have hnd := hplaced.nodup
    rw [← hlimbs, List.map_map] at hnd
    rw [written, List.map_map]
    exact hnd
  · intro moved hmoved
    obtain ⟨eq, heq, rfl⟩ := List.mem_map.1 hmoved
    exact RegisterFile.declares_mono hpre (hdecl eq heq)
  · intro moved hmoved
    obtain ⟨eq, heq, rfl⟩ := List.mem_map.1 hmoved
    rw [(hplaced.contiguous.bounds (hmem eq heq)).2.2,
      RegisterFile.widthOf_mono hpre (hdecl eq heq)]
  · have hsize := hplaced.size
    rw [← hlimbs, List.map_map] at hsize
    rw [List.map_map]
    exact hsize
  · exact knows_moved layout hpre hknown fun pair hpair => (hcopied pair hpair).1
  · rw [List.pairwise_map]
    refine (pairwise_hazards [] _).imp_of_mem ?_
    intro eq next heq _ hhazard m hm hid
    obtain ⟨m₀, hm₀, rfl⟩ := List.mem_map.1 hm
    obtain ⟨id₀, hid₀, hread⟩ := List.mem_map.1 hid
    unfold reading at hread
    cases hlookup : copies.lookup id₀ with
    | none =>
      rw [hlookup, Option.getD_none] at hread
      subst hread
      refine lookup_eq_none hlookup ?_
      rw [hfst, List.mem_eraseDups]
      exact hhazard m₀ hm₀ hid₀
    | some saved =>
      rw [hlookup, Option.getD_some] at hread
      have hfresh := (hcopied _ (mem_of_lookup hlookup)).2
      rw [show saved = eq.limb.id from hread, hdecl eq heq] at hfresh
      cases hfresh

/-- Reading copies of the limbs does not change what the equations stand for. -/
theorem total_moved {f g : RegId → Nat} {copies : List (RegId × RegId)}
    (hread : ∀ eq ∈ eqs, ∀ m ∈ eq.terms, ∀ id ∈ m.vars, f (reading copies id) = g id) :
    total f (eqs.map fun eq =>
      { eq with terms := eq.terms.map (Monomial.mapVars (reading copies)) }) = total g eqs := by
  unfold total
  rw [List.map_map, List.map_map]
  congr 1
  refine List.map_congr_left fun eq heq => ?_
  simp only [Function.comp_apply, sideValue, Polynomial.eval, List.map_map]
  congr 1
  refine List.map_congr_left fun m hm => ?_
  rw [Function.comp_apply, Monomial.eval_mapVars]
  exact Monomial.eval_congr (hread eq heq m hm)

theorem written_ofTerms (layout : List Limb) (terms : List Term) :
    written (ofTerms layout terms) = Limb.ids layout := by
  conv_rhs => rw [← map_limb_ofTerms layout terms, Limb.ids, List.map_map]
  rfl

theorem written_moved (layout : List Limb) (terms : List Term) (copies : List (RegId × RegId)) :
    written ((ofTerms layout terms).map fun eq =>
      { eq with terms := eq.terms.map (Monomial.mapVars (reading copies)) }) = Limb.ids layout := by
  rw [← written_ofTerms layout terms, written, List.map_map]
  rfl

/-- Only limbs that are stored into have to be copied. -/
theorem hazards_layout (layout : List Limb) (terms : List Term) :
    ∀ id ∈ (hazards [] (ofTerms layout terms)).eraseDups, id ∈ Limb.ids layout := by
  intro id hid
  rw [← written_ofTerms layout terms]
  exact (hazards_subset (List.mem_eraseDups.1 hid)).resolve_left List.not_mem_nil

end LimbEquation

section Distribute

variable {site : Site} {terms : List Term} {layout : List Limb} {pool later : Pool}
  {codes : List Microcode}

theorem distribute_ok (h : distribute site terms layout pool = .ok codes later) :
    ∃ copies mid chained,
      LimbEquation.copy
          (LimbEquation.hazards [] (LimbEquation.ofTerms layout terms)).eraseDups pool =
        .ok copies mid ∧
      LimbEquation.chain site .unused ((LimbEquation.ofTerms layout terms).map fun eq =>
          { eq with terms := eq.terms.map (Monomial.mapVars (LimbEquation.reading copies)) }) mid =
        .ok chained later ∧
      codes = copies.map LimbEquation.save ++ chained := by
  unfold distribute at h
  obtain ⟨copies, mid, hcopy, h⟩ := estate_bind_ok.1 h
  obtain ⟨chained, later', hchain, h⟩ := estate_bind_ok.1 h
  obtain ⟨rfl, rfl⟩ := estate_pure_ok.1 h
  exact ⟨copies, mid, chained, hcopy, hchain, rfl⟩

/-- Distributing a sum over limbs stores the sum, also where the limbs occur in it. -/
theorem distribute_runs (h : distribute site terms layout pool = .ok codes later)
    (hplaced : Limb.Placed pool.registers layout)
    (hknown : ∀ term ∈ terms, ∀ id ∈ term.monomial.vars, pool.registers.Knows id) :
    pool.Extends later ∧ ∀ {s : State}, later.registers <+: s.registers → s.Fits →
      (∀ code ∈ codes, code.Narrow s.registers) →
      (layout = [] → (terms.map (Term.value s.load)).sum = 0) →
        ∃ s₁, Microcode.Runs codes s s₁ ∧
          s.Touches pool.registers (Limb.ids layout) s₁ ∧
            s₁.packed (Limb.ids layout) = (terms.map (Term.value s.load)).sum := by
  obtain ⟨copies, mid, chained, hcopy, hchain, rfl⟩ := distribute_ok h
  have hhazards := LimbEquation.hazards_layout layout terms
  obtain ⟨hgrows, hfst, hcopied, hsaves⟩ := LimbEquation.copy_runs hcopy fun id hid =>
    hplaced.declared id (hhazards id hid)
  have hready := LimbEquation.ready_moved hgrows.registers hplaced hknown hfst hcopied
  obtain ⟨hgrows', hruns⟩ :=
    LimbEquation.chain_runs hchain hready (fun hu => (nomatch hu)) fun _ => rfl
  refine ⟨hgrows.trans hgrows', fun {s} hpre hs hnarrow hnil => ?_⟩
  have hpre' := hgrows'.registers.trans hpre
  obtain ⟨s₁, hrun, htouch, hload⟩ := hsaves hpre' hs fun id hid =>
    hplaced.width_lt id (hhazards id hid)
  have hregs := htouch.registers_eq
  obtain ⟨s₂, hrun', htouch', hpacked⟩ :=
    hruns (s := s₁) (by rw [hregs]; exact hpre) htouch.fits
    (by rw [hregs]; exact fun code hc => hnarrow code (List.mem_append_right _ hc))
  rw [LimbEquation.written_moved] at htouch' hpacked
  refine ⟨s₂, hrun.append hrun', htouch.trans htouch' hgrows.registers, ?_⟩
  rw [hpacked, LimbEquation.total_moved (g := s.load), State.load_unused, Nat.add_zero]
  · by_cases hempty : layout = []
    · rw [hnil hempty, hempty]
      rfl
    · exact LimbEquation.total_ofTerms s.load hempty hplaced.contiguous terms
  · intro eq heq m hm id hid
    obtain ⟨term, hterm, hvars⟩ := LimbEquation.vars_ofTerms heq hm
    refine LimbEquation.load_reading hload ?_
    cases id with
    | unused => rfl
    | reg i => exact htouch.frame _ (hknown term hterm _ (hvars ▸ hid) rfl) List.not_mem_nil

end Distribute

end LimbMachine
