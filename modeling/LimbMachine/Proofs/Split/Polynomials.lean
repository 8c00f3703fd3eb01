import LimbMachine.Proofs.Split.Equations
import Mathlib.Algebra.BigOperators.Ring.List

/-!
# Polynomials over limbs

A register is the sum of its limbs at their places, so a product of registers is a sum of weighted
products of limbs, and a polynomial over registers a sum of weighted terms over limbs
(`Pool.terms_value`). The weights are sums of sizes; they are exact because a polynomial that fits
its targets has no room for larger ones (`Monomial.sum_widths_lt`).
-/

namespace LimbMachine

/-! ## Questions keep their answers -/

namespace Pool

variable {pool later : Pool} {rs : RegisterFile} {ids : List RegId}

theorem place_eq {limbIds : List RegId}
    (h : ∀ id ∈ limbIds, later.registers.widthOf id = pool.registers.widthOf id)
    (offset : Nat) : later.place offset limbIds = pool.place offset limbIds := by
  induction limbIds generalizing offset with
  | nil => rfl
  | cons id rest ih =>
    rw [place, place, h id List.mem_cons_self,
      ih fun id' hid' => h id' (List.mem_cons_of_mem _ hid')]

theorem Extends.layout_eq (h : pool.Extends later) (hs : pool.Splits rs) (ids : List RegId) :
    later.layout ids = pool.layout ids := by
  unfold layout
  rw [h.flatten_eq]
  cases hflat : pool.flatten ids with
  | error e => rfl
  | ok limbIds =>
    have hwidth : ∀ id ∈ limbIds, later.registers.widthOf id = pool.registers.widthOf id :=
      fun id hid => RegisterFile.widthOf_mono h.registers (hs.declares_limbs hflat id hid)
    rw [Except.map, Except.map, place_eq hwidth]

theorem Extends.products_eq (h : pool.Extends later) (hs : pool.Splits rs) (ids : List RegId) :
    later.products ids = pool.products ids := by
  induction ids with
  | nil => rfl
  | cons id ids ih => rw [products, products, h.layout_eq hs, ih]

theorem Extends.terms_eq (h : pool.Extends later) (hs : pool.Splits rs) (p : Polynomial) :
    later.terms p = pool.terms p := by
  unfold terms
  have hfun : later.products = pool.products := funext fun ids => h.products_eq hs ids
  rw [hfun]

end Pool

/-! ## Registers as sums of limbs -/

theorem Limb.Contiguous.sum_load {s : State} {offset : Nat} {limbs : List Limb}
    (h : Limb.Contiguous s.registers offset limbs) :
    (limbs.map fun limb => 2 ^ limb.offset * s.load limb.id).sum =
      2 ^ offset * s.packed (Limb.ids limbs) := by
  rw [h.sum_digits fun limb => s.load limb.id, State.packed, h.map_width, List.map_map]
  rfl

theorem sum_map_filter {α : Type} (p : α → Bool) (f : α → Nat) (l : List α)
    (h : ∀ a ∈ l, p a = false → f a = 0) : ((l.filter p).map f).sum = (l.map f).sum := by
  induction l with
  | nil => rfl
  | cons a l ih =>
    have hrest := ih fun b hb => h b (List.mem_cons_of_mem _ hb)
    rw [List.filter_cons]
    split
    · rw [List.map_cons, List.sum_cons, hrest, List.map_cons, List.sum_cons]
    · rename_i hp
      rw [hrest, List.map_cons, List.sum_cons, h a List.mem_cons_self (by simpa using hp),
        Nat.zero_add]

/-- The limbs with bits add up to what all limbs hold. -/
theorem Limb.Contiguous.sum_load_wide {s : State} {offset : Nat} {limbs : List Limb} (hs : s.Fits)
    (h : Limb.Contiguous s.registers offset limbs) :
    ((limbs.filter fun limb => 0 < limb.width).map fun limb =>
      2 ^ limb.offset * s.load limb.id).sum = 2 ^ offset * s.packed (Limb.ids limbs) := by
  rw [← h.sum_load]
  refine sum_map_filter _ _ _ fun limb hlimb hzero => ?_
  have hwidth := (h.bounds hlimb).2.2
  have hlt := hs.load_lt limb.id
  have hzero : limb.width = 0 := by simpa using hzero
  rw [← hwidth, hzero, Nat.pow_zero] at hlt
  rw [Nat.lt_one_iff.1 hlt, Nat.mul_zero]

/-! ## Products -/

namespace Pool

variable {pool : Pool} {s s' : State} {ids : List RegId}

/-- The value of a weighted product of limbs. -/
abbrev productValue (s : State) (product : List RegId × Nat) : Nat :=
  2 ^ product.2 * (product.1.map s.load).prod

theorem sum_flatMap_products (s : State) (limbs : List Limb) (inner : List (List RegId × Nat))
    (h : ∀ limb ∈ limbs, ∀ product ∈ inner, limb.offset + product.2 < Word.modulus) :
    ((limbs.flatMap fun limb => inner.map fun (ids, shift) =>
        (limb.id :: ids, Word.add limb.offset shift)).map (productValue s)).sum =
      (limbs.map fun limb => 2 ^ limb.offset * s.load limb.id).sum *
        (inner.map (productValue s)).sum := by
  induction limbs with
  | nil => simp
  | cons limb limbs ih =>
    rw [List.flatMap_cons, List.map_append, List.sum_append,
      ih fun l hl => h l (List.mem_cons_of_mem _ hl), List.map_cons, List.sum_cons, Nat.add_mul,
      List.map_map]
    congr 1
    rw [← List.sum_map_mul_left]
    congr 1
    refine List.map_congr_left fun product hproduct => ?_
    have hsize := h limb List.mem_cons_self product hproduct
    simp only [Function.comp_apply, productValue, Word.add_eq hsize, List.map_cons, List.prod_cons,
      Nat.pow_add]
    ring

theorem products_eq_nil {found : List (List RegId × Nat)} (hs : pool.Splits s.registers)
    (h : pool.products ids = .ok found)
    (hsize : ∀ id ∈ ids, s.registers.widthOf id < Word.modulus)
    (hzero : ∃ id ∈ ids, s.registers.widthOf id = 0) : found = [] := by
  induction ids generalizing found with
  | nil => simp at hzero
  | cons id ids ih =>
    unfold products at h
    obtain ⟨limbs, hlayout, h⟩ := except_bind_ok.1 h
    obtain ⟨inner, hinner, h⟩ := except_bind_ok.1 h
    cases h
    by_cases hid : s.registers.widthOf id = 0
    · have hlaid := hs.laidOut (by simp [hid, Word.modulus_pos]) hlayout
      have hempty : (limbs.filter fun limb => 0 < limb.width) = [] := by
        refine List.filter_eq_nil_iff.2 fun limb hlimb => ?_
        have hle := (hlaid.contiguous.bounds hlimb).2.1
        rw [hlaid.sum_width hs] at hle
        simp only [RegisterFile.widths_cons, RegisterFile.widths_nil, List.sum_cons, List.sum_nil,
          hid] at hle
        simp
        omega
      rw [hempty, List.flatMap_nil]
    · obtain ⟨id', hid', hz⟩ := hzero
      rcases List.mem_cons.1 hid' with rfl | hid'
      · exact absurd hz hid
      · rw [ih hinner (fun i hi => hsize i (List.mem_cons_of_mem _ hi)) ⟨id', hid', hz⟩]
        simp

/-- A product of registers is the sum of its weighted products of limbs. -/
theorem products_value {found : List (List RegId × Nat)} (hrep : pool.Represents s s')
    (h : pool.products ids = .ok found)
    (hsize : ∀ id ∈ ids, s.registers.widthOf id < Word.modulus)
    (hpos : ∀ id ∈ ids, 0 < s.registers.widthOf id)
    (hsum : (ids.map fun id => s.registers.widthOf id - 1).sum < Word.modulus) :
    (∀ product ∈ found, product.2 ≤ (ids.map fun id => s.registers.widthOf id - 1).sum) ∧
      (found.map (productValue s')).sum = (ids.map s.load).prod := by
  induction ids generalizing found with
  | nil =>
    cases h
    simp [productValue]
  | cons id ids ih =>
    unfold products at h
    obtain ⟨limbs, hlayout, h⟩ := except_bind_ok.1 h
    obtain ⟨inner, hinner, h⟩ := except_bind_ok.1 h
    cases h
    rw [List.map_cons, List.sum_cons] at hsum
    have hidsize := hsize id List.mem_cons_self
    have hlaid : pool.LaidOut [id] limbs := hrep.splits.laidOut (by simpa using hidsize) hlayout
    obtain ⟨hbound, hvalue⟩ := ih hinner (fun i hi => hsize i (List.mem_cons_of_mem _ hi))
      (fun i hi => hpos i (List.mem_cons_of_mem _ hi)) (by omega)
    -- a limb with bits starts below the last bit of its register
    have hoffset : ∀ limb ∈ limbs.filter fun limb => 0 < limb.width,
        limb.offset ≤ s.registers.widthOf id - 1 := by
      intro limb hlimb
      obtain ⟨hmem, hwide⟩ := List.mem_filter.1 hlimb
      have hle := (hlaid.contiguous.bounds hmem).2.1
      rw [hlaid.sum_width hrep.splits] at hle
      simp only [RegisterFile.widths_cons, RegisterFile.widths_nil, List.sum_cons,
        List.sum_nil] at hle
      have hwide : 0 < limb.width := by simpa using hwide
      omega
    have hexact : ∀ limb ∈ limbs.filter (fun limb => 0 < limb.width), ∀ product ∈ inner,
        limb.offset + product.2 < Word.modulus := by
      intro limb hlimb product hproduct
      have := hoffset limb hlimb
      have := hbound product hproduct
      omega
    constructor
    · intro product hproduct
      obtain ⟨limb, hlimb, hmem⟩ := List.mem_flatMap.1 hproduct
      obtain ⟨old, hold, rfl⟩ := List.mem_map.1 hmem
      have h₁ := hoffset limb hlimb
      have h₂ := hbound old hold
      simp only [List.map_cons, List.sum_cons, Word.add_eq (hexact limb hlimb old hold)]
      omega
    · have hcont : Limb.Contiguous s'.registers 0 limbs := by
        rw [hrep.registers_eq]
        exact hlaid.contiguous
      have hreg : s'.packed (Limb.ids limbs) = s.load id := by
        rw [hrep.packed_flatten hlaid.flatten_eq, State.packed_singleton]
      rw [sum_flatMap_products s' _ _ hexact, hvalue, hcont.sum_load_wide hrep.limbs_fit, hreg,
        List.map_cons, List.prod_cons, Nat.pow_zero, Nat.one_mul]

/-- A limb of the register `id` with bits in it. -/
def HasLimb (pool : Pool) (id limbId : RegId) : Prop :=
  ∃ own, pool.layout [id] = .ok own ∧ ∃ limb ∈ own, limb.id = limbId ∧ 0 < limb.width

theorem HasLimb.declared {rs : RegisterFile} {id limbId : RegId} (h : pool.HasLimb id limbId)
    (hs : pool.Splits rs) : pool.registers.declares limbId = true := by
  obtain ⟨own, hown, limb, hlimb, rfl, -⟩ := h
  exact (hs.isLimb hown limb hlimb).declared

/-- The factors of weighted products are limbs of the registers. -/
theorem products_limbs {found : List (List RegId × Nat)} (h : pool.products ids = .ok found) :
    ∀ product ∈ found, ∀ limbId ∈ product.1, ∃ id ∈ ids, pool.HasLimb id limbId := by
  induction ids generalizing found with
  | nil =>
    cases h
    simp
  | cons id ids ih =>
    unfold products at h
    obtain ⟨limbs, hlayout, h⟩ := except_bind_ok.1 h
    obtain ⟨inner, hinner, h⟩ := except_bind_ok.1 h
    cases h
    intro product hproduct limbId hid
    obtain ⟨limb, hlimb, hmem⟩ := List.mem_flatMap.1 hproduct
    obtain ⟨old, hold, rfl⟩ := List.mem_map.1 hmem
    rcases List.mem_cons.1 hid with rfl | hid
    · obtain ⟨hlimb, hpos⟩ := List.mem_filter.1 hlimb
      exact ⟨id, List.mem_cons_self, limbs, hlayout, limb, hlimb, rfl, by simpa using hpos⟩
    · obtain ⟨id', hid', hlimb'⟩ := ih hinner old hold limbId hid
      exact ⟨id', List.mem_cons_of_mem _ hid', hlimb'⟩

end Pool

/-! ## Polynomials -/

section Room

variable {rs : RegisterFile}

theorem two_pow_sum_le (ids : List RegId) (hpos : ∀ id ∈ ids, 0 < rs.widthOf id) :
    2 ^ (ids.map fun id => rs.widthOf id - 1).sum ≤ (ids.map rs.maxOf).prod := by
  induction ids with
  | nil => simp
  | cons id ids ih =>
    have hid := hpos id List.mem_cons_self
    have hrest := ih fun id' hid' => hpos id' (List.mem_cons_of_mem _ hid')
    rw [List.map_cons, List.sum_cons, Nat.pow_add, List.map_cons, List.prod_cons]
    refine Nat.mul_le_mul ?_ hrest
    have hpow : 2 ^ rs.widthOf id = 2 * 2 ^ (rs.widthOf id - 1) := by
      rw [← Nat.pow_succ']
      congr 1
      omega
    have hone := Nat.two_pow_pos (rs.widthOf id - 1)
    rw [RegisterFile.maxOf_eq]
    omega

/-- A product of registers with bits that stays below `2 ^ k` has no room for larger weights. -/
theorem Monomial.sum_widths_lt {m : Monomial} {k : Nat} (hc : m.coefficient ≠ 0)
    (hpos : ∀ id ∈ m.vars, 0 < rs.widthOf id) (hmax : m.maxValue rs < 2 ^ k) :
    (m.vars.map fun id => rs.widthOf id - 1).sum < k := by
  rw [maxValue, eval_eq] at hmax
  have hle : 2 ^ (m.vars.map fun id => rs.widthOf id - 1).sum ≤
      m.coefficient * (m.vars.map rs.maxOf).prod :=
    (two_pow_sum_le m.vars hpos).trans (Nat.le_mul_of_pos_left _ (Nat.pos_of_ne_zero hc))
  exact (Nat.pow_lt_pow_iff_right (by decide)).1 (Nat.lt_of_le_of_lt hle hmax)

theorem Polynomial.maxValue_term_le {p : Polynomial} {m : Monomial} (hm : m ∈ p.terms) :
    m.maxValue rs ≤ p.maxValue rs :=
  List.single_le_sum (fun _ _ => Nat.zero_le _) _ (List.mem_map_of_mem hm)

/-- The weights of the products of limbs that a monomial consists of are sizes, unless it is always
zero. -/
def Monomial.Weighed (rs : RegisterFile) (m : Monomial) : Prop :=
  m.coefficient ≠ 0 → (∀ id ∈ m.vars, 0 < rs.widthOf id) →
    (m.vars.map fun id => rs.widthOf id - 1).sum < Word.modulus

instance (rs : RegisterFile) (m : Monomial) : Decidable (m.Weighed rs) :=
  inferInstanceAs (Decidable (_ → _ → _))

theorem Polynomial.weighed {p : Polynomial} {k : Nat} (hmax : p.maxValue rs < 2 ^ k)
    (hk : k < Word.modulus) : ∀ m ∈ p.terms, m.Weighed rs := by
  intro m hm hc hpos
  have hroom := m.sum_widths_lt hc hpos (Nat.lt_of_le_of_lt (maxValue_term_le hm) hmax)
  exact hroom.trans hk

end Room

namespace Pool

variable {pool : Pool} {s s' : State}

/-- The weighted terms of one monomial. -/
abbrev termsOf (m : Monomial) (found : List (List RegId × Nat)) : List Term :=
  found.map fun (ids, shift) => Term.mk ⟨m.coefficient, ids⟩ shift

theorem sum_value_termsOf (m : Monomial) (found : List (List RegId × Nat)) :
    ((termsOf m found).map (Term.value s.load)).sum =
      m.coefficient * (found.map (productValue s)).sum := by
  rw [List.map_map, ← List.sum_map_mul_left]
  congr 1
  refine List.map_congr_left fun product _ => ?_
  simp only [Function.comp_apply, Term.value, Monomial.eval_eq, productValue]
  ring

/-- The terms of a monomial add up to its value. -/
theorem termsOf_value {m : Monomial} {found : List (List RegId × Nat)}
    (hrep : pool.Represents s s') (hsize : ∀ id, s.registers.widthOf id < Word.modulus)
    (hweighed : m.Weighed s.registers) (h : pool.products m.vars = .ok found) :
    ((termsOf m found).map (Term.value s'.load)).sum = m.eval s.load := by
  rw [sum_value_termsOf, Monomial.eval_eq]
  by_cases hc : m.coefficient = 0
  · rw [hc, Nat.zero_mul, Nat.zero_mul]
  · by_cases hzero : ∃ id ∈ m.vars, s.registers.widthOf id = 0
    · -- a register without bits is zero and has no products
      obtain ⟨id, hid, hwidth⟩ := hzero
      rw [products_eq_nil hrep.splits h (fun id _ => hsize id) ⟨id, hid, hwidth⟩]
      have hload := hrep.fits.load_lt id
      rw [hwidth, Nat.pow_zero, Nat.lt_one_iff] at hload
      rw [List.prod_eq_zero (hload ▸ List.mem_map_of_mem hid)]
      rfl
    · have hpos : ∀ id ∈ m.vars, 0 < s.registers.widthOf id := fun id hid =>
        Nat.pos_of_ne_zero fun hz => hzero ⟨id, hid, hz⟩
      rw [(products_value hrep h (fun id _ => hsize id) hpos (hweighed hc hpos)).2]

theorem terms_nil {ts : List Term} : pool.terms ⟨[]⟩ = .ok ts ↔ ts = [] := by
  simp [terms, pure, Except.pure, bind, Except.bind, eq_comm]

theorem terms_cons {m : Monomial} {ms : List Monomial} {ts : List Term} :
    pool.terms ⟨m :: ms⟩ = .ok ts ↔ ∃ found rest, pool.products m.vars = .ok found ∧
      pool.terms ⟨ms⟩ = .ok rest ∧ ts = termsOf m found ++ rest := by
  unfold terms
  simp only [List.mapM_cons, except_bind_ok]
  constructor
  · rintro ⟨expanded, ⟨first, ⟨found, hfound, hfirst⟩, others, hothers, hexp⟩, hts⟩
    cases hfirst
    cases hexp
    cases hts
    exact ⟨found, others.flatten, hfound, ⟨others, hothers, rfl⟩, rfl⟩
  · rintro ⟨found, rest, hfound, ⟨others, hothers, hrest⟩, rfl⟩
    cases hrest
    exact ⟨_, ⟨_, ⟨found, hfound, rfl⟩, others, hothers, rfl⟩, rfl⟩

/-- The weighted terms of a polynomial add up to its value. -/
theorem terms_value {p : Polynomial} {ts : List Term} (hrep : pool.Represents s s')
    (hsize : ∀ id, s.registers.widthOf id < Word.modulus)
    (hweighed : ∀ m ∈ p.terms, m.Weighed s.registers) (h : pool.terms p = .ok ts) :
    (ts.map (Term.value s'.load)).sum = p.eval s.load := by
  obtain ⟨ms⟩ := p
  induction ms generalizing ts with
  | nil =>
    rw [terms_nil.1 h]
    rfl
  | cons m ms ih =>
    obtain ⟨found, rest, hfound, hrest, rfl⟩ := terms_cons.1 h
    rw [List.map_append, List.sum_append,
      termsOf_value hrep hsize (hweighed m List.mem_cons_self) hfound,
      ih (fun m' hm' => hweighed m' (List.mem_cons_of_mem _ hm')) hrest]
    exact (sideValue_cons s.load m ms).symm

/-- The terms of a polynomial read limbs of the registers that it reads. -/
theorem terms_limbs {p : Polynomial} {ts : List Term} (h : pool.terms p = .ok ts) :
    ∀ term ∈ ts, ∀ limbId ∈ term.monomial.vars,
      ∃ m ∈ p.terms, ∃ id ∈ m.vars, pool.HasLimb id limbId := by
  obtain ⟨ms⟩ := p
  induction ms generalizing ts with
  | nil =>
    rw [terms_nil.1 h]
    simp
  | cons m ms ih =>
    obtain ⟨found, rest, hfound, hrest, rfl⟩ := terms_cons.1 h
    intro term hterm limbId hid
    rcases List.mem_append.1 hterm with hterm | hterm
    · obtain ⟨product, hproduct, rfl⟩ := List.mem_map.1 hterm
      exact ⟨m, List.mem_cons_self, products_limbs hfound product hproduct limbId hid⟩
    · obtain ⟨m', hm', hlimb⟩ := ih hrest term hterm limbId hid
      exact ⟨m', List.mem_cons_of_mem _ hm', hlimb⟩

theorem terms_declared {p : Polynomial} {ts : List Term} {rs : RegisterFile} (hs : pool.Splits rs)
    (h : pool.terms p = .ok ts) :
    ∀ term ∈ ts, ∀ id ∈ term.monomial.vars, pool.registers.declares id = true := by
  intro term hterm limbId hid
  obtain ⟨m, -, id, -, hlimb⟩ := terms_limbs h term hterm limbId hid
  exact hlimb.declared hs

end Pool

theorem splitPolynomial_ok {site : Site} {targets : List RegId} {rhs : Polynomial}
    {early later : Pool} {codes : List Microcode}
    (h : splitPolynomial site targets rhs early = .ok codes later) :
    ∃ layout terms, early.layout targets = .ok layout ∧ early.terms rhs = .ok terms ∧
      distribute site terms layout early = .ok codes later := by
  unfold splitPolynomial at h
  obtain ⟨layout, mid, hask, h⟩ := estate_bind_ok.1 h
  obtain ⟨terms, mid', hask', h⟩ := estate_bind_ok.1 h
  obtain ⟨hlayout, rfl⟩ := Pool.asking_ok.1 hask
  obtain ⟨hterms, rfl⟩ := Pool.asking_ok.1 hask'
  exact ⟨layout, terms, hlayout, hterms, h⟩

/-- Splitting an assignment stores the value of the polynomial across the limbs of the targets. -/
theorem splitPolynomial_stores {site : Site} {targets : List RegId} {rhs : Polynomial}
    {early later : Pool} {codes : List Microcode} {rs : RegisterFile}
    (h : splitPolynomial site targets rhs early = .ok codes later)
    (hs : early.Splits rs) (hsize : ∀ id, rs.widthOf id < Word.modulus) (ht : rs.Storable targets)
    (hmax : rhs.maxValue rs < 2 ^ (rs.widths targets).sum) :
    Pool.Stores rs early later codes targets rhs.eval := by
  obtain ⟨layout, terms, hlayout, hterms, h⟩ := splitPolynomial_ok h
  have hlaid := hs.laidOut ht.size hlayout
  have hplaced := hlaid.placed hs ht.nodup ht.size
  obtain ⟨hgrows, hruns⟩ := distribute_runs h hplaced fun term hterm id hid =>
    .of_declares (Pool.terms_declared hs hterms term hterm id hid)
  refine ⟨hgrows, ?_⟩
  intro pool s s' hext hrep hrs hnarrow
  subst hrs
  have hgrows' := hgrows.trans hext
  have hvalue := Pool.terms_value hrep hsize (Polynomial.weighed hmax ht.size)
    ((hgrows'.terms_eq hs rhs).trans hterms)
  have hregs := hrep.registers_eq
  -- without target limbs the polynomial is zero
  have hnil : layout = [] → (terms.map (Term.value s'.load)).sum = 0 := by
    rintro rfl
    have hzero : (s.registers.widths targets).sum = 0 := by
      rw [← hlaid.sum_width hs]
      rfl
    have hle := rhs.eval_le_maxValue hrep.fits.load_le_maxOf
    rw [hzero, Nat.pow_zero] at hmax
    omega
  obtain ⟨s₁', hrun, htouch, hpacked⟩ := hruns (s := s') (by rw [hregs]; exact hext.registers)
    hrep.limbs_fit (by rw [hregs]; exact hnarrow) hnil
  exact ⟨Limb.ids layout, s₁', (hlaid.mono hs hgrows').flatten_eq, hrun, htouch,
    hpacked.trans hvalue⟩

end LimbMachine
