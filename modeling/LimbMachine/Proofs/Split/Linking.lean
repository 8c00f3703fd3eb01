import LimbMachine.Proofs.Exec.Arrivals
import LimbMachine.Proofs.Exec.Counter
import LimbMachine.Proofs.Split.Fragments
import LimbMachine.Split.Expansion

/-!
# Fragments in their instruction

A split instruction is made up of the fragments of its microcodes, one expansion after the other
(`Fragment.start` says where), and a failure at the end if some guard needs one. Once the branches
are settled, a thread in a split instruction follows the fragments: it gets out of them where their
run gets out (`Fragment.Runs.exits`).
-/

namespace LimbMachine

namespace Fragment

variable {expansions : List (List Fragment)} {fragments before rest : List Fragment}
  {fragment : Fragment} {offset : Nat}

/-- Where the expansion of the microcode at `offset` starts in the split instruction. -/
def start (expansions : List (List Fragment)) (offset : Nat) : Nat :=
  (expansions.take offset).flatten.length

@[simp] theorem start_zero (expansions : List (List Fragment)) : start expansions 0 = 0 := rfl

theorem start_succ (h : expansions[offset]? = some fragments) :
    start expansions (offset + 1) = start expansions offset + fragments.length := by
  unfold start
  rw [List.take_add_one, h, List.flatten_append, List.length_append]
  simp

theorem start_mono {offset' : Nat} (h : offset ≤ offset') :
    start expansions offset ≤ start expansions offset' := by
  unfold start
  obtain ⟨k, rfl⟩ := Nat.exists_eq_add_of_le h
  rw [List.take_add, List.flatten_append, List.length_append]
  omega

theorem start_length (expansions : List (List Fragment)) :
    start expansions expansions.length = expansions.flatten.length := by
  rw [start, List.take_length]

theorem starts_getElem? (base : Nat) (h : offset ≤ expansions.length) :
    (starts base expansions)[offset]? = some (base + start expansions offset) := by
  induction expansions generalizing base offset with
  | nil =>
    obtain rfl := Nat.le_zero.1 h
    rfl
  | cons expansion rest ih =>
    cases offset with
    | zero => rfl
    | succ offset =>
      rw [starts, List.getElem?_cons_succ, ih _ (by simpa using h), start, start,
        List.take_succ_cons, List.flatten_cons, List.length_append, Nat.add_assoc]

theorem target_offset (h : offset ≤ expansions.length) :
    target expansions (.offset offset) = start expansions offset := by
  rw [target, starts_getElem? 0 h, Option.getD_some, Nat.zero_add]

theorem target_trailer (expansions : List (List Fragment)) :
    target expansions .trailer = start expansions expansions.length :=
      (start_length expansions).symm

/-- An expansion stands where it starts. -/
theorem flatten_eq_of_getElem? (h : expansions[offset]? = some fragments) :
    ∃ before rest, expansions.flatten = before ++ fragments ++ rest ∧
      before.length = start expansions offset := by
  obtain ⟨hlt, hget⟩ := List.getElem?_eq_some_iff.1 h
  refine ⟨(expansions.take offset).flatten, (expansions.drop (offset + 1)).flatten, ?_, rfl⟩
  have hsplit := List.take_append_drop offset expansions
  rw [List.drop_eq_getElem_cons hlt, hget] at hsplit
  rw [List.append_assoc, ← List.flatten_cons, ← List.flatten_append, hsplit]

theorem length_flatten_le (expansions : List (List Fragment)) :
    expansions.flatten.length ≤ (link expansions).length := by
  simp [link]

/-- The microcode of a fragment, its branch settled. -/
theorem link_getElem? (h : expansions.flatten = before ++ fragment :: rest) :
    (link expansions)[before.length]? = some (settle expansions fragment before.length) := by
  have hlt : before.length < expansions.flatten.length := by
    rw [h]
    simp
  rw [link, List.getElem?_append_left (by simpa using hlt), List.getElem?_map,
    List.getElem?_zipIdx, h]
  simp

/-- A guard has a failure to go to. -/
theorem link_trailer (hmem : fragment ∈ expansions.flatten)
    (hbranch : fragment.branch = some .trailer) :
    (link expansions)[start expansions expansions.length]? = some .fail := by
  have hany : (expansions.flatten.any fun f => f.branch = some .trailer) = true :=
    List.any_eq_true.2 ⟨fragment, hmem, by simp [hbranch]⟩
  rw [link, start_length]
  simp [hany]

theorem settle_eq_settled (expansions : List (List Fragment)) (fragment : Fragment) (here : Nat) :
    ∃ distance, settle expansions fragment here = fragment.settled distance ∧
      ∀ b, fragment.branch = some b → distance = target expansions b - (here + 1) := by
  unfold settle settled
  cases fragment.branch with
  | none => exact ⟨0, rfl, fun b hb => nomatch hb⟩
  | some b => exact ⟨_, rfl, fun b' hb' => by cases hb'; rfl⟩

/-- A branch that is taken is the branch of some fragment. -/
theorem Runs.exists_branch {s s₁ : State} {exit : Exit} {b : Branch}
    (h : Runs fragments s exit s₁) (hexit : exit = .branch b) :
    ∃ fragment ∈ fragments, fragment.branch = some b := by
  induction h with
  | nil s => cases hexit
  | next _ _ ih =>
    obtain ⟨fragment, hmem, hbranch⟩ := ih hexit
    exact ⟨fragment, List.mem_cons_of_mem _ hmem, hbranch⟩
  | branch named _ =>
    cases hexit
    exact ⟨_, List.mem_cons_self, named⟩
  | leave _ _ => cases hexit

end Fragment

/-! ## Threads in a split instruction -/

namespace Routine

variable {σ : Type} {f : Routine} {trace : Bool} {io : Boundary σ} {t t₁ : Thread σ}
  {expansions : List (List Fragment)} {finish : Nat} {s s₁ : State} {exit : Exit}

/-- A thread gets out of fragments that end before `finish`, with its registers as in `s₁`. -/
def Exits (f : Routine) (trace : Bool) (io : Boundary σ) (expansions : List (List Fragment))
    (finish : Nat) (t : Thread σ) (s₁ : State) : Exit → Prop
  | .fall => ∃ k t₁, f.Passes trace io k t t₁ ∧ t₁.frame = ⟨s₁, t.frame.memory⟩ ∧
    t₁.offset = finish
  | .branch b => ∃ k t₁, f.Passes trace io k t t₁ ∧
    t₁.frame = ⟨s₁, t.frame.memory⟩ ∧ t₁.offset = Fragment.target expansions b
  | .leave step => ∃ k u code, f.Passes trace io k t u ∧ f.fetch u.pc u.offset = some code ∧
    code.execute io u.frame = .ok step ⟨s₁, t.frame.memory⟩

theorem Exits.step (h : f.Exits trace io expansions finish t₁ s₁ exit)
    (hadv : f.Advances trace io t t₁) (hpc : t₁.pc = t.pc) (hlater : t.offset < t₁.offset)
    (hmem : t₁.frame.memory = t.frame.memory) :
    f.Exits trace io expansions finish t s₁ exit := by
  cases exit with
  | fall =>
    obtain ⟨k, t₂, hpass, hframe, hoffset⟩ := h
    exact ⟨k + 1, t₂, .step hadv hpc hlater hpass, hmem ▸ hframe, hoffset⟩
  | branch b =>
    obtain ⟨k, t₂, hpass, hframe, hoffset⟩ := h
    exact ⟨k + 1, t₂, .step hadv hpc hlater hpass, hmem ▸ hframe, hoffset⟩
  | leave step =>
    obtain ⟨k, u, code, hpass, hfetch, hexec⟩ := h
    exact ⟨k + 1, u, code, .step hadv hpc hlater hpass, hfetch, hmem ▸ hexec⟩

end Routine

theorem Microcode.does_pc {code : Microcode} {s s₁ : State} {step : Step}
    (h : code.Does s step s₁) : s₁.pc = s.pc := execute_pc (h Boundary.closed ())

theorem State.isTerminated_congr {s s₁ : State} (h : s₁.pc = s.pc) :
    s₁.isTerminated = s.isTerminated := by
  rw [isTerminated, isTerminated, h]

namespace Fragment

variable {σ : Type} {f : Routine} {trace : Bool} {io : Boundary σ} {t : Thread σ}
  {expansions : List (List Fragment)} {fragments rest : List Fragment} {s s₁ : State}
  {exit : Exit}

/-- The thread comes to a fragment, whose distance is settled. -/
theorem fetch_fragment {before : List Fragment} {fragment : Fragment}
    (hcode : f.code[t.pc]? = some (link expansions)) (hoffset : t.offset = before.length)
    (hflat : expansions.flatten = before ++ fragment :: rest) :
    ∃ distance, f.fetch t.pc t.offset = some (fragment.settled distance) ∧
      ∀ b, fragment.branch = some b → distance = target expansions b - (before.length + 1) := by
  obtain ⟨distance, hsettle, hdistance⟩ := settle_eq_settled expansions fragment before.length
  refine ⟨distance, Routine.fetch_eq_some_iff.2 ⟨_, hcode, ?_⟩, hdistance⟩
  rw [hoffset, link_getElem? hflat, hsettle]

/-- A thread in a split instruction follows the fragments. -/
theorem Runs.exits (h : Runs fragments s exit s₁) (before : List Fragment)
    (hcode : f.code[t.pc]? = some (link expansions))
    (hlen : (link expansions).length < Word.modulus)
    (hflat : expansions.flatten = before ++ (fragments ++ rest))
    (hrun : t.frame.state.isTerminated = false) (hstate : t.frame.state = s)
    (hoffset : t.offset = before.length)
    (hland : ∀ b, exit = .branch b →
      before.length + fragments.length ≤ target expansions b ∧
        target expansions b < Word.modulus) :
    f.Exits trace io expansions (before.length + fragments.length) t s₁ exit := by
  induction h generalizing before t with
  | nil s =>
    subst hstate
    exact ⟨0, t, .refl t, rfl, hoffset⟩
  | @next fragment others s s₂ s₁ exit first _ ih =>
    subst hstate
    obtain ⟨distance, hfetch, -⟩ := fetch_fragment hcode hoffset hflat
    have hadv :
        f.Advances trace io t ((t.record trace ⟨s₂, t.frame.memory⟩).move (.skip 1)) :=
      ⟨hrun, _, _, _, hfetch, first distance io t.frame.memory, rfl⟩
    have hpc : s₂.pc = t.frame.state.pc := Microcode.does_pc (first 0)
    have hnext : Word.add t.offset 1 = before.length + 1 := by
      have hle := length_flatten_le expansions
      rw [hflat] at hle
      simp only [List.length_append, List.length_cons] at hle
      rw [hoffset, Word.add_eq (by omega)]
    have hfinish : (before ++ [fragment]).length + others.length =
        before.length + (fragment :: others).length := by
      simp only [List.length_append, List.length_cons, List.length_nil]
      omega
    -- go on behind the fragment
    have hexits := ih (before ++ [fragment])
      (t := (t.record trace ⟨s₂, t.frame.memory⟩).move (.skip 1))
      ((congrArg (f.code[·]?) hpc).trans hcode) (by rw [hflat]; simp)
      ((State.isTerminated_congr hpc).trans hrun) rfl
      (by rw [List.length_append]; exact hnext)
      (fun b hb => by rw [hfinish]; exact hland b hb)
    rw [hfinish] at hexits
    refine hexits.step hadv hpc ?_ rfl
    show t.offset < Word.add t.offset 1
    omega
  | @branch fragment others s b named first =>
    subst hstate
    obtain ⟨distance, hfetch, hdistance⟩ := fetch_fragment hcode hoffset hflat
    have hadv : f.Advances trace io t
        ((t.record trace ⟨t.frame.state, t.frame.memory⟩).move (.skip (Word.add 1 distance))) :=
      ⟨hrun, _, _, _, hfetch, first distance io t.frame.memory, rfl⟩
    obtain ⟨hle, hlt⟩ := hland b rfl
    have hreach : Word.add t.offset (Word.add 1 distance) = target expansions b := by
      have hdist := hdistance b named
      rw [List.length_cons] at hle
      rw [Word.add_eq (show 1 + distance < Word.modulus by omega), Word.add_eq (by omega)]
      omega
    refine ⟨1, _, .step hadv rfl ?_ (.refl _), rfl, hreach⟩
    show t.offset < Word.add t.offset (Word.add 1 distance)
    rw [hreach, hoffset]
    rw [List.length_cons] at hle
    omega
  | @leave fragment others s s₁ step leaves first =>
    subst hstate
    obtain ⟨distance, hfetch, -⟩ := fetch_fragment hcode hoffset hflat
    exact ⟨0, t, _, .refl t, hfetch, first distance io t.frame.memory⟩

end Fragment

end LimbMachine
