import LimbMachine.Proofs.Check.Ways
import Mathlib.Data.List.Perm.Subperm

/-!
# Paths through an instruction

The microcodes of an instruction are the nodes of a graph: an edge leads from a microcode to each of
its successors within the instruction (`Instruction.Edge`). A path starts at the first microcode and
lists the offsets it passes (`Instruction.Path`). Where every offset that a microcode names is a
size, edges only lead forward, so paths are ways and what a path writes is what its microcodes
write. One pass over the microcodes therefore solves a question about all paths
(`WriteMap.get?_exact`), of which there may be exponentially many.
-/

namespace LimbMachine

namespace Instruction

/-- Every offset that a microcode names, the next one and the one it skips to, is a size. -/
def Addressed (codes : List Microcode) : Prop :=
  ∀ entry ∈ codes.zipIdx, entry.2 + 1 + entry.1.skipDistance.getD 0 < Word.modulus

instance (codes : List Microcode) : Decidable (Addressed codes) :=
  inferInstanceAs (Decidable (∀ entry ∈ codes.zipIdx,
    entry.2 + 1 + entry.1.skipDistance.getD 0 < Word.modulus))

/-- Control may go from one microcode to another one of the same instruction. -/
def Edge (codes : List Microcode) (offset next : Nat) : Prop :=
  ∃ code, codes[offset]? = some code ∧ next ∈ code.successors offset ∧ next < codes.length

/-- A path from the first microcode to an offset, with the offsets that it passes before. -/
inductive Path (codes : List Microcode) : List Nat → Nat → Prop
  | start (nonempty : codes ≠ []) : Path codes [] 0
  | step {path : List Nat} {offset next : Nat} (before : Path codes path offset)
    (edge : Edge codes offset next) : Path codes (path ++ [offset]) next

/-- The microcode at an offset writes a register. -/
def WritesAt (codes : List Microcode) (offset : Nat) (id : RegId) : Prop :=
  ∃ code, codes[offset]? = some code ∧ id ∈ code.writes

/-- A microcode that is passed writes a register. -/
def WritesAlong (codes : List Microcode) (path : List Nat) (id : RegId) : Prop :=
  ∃ o ∈ path, WritesAt codes o id

variable {codes : List Microcode} {path : List Nat} {offset next : Nat} {written : List RegId}
  {code : Microcode} {id : RegId}

theorem Addressed.landing_lt (h : Addressed codes) (hcode : codes[offset]? = some code) :
    offset + 1 + code.skipDistance.getD 0 < Word.modulus :=
  h (code, offset) (List.mem_zipIdx_iff_getElem?.2 hcode)

theorem writesAt_iff (hcode : codes[offset]? = some code) :
    WritesAt codes offset id ↔ id ∈ code.writes := by
  simp [WritesAt, hcode]

theorem writesAlong_snoc (hcode : codes[offset]? = some code) :
    WritesAlong codes (path ++ [offset]) id ↔ WritesAlong codes path id ∨
      id ∈ code.writes := by
  rw [← writesAt_iff hcode]
  simp only [WritesAlong, List.mem_append, List.mem_singleton, or_and_right, exists_or,
    exists_eq_left]

theorem Edge.lt (h : Addressed codes) (hedge : Edge codes offset next) : offset < next := by
  obtain ⟨code, hcode, hnext, -⟩ := hedge
  exact Microcode.lt_of_mem_successors (h.landing_lt hcode) hnext

namespace Path

theorem offset_lt (h : Path codes path offset) : offset < codes.length := by
  cases h with
  | start hne => exact List.length_pos_of_ne_nil hne
  | step _ edge =>
    obtain ⟨-, -, -, hlt⟩ := edge
    exact hlt

/-- A path passes growing offsets. -/
theorem increasing (h : Path codes path offset) (haddressed : Addressed codes) :
    (path ++ [offset]).Pairwise (· < ·) := by
  induction h with
  | start _ => exact List.pairwise_singleton _ _
  | @step path offset next _ edge ih =>
    refine List.pairwise_append.2 ⟨ih, List.pairwise_singleton _ _, fun o ho o' ho' => ?_⟩
    have hnext : offset < next := edge.lt haddressed
    rw [List.mem_singleton] at ho'
    rcases List.mem_append.1 ho with ho | ho
    · have : o < offset := (List.pairwise_append.1 ih).2.2 o ho offset (List.mem_singleton_self _)
      omega
    · rw [List.mem_singleton] at ho
      omega

theorem inside (h : Path codes path offset) : ∀ o ∈ path ++ [offset], o < codes.length := by
  induction h with
  | start hne =>
    intro o ho
    rw [List.mem_singleton.1 ho]
    exact List.length_pos_of_ne_nil hne
  | step before edge ih =>
    intro o ho
    rcases List.mem_append.1 ho with ho | ho
    · exact ih o ho
    · rw [List.mem_singleton.1 ho]
      exact (before.step edge).offset_lt

/-- A path passes each microcode at most once. -/
theorem length_lt (h : Path codes path offset) (haddressed : Addressed codes) :
    path.length < codes.length := by
  have hnodup : (path ++ [offset]).Nodup := (h.increasing haddressed).imp Nat.ne_of_lt
  have hsubset : path ++ [offset] ⊆ List.range codes.length :=
    fun o ho => List.mem_range.2 (h.inside o ho)
  have hle := (List.subperm_of_subset hnodup hsubset).length_le
  rwa [List.length_append, List.length_range] at hle

/-- A path is a way. -/
theorem way (h : Path codes path offset) (haddressed : Addressed codes) :
    ∃ written, Way codes offset written ∧ ∀ id, id ∈ written ↔
      WritesAlong codes path id := by
  induction h with
  | start _ => exact ⟨[], .start, by simp [WritesAlong]⟩
  | step _ edge ih =>
    obtain ⟨written, hway, hwritten⟩ := ih
    have hahead := edge.lt haddressed
    obtain ⟨code, hcode, hnext, -⟩ := edge
    refine ⟨written ++ code.writes, hway.step hcode hnext hahead, fun id => ?_⟩
    rw [List.mem_append, hwritten, writesAlong_snoc hcode]

end Path

/-- A way within the instruction is a path. -/
theorem Way.exists_path (h : Way codes offset written) (hlt : offset < codes.length) :
    ∃ path, Path codes path offset ∧ ∀ id, id ∈ written ↔ WritesAlong codes path id := by
  induction h with
  | start => exact ⟨[], .start (List.ne_nil_of_length_pos hlt), by simp [WritesAlong]⟩
  | @step offset next written code _ hcode hnext _ ih =>
    obtain ⟨path, hpath, hwritten⟩ := ih (List.getElem?_eq_some_iff.1 hcode).1
    refine ⟨path ++ [offset], hpath.step ⟨code, hcode, hnext, hlt⟩, fun id => ?_⟩
    rw [List.mem_append, hwritten, writesAlong_snoc hcode]

end Instruction

namespace WriteMap

open Instruction (Addressed Path WritesAlong Way)

variable {codes : List Microcode} {offset : Nat}

/-- The state at an offset of the instruction describes the ways there. -/
theorem describes_get? (hlt : offset < codes.length) :
    Describes (Way codes offset) ((ofCodes codes).get? offset) := by
  have hlength : offset < (ofCodes codes).length := by rwa [(settled_ofCodes codes).2]
  have hentry := List.getElem?_eq_getElem hlength
  rw [get?, hentry]
  exact ofCodes_describes hentry

/-- There is no state behind the end of the instruction. -/
theorem get?_eq_none_of_le (hle : codes.length ≤ offset) :
    (ofCodes codes).get? offset = none := by
  have hlength : (ofCodes codes).length ≤ offset := by rwa [(settled_ofCodes codes).2]
  rw [get?, List.getElem?_eq_none hlength]
  rfl

/-- A state that describes the ways to an offset describes the paths there. -/
theorem mem_maybe_iff {s : WriteState} (hlt : offset < codes.length) (haddressed : Addressed codes)
    (h : s.Sums (Way codes offset)) (i : Nat) :
    i ∈ s.maybe ↔ ∃ path, Path codes path offset ∧ WritesAlong codes path (.reg i) := by
  rw [h.maybe]
  constructor
  · rintro ⟨written, hway, hi⟩
    obtain ⟨path, hpath, hwritten⟩ := hway.exists_path hlt
    exact ⟨path, hpath, (hwritten _).1 ((Instruction.index_mem_iff rfl hway.isUsed).1 hi)⟩
  · rintro ⟨path, hpath, hwrites⟩
    obtain ⟨written, hway, hwritten⟩ := hpath.way haddressed
    exact ⟨written, hway,
      (Instruction.index_mem_iff rfl hway.isUsed).2 ((hwritten _).2 hwrites)⟩

theorem mem_definitely_iff {s : WriteState} (hlt : offset < codes.length)
    (haddressed : Addressed codes) (h : s.Sums (Way codes offset)) (i : Nat) :
    i ∈ s.definitely ↔ ∀ path, Path codes path offset →
      WritesAlong codes path (.reg i) := by
  rw [h.definitely]
  constructor
  · intro hall path hpath
    obtain ⟨written, hway, hwritten⟩ := hpath.way haddressed
    exact (hwritten _).1 ((Instruction.index_mem_iff rfl hway.isUsed).1 (hall written hway))
  · intro hall written hway
    obtain ⟨path, hpath, hwritten⟩ := hway.exists_path hlt
    exact (Instruction.index_mem_iff rfl hway.isUsed).2 ((hwritten _).2 (hall path hpath))

/-- **The write map is the exact solution over all paths**: an offset has no state exactly if no
path leads there, and otherwise its state lists what some path there and what every path there has
written. -/
theorem get?_exact (haddressed : Addressed codes) (offset : Nat) :
    ((ofCodes codes).get? offset = none ↔ ∀ path, ¬ Path codes path offset) ∧
    ∀ s, (ofCodes codes).get? offset = some s → ∀ i,
      (i ∈ s.maybe ↔ ∃ path, Path codes path offset ∧ WritesAlong codes path (.reg i)) ∧
      (i ∈ s.definitely ↔ ∀ path, Path codes path offset →
        WritesAlong codes path (.reg i)) := by
  by_cases hlt : offset < codes.length
  · have hdescribes := describes_get? hlt
    cases hget : (ofCodes codes).get? offset with
    | none =>
      rw [hget] at hdescribes
      refine ⟨⟨fun _ path hpath => ?_, fun _ => rfl⟩, fun s hs => ?_⟩
      · obtain ⟨written, hway, -⟩ := hpath.way haddressed
        exact hdescribes written hway
      · cases hs
    | some s =>
      rw [hget] at hdescribes
      obtain ⟨⟨written, hway⟩, hsums⟩ := hdescribes
      obtain ⟨path, hpath, -⟩ := hway.exists_path hlt
      refine ⟨⟨fun hnone => ?_, fun hno => absurd hpath (hno path)⟩, fun s' hs i => ?_⟩
      · cases hnone
      · cases hs
        exact ⟨mem_maybe_iff hlt haddressed hsums i, mem_definitely_iff hlt haddressed hsums i⟩
  · rw [get?_eq_none_of_le (Nat.not_lt.1 hlt)]
    refine ⟨⟨fun _ path hpath => hlt hpath.offset_lt, fun _ => rfl⟩, fun s hs => ?_⟩
    cases hs

/-- Two skips that overlap: the paths to the return are 0 1 2 3, 0 1 2 and 0 3, and no path leads to
the microcode behind it. -/
def overlapping : List Microcode :=
  [.skip (.reg 0) .unused 0 2, .add [.reg 1] [] 1, .skip (.reg 0) .unused 1 1,
    .add [.reg 1, .reg 2] [] 2, .ret, .add [.reg 3] [] 1]

theorem get?_exact_overlapping : Addressed overlapping ∧
    (∀ path, Path overlapping path 4 → WritesAlong overlapping path (.reg 1)) ∧
    (∃ path, Path overlapping path 4 ∧ WritesAlong overlapping path (.reg 2)) ∧
    (¬ ∀ path, Path overlapping path 4 → WritesAlong overlapping path (.reg 2)) ∧
    ∀ path, ¬ Path overlapping path 5 := by
  have haddressed : Addressed overlapping := by decide
  have hreturn : (ofCodes overlapping).get? 4 = some ⟨[1, 2], [1]⟩ := by decide
  have hbehind : (ofCodes overlapping).get? 5 = none := by decide
  obtain ⟨-, hstate⟩ := get?_exact haddressed 4
  refine ⟨haddressed, ?_, ?_, ?_, (get?_exact haddressed 5).1.1 hbehind⟩
  · exact (hstate _ hreturn 1).2.1 (by decide)
  · exact (hstate _ hreturn 2).1.1 (by decide)
  · exact fun hall => absurd ((hstate _ hreturn 2).2.2 hall) (by decide)

end WriteMap

end LimbMachine
