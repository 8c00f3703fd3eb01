import LimbMachine.Arith.Word
import LimbMachine.Artifact.Bytes
import Mathlib.Algebra.Order.BigOperators.Group.List
import Mathlib.Algebra.Order.Group.Nat

/-!
# Readers take what writers put

`Reads get bytes a` says that a reader takes exactly `bytes` from the front of whatever it is given
and makes `a` of them. A sequence of readers takes the pieces one after the other (`Reads.bind`), so
each part of a format is dealt with on its own, in any surroundings.

A list is written with its length, which has to be a size. That the whole text is no longer than the
largest size is enough for all the lists in it (`Recovers`), since no item is written as nothing.
-/

namespace LimbMachine.Artifact

variable {α β : Type}

/-- The reader takes exactly these bytes, whatever follows them. -/
def Reads (get : Reader α) (bytes : Bytes) (a : α) : Prop :=
  ∀ rest, get (bytes ++ rest) = some (a, rest)

/-- What is written of `a` is read back, provided that its length is a size. -/
def Recovers (put : α → Bytes) (get : Reader α) (a : α) : Prop :=
  (put a).length < Word.modulus → Reads get (put a) a

theorem Reads.pure (a : α) : Reads (pure a) [] a := fun _ => rfl

theorem Reads.bind {get : Reader α} {next : α → Reader β} {bytes bytes' : Bytes}
    {a : α} {b : β} (h : Reads get bytes a) (h' : Reads (next a) bytes' b) :
    Reads (get >>= next) (bytes ++ bytes') b := by
  intro rest
  have hbind : (get >>= next) (bytes ++ bytes' ++ rest) =
      (get (bytes ++ (bytes' ++ rest))).bind fun (a, rest) => next a rest := by
    rw [List.append_assoc]
    rfl
  rw [hbind, h, Option.bind_some]
  exact h' rest

/-- A sequence whose last step takes nothing. -/
theorem Reads.bind_nil {get : Reader α} {next : α → Reader β} {bytes : Bytes} {a : α} {b : β}
    (h : Reads get bytes a) (h' : Reads (next a) [] b) : Reads (get >>= next) bytes b := by
  have hboth := h.bind h'
  rwa [List.append_nil] at hboth

/-- A sequence whose last step makes something of what was read. -/
theorem Reads.bind_pure {get : Reader α} {bytes : Bytes} {a : α} (h : Reads get bytes a)
    (make : α → β) : Reads (get >>= fun a => Pure.pure (make a)) bytes (make a) :=
  h.bind_nil (Reads.pure (make a))

/-! ## Words -/

theorem reads_byte (b : UInt8) : Reads getByte [b] b := fun _ => rfl

theorem length_putWord (count n : Nat) : (putWord count n).length = count := by
  induction count generalizing n with
  | zero => rfl
  | succ count ih => rw [putWord, List.length_cons, ih]

theorem reads_word {count n : Nat} (h : n < 256 ^ count) :
    Reads (getWord count) (putWord count n) n := by
  induction count generalizing n with
  | zero =>
    obtain rfl : n = 0 := by simpa using h
    exact Reads.pure 0
  | succ count ih =>
    have hhigh : n / 256 < 256 ^ count := Nat.div_lt_of_lt_mul (Nat.pow_succ' ▸ h)
    have hlow : (UInt8.ofNat n).toNat + 256 * (n / 256) = n := by
      rw [UInt8.toNat_ofNat']
      exact Nat.mod_add_div n 256
    have hword : Reads (getWord (count + 1)) ([UInt8.ofNat n] ++ putWord count (n / 256))
        ((UInt8.ofNat n).toNat + 256 * (n / 256)) :=
      (reads_byte _).bind ((ih hhigh).bind_pure _)
    rwa [hlow] at hword

theorem reads_size {n : Nat} (h : n < Word.modulus) : Reads getSize (putSize n) n :=
  reads_word h

theorem reads_tag {n : Nat} (h : n < 2 ^ 32) : Reads getTag (putTag n) n :=
  reads_word h

/-! ## Lists, optional values, texts -/

theorem reads_items {get : Reader α} {put : α → Bytes} {items : List α}
    (h : ∀ a ∈ items, Reads get (put a) a) :
    Reads (getItems get items.length) (items.flatMap put) items := by
  induction items with
  | nil => exact Reads.pure []
  | cons a items ih =>
    have hrest := ih fun b hb => h b (List.mem_cons_of_mem _ hb)
    have hfirst := h a List.mem_cons_self
    exact hfirst.bind (hrest.bind_pure (a :: ·))

/-- A list in which no item is written as nothing is no longer than what is written of it. -/
theorem length_le_flatMap {put : α → Bytes} (hput : ∀ a, put a ≠ []) (items : List α) :
    items.length ≤ (items.flatMap put).length := by
  rw [List.length_flatMap]
  have hone : ∀ n ∈ items.map fun a => (put a).length, 1 ≤ n := by
    intro n hn
    obtain ⟨a, -, rfl⟩ := List.mem_map.1 hn
    exact List.length_pos_of_ne_nil (hput a)
  simpa using List.length_le_sum_of_one_le _ hone

theorem length_le_of_mem (put : α → Bytes) {items : List α} {a : α} (ha : a ∈ items) :
    (put a).length ≤ (items.flatMap put).length := by
  rw [List.length_flatMap]
  exact List.single_le_sum (fun _ _ => Nat.zero_le _) _ (List.mem_map.2 ⟨a, ha, rfl⟩)

theorem recovers_list {get : Reader α} {put : α → Bytes} {items : List α}
    (hput : ∀ a, put a ≠ []) (h : ∀ a ∈ items, Recovers put get a) :
    Recovers (putList put) (getList get) items := by
  intro hsize
  unfold putList at hsize ⊢
  rw [List.length_append] at hsize
  have hlength := length_le_flatMap hput items
  refine (reads_size (by omega)).bind (reads_items fun a ha => h a ha ?_)
  have hitem := length_le_of_mem put ha
  omega

theorem recovers_option {get : Reader α} {put : α → Bytes} {value : Option α}
    (h : ∀ a, value = some a → Recovers put get a) :
    Recovers (putOption put) (getOption get) value := by
  intro hsize
  cases value with
  | none => exact (reads_byte 0).bind_nil (Reads.pure none)
  | some a =>
    have hitem := h a rfl (by simp only [putOption, List.length_cons] at hsize; omega)
    exact (reads_byte 1).bind (hitem.bind_pure some)

theorem recovers_text (text : String) : Recovers putText getText text := by
  intro hsize
  have hbytes := recovers_list (fun b => List.cons_ne_nil b []) (fun b _ _ => reads_byte b) hsize
  have hvalid : String.fromUTF8? ⟨text.toByteArray.data.toList.toArray⟩ = some text := by
    rw [Array.toArray_toList]
    exact dif_pos text.isValidUTF8
  refine hbytes.bind_nil ?_
  rw [hvalid]
  exact Reads.pure text

/-! ## Numbers of any size -/

theorem digits_lt {count n d : Nat} (h : d ∈ digits count n) : d < 256 ^ 4 := by
  induction count generalizing n with
  | zero => cases h
  | succ count ih =>
    rcases List.mem_cons.1 h with rfl | h
    · exact Nat.mod_lt n (Nat.two_pow_pos 32)
    · exact ih h

theorem ofDigits_digits {count n : Nat} (h : n < 2 ^ (32 * count)) :
    ofDigits (digits count n) = n := by
  induction count generalizing n with
  | zero =>
    obtain rfl : n = 0 := by simpa using h
    rfl
  | succ count ih =>
    have hhigh : n / 2 ^ 32 < 2 ^ (32 * count) := by
      rw [Nat.mul_succ, Nat.pow_add] at h
      exact Nat.div_lt_of_lt_mul (Nat.mul_comm _ _ ▸ h)
    rw [digits, ofDigits, ih hhigh]
    exact Nat.mod_add_div n (2 ^ 32)

/-- The digits of a number are enough of them. -/
theorem ofDigits_digitCount (n : Nat) : ofDigits (digits (digitCount n) n) = n := by
  apply ofDigits_digits
  rw [← bitLength_le_iff]
  unfold digitCount
  omega

theorem recovers_nat (n : Nat) : Recovers putNat getNat n := by
  intro hsize
  have hword : ∀ d, putWord 4 d ≠ [] := fun d => List.cons_ne_nil _ _
  have hdigits := (recovers_list hword fun d hd _ => reads_word (digits_lt hd)) hsize
  have hnat := hdigits.bind_pure ofDigits
  rw [ofDigits_digitCount] at hnat
  exact hnat

end LimbMachine.Artifact
