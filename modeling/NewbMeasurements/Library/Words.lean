import Mathlib

/-!
Four-byte words in network byte order, most significant byte first.
-/

namespace NewbMeasurements.Words

abbrev Bytes := List UInt8

def encode (x : UInt32) : Bytes :=
  [(x >>> 24).toUInt8, (x >>> 16).toUInt8, (x >>> 8).toUInt8, x.toUInt8]

/-- The word in the first four bytes, or `none` where there are fewer. -/
def decode : Bytes → Option UInt32
  | a :: b :: c :: d :: _ =>
    some ((a.toUInt32 <<< 24) + (b.toUInt32 <<< 16) + (c.toUInt32 <<< 8) + d.toUInt32)
  | _ => none

@[simp] theorem length_encode (x : UInt32) : (encode x).length = 4 := rfl

/-- **Round trip.**  Bytes behind the word are ignored. -/
@[simp] theorem decode_encode_append (x : UInt32) (rest : Bytes) :
    decode (encode x ++ rest) = some x := by
  have hx : x.toNat < 2 ^ 32 := x.toNat_lt
  simp only [encode, List.cons_append, decode, Option.some.injEq]
  apply UInt32.toNat_inj.mp
  simp [Nat.shiftRight_eq_div_pow, Nat.shiftLeft_eq]
  omega

@[simp] theorem decode_encode (x : UInt32) : decode (encode x) = some x := by
  simpa using decode_encode_append x []

/-! ## Successors -/

theorem toNat_succ {x : UInt32} {n : Nat} (hx : x.toNat = n) (hn : n + 1 < 2 ^ 32) :
    (x + 1).toNat = n + 1 := by
  rw [UInt32.toNat_add, hx]
  exact Nat.mod_eq_of_lt hn

theorem toNat_succ_of_lt {x y : UInt32} (h : x < y) : (x + 1).toNat = x.toNat + 1 := by
  have hlt := UInt32.lt_iff_toNat_lt.mp h
  have hy := y.toNat_lt
  exact toNat_succ rfl (by omega)

/-- Not even the largest word is its own successor. -/
theorem succ_ne (x : UInt32) : x + 1 ≠ x := by
  intro h
  rw [UInt32.add_eq_left] at h
  exact absurd h (by decide)

/-! ## Consecutive numbers -/

/-- The words `first, first + 1, …`, `n` of them. -/
def consecutive (first n : Nat) : List UInt32 := (List.range' first n).map UInt32.ofNat

@[simp] theorem length_consecutive (first n : Nat) : (consecutive first n).length = n := by
  simp [consecutive]

theorem consecutive_succ (first n : Nat) :
    consecutive first (n + 1) = consecutive first n ++ [UInt32.ofNat (first + n)] := by
  simp [consecutive, List.range'_1_concat]

theorem consecutive_cons (first n : Nat) :
    consecutive first (n + 1) = UInt32.ofNat first :: consecutive (first + 1) n := by
  simp [consecutive, List.range'_succ]

theorem take_consecutive {first n k : Nat} (h : k ≤ n) :
    (consecutive first n).take k = consecutive first k := by
  rw [consecutive, ← List.map_take, List.take_range'_of_length_ge h, consecutive]

theorem length_flatMap_encode (xs : List UInt32) : (xs.flatMap encode).length = 4 * xs.length := by
  induction xs with
  | nil => rfl
  | cons x xs ih =>
    rw [List.flatMap_cons, List.length_append, length_encode, ih, List.length_cons]
    omega

theorem getElem?_consecutive {first n i : Nat} {x : UInt32}
    (h : (consecutive first n)[i]? = some x) : i < n ∧ x = UInt32.ofNat (first + i) := by
  have hi : i < n := by
    have := (List.getElem?_eq_some_iff.mp h).1
    rwa [length_consecutive] at this
  refine ⟨hi, ?_⟩
  rw [consecutive, List.getElem?_map, List.getElem?_range' hi] at h
  simpa using h.symm

theorem mem_consecutive {first n : Nat} {x : UInt32} (h : x ∈ consecutive first n) :
    ∃ i < n, x = UInt32.ofNat (first + i) := by
  obtain ⟨i, hi⟩ := List.mem_iff_getElem?.mp h
  exact ⟨i, getElem?_consecutive hi⟩

end NewbMeasurements.Words
