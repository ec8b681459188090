import Mathlib.Algebra.GroupWithZero.Nat
import Rendezvous.Text

/-! # The size of texts

How many bytes a text takes that is put together from numbers, padding and names, and what goes into a buffer of a
fixed size: all of it, if there is room. -/

namespace Rendezvous

namespace Text

variable {l : List Char} {n b e : Nat}

theorem size_ofList (l : List Char) : (String.ofList l).utf8ByteSize = (l.map Char.utf8Size).sum := by
  induction l with
  | nil => rfl
  | cons c l ih =>
    have hsplit : String.ofList (c :: l) = String.singleton c ++ String.ofList l := by
      rw [String.singleton_eq_ofList, ← String.ofList_append, List.singleton_append]
    rw [hsplit, String.utf8ByteSize_append, String.utf8ByteSize_singleton, ih, List.map_cons, List.sum_cons]

theorem size_replicate (n : Nat) (c : Char) : (String.ofList (List.replicate n c)).utf8ByteSize = n * c.utf8Size := by
  rw [size_ofList, List.map_replicate, List.sum_replicate_nat]

/-! ### Numbers -/

theorem size_digitChar (n : Nat) : n.digitChar.utf8Size = 1 := by
  have hdigits : ∀ n < 16, n.digitChar.utf8Size = 1 := by decide
  rcases Nat.lt_or_ge n 16 with hn | hn
  · exact hdigits n hn
  · rw [Nat.digitChar_eq_star.mpr hn]
    rfl

/-- All digits take one byte each. -/
theorem size_toDigits (hb : 1 < b) (n : Nat) :
    (String.ofList (Nat.toDigits b n)).utf8ByteSize = (Nat.toDigits b n).length := by
  induction n using Nat.strongRecOn with
  | ind n ih =>
    rw [Nat.toDigits_eq_if hb]
    split
    · rw [size_ofList, List.map_singleton, List.sum_singleton, size_digitChar, List.length_singleton]
    · rename_i hlarge
      have hless : n / b < n := Nat.div_lt_self (by omega) hb
      rw [String.ofList_append, String.utf8ByteSize_append, ih _ hless, List.length_append, size_ofList [_],
        List.map_singleton, List.sum_singleton, size_digitChar, List.length_singleton]

theorem size_toDigits_le (hb : 1 < b) (he : 0 < e) (h : n < b ^ e) :
    (String.ofList (Nat.toDigits b n)).utf8ByteSize ≤ e := by
  rw [size_toDigits hb]
  exact (Nat.length_toDigits_le_iff hb he).mpr h

theorem size_toString_le (he : 0 < e) (h : n < 10 ^ e) : (toString n).utf8ByteSize ≤ e :=
  size_toDigits_le (by decide) he h

theorem size_hex_le (he : 0 < e) (h : n < 16 ^ e) : (hex n).utf8ByteSize ≤ e :=
  size_toDigits_le (by decide) he h

/-! ### Padding -/

theorem size_padStart_le (width : Nat) (c : Char) (s : String) :
    (padStart width c s).utf8ByteSize ≤ width * c.utf8Size + s.utf8ByteSize := by
  rw [padStart, String.utf8ByteSize_append, size_replicate]
  exact Nat.add_le_add_right (Nat.mul_le_mul_right _ (Nat.sub_le ..)) _

theorem size_padEnd_le (width : Nat) (s : String) : (padEnd width s).utf8ByteSize ≤ s.utf8ByteSize + width := by
  have hblank : ' '.utf8Size = 1 := rfl
  rw [padEnd, String.utf8ByteSize_append, size_replicate, hblank, Nat.mul_one]
  exact Nat.add_le_add_left (Nat.sub_le ..) _

/-! ### Buffers -/

theorem size_join (pieces : List String) : (String.join pieces).utf8ByteSize = (pieces.map String.utf8ByteSize).sum := by
  induction pieces with
  | nil => simp
  | cons piece pieces ih => rw [String.join_cons, String.utf8ByteSize_append, ih, List.map_cons, List.sum_cons]

/-- What there is room for goes into a buffer as a whole. -/
theorem fill_of_room {capacity : Nat} {written : String} {pieces : List String}
    (h : (written ++ String.join pieces).utf8ByteSize ≤ capacity) :
    fill capacity written pieces = (written ++ String.join pieces, true) := by
  induction pieces generalizing written with
  | nil => simp [fill]
  | cons piece pieces ih =>
    rw [String.join_cons, ← String.append_assoc] at h ⊢
    have hpiece : (written ++ piece).utf8ByteSize ≤ capacity := by
      rw [String.utf8ByteSize_append] at h
      omega
    rw [fill, if_pos hpiece, ih h]

end Text

end Rendezvous
