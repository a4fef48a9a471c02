import Mathlib.Data.Nat.Bitwise
import Mathlib.Data.UInt

namespace Apus.Lib

/-!
# Fields of a word

A number is read as a word of bits, and a field is some consecutive bits of it (`Field`).

* `Field.Written f n v n'` — `n'` is `n` with `v` in the field, and no other bit is changed;
* `Field.Written.toNat` — such a write as arithmetic, `Field.written_low`, `Field.written_high`,
  `Field.written_set`, `Field.written_unset` — the writes that programs make with masks and shifts;
* `intOperand` — an `int` in an operation on 64-bit words.
-/

/-- `width` bits, from the bit `lo` on. -/
structure Field where
  lo : Nat
  width : Nat

namespace Field

variable {f g : Field} {n n' v k w i : Nat}

/-- The bit is one of the field. -/
def Covers (f : Field) (i : Nat) : Prop := f.lo ≤ i ∧ i < f.lo + f.width

/-- The value of the field. -/
def read (f : Field) (n : Nat) : Nat := n / 2 ^ f.lo % 2 ^ f.width

/-- `n'` is `n` with `v` in the field: no other bit is changed. -/
structure Written (f : Field) (n v n' : Nat) : Prop where
  value : f.read n' = v
  other : ∀ i, ¬ f.Covers i → n'.testBit i = n.testBit i

/-- No bit is one of both fields. -/
def Apart (f g : Field) : Prop := f.lo + f.width ≤ g.lo ∨ g.lo + g.width ≤ f.lo

theorem testBit_read : (f.read n).testBit i = (decide (i < f.width) && n.testBit (f.lo + i)) := by
  rw [read, Nat.testBit_mod_two_pow, Nat.testBit_div_two_pow, Nat.add_comm]

/-- A write, bit by bit. -/
theorem written_of_testBit (hin : ∀ i, i < f.width → n'.testBit (f.lo + i) = v.testBit i)
    (hv : v < 2 ^ f.width) (hout : ∀ i, ¬ f.Covers i → n'.testBit i = n.testBit i) :
    f.Written n v n' := by
  refine ⟨Nat.eq_of_testBit_eq fun i => ?_, hout⟩
  rw [testBit_read]
  by_cases hi : i < f.width
  · rw [hin i hi, decide_eq_true hi, Bool.true_and]
  · have hpow : 2 ^ f.width ≤ 2 ^ i := Nat.pow_le_pow_right (by decide) (Nat.le_of_not_lt hi)
    rw [decide_eq_false hi, Bool.false_and, Nat.testBit_lt_two_pow (by omega)]

namespace Written

/-- The other fields are the same. -/
theorem read_eq (h : f.Written n v n') (hapart : f.Apart g) : g.read n' = g.read n := by
  refine Nat.eq_of_testBit_eq fun i => ?_
  rw [testBit_read, testBit_read]
  by_cases hi : i < g.width
  · have hout : ¬ f.Covers (g.lo + i) := by
      rintro ⟨hlo, hhi⟩
      rcases hapart with h | h <;> omega
    rw [h.other _ hout]
  · rw [decide_eq_false hi, Bool.false_and, Bool.false_and]

/-- The word after a write: what is above the field, the value, and what is below it. -/
theorem toNat (h : f.Written n v n') :
    n' = n / 2 ^ (f.lo + f.width) * 2 ^ (f.lo + f.width) + v * 2 ^ f.lo + n % 2 ^ f.lo := by
  have hlow : n' % 2 ^ f.lo = n % 2 ^ f.lo := by
    refine Nat.eq_of_testBit_eq fun i => ?_
    rw [Nat.testBit_mod_two_pow, Nat.testBit_mod_two_pow]
    by_cases hi : i < f.lo
    · rw [h.other i fun hc => absurd hc.1 (Nat.not_le.mpr hi)]
    · rw [decide_eq_false hi, Bool.false_and, Bool.false_and]
  have hhigh : n' / 2 ^ (f.lo + f.width) = n / 2 ^ (f.lo + f.width) := by
    refine Nat.eq_of_testBit_eq fun i => ?_
    rw [Nat.testBit_div_two_pow, Nat.testBit_div_two_pow]
    exact h.other _ fun hc => absurd hc.2 (by omega)
  have hvalue : n' / 2 ^ f.lo % 2 ^ f.width = v := h.value
  have hsplit := Nat.div_add_mod n' (2 ^ f.lo)
  have hsplit' := Nat.div_add_mod (n' / 2 ^ f.lo) (2 ^ f.width)
  rw [Nat.div_div_eq_div_mul, ← Nat.pow_add, hhigh, hvalue] at hsplit'
  rw [hlow, ← hsplit', Nat.mul_add, ← Nat.mul_assoc, ← Nat.pow_add] at hsplit
  rw [← hsplit, Nat.mul_comm (2 ^ (f.lo + f.width)), Nat.mul_comm (2 ^ f.lo)]

end Written

/-! ### Writes with masks and shifts -/

/-- A value goes to the low bits, from which the word was shifted away and back. -/
theorem written_low (hv : v < 2 ^ k) : Written ⟨0, k⟩ n v (v ||| (n >>> k) <<< k) := by
  refine written_of_testBit (fun i hi => ?_) hv fun i hi => ?_
  · rw [Nat.zero_add, Nat.testBit_or, Nat.testBit_shiftLeft, decide_eq_false (Nat.not_le.mpr hi),
      Bool.false_and, Bool.or_false]
  · have hk : k ≤ i := by
      by_contra hcon
      exact hi ⟨Nat.zero_le i, by show i < 0 + k; omega⟩
    have hpow : 2 ^ k ≤ 2 ^ i := Nat.pow_le_pow_right (by decide) hk
    rw [Nat.testBit_or, Nat.testBit_lt_two_pow (by omega), Bool.false_or, Nat.testBit_shiftLeft,
      decide_eq_true hk, Bool.true_and, Nat.testBit_shiftRight, Nat.add_sub_cancel' hk]

/-- A value goes to the high bits of a word of `k + w` bits, whose low bits are kept by a mask. -/
theorem written_high (hn : n < 2 ^ (k + w)) (hv : v < 2 ^ w) :
    Written ⟨k, w⟩ n v (v <<< k ||| n &&& (2 ^ k - 1)) := by
  refine written_of_testBit (fun i hi => ?_) hv fun i hi => ?_
  · rw [Nat.testBit_or, Nat.testBit_shiftLeft, decide_eq_true (Nat.le_add_right k i), Bool.true_and,
      Nat.add_sub_cancel_left, Nat.testBit_and, Nat.testBit_two_pow_sub_one,
      decide_eq_false (Nat.not_lt.mpr (Nat.le_add_right k i)), Bool.and_false, Bool.or_false]
  · rw [Nat.testBit_or, Nat.testBit_shiftLeft, Nat.testBit_and, Nat.testBit_two_pow_sub_one]
    by_cases hk : k ≤ i
    · -- both words are below these bits
      have hw : k + w ≤ i := by
        by_contra hcon
        exact hi ⟨hk, Nat.lt_of_not_le hcon⟩
      have hpow : 2 ^ (k + w) ≤ 2 ^ i := Nat.pow_le_pow_right (by decide) hw
      have hpow' : 2 ^ w ≤ 2 ^ (i - k) := Nat.pow_le_pow_right (by decide) (by omega)
      rw [Nat.testBit_lt_two_pow (show v < 2 ^ (i - k) by omega),
        Nat.testBit_lt_two_pow (show n < 2 ^ i by omega), Bool.and_false, Bool.false_and,
        Bool.or_false]
    · rw [decide_eq_false hk, Bool.false_and, Bool.false_or, decide_eq_true (Nat.lt_of_not_le hk),
        Bool.and_true]

theorem covers_bit : Covers ⟨k, 1⟩ i ↔ i = k :=
  ⟨fun ⟨hlo, hhi⟩ => le_antisymm (Nat.le_of_lt_succ hhi) hlo,
    fun h => ⟨h.ge, Nat.lt_succ_of_le h.le⟩⟩

/-- A bit is set. -/
theorem written_set : Written ⟨k, 1⟩ n 1 (n ||| 2 ^ k) := by
  refine written_of_testBit (fun i hi => ?_) (show 1 < 2 ^ 1 by decide) fun i hi => ?_
  · obtain rfl : i = 0 := Nat.lt_one_iff.mp hi
    show (n ||| 2 ^ k).testBit k = true
    rw [Nat.testBit_or, Nat.testBit_two_pow_self, Bool.or_true]
  · rw [Nat.testBit_or, Nat.testBit_two_pow_of_ne fun h => hi (covers_bit.mpr h.symm), Bool.or_false]

/-- A bit is unset in a word of `w` bits. -/
theorem written_unset (hn : n < 2 ^ w) (hk : k < w) :
    Written ⟨k, 1⟩ n 0 (n &&& (2 ^ w - (2 ^ k + 1))) := by
  have hpow : 2 ^ k < 2 ^ w := Nat.pow_lt_pow_right (by decide) hk
  refine written_of_testBit (fun i hi => ?_) (show 0 < 2 ^ 1 by decide) fun i hi => ?_
  · obtain rfl : i = 0 := Nat.lt_one_iff.mp hi
    show (n &&& (2 ^ w - (2 ^ k + 1))).testBit k = false
    rw [Nat.testBit_and, Nat.testBit_two_pow_sub_succ hpow, Nat.testBit_two_pow_self, Bool.not_true,
      Bool.and_false, Bool.and_false]
  · rw [Nat.testBit_and, Nat.testBit_two_pow_sub_succ hpow,
      Nat.testBit_two_pow_of_ne fun h => hi (covers_bit.mpr h.symm), Bool.not_false, Bool.and_true]
    by_cases hw : i < w
    · rw [decide_eq_true hw, Bool.and_true]
    · have hle : 2 ^ w ≤ 2 ^ i := Nat.pow_le_pow_right (by decide) (Nat.le_of_not_lt hw)
      rw [Nat.testBit_lt_two_pow (by omega), Bool.false_and]

end Field

/-! ### Operands of type `int` -/

/-- An `int` in an operation on 64-bit words: its sign is extended. -/
def intOperand (i : Int32) : UInt64 := i.toInt64.toUInt64

/-- An `int` that is not negative keeps its value. -/
theorem toNat_intOperand {i : Int32} (h : i.toBitVec.toNat < 2 ^ 31) :
    (intOperand i).toNat = i.toBitVec.toNat := by
  have hmsb : i.toBitVec.msb = false := by
    rw [BitVec.msb_eq_false_iff_two_mul_lt]
    omega
  show (i.toBitVec.signExtend 64).toNat = i.toBitVec.toNat
  rw [BitVec.signExtend_eq_setWidth_of_msb_false hmsb, BitVec.toNat_setWidth]
  exact Nat.mod_eq_of_lt (by omega)

/-- The complement of an `int` has all the high bits of a word set if the `int` has none of them. -/
theorem intOperand_not (i : Int32) : intOperand (~~~i) = ~~~intOperand i := by
  rw [← UInt64.toBitVec_inj, UInt64.toBitVec_not]
  exact BitVec.signExtend_not (by decide)

theorem toNat_intOperand_not (i : Int32) :
    (intOperand (~~~i)).toNat = 2 ^ 64 - ((intOperand i).toNat + 1) := by
  have hsize : UInt64.size = 2 ^ 64 := rfl
  rw [intOperand_not, UInt64.toNat_not]
  omega

end Apus.Lib
