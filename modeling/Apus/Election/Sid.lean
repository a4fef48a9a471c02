import Apus.Words

namespace Apus

open Lib

/-!
# The state identifier

The SID of a server is a 64-bit word `[TERM|L|IDX]` (`dare_server.h`): the term, the flag that is
set when there is a leader, and the index of the server that caused the last update.  Each macro has
its value as a number here, so that facts about the fields are linear arithmetic; they are those of the
header (`Header.sidGetL`, …), with the constants as words.
-/

/-- `SID_GET_IDX`. -/
def sidGetIdx (sid : UInt64) : UInt8 := (sid &&& 0xFF).toUInt8

/-- `SID_SET_IDX`. -/
def sidSetIdx (sid : UInt64) (idx : UInt8) : UInt64 := idx.toUInt64 ||| ((sid >>> 8) <<< 8)

/-- `SID_GET_L`. -/
def sidGetL (sid : UInt64) : Bool := sid &&& ((1 : UInt64) <<< 8) != 0

/-- `SID_SET_L`. -/
def sidSetL (sid : UInt64) : UInt64 := sid ||| ((1 : UInt64) <<< 8)

/-- `SID_UNSET_L`. -/
def sidUnsetL (sid : UInt64) : UInt64 := sid &&& ~~~((1 : UInt64) <<< 8)

/-- `SID_GET_TERM`. -/
def sidGetTerm (sid : UInt64) : UInt64 := sid >>> 9

/-- `SID_SET_TERM`. -/
def sidSetTerm (sid term : UInt64) : UInt64 := (term <<< 9) ||| (sid &&& 0x1FF)

/-- `SID_NULL`. -/
def SID_NULL : UInt64 := 0xFF

/-- The terms of a SID are below this bound. -/
def TERM_BOUND : Nat := 2 ^ 55

/-! ### The fields as numbers -/

/-- The flag is the same word, and compared with zero. -/
theorem sidGetL_eq (sid : UInt64) : sidGetL sid = (Header.sidGetL sid != 0) := rfl

/-- The complement of the flag is that of the `int`. -/
theorem sidUnsetL_eq (sid : UInt64) : sidUnsetL sid = Header.sidUnsetL sid := by
  have hflag : intOperand ((1 : Int32) <<< 8) = (1 : UInt64) <<< 8 := by decide
  rw [Header.sidUnsetL, Header.unsetFlag, intOperand_not, hflag, sidUnsetL]

theorem sidSetL_eq (sid : UInt64) : sidSetL sid = Header.sidSetL sid := rfl

theorem sidGetIdx_eq (sid : UInt64) : sidGetIdx sid = Header.sidGetIdx sid := rfl

theorem sidGetTerm_eq (sid : UInt64) : sidGetTerm sid = Header.sidGetTerm sid := rfl

theorem sidSetTerm_eq (sid term : UInt64) : sidSetTerm sid term = Header.sidSetTerm sid term := rfl

/-- The index is promoted to an `int` and then to a word. -/
theorem sidSetIdx_eq (sid : UInt64) (idx : UInt8) : sidSetIdx sid idx = Header.sidSetIdx sid idx := by
  have hidx : intOperand idx.toUInt32.toInt32 = idx.toUInt64 := by
    rw [← UInt64.toNat_inj, Header.toNat_intOperand_byte, UInt8.toNat_toUInt64]
  rw [Header.sidSetIdx, Header.setByte, hidx, sidSetIdx]

theorem toNat_sidGetTerm (sid : UInt64) : (sidGetTerm sid).toNat = sid.toNat / 512 :=
  (toNat_sidKey sid).1

theorem toNat_sidGetIdx (sid : UInt64) : (sidGetIdx sid).toNat = sid.toNat % 256 :=
  (toNat_sidKey sid).2.2

/-- The flag is the ninth bit. -/
theorem and_L_toNat (sid : UInt64) :
    (sid &&& ((1 : UInt64) <<< 8)).toNat = sid.toNat / 256 % 2 * 256 :=
  (toNat_sidKey sid).2.1

theorem sidGetL_iff (sid : UInt64) : sidGetL sid = true ↔ sid.toNat / 256 % 2 = 1 := by
  have hbit := and_L_toNat sid
  rw [sidGetL, bne_iff_ne, ne_eq, ← UInt64.toNat_inj, hbit]
  have hzero : (0 : UInt64).toNat = 0 := rfl
  rw [hzero]
  omega

theorem sidGetL_eq_false_iff (sid : UInt64) : sidGetL sid = false ↔ sid.toNat / 256 % 2 = 0 := by
  rw [← Bool.not_eq_true, sidGetL_iff]
  omega

theorem toNat_sidUnsetL (sid : UInt64) :
    (sidUnsetL sid).toNat = sid.toNat / 512 * 512 + sid.toNat % 256 := by
  have hunset : (Header.sidUnsetL sid).toNat = sid.toNat / 512 * 512 + 0 * 256 + sid.toNat % 256 :=
    (Header.readsFlag_sidL.unset_written sid).toNat
  rw [sidUnsetL_eq, hunset]
  omega

theorem toNat_sidSetL (sid : UInt64) :
    (sidSetL sid).toNat = sid.toNat / 512 * 512 + 256 + sid.toNat % 256 :=
  (Header.readsFlag_sidL.set_written sid).toNat

/-- The flag does not change whom the SID names. -/
@[simp] theorem sidGetIdx_sidSetL (sid : UInt64) : sidGetIdx (sidSetL sid) = sidGetIdx sid := by
  rw [sidGetIdx_eq, sidGetIdx_eq, sidSetL_eq, ← UInt8.toNat_inj, Header.readsWrites_sidIdx.read,
    Header.readsWrites_sidIdx.read]
  exact (Header.readsFlag_sidL.set_written sid).read_eq (.inr (le_refl 8))

theorem toNat_sidSetIdx (sid : UInt64) (idx : UInt8) :
    (sidSetIdx sid idx).toNat = sid.toNat / 256 * 256 + idx.toNat := by
  have hset : (Header.sidSetIdx sid idx).toNat =
      sid.toNat / 256 * 256 + idx.toNat * 1 + sid.toNat % 1 :=
    (Header.readsWrites_sidIdx.written sid idx idx.toNat_lt).toNat
  rw [sidSetIdx_eq, hset]
  omega

theorem toNat_sidSetTerm (sid term : UInt64) (h : term.toNat < TERM_BOUND) :
    (sidSetTerm sid term).toNat = term.toNat * 512 + sid.toNat % 512 := by
  have hset : (Header.sidSetTerm sid term).toNat =
      sid.toNat / 2 ^ 64 * 2 ^ 64 + term.toNat * 512 + sid.toNat % 512 :=
    (Header.readsWrites_sidTerm.written sid term h).toNat
  have hlt := sid.toNat_lt
  rw [sidSetTerm_eq, hset]
  omega

end Apus
