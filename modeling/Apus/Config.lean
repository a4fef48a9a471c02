import Apus.Lib.ByteMem

namespace Apus

open Lib

/-!
# Group configuration

The configuration identifier `[N, N', STATE, BITMASK]` of a group (`dare_config.h`), its
bitmask macros and the two group sizes, and its image in a CONFIG log entry.
-/

/-- Stable configuration: only one size specified. -/
def CID_STABLE : UInt8 := 0
/-- Transitional configuration: both old and new size are specified; both majorities needed. -/
def CID_TRANSIT : UInt8 := 1
/-- Extended configuration: both old and new size are specified; only old majority needed. -/
def CID_EXTENDED : UInt8 := 2

/-- Most servers a group can have. -/
def MAX_SERVER_COUNT : Nat := 13

/-- Failed attempts to access a server before it is considered as permanently failed. -/
def PERMANENT_FAILURE : UInt8 := 2

/-- `dare_cid_t`: a configuration identifier. -/
structure DareCid where
  epoch : UInt64
  size0 : UInt8
  size1 : UInt8
  state : UInt8
  bitmask : UInt32
  deriving DecidableEq, Repr, Inhabited

/-- `CID_IS_SERVER_ON`. -/
def cidIsServerOn (cid : DareCid) (idx : Nat) : Bool :=
  cid.bitmask &&& (1 <<< UInt32.ofNat idx) != 0

/-- `CID_SERVER_ADD`. -/
def cidServerAdd (cid : DareCid) (idx : Nat) : DareCid :=
  { cid with bitmask := cid.bitmask ||| (1 <<< UInt32.ofNat idx) }

/-- `CID_SERVER_RM`. -/
def cidServerRm (cid : DareCid) (idx : Nat) : DareCid :=
  { cid with bitmask := cid.bitmask &&& ~~~(1 <<< UInt32.ofNat idx) }

/-- `equal_cid`: the comparison covers every field. -/
def equalCid (left right : DareCid) : Bool :=
  left.epoch == right.epoch && left.state == right.state && left.size0 == right.size0 &&
    left.size1 == right.size1 && left.bitmask == right.bitmask

theorem equalCid_iff (left right : DareCid) : equalCid left right = true ↔ left = right := by
  cases left; cases right
  simp only [equalCid, Bool.and_eq_true, beq_iff_eq, DareCid.mk.injEq]
  constructor
  · rintro ⟨⟨⟨⟨rfl, rfl⟩, rfl⟩, rfl⟩, rfl⟩
    exact ⟨rfl, rfl, rfl, rfl, rfl⟩
  · rintro ⟨rfl, rfl, rfl, rfl, rfl⟩
    exact ⟨⟨⟨⟨rfl, rfl⟩, rfl⟩, rfl⟩, rfl⟩

/-- `get_extended_group_size`: the maximum size including the extra added servers. -/
def getExtendedGroupSize (cid : DareCid) : UInt8 :=
  if cid.state = CID_STABLE then cid.size0
  else if cid.size0 < cid.size1 then cid.size1
  else cid.size0

/-- `get_group_size`: the maximum size ignoring the extra added servers. -/
def getGroupSize (cid : DareCid) : UInt8 :=
  if cid.state ≠ CID_TRANSIT then cid.size0
  else if cid.size0 < cid.size1 then cid.size1
  else cid.size0

/-! ### The bitmask -/

/-- The bitmask macros shift modulo the width of the bitmask. -/
theorem one_shiftLeft_ofNat_mod (i : Nat) :
    (1 <<< UInt32.ofNat i : UInt32).toBitVec = BitVec.twoPow 32 (i % 32) := by
  have hmod : (UInt32.ofNat i).toBitVec % 32 = BitVec.ofNat 32 (i % 32) := by
    apply BitVec.eq_of_toNat_eq
    simp [BitVec.toNat_umod, BitVec.toNat_ofNat]
    omega
  rw [UInt32.toBitVec_shiftLeft, hmod, BitVec.shiftLeft_eq', BitVec.twoPow_eq, BitVec.toNat_ofNat,
    Nat.mod_eq_of_lt (by omega)]
  rfl

theorem one_shiftLeft_ofNat {i : Nat} (hi : i < 32) :
    (1 <<< UInt32.ofNat i : UInt32).toBitVec = BitVec.twoPow 32 i := by
  rw [one_shiftLeft_ofNat_mod, Nat.mod_eq_of_lt hi]

/-- A server of the bitmask is ON if its bit is set. -/
theorem cidIsServerOn_eq_mod (cid : DareCid) (i : Nat) :
    cidIsServerOn cid i = cid.bitmask.toBitVec.getLsbD (i % 32) := by
  have hlt : i % 32 < 32 := Nat.mod_lt i (by decide)
  have hne : BitVec.twoPow 32 (i % 32) ≠ 0#32 := by
    intro hcon
    have hbit := congrArg (fun v => v.getLsbD (i % 32)) hcon
    simp [hlt] at hbit
  rw [cidIsServerOn, Bool.eq_iff_iff, bne_iff_ne, ne_eq, ← UInt32.toBitVec_inj, UInt32.toBitVec_and,
    one_shiftLeft_ofNat_mod, BitVec.and_twoPow]
  split
  · rename_i h
    simp only [h, iff_true]
    exact hne
  · rename_i h
    simp [h]

theorem cidIsServerOn_eq (cid : DareCid) {i : Nat} (hi : i < 32) :
    cidIsServerOn cid i = cid.bitmask.toBitVec.getLsbD i := by
  rw [cidIsServerOn_eq_mod, Nat.mod_eq_of_lt hi]

/-- `CID_SERVER_ADD` only turns its server ON. -/
theorem cidIsServerOn_add (cid : DareCid) {i j : Nat} (hi : i < 32) (hj : j < 32) :
    cidIsServerOn (cidServerAdd cid i) j = (decide (i = j) || cidIsServerOn cid j) := by
  rw [cidIsServerOn_eq _ hj, cidIsServerOn_eq _ hj, cidServerAdd, UInt32.toBitVec_or,
    one_shiftLeft_ofNat hi, BitVec.getLsbD_or, BitVec.getLsbD_twoPow]
  simp [hi, Bool.or_comm]

/-- `CID_SERVER_RM` only turns its server OFF. -/
theorem cidIsServerOn_rm (cid : DareCid) {i j : Nat} (hi : i < 32) (hj : j < 32) :
    cidIsServerOn (cidServerRm cid i) j = (!decide (i = j) && cidIsServerOn cid j) := by
  rw [cidIsServerOn_eq _ hj, cidIsServerOn_eq _ hj, cidServerRm, UInt32.toBitVec_and,
    UInt32.toBitVec_not, one_shiftLeft_ofNat hi, BitVec.getLsbD_and, BitVec.getLsbD_not,
    BitVec.getLsbD_twoPow]
  simp [hi, hj, Bool.and_comm]

/-! ### The image of a configuration in memory -/

/-- Bytes of a `dare_cid_t`: `epoch`, the two sizes, `state`, a pad byte, `bitmask`. -/
def CID_SIZE : Nat := 16

/-- The configuration stored at address `o`. -/
def readCid (m : Mem) (o : Nat) : DareCid where
  epoch := getU64 m o
  size0 := getU8 m (o + 8)
  size1 := getU8 m (o + 9)
  state := getU8 m (o + 10)
  bitmask := getU32 m (o + 12)

/-- The memory after a configuration was assigned to address `o`. -/
def writeCid (m : Mem) (o : Nat) (cid : DareCid) : Mem :=
  let m := setU64 m o cid.epoch
  let m := setU8 m (o + 8) cid.size0
  let m := setU8 m (o + 9) cid.size1
  let m := setU8 m (o + 10) cid.state
  setU32 m (o + 12) cid.bitmask

theorem readCid_congr {m m' : Mem} {o : Nat}
    (h : ∀ x, o ≤ x → x < o + CID_SIZE → m x = m' x) : readCid m o = readCid m' o := by
  have hsize : CID_SIZE = 16 := rfl
  simp only [readCid, DareCid.mk.injEq]
  refine ⟨getU64_congr ?_, ?_, ?_, ?_, getU32_congr ?_⟩
  · exact fun x hlo hhi => h x hlo (by omega)
  · exact h _ (by omega) (by omega)
  · exact h _ (by omega) (by omega)
  · exact h _ (by omega) (by omega)
  · exact fun x hlo hhi => h x (by omega) (by omega)

/-- A configuration just written reads back. -/
theorem readCid_writeCid (m : Mem) (o : Nat) (cid : DareCid) :
    readCid (writeCid m o cid) o = cid := by
  cases cid with
  | mk epoch size0 size1 state bitmask =>
    simp only [readCid, writeCid, DareCid.mk.injEq]
    refine ⟨?_, ?_, ?_, ?_, ?_⟩
    · rw [← getU64_setU64 (m := m) (o := o) epoch]
      refine getU64_congr fun x hlo hhi => ?_
      rw [setU32_of_outside (by omega), setU8_of_outside (by omega), setU8_of_outside (by omega),
        setU8_of_outside (by omega), getU64_setU64]
    · rw [getU8, setU32_of_outside (by omega), setU8_of_outside (by omega),
        setU8_of_outside (by omega)]
      exact getU8_setU8 size0
    · rw [getU8, setU32_of_outside (by omega), setU8_of_outside (by omega)]
      exact getU8_setU8 size1
    · rw [getU8, setU32_of_outside (by omega)]
      exact getU8_setU8 state
    · exact getU32_setU32 bitmask

/-- Writing a configuration only touches its bytes. -/
theorem writeCid_of_outside {m : Mem} {o x : Nat} {cid : DareCid}
    (h : x < o ∨ o + CID_SIZE ≤ x) : writeCid m o cid x = m x := by
  have hsize : CID_SIZE = 16 := rfl
  simp only [writeCid]
  rw [setU32_of_outside (by omega), setU8_of_outside (by omega), setU8_of_outside (by omega),
    setU8_of_outside (by omega), setU64_of_outside (by omega)]

end Apus
