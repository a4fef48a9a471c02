import Apus.Lib.Fields
import Mathlib.Data.Prod.Lex

namespace Apus

open Lib

/-!
# The words of the headers

`dare_server.h` packs a SID, and `dare_ibv_rc.h` the identifier of a work request, into a 64-bit word:

* the SID is `[TERM|L|IDX]`, with 55 bits, one bit and 8 bits;
* the identifier is `[SSN|WA|TAG|CONN]`, with 54 bits, two flags and 8 bits.

The macros are evaluated as C does it: a constant such as `1 << 8` or `0x1FF` is an `int`, which is
converted when it meets the word.  Each macro is one of a few forms with its own constants.

* `words_packed` — every macro reads or writes its own field and no other bit, and SIDs are ordered as
  their fields;
* `wridUnset_eq_iff` — when a completion is taken for the one that a server waits for.
-/

namespace Header

/-! ### The forms of the macros -/

/-- `(uint8_t)((w) & (0xFF))`. -/
def getByte (w : UInt64) : UInt8 := (w &&& intOperand 0xFF).toUInt8

/-- `(w) = (b | ((w >> 8) << 8))`: the byte is promoted to an `int`. -/
def setByte (w : UInt64) (b : UInt8) : UInt64 := intOperand b.toUInt32.toInt32 ||| ((w >>> 8) <<< 8)

/-- `((w) & (flag))`. -/
def getFlag (flag : Int32) (w : UInt64) : UInt64 := w &&& intOperand flag

/-- `(w) |= flag`. -/
def setFlag (flag : Int32) (w : UInt64) : UInt64 := w ||| intOperand flag

/-- `(w) &= ~(flag)`: the complement is that of the `int`. -/
def unsetFlag (flag : Int32) (w : UInt64) : UInt64 := w &&& intOperand (~~~flag)

/-- `((w) >> k)`. -/
def getHigh (k : UInt64) (w : UInt64) : UInt64 := w >>> k

/-- `(w) = (((v) << k) | ((w) & mask))`. -/
def setHigh (k : UInt64) (mask : Int32) (w v : UInt64) : UInt64 := (v <<< k) ||| (w &&& intOperand mask)

/-! ### The macros -/

/-- `SID_GET_IDX`. -/
def sidGetIdx : UInt64 → UInt8 := getByte

/-- `SID_SET_IDX`. -/
def sidSetIdx : UInt64 → UInt8 → UInt64 := setByte

/-- `SID_GET_L`. -/
def sidGetL : UInt64 → UInt64 := getFlag ((1 : Int32) <<< 8)

/-- `SID_SET_L`. -/
def sidSetL : UInt64 → UInt64 := setFlag ((1 : Int32) <<< 8)

/-- `SID_UNSET_L`. -/
def sidUnsetL : UInt64 → UInt64 := unsetFlag ((1 : Int32) <<< 8)

/-- `SID_GET_TERM`. -/
def sidGetTerm : UInt64 → UInt64 := getHigh 9

/-- `SID_SET_TERM`. -/
def sidSetTerm : UInt64 → UInt64 → UInt64 := setHigh 9 0x1FF

/-- `WRID_GET_CONN`. -/
def wridGetConn : UInt64 → UInt8 := getByte

/-- `WRID_SET_CONN`. -/
def wridSetConn : UInt64 → UInt8 → UInt64 := setByte

/-- `WRID_GET_TAG`. -/
def wridGetTag : UInt64 → UInt64 := getFlag ((1 : Int32) <<< 8)

/-- `WRID_SET_TAG`. -/
def wridSetTag : UInt64 → UInt64 := setFlag ((1 : Int32) <<< 8)

/-- `WRID_UNSET_TAG`. -/
def wridUnsetTag : UInt64 → UInt64 := unsetFlag ((1 : Int32) <<< 8)

/-- `WRID_GET_WA`. -/
def wridGetWa : UInt64 → UInt64 := getFlag ((1 : Int32) <<< 9)

/-- `WRID_SET_WA`. -/
def wridSetWa : UInt64 → UInt64 := setFlag ((1 : Int32) <<< 9)

/-- `WRID_UNSET_WA`. -/
def wridUnsetWa : UInt64 → UInt64 := unsetFlag ((1 : Int32) <<< 9)

/-- `WRID_GET_SSN`. -/
def wridGetSsn : UInt64 → UInt64 := getHigh 10

/-- `WRID_SET_SSN`. -/
def wridSetSsn : UInt64 → UInt64 → UInt64 := setHigh 10 0x3FF

end Header

/-! ### What the macros of a field do -/

/-- `get` reads the field, and `set` writes it: what is set is read again, and no other bit is
    changed. -/
structure ReadsWrites {α : Type} (f : Field) (val : α → Nat) (get : UInt64 → α)
    (set : UInt64 → α → UInt64) : Prop where
  read : ∀ w, val (get w) = f.read w.toNat
  written : ∀ w v, val v < 2 ^ f.width → f.Written w.toNat (val v) (set w v).toNat
  get_set : ∀ w v, val v < 2 ^ f.width → get (set w v) = v

/-- `get` reads the bit `k` where it is, `set` and `unset` write it, and no other bit is changed. -/
structure ReadsFlag (k : Nat) (get set unset : UInt64 → UInt64) : Prop where
  read : ∀ w, (get w).toNat = Field.read ⟨k, 1⟩ w.toNat * 2 ^ k
  set_written : ∀ w, Field.Written ⟨k, 1⟩ w.toNat 1 (set w).toNat
  unset_written : ∀ w, Field.Written ⟨k, 1⟩ w.toNat 0 (unset w).toNat
  get_set : ∀ w, (get (set w)).toNat = 2 ^ k
  get_unset : ∀ w, get (unset w) = 0

/-- The fields of a SID, the most significant first. -/
def sidKey (w : UInt64) : UInt64 ×ₗ UInt64 ×ₗ UInt8 :=
  toLex (Header.sidGetTerm w, toLex (Header.sidGetL w, Header.sidGetIdx w))

/-- The SID `[term|l|idx]`, as it is made from any word. -/
def makeSid (w term : UInt64) (l : Bool) (idx : UInt8) : UInt64 :=
  let w := Header.sidSetTerm w term
  let w := if l then Header.sidSetL w else Header.sidUnsetL w
  Header.sidSetIdx w idx

namespace Header

variable {flag mask : Int32} {k : Nat} {shift : UInt64}

/-! ### The forms -/

/-- A byte that is promoted to an `int` keeps its value. -/
theorem toNat_intOperand_byte (b : UInt8) : (intOperand b.toUInt32.toInt32).toNat = b.toNat := by
  have hval : b.toUInt32.toInt32.toBitVec.toNat = b.toNat := UInt8.toNat_toUInt32 b
  have hlt := b.toNat_lt
  rw [toNat_intOperand (by omega), hval]

/-- A word that is shifted away and back loses its low bits only. -/
theorem toNat_shiftRight_shiftLeft (w : UInt64) :
    ((w >>> 8) <<< 8).toNat = (w.toNat >>> 8) <<< 8 := by
  have hshift : (8 : UInt64).toNat % 64 = 8 := rfl
  have hlt := w.toNat_lt
  rw [UInt64.toNat_shiftLeft, UInt64.toNat_shiftRight, hshift]
  refine Nat.mod_eq_of_lt ?_
  rw [Nat.shiftLeft_eq, Nat.shiftRight_eq_div_pow]
  omega

theorem readsWrites_byte : ReadsWrites ⟨0, 8⟩ UInt8.toNat getByte setByte := by
  have hread : ∀ w, (getByte w).toNat = Field.read ⟨0, 8⟩ w.toNat := by
    intro w
    have hmask : (intOperand 0xFF).toNat = 2 ^ 8 - 1 := by decide
    rw [getByte, UInt64.toNat_toUInt8, UInt64.toNat_and, hmask, Nat.and_two_pow_sub_one_eq_mod,
      Nat.mod_mod, Field.read, pow_zero, Nat.div_one]
  have hwritten : ∀ w b, Field.Written ⟨0, 8⟩ w.toNat b.toNat (setByte w b).toNat := by
    intro w b
    rw [setByte, UInt64.toNat_or, toNat_intOperand_byte, toNat_shiftRight_shiftLeft]
    exact Field.written_low b.toNat_lt
  refine ⟨hread, fun w b _ => hwritten w b, fun w b _ => ?_⟩
  rw [← UInt8.toNat_inj, hread]
  exact (hwritten w b).value

/-- A flag whose `int` has only the bit `k`. -/
theorem readsFlag (hflag : (intOperand flag).toNat = 2 ^ k) (hk : k < 64) :
    ReadsFlag k (getFlag flag) (setFlag flag) (unsetFlag flag) := by
  have hread : ∀ w, (getFlag flag w).toNat = Field.read ⟨k, 1⟩ w.toNat * 2 ^ k := by
    intro w
    rw [getFlag, UInt64.toNat_and, hflag, Nat.and_two_pow, Nat.testBit_eq_decide_div_mod_eq, Field.read,
      pow_one]
    rcases Nat.mod_two_eq_zero_or_one (w.toNat / 2 ^ k) with hbit | hbit
    · rw [hbit]
      rfl
    · rw [hbit]
      rfl
  have hset : ∀ w, Field.Written ⟨k, 1⟩ w.toNat 1 (setFlag flag w).toNat := by
    intro w
    rw [setFlag, UInt64.toNat_or, hflag]
    exact Field.written_set
  have hunset : ∀ w, Field.Written ⟨k, 1⟩ w.toNat 0 (unsetFlag flag w).toNat := by
    intro w
    rw [unsetFlag, UInt64.toNat_and, toNat_intOperand_not, hflag]
    exact Field.written_unset w.toNat_lt hk
  refine ⟨hread, hset, hunset, fun w => ?_, fun w => ?_⟩
  · rw [hread, (hset w).value, Nat.one_mul]
  · rw [← UInt64.toNat_inj, hread, (hunset w).value, Nat.zero_mul]
    rfl

/-- The field above the low `k` bits, which a mask keeps. -/
theorem readsWrites_high {width : Nat} (hshift : shift.toNat = k) (hk : k < 64)
    (hmask : (intOperand mask).toNat = 2 ^ k - 1) (hwidth : k + width = 64) :
    ReadsWrites ⟨k, width⟩ UInt64.toNat (getHigh shift) (setHigh shift mask) := by
  have hmod : shift.toNat % 64 = k := by rw [hshift, Nat.mod_eq_of_lt hk]
  have hpow : 2 ^ k * 2 ^ width = 2 ^ 64 := by rw [← Nat.pow_add, hwidth]
  have hread : ∀ w, (getHigh shift w).toNat = Field.read ⟨k, width⟩ w.toNat := by
    intro w
    rw [getHigh, UInt64.toNat_shiftRight, hmod, Nat.shiftRight_eq_div_pow, Field.read]
    refine (Nat.mod_eq_of_lt ?_).symm
    rw [Nat.div_lt_iff_lt_mul (Nat.two_pow_pos k), Nat.mul_comm, hpow]
    exact w.toNat_lt
  have hwritten : ∀ w v : UInt64, v.toNat < 2 ^ width →
      Field.Written ⟨k, width⟩ w.toNat v.toNat (setHigh shift mask w v).toNat := by
    intro w v hv
    have hlt : v.toNat <<< k < 2 ^ 64 := by
      rw [Nat.shiftLeft_eq, ← hpow, Nat.mul_comm]
      exact Nat.mul_lt_mul_of_pos_left hv (Nat.two_pow_pos k)
    rw [setHigh, UInt64.toNat_or, UInt64.toNat_and, UInt64.toNat_shiftLeft, hmod, hmask,
      Nat.mod_eq_of_lt hlt]
    refine Field.written_high ?_ hv
    rw [hwidth]
    exact w.toNat_lt
  refine ⟨hread, hwritten, fun w v hv => ?_⟩
  rw [← UInt64.toNat_inj, hread]
  exact (hwritten w v hv).value

/-! ### The fields -/

theorem readsWrites_sidIdx : ReadsWrites ⟨0, 8⟩ UInt8.toNat sidGetIdx sidSetIdx := readsWrites_byte

theorem readsFlag_sidL : ReadsFlag 8 sidGetL sidSetL sidUnsetL := readsFlag (by decide) (by decide)

theorem readsWrites_sidTerm : ReadsWrites ⟨9, 55⟩ UInt64.toNat sidGetTerm sidSetTerm :=
  readsWrites_high rfl (by decide) (by decide) rfl

theorem readsWrites_wridConn : ReadsWrites ⟨0, 8⟩ UInt8.toNat wridGetConn wridSetConn := readsWrites_byte

theorem readsFlag_wridTag : ReadsFlag 8 wridGetTag wridSetTag wridUnsetTag :=
  readsFlag (by decide) (by decide)

theorem readsFlag_wridWa : ReadsFlag 9 wridGetWa wridSetWa wridUnsetWa :=
  readsFlag (by decide) (by decide)

theorem readsWrites_wridSsn : ReadsWrites ⟨10, 54⟩ UInt64.toNat wridGetSsn wridSetSsn :=
  readsWrites_high rfl (by decide) (by decide) rfl

end Header

/-! ### Identifiers of completions -/

/-- The identifier of a completion, without its flags, is that of the request which a server waits for:
    it has the same sequence number and is from the same connection. -/
theorem wridUnset_eq_iff {w next : UInt64} :
    Header.wridUnsetWa (Header.wridUnsetTag w) = next ↔
      Header.wridGetSsn w = Header.wridGetSsn next ∧ Header.wridGetConn w = Header.wridGetConn next ∧
        Header.wridGetTag next = 0 ∧ Header.wridGetWa next = 0 := by
  have hconn : ∀ v : UInt64, (Header.wridGetConn v).toNat = v.toNat % 256 := by
    intro v
    rw [Header.readsWrites_wridConn.read, Field.read, pow_zero, Nat.div_one]
    rfl
  have htag : ∀ v : UInt64, (Header.wridGetTag v).toNat = v.toNat / 256 % 2 * 256 :=
    Header.readsFlag_wridTag.read
  have hwa : ∀ v : UInt64, (Header.wridGetWa v).toNat = v.toNat / 512 % 2 * 512 :=
    Header.readsFlag_wridWa.read
  have hssn : ∀ v : UInt64, (Header.wridGetSsn v).toNat = v.toNat / 1024 := by
    intro v
    have hlt := v.toNat_lt
    rw [Header.readsWrites_wridSsn.read]
    show v.toNat / 1024 % 2 ^ 54 = v.toNat / 1024
    exact Nat.mod_eq_of_lt (by omega)
  have huntag : (Header.wridUnsetTag w).toNat = w.toNat / 512 * 512 + 0 * 256 + w.toNat % 256 :=
    (Header.readsFlag_wridTag.unset_written w).toNat
  have hunwa : ∀ v : UInt64, (Header.wridUnsetWa v).toNat =
      v.toNat / 1024 * 1024 + 0 * 512 + v.toNat % 512 :=
    fun v => (Header.readsFlag_wridWa.unset_written v).toNat
  have hzero : (0 : UInt64).toNat = 0 := rfl
  simp only [← UInt64.toNat_inj, ← UInt8.toNat_inj, hconn, htag, hwa, hssn, hunwa, huntag, hzero]
  -- the flags are between the connection and the sequence number
  have hunset : (w.toNat / 512 * 512 + 0 * 256 + w.toNat % 256) / 1024 * 1024 + 0 * 512 +
      (w.toNat / 512 * 512 + 0 * 256 + w.toNat % 256) % 512 =
      w.toNat / 1024 * 1024 + w.toNat % 256 := by omega
  have hlow : w.toNat % 256 < 256 := Nat.mod_lt _ (by decide)
  rw [hunset]
  generalize w.toNat / 1024 = high at *
  generalize w.toNat % 256 = low at *
  omega

/-! ### The order of SIDs -/

section Order

variable {a b w term : UInt64} {l : Bool} {idx : UInt8}

/-- The fields of a SID as numbers. -/
theorem toNat_sidKey (w : UInt64) : (Header.sidGetTerm w).toNat = w.toNat / 512 ∧
    (Header.sidGetL w).toNat = w.toNat / 256 % 2 * 256 ∧ (Header.sidGetIdx w).toNat = w.toNat % 256 := by
  have hlt := w.toNat_lt
  refine ⟨?_, Header.readsFlag_sidL.read w, ?_⟩
  · rw [Header.readsWrites_sidTerm.read]
    show w.toNat / 512 % 2 ^ 55 = w.toNat / 512
    exact Nat.mod_eq_of_lt (by omega)
  · rw [Header.readsWrites_sidIdx.read, Field.read, pow_zero, Nat.div_one]
    rfl

/-- SIDs are compared as their fields. -/
theorem sidKey_lt_iff : sidKey a < sidKey b ↔ a < b := by
  obtain ⟨hterm, hl, hidx⟩ := toNat_sidKey a
  obtain ⟨hterm', hl', hidx'⟩ := toNat_sidKey b
  rw [sidKey, sidKey, Prod.Lex.toLex_lt_toLex, Prod.Lex.toLex_lt_toLex]
  simp only [UInt64.lt_iff_toNat_lt, UInt8.lt_iff_toNat_lt, ← UInt64.toNat_inj]
  rw [hterm, hl, hidx, hterm', hl', hidx']
  omega

/-- The fields determine the SID. -/
theorem sidKey_le_iff : sidKey a ≤ sidKey b ↔ a ≤ b := by
  obtain ⟨hterm, hl, hidx⟩ := toNat_sidKey a
  obtain ⟨hterm', hl', hidx'⟩ := toNat_sidKey b
  rw [sidKey, sidKey, Prod.Lex.toLex_le_toLex, Prod.Lex.toLex_le_toLex]
  simp only [UInt64.lt_iff_toNat_lt, UInt64.le_iff_toNat_le, UInt8.le_iff_toNat_le, ← UInt64.toNat_inj]
  rw [hterm, hl, hidx, hterm', hl', hidx']
  omega

/-- The SID that is made of a term, a flag and an index. -/
theorem toNat_makeSid (w : UInt64) (l : Bool) (idx : UInt8) (h : term.toNat < 2 ^ 55) :
    (makeSid w term l idx).toNat = term.toNat * 512 + (if l then 256 else 0) + idx.toNat := by
  have hterm : (Header.sidSetTerm w term).toNat =
      w.toNat / 2 ^ 64 * 2 ^ 64 + term.toNat * 512 + w.toNat % 512 :=
    (Header.readsWrites_sidTerm.written w term h).toNat
  have hidx : ∀ v : UInt64, (Header.sidSetIdx v idx).toNat =
      v.toNat / 256 * 256 + idx.toNat * 1 + v.toNat % 1 :=
    fun v => (Header.readsWrites_sidIdx.written v idx idx.toNat_lt).toNat
  have hlt := w.toNat_lt
  cases l with
  | true =>
    have hl : ∀ v : UInt64, (Header.sidSetL v).toNat =
      v.toNat / 512 * 512 + 1 * 256 + v.toNat % 256 := fun v => (Header.readsFlag_sidL.set_written v).toNat
    show (Header.sidSetIdx (Header.sidSetL (Header.sidSetTerm w term)) idx).toNat =
      term.toNat * 512 + 256 + idx.toNat
    rw [hidx, hl, hterm]
    omega
  | false =>
    have hl : ∀ v : UInt64, (Header.sidUnsetL v).toNat =
      v.toNat / 512 * 512 + 0 * 256 + v.toNat % 256 := fun v => (Header.readsFlag_sidL.unset_written v).toNat
    show (Header.sidSetIdx (Header.sidUnsetL (Header.sidSetTerm w term)) idx).toNat =
      term.toNat * 512 + 0 + idx.toNat
    rw [hidx, hl, hterm]
    omega

end Order

/-- **The words are packed as documented**: every macro reads or writes its own field and changes no
    other bit, and SIDs are compared as term, flag and index, in this order. -/
theorem words_packed :
    (ReadsWrites ⟨0, 8⟩ UInt8.toNat Header.sidGetIdx Header.sidSetIdx ∧
      ReadsFlag 8 Header.sidGetL Header.sidSetL Header.sidUnsetL ∧
      ReadsWrites ⟨9, 55⟩ UInt64.toNat Header.sidGetTerm Header.sidSetTerm) ∧
    (ReadsWrites ⟨0, 8⟩ UInt8.toNat Header.wridGetConn Header.wridSetConn ∧
      ReadsFlag 8 Header.wridGetTag Header.wridSetTag Header.wridUnsetTag ∧
      ReadsFlag 9 Header.wridGetWa Header.wridSetWa Header.wridUnsetWa ∧
      ReadsWrites ⟨10, 54⟩ UInt64.toNat Header.wridGetSsn Header.wridSetSsn) ∧
    (∀ a b : UInt64, (a < b ↔ sidKey a < sidKey b) ∧ (a ≤ b ↔ sidKey a ≤ sidKey b)) ∧
    (∀ (w w' term : UInt64) (i j : UInt8), term.toNat < 2 ^ 55 →
      makeSid w' term false j < makeSid w term true i) ∧
    ∀ (w w' term : UInt64) (i j : UInt8), term.toNat + 1 < 2 ^ 55 →
      makeSid w' term true j < makeSid w (term + 1) false i := by
  refine ⟨⟨Header.readsWrites_sidIdx, Header.readsFlag_sidL, Header.readsWrites_sidTerm⟩,
    ⟨Header.readsWrites_wridConn, Header.readsFlag_wridTag, Header.readsFlag_wridWa,
      Header.readsWrites_wridSsn⟩, fun a b => ⟨sidKey_lt_iff.symm, sidKey_le_iff.symm⟩,
    fun w w' term i j hterm => ?_, fun w w' term i j hterm => ?_⟩
  · have hj := j.toNat_lt
    rw [UInt64.lt_iff_toNat_lt, toNat_makeSid _ _ _ hterm, toNat_makeSid _ _ _ hterm]
    simp only [if_true, Bool.false_eq_true, if_false]
    omega
  · have hj := j.toNat_lt
    have hone : (1 : UInt64).toNat = 1 := rfl
    have hnext : (term + 1).toNat = term.toNat + 1 := by
      rw [UInt64.toNat_add, hone]
      exact Nat.mod_eq_of_lt (by omega)
    rw [UInt64.lt_iff_toNat_lt, toNat_makeSid _ _ _ (by omega), toNat_makeSid _ _ _ (by omega), hnext]
    simp only [if_true, Bool.false_eq_true, if_false]
    omega

/-- SIDs of the terms 3 and 4. -/
theorem words_packed_three :
    (3 : UInt64).toNat + 1 < 2 ^ 55 ∧ makeSid 0 3 false 255 < makeSid 0 3 true 0 ∧
      makeSid 0 3 true 255 < makeSid 0 (3 + 1) false 0 := by
  obtain ⟨-, -, -, hflag, hterm⟩ := words_packed
  exact ⟨by decide, hflag 0 0 3 0 255 (by decide), hterm 0 0 3 0 255 (by decide)⟩

end Apus
