import Mathlib.Data.List.GetD
import Mathlib.Tactic.Ring

namespace Apus.Lib

/-!
# Byte-addressed memory

A memory is a total function from addresses to bytes.  Programs that overlay C structs on
a buffer read and write it through little-endian words and byte strings:

* `bytes m o n` / `store m o bs` — the `n` bytes at `o`, and the memory after writing `bs`;
* `copyRange dst src o n` — the block copy of `[o, o + n)` at equal addresses, which is what
  a one-sided remote write of a buffer to its replica does;
* `leBytes` / `ofLe` — little-endian words as byte strings;
* `readLe` / `writeLe` — word access, with the two facts every layout proof uses: a word
  just written reads back (`readLe_writeLe`), and an access only depends on the bytes it
  covers (`bytes_congr`, `readLe_congr`).
-/

/-- A byte-addressed memory. -/
abbrev Mem := Nat → UInt8

/-- The `n` bytes of `m` starting at `o`. -/
def bytes (m : Mem) (o n : Nat) : List UInt8 := (List.range n).map fun i => m (o + i)

/-- The memory `m` after writing the byte string `bs` at `o`. -/
def store (m : Mem) (o : Nat) (bs : List UInt8) : Mem := fun x =>
  if o ≤ x ∧ x < o + bs.length then bs.getD (x - o) 0 else m x

/-- The memory `dst` after the block `[o, o + n)` was copied from `src`. -/
def copyRange (dst src : Mem) (o n : Nat) : Mem := fun x =>
  if o ≤ x ∧ x < o + n then src x else dst x

/-- The `n` low bytes of `v`, least significant first. -/
def leBytes : Nat → Nat → List UInt8
  | 0, _ => []
  | n + 1, v => UInt8.ofNat v :: leBytes n (v / 256)

/-- The number a little-endian byte string denotes. -/
def ofLe : List UInt8 → Nat
  | [] => 0
  | b :: bs => b.toNat + 256 * ofLe bs

/-- The little-endian word of `n` bytes at `o`. -/
def readLe (m : Mem) (o n : Nat) : Nat := ofLe (bytes m o n)

/-- The memory after writing the `n` low bytes of `v` at `o`. -/
def writeLe (m : Mem) (o n v : Nat) : Mem := store m o (leBytes n v)

/-! ### Lengths -/

@[simp] theorem length_bytes (m : Mem) (o n : Nat) : (bytes m o n).length = n := by
  simp [bytes]

@[simp] theorem length_leBytes (n v : Nat) : (leBytes n v).length = n := by
  induction n generalizing v with
  | zero => rfl
  | succ n ih => simp [leBytes, ih]

/-! ### Frames -/

/-- A byte string only depends on the bytes it covers. -/
theorem bytes_congr {m m' : Mem} {o n : Nat}
    (h : ∀ x, o ≤ x → x < o + n → m x = m' x) : bytes m o n = bytes m' o n := by
  refine List.map_congr_left fun i hi => ?_
  have hin : i < n := List.mem_range.mp hi
  exact h (o + i) (by omega) (by omega)

/-- Two byte strings are equal when their bytes are. -/
theorem bytes_eq_iff {m m' : Mem} {o o' n : Nat} :
    bytes m o n = bytes m' o' n ↔ ∀ i < n, m (o + i) = m' (o' + i) := by
  simp only [bytes, List.map_inj_left, List.mem_range]

/-- A byte string that repeats another one repeats each of its parts. -/
theorem bytes_part {m m' : Mem} {o o' n : Nat} (h : bytes m o n = bytes m' o' n) (i k : Nat)
    (hk : i + k ≤ n) : bytes m (o + i) k = bytes m' (o' + i) k := by
  refine bytes_eq_iff.mpr fun j hj => ?_
  rw [Nat.add_assoc, Nat.add_assoc]
  exact bytes_eq_iff.mp h (i + j) (by omega)

/-- A word only depends on the bytes it covers. -/
theorem readLe_congr {m m' : Mem} {o n : Nat}
    (h : ∀ x, o ≤ x → x < o + n → m x = m' x) : readLe m o n = readLe m' o n := by
  rw [readLe, readLe, bytes_congr h]

/-- A write leaves every byte outside its range alone. -/
theorem store_of_outside {m : Mem} {o : Nat} {bs : List UInt8} {x : Nat}
    (h : x < o ∨ o + bs.length ≤ x) : store m o bs x = m x := by
  rw [store, if_neg (by omega)]

/-- A word write leaves every byte outside its range alone. -/
theorem writeLe_of_outside {m : Mem} {o n v x : Nat} (h : x < o ∨ o + n ≤ x) :
    writeLe m o n v x = m x :=
  store_of_outside (by simpa using h)

/-- A block copy leaves every byte outside its range alone. -/
theorem copyRange_of_outside {dst src : Mem} {o n x : Nat} (h : x < o ∨ o + n ≤ x) :
    copyRange dst src o n x = dst x := by
  rw [copyRange, if_neg (by omega)]

/-- Inside its range a block copy holds the source bytes. -/
theorem copyRange_of_inside {dst src : Mem} {o n x : Nat} (hlo : o ≤ x) (hhi : x < o + n) :
    copyRange dst src o n x = src x := by
  rw [copyRange, if_pos ⟨hlo, hhi⟩]

/-- Reading beside a write sees the old bytes. -/
theorem bytes_store_disjoint {m : Mem} {o p n : Nat} {bs : List UInt8}
    (h : p + n ≤ o ∨ o + bs.length ≤ p) : bytes (store m o bs) p n = bytes m p n :=
  bytes_congr fun x hlo hhi => store_of_outside (by omega)

/-- Reading a word beside a word write sees the old word. -/
theorem readLe_writeLe_disjoint {m : Mem} {o k v p n : Nat}
    (h : p + n ≤ o ∨ o + k ≤ p) : readLe (writeLe m o k v) p n = readLe m p n :=
  readLe_congr fun x hlo hhi => writeLe_of_outside (by omega)

/-! ### Reading back what was written -/

/-- A byte string just written reads back. -/
theorem bytes_store (m : Mem) (o : Nat) (bs : List UInt8) :
    bytes (store m o bs) o bs.length = bs := by
  apply List.ext_getElem
  · simp
  · intro i hi hi'
    have hib : i < bs.length := hi'
    simp [bytes, store, hib]

/-- The little-endian digits of a word denote the word modulo its range. -/
theorem ofLe_leBytes (n v : Nat) : ofLe (leBytes n v) = v % 256 ^ n := by
  induction n generalizing v with
  | zero => simp [leBytes, ofLe, Nat.mod_one]
  | succ n ih =>
    have hpow : 256 ^ (n + 1) = 256 * 256 ^ n := by ring
    rw [leBytes, ofLe, ih, hpow, Nat.mod_mul, UInt8.toNat_ofNat']

/-- A word just written reads back modulo its range. -/
theorem readLe_writeLe (m : Mem) (o n v : Nat) :
    readLe (writeLe m o n v) o n = v % 256 ^ n := by
  have h := bytes_store m o (leBytes n v)
  rw [length_leBytes] at h
  rw [readLe, writeLe, h, ofLe_leBytes]

/-! ### Machine words -/

/-- The byte at `o`, as an unsigned integer. -/
def getU8 (m : Mem) (o : Nat) : UInt8 := m o
/-- The 16-bit word at `o`. -/
def getU16 (m : Mem) (o : Nat) : UInt16 := UInt16.ofNat (readLe m o 2)
/-- The 32-bit word at `o`. -/
def getU32 (m : Mem) (o : Nat) : UInt32 := UInt32.ofNat (readLe m o 4)
/-- The 64-bit word at `o`. -/
def getU64 (m : Mem) (o : Nat) : UInt64 := UInt64.ofNat (readLe m o 8)

def setU8 (m : Mem) (o : Nat) (v : UInt8) : Mem := store m o [v]
def setU16 (m : Mem) (o : Nat) (v : UInt16) : Mem := writeLe m o 2 v.toNat
def setU32 (m : Mem) (o : Nat) (v : UInt32) : Mem := writeLe m o 4 v.toNat
def setU64 (m : Mem) (o : Nat) (v : UInt64) : Mem := writeLe m o 8 v.toNat

section Words

variable {m m' : Mem} {o o' n : Nat}

/-- A byte string that repeats another one repeats each of its words. -/
theorem getU8_part (h : bytes m o n = bytes m' o' n) (i : Nat) (hi : i < n) :
    getU8 m (o + i) = getU8 m' (o' + i) := bytes_eq_iff.mp h i hi

theorem getU16_part (h : bytes m o n = bytes m' o' n) (i : Nat) (hi : i + 2 ≤ n) :
    getU16 m (o + i) = getU16 m' (o' + i) := by
  rw [getU16, getU16, readLe, readLe, bytes_part h i 2 hi]

theorem getU16_congr (h : ∀ x, o ≤ x → x < o + 2 → m x = m' x) : getU16 m o = getU16 m' o := by
  rw [getU16, getU16, readLe_congr h]

theorem getU32_congr (h : ∀ x, o ≤ x → x < o + 4 → m x = m' x) : getU32 m o = getU32 m' o := by
  rw [getU32, getU32, readLe_congr h]

theorem getU64_congr (h : ∀ x, o ≤ x → x < o + 8 → m x = m' x) : getU64 m o = getU64 m' o := by
  rw [getU64, getU64, readLe_congr h]

@[simp] theorem getU8_setU8 (v : UInt8) : getU8 (setU8 m o v) o = v := by
  simp [getU8, setU8, store]

@[simp] theorem getU16_setU16 (v : UInt16) : getU16 (setU16 m o v) o = v := by
  have hlt : v.toNat < 256 ^ 2 := v.toNat_lt
  rw [getU16, setU16, readLe_writeLe, Nat.mod_eq_of_lt hlt, UInt16.ofNat_toNat]

@[simp] theorem getU32_setU32 (v : UInt32) : getU32 (setU32 m o v) o = v := by
  have hlt : v.toNat < 256 ^ 4 := v.toNat_lt
  rw [getU32, setU32, readLe_writeLe, Nat.mod_eq_of_lt hlt, UInt32.ofNat_toNat]

@[simp] theorem getU64_setU64 (v : UInt64) : getU64 (setU64 m o v) o = v := by
  have hlt : v.toNat < 256 ^ 8 := v.toNat_lt
  rw [getU64, setU64, readLe_writeLe, Nat.mod_eq_of_lt hlt, UInt64.ofNat_toNat]

/-- A word write leaves every byte outside its range alone. -/
theorem setU8_of_outside {v : UInt8} {x : Nat} (h : x < o ∨ o + 1 ≤ x) :
    setU8 m o v x = m x := store_of_outside (by simpa using h)

theorem setU16_of_outside {v : UInt16} {x : Nat} (h : x < o ∨ o + 2 ≤ x) :
    setU16 m o v x = m x := writeLe_of_outside h

theorem setU32_of_outside {v : UInt32} {x : Nat} (h : x < o ∨ o + 4 ≤ x) :
    setU32 m o v x = m x := writeLe_of_outside h

theorem setU64_of_outside {v : UInt64} {x : Nat} (h : x < o ∨ o + 8 ≤ x) :
    setU64 m o v x = m x := writeLe_of_outside h

end Words

end Apus.Lib
