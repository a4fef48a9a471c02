import Apus.Lib.ByteMem
import Mathlib.Data.Nat.ModEq
import Mathlib.Tactic.Linarith

namespace Apus.Lib

/-!
# Variable-length records in a circular byte buffer

Records are laid out one after the other in a buffer of `len` bytes.  No record crosses the
buffer end: one that does not fit in the bytes left there is placed at offset `0`, and the
bytes in between are skipped.

The layout is described with *positions* that only grow: position `v` is the byte `v % len`
of lap `v / len`.

* `place len v L` — where a record of `L` bytes goes when the previous one ends at `v`;
* `advance len v es` — the position after the records `es`;
* `IsOffset len v off` — the buffer offset `off` denotes position `v` (a position at a lap
  boundary has the two offsets `0` and `len`);
* `RecordFormat` — what it means for a record to be stored at an offset, and for the bytes
  skipped before it to be recognisable;
* `Chain F m len v es` — the memory holds the records `es` from position `v` on.
-/

/-! ### Positions -/

/-- Where a record of `L` bytes goes when the previous one ends at position `v`. -/
def place (len v L : Nat) : Nat :=
  if v % len + L ≤ len then v else (v / len + 1) * len

/-- The buffer offset `off` denotes position `v`. -/
def IsOffset (len v off : Nat) : Prop := off ≤ len ∧ off % len = v % len

section Positions

variable {len v L : Nat}

theorem place_of_fit (h : v % len + L ≤ len) : place len v L = v := if_pos h

theorem place_of_not_fit (h : len < v % len + L) : place len v L = (v / len + 1) * len :=
  if_neg (by omega)

theorem le_place (hlen : 0 < len) : v ≤ place len v L := by
  unfold place
  split
  · exact le_refl v
  · have hdiv := Nat.div_add_mod v len
    have hmod := Nat.mod_lt v hlen
    rw [Nat.add_mul, one_mul, Nat.mul_comm]
    omega

/-- A placed record fits before the buffer end. -/
theorem place_mod_add_le (hL : L ≤ len) : place len v L % len + L ≤ len := by
  unfold place
  split
  · assumption
  · simpa using hL

/-- A record that does not fit is placed at offset `0`. -/
theorem place_mod_of_not_fit (h : len < v % len + L) : place len v L % len = 0 := by
  rw [place_of_not_fit h, Nat.mul_mod_left]

/-- Placing a record at its own place does not move it. -/
theorem place_place (hL : L ≤ len) : place len (place len v L) L = place len v L :=
  place_of_fit (place_mod_add_le hL)

/-- The skipped bytes are those left in the lap. -/
theorem place_of_not_fit_add (h : len < v % len + L) :
    place len v L + v % len = v + len := by
  have hdiv := Nat.div_add_mod v len
  rw [place_of_not_fit h, Nat.add_mul, one_mul, Nat.mul_comm]
  omega

/-- Two positions less than a lap apart have different offsets. -/
theorem mod_ne_of_lt {x y : Nat} (hxy : x < y) (hyx : y < x + len) : x % len ≠ y % len := by
  intro h
  have hdvd : len ∣ y - x := Nat.dvd_of_mod_eq_zero (Nat.sub_mod_eq_zero_of_mod_eq h.symm)
  exact absurd (Nat.le_of_dvd (by omega) hdvd) (by omega)

/-- Inside a lap, the offset grows with the position. -/
theorem add_mod_of_lt {i : Nat} (h : v % len + i < len) : (v + i) % len = v % len + i := by
  rw [Nat.add_mod, Nat.mod_eq_of_lt (a := i) (by omega), Nat.mod_eq_of_lt h]

theorem isOffset_mod (hlen : 0 < len) : IsOffset len v (v % len) :=
  ⟨(Nat.mod_lt v hlen).le, Nat.mod_mod v len⟩

/-- An offset is the remainder of its position, or the buffer end of a lap boundary. -/
theorem IsOffset.cases {off : Nat} (hlen : 0 < len) (h : IsOffset len v off) :
    off = v % len ∨ (off = len ∧ v % len = 0) := by
  obtain ⟨hle, hmod⟩ := h
  rcases Nat.lt_or_ge off len with hlt | hge
  · left
    rwa [Nat.mod_eq_of_lt hlt] at hmod
  · right
    have heq : off = len := by omega
    subst heq
    exact ⟨rfl, by rw [← hmod, Nat.mod_self]⟩

/-- Less than a lap apart, positions with the same offset are the same. -/
theorem IsOffset.eq_of_lt {off w : Nat} (hv : IsOffset len v off) (hw : IsOffset len w off)
    (hvw : v < w + len) (hwv : w < v + len) : v = w := by
  have hmod : v % len = w % len := hv.2.symm.trans hw.2
  rcases Nat.lt_trichotomy v w with hlt | heq | hgt
  · exact absurd hmod (mod_ne_of_lt hlt hwv)
  · exact heq
  · exact absurd hmod.symm (mod_ne_of_lt hgt hvw)

/-- Offset of the position after a record that was placed inside the lap. -/
theorem IsOffset.add {off : Nat} (h : IsOffset len v off) (hL : off + L ≤ len) :
    IsOffset len (v + L) (off + L) :=
  ⟨hL, by rw [Nat.add_mod, h.2, ← Nat.add_mod]⟩

/-- Bytes from an offset are bytes from its position. -/
theorem IsOffset.trans {off off' n : Nat} (h : IsOffset len v off)
    (h' : IsOffset len (off + n) off') : IsOffset len (v + n) off' :=
  ⟨h'.1, by rw [h'.2, Nat.add_mod, h.2, ← Nat.add_mod]⟩

end Positions

/-! ### Distance to the end -/

/-- The circular distance from offset `off` forward to offset `e`. -/
def ringDist (len e off : Nat) : Nat := if off ≤ e then e - off else len - (off - e)

/-- Less than a lap behind the end, the circular distance is the distance of positions. -/
theorem ringDist_eq {len v V off e : Nat} (hlen : 0 < len) (hoff : IsOffset len v off)
    (he : IsOffset len V e) (hne : e ≠ len) (hvV : v ≤ V) (hVv : V < v + len) :
    ringDist len e off = V - v := by
  have heq : e = V % len := by
    rcases he.cases hlen with h | ⟨h, _⟩
    · exact h
    · exact absurd h hne
  have hV := Nat.div_add_mod V len
  have hv := Nat.div_add_mod v len
  have hVm := Nat.mod_lt V hlen
  have hvm := Nat.mod_lt v hlen
  -- the end is on the lap of the offset, or on the next one
  have hdivle : v / len ≤ V / len := Nat.div_le_div_right hvV
  have hdivlt : V / len ≤ v / len + 1 := by
    have h1 : V / len ≤ (v + len) / len := Nat.div_le_div_right hVv.le
    rwa [Nat.add_div_right v hlen] at h1
  unfold ringDist
  rcases Nat.eq_or_lt_of_le hdivle with hsame | hnext
  · rw [hsame] at hv
    rcases hoff.cases hlen with hcase | ⟨hcase, hzero⟩
    · rw [if_pos (by omega)]
      omega
    · rw [if_neg (by omega)]
      omega
  · have hsucc : V / len = v / len + 1 := by omega
    rw [hsucc, Nat.mul_add, mul_one] at hV
    rcases hoff.cases hlen with hcase | ⟨hcase, hzero⟩
    · -- on the next lap the end is below the offset
      rcases Nat.lt_or_ge (V % len) (v % len) with hlt | hge
      · rw [if_neg (by omega)]
        omega
      · omega
    · omega

/-- The same distance as a remainder, for offsets that may also be the buffer end. -/
theorem add_sub_mod_eq {len v V off e : Nat} (hoff : IsOffset len v off) (he : IsOffset len V e)
    (hvV : v ≤ V) (hVv : V < v + len) : (e + len - off) % len = V - v := by
  have hle := hoff.1
  have hmod : e + len - off ≡ V - v [MOD len] := by
    refine Nat.ModEq.add_right_cancel' off ?_
    calc e + len - off + off = e + len := by omega
      _ ≡ V [MOD len] := by rw [Nat.ModEq, Nat.add_mod_right]; exact he.2
      _ = V - v + v := by omega
      _ ≡ V - v + off [MOD len] := Nat.ModEq.add_left _ hoff.2.symm
  rw [hmod, Nat.mod_eq_of_lt (by omega)]

/-! ### Copying between two rings -/

/-- The offset of a position less than a lap ahead. -/
theorem add_mod_eq_ite {len d : Nat} (v : Nat) (hd : d < len) :
    (v + d) % len = if v % len + d < len then v % len + d else v % len + d - len := by
  have hmod := Nat.mod_lt v (show 0 < len by omega)
  rw [Nat.add_mod, Nat.mod_eq_of_lt hd]
  split
  · exact Nat.mod_eq_of_lt ‹_›
  · rw [Nat.mod_eq_sub_mod (by omega), Nat.mod_eq_of_lt (by omega)]

/-- The memory after the bytes from offset `start` forward to offset `stop` were copied from
    another ring: one block, or two around the buffer end. -/
def ringCopy (len : Nat) (dst src : Mem) (start stop : Nat) : Mem :=
  if start < stop then copyRange dst src start (stop - start)
  else copyRange (copyRange dst src start (len - start)) src 0 stop

section RingCopy

variable {len v V start stop x : Nat} {dst src : Mem}

/-- The copied positions hold the source bytes. -/
theorem ringCopy_of_inside (hstart : start = v % len) (hstop : stop = V % len)
    (hVv : V < v + len) (hlo : v ≤ x) (hhi : x < V) :
    ringCopy len dst src start stop (x % len) = src (x % len) := by
  obtain ⟨d, rfl⟩ := Nat.exists_eq_add_of_le hlo
  obtain ⟨D, rfl⟩ := Nat.exists_eq_add_of_le (show v ≤ V by omega)
  have hmod := Nat.mod_lt v (show 0 < len by omega)
  have hx := add_mod_eq_ite v (show d < len by omega)
  have hV := add_mod_eq_ite v (show D < len by omega)
  rw [← hstop, ← hstart] at hV
  rw [← hstart] at hx hmod
  unfold ringCopy
  split_ifs at * <;> first
    | exact copyRange_of_inside (by omega) (by omega)
    | (rw [copyRange_of_outside (by omega)]; exact copyRange_of_inside (by omega) (by omega))

/-- The other positions keep their bytes. -/
theorem ringCopy_of_outside (hstart : start = v % len) (hstop : stop = V % len) (hvV : v < V)
    (hlo : V ≤ x) (hhi : x < v + len) :
    ringCopy len dst src start stop (x % len) = dst (x % len) := by
  obtain ⟨d, rfl⟩ := Nat.exists_eq_add_of_le (show v ≤ x by omega)
  obtain ⟨D, rfl⟩ := Nat.exists_eq_add_of_le hvV.le
  have hmod := Nat.mod_lt v (show 0 < len by omega)
  have hx := add_mod_eq_ite v (show d < len by omega)
  have hV := add_mod_eq_ite v (show D < len by omega)
  rw [← hstop, ← hstart] at hV
  rw [← hstart] at hx hmod
  unfold ringCopy
  split_ifs at * <;> first
    | exact copyRange_of_outside (by omega)
    | (rw [copyRange_of_outside (by omega)]; exact copyRange_of_outside (by omega))

end RingCopy

/-! ### Record formats and chains -/

/-- How records of type `α` are stored in a byte buffer.  `stored m o e` says that the bytes
    from `o` on are the record `e`; `skipped m o e` says that the header left at `o` tells a
    reader to continue at offset `0`, where `e` is. -/
structure RecordFormat (α : Type) where
  /-- Bytes of a record's header. -/
  hdr : Nat
  /-- Bytes of a record. -/
  size : α → Nat
  hdr_pos : 0 < hdr
  hdr_le_size : ∀ e, hdr ≤ size e
  stored : Mem → Nat → α → Prop
  skipped : Mem → Nat → α → Prop
  /-- Storedness only depends on the bytes of the record. -/
  stored_congr : ∀ {m m' : Mem} {o : Nat} {e : α},
    (∀ x, o ≤ x → x < o + size e → m x = m' x) → stored m o e → stored m' o e
  /-- Being skipped only depends on the bytes of a header. -/
  skipped_congr : ∀ {m m' : Mem} {o : Nat} {e : α},
    (∀ x, o ≤ x → x < o + hdr → m x = m' x) → skipped m o e → skipped m' o e

variable {α : Type} (F : RecordFormat α)

/-- The position after the records `es`, started at position `v`. -/
def advance (len : Nat) : Nat → List α → Nat
  | v, [] => v
  | v, e :: es => advance len (place len v (F.size e) + F.size e) es

/-- The record `e` is in place for a reader that arrives at position `v`. -/
structure InPlace (m : Mem) (len v : Nat) (e : α) : Prop where
  size_le : F.size e ≤ len
  stored : F.stored m (place len v (F.size e) % len) e
  /-- If the bytes left in the lap hold a header but not the record, that header is readable. -/
  skipped : v % len + F.hdr ≤ len → len < v % len + F.size e → F.skipped m (v % len) e

/-- The memory holds the records `es` from position `v` on. -/
def Chain (m : Mem) (len : Nat) : Nat → List α → Prop
  | _, [] => True
  | v, e :: es => InPlace F m len v e ∧ Chain m len (place len v (F.size e) + F.size e) es

section Chains

variable {F} {m m' : Mem} {len v : Nat}

theorem le_advance (hlen : 0 < len) (es : List α) : v ≤ advance F len v es := by
  induction es generalizing v with
  | nil => exact le_refl v
  | cons e es ih =>
    calc v ≤ place len v (F.size e) := le_place hlen
      _ ≤ place len v (F.size e) + F.size e := Nat.le_add_right _ _
      _ ≤ advance F len v (e :: es) := ih

/-- Every record takes at least a header. -/
theorem length_mul_hdr_le_advance (hlen : 0 < len) (es : List α) :
    v + es.length * F.hdr ≤ advance F len v es := by
  induction es generalizing v with
  | nil => simp [advance]
  | cons e es ih =>
    have hplace : v ≤ place len v (F.size e) := le_place hlen
    have hsize := F.hdr_le_size e
    calc v + (e :: es).length * F.hdr
        = v + F.hdr + es.length * F.hdr := by rw [List.length_cons]; ring
      _ ≤ place len v (F.size e) + F.size e + es.length * F.hdr := by omega
      _ ≤ advance F len v (e :: es) := ih

theorem lt_advance_cons (hlen : 0 < len) (e : α) (es : List α) :
    v < advance F len v (e :: es) := by
  have h := length_mul_hdr_le_advance (F := F) (v := v) hlen (e :: es)
  have hpos := F.hdr_pos
  rw [List.length_cons, Nat.add_mul, one_mul] at h
  omega

theorem advance_append (es fs : List α) :
    advance F len v (es ++ fs) = advance F len (advance F len v es) fs := by
  induction es generalizing v with
  | nil => rfl
  | cons e es ih => exact ih

theorem chain_append (es fs : List α) :
    Chain F m len v (es ++ fs) ↔
      Chain F m len v es ∧ Chain F m len (advance F len v es) fs := by
  induction es generalizing v with
  | nil => simp [Chain, advance]
  | cons e es ih => simp only [List.cons_append, Chain, advance, ih, and_assoc]

theorem advance_singleton (e : α) :
    advance F len v [e] = place len v (F.size e) + F.size e := rfl

theorem chain_singleton (e : α) : Chain F m len v [e] ↔ InPlace F m len v e := by
  simp [Chain]

/-- A record in place stays in place when the bytes of its window do not change. -/
theorem InPlace.congr {e : α} (hlen : 0 < len)
    (h : ∀ x, v ≤ x → x < place len v (F.size e) + F.size e → m (x % len) = m' (x % len))
    (hin : InPlace F m len v e) : InPlace F m' len v e := by
  have hplace : v ≤ place len v (F.size e) := le_place hlen
  refine ⟨hin.size_le, F.stored_congr ?_ hin.stored, fun hfit hnot =>
    F.skipped_congr ?_ (hin.skipped hfit hnot)⟩
  · intro x hlo hhi
    have hfits := place_mod_add_le (v := v) hin.size_le
    have hx : (place len v (F.size e) + (x - place len v (F.size e) % len)) % len = x := by
      rw [add_mod_of_lt (by omega)]; omega
    rw [← hx]
    exact h _ (by omega) (by omega)
  · intro x hlo hhi
    have hx : (v + (x - v % len)) % len = x := by
      rcases Nat.lt_or_ge x len with hlt | hge
      · rw [add_mod_of_lt (by omega)]; omega
      · omega
    have hskip := place_of_not_fit_add hnot
    have hmod := Nat.mod_lt v hlen
    rw [← hx]
    exact h _ (by omega) (by omega)

/-- A chain survives a change of memory outside its window. -/
theorem Chain.congr (hlen : 0 < len) {es : List α}
    (h : ∀ x, v ≤ x → x < advance F len v es → m (x % len) = m' (x % len))
    (hc : Chain F m len v es) : Chain F m' len v es := by
  induction es generalizing v with
  | nil => trivial
  | cons e es ih =>
    have hplace : v ≤ place len v (F.size e) := le_place hlen
    have htail : place len v (F.size e) + F.size e ≤ advance F len v (e :: es) :=
      le_advance hlen es
    refine ⟨hc.1.congr hlen fun x hlo hhi => h x hlo (by omega), ih ?_ hc.2⟩
    intro x hlo hhi
    exact h x (by omega) hhi

/-- A reader may also arrive at the very place of the first record. -/
theorem Chain.at_place {e : α} {es : List α} (hc : Chain F m len v (e :: es)) :
    Chain F m len (place len v (F.size e)) (e :: es) := by
  have hsize := hc.1.size_le
  refine ⟨⟨hsize, ?_, fun _ hnot => ?_⟩, ?_⟩
  · rw [place_place hsize]; exact hc.1.stored
  · exact absurd (place_mod_add_le (v := v) hsize) (by omega)
  · rw [place_place hsize]; exact hc.2

theorem advance_at_place {e : α} {es : List α} (hsize : F.size e ≤ len) :
    advance F len (place len v (F.size e)) (e :: es) = advance F len v (e :: es) := by
  rw [advance, advance, place_place hsize]

end Chains

/-! ### Records that do not wrap -/

/-- There is no lap boundary between the positions, other than at the ends. -/
def Unwrapped (len v V : Nat) : Prop := v % len + (V - v) ≤ len

section Unwrapped

variable {F} {len v w V x : Nat} {e : α} {es : List α}

theorem Unwrapped.mod_eq (h : Unwrapped len v V) (hlo : v ≤ x) (hhi : x < V) :
    x % len = v % len + (x - v) := by
  obtain ⟨d, rfl⟩ := Nat.exists_eq_add_of_le hlo
  unfold Unwrapped at h
  rw [Nat.add_sub_cancel_left]
  exact add_mod_of_lt (by omega)

/-- The records from a later position on do not wrap either. -/
theorem Unwrapped.mono (h : Unwrapped len v V) (hvw : v ≤ w) (hwV : w ≤ V) : Unwrapped len w V := by
  rcases Nat.eq_or_lt_of_le hwV with rfl | hlt
  · rcases Nat.eq_zero_or_pos len with rfl | hlen
    · unfold Unwrapped at h ⊢
      rw [Nat.mod_zero] at h ⊢
      omega
    · have hmod := Nat.mod_lt w hlen
      unfold Unwrapped
      omega
  · have hmod := h.mod_eq hvw hlt
    unfold Unwrapped at h ⊢
    omega

/-- The first record is where the reader arrives. -/
theorem Unwrapped.place_eq (hlen : 0 < len) (h : Unwrapped len v (advance F len v (e :: es))) :
    place len v (F.size e) = v := by
  by_contra hne
  have hnot : len < v % len + F.size e := by
    by_contra hfit
    exact hne (place_of_fit (by omega))
  have hskip := place_of_not_fit_add hnot
  have hmod := Nat.mod_lt v hlen
  have hle : place len v (F.size e) + F.size e ≤ advance F len v (e :: es) := le_advance hlen es
  have hsize := F.hdr_le_size e
  have hpos := F.hdr_pos
  unfold Unwrapped at h
  omega

end Unwrapped

/-! ### Where a reader finds the records -/

variable {F}

/-- The offsets of the records `es` started at position `v`. -/
def offsets (F : RecordFormat α) (len : Nat) : Nat → List α → List Nat
  | _, [] => []
  | v, e :: es =>
    place len v (F.size e) % len :: offsets F len (place len v (F.size e) + F.size e) es

/-- The offset at which a reader that arrives at position `v` looks for a header: the end of
    the previous record if a header fits there, otherwise `0`. -/
def headerOffset (F : RecordFormat α) (len v : Nat) : Nat :=
  if v % len + F.hdr ≤ len then v % len else 0

/-- The offsets of the headers, read or left, of the records `es` started at position `v`. -/
def headerOffsets (F : RecordFormat α) (len : Nat) : Nat → List α → List Nat
  | _, [] => []
  | v, e :: es => headerOffset F len v :: headerOffsets F len (place len v (F.size e) + F.size e) es

section Offsets

variable {m : Mem} {len v : Nat}

@[simp] theorem length_offsets (es : List α) : (offsets F len v es).length = es.length := by
  induction es generalizing v with
  | nil => rfl
  | cons e es ih => simp [offsets, ih]

@[simp] theorem length_headerOffsets (es : List α) :
    (headerOffsets F len v es).length = es.length := by
  induction es generalizing v with
  | nil => rfl
  | cons e es ih => simp [headerOffsets, ih]

theorem offsets_append (es fs : List α) :
    offsets F len v (es ++ fs) = offsets F len v es ++ offsets F len (advance F len v es) fs := by
  induction es generalizing v with
  | nil => rfl
  | cons e es ih => simp [offsets, advance, ih]

theorem headerOffsets_append (es fs : List α) :
    headerOffsets F len v (es ++ fs) =
      headerOffsets F len v es ++ headerOffsets F len (advance F len v es) fs := by
  induction es generalizing v with
  | nil => rfl
  | cons e es ih => simp [headerOffsets, advance, ih]

/-- Records are found at positions between the first and the last one. -/
theorem exists_position_of_mem_offsets (hlen : 0 < len) {es : List α} {o : Nat}
    (h : o ∈ offsets F len v es) :
    ∃ p, v ≤ p ∧ p + F.hdr ≤ advance F len v es ∧ p % len = o := by
  induction es generalizing v with
  | nil => exact absurd h (List.not_mem_nil)
  | cons e es ih =>
    have hplace : v ≤ place len v (F.size e) := le_place hlen
    have hpos := F.hdr_pos
    have hsize := F.hdr_le_size e
    rcases List.mem_cons.mp h with rfl | hmem
    · have hle : place len v (F.size e) + F.size e ≤ advance F len v (e :: es) :=
        le_advance hlen es
      exact ⟨place len v (F.size e), hplace, by omega, rfl⟩
    · obtain ⟨p, hlo, hhi, hp⟩ := ih hmem
      exact ⟨p, by omega, hhi, hp⟩

/-- Records that take less than a lap are found at different offsets. -/
theorem nodup_offsets (hlen : 0 < len) {es : List α} (h : advance F len v es < v + len) :
    (offsets F len v es).Nodup := by
  induction es generalizing v with
  | nil => exact List.nodup_nil
  | cons e es ih =>
    have hplace : v ≤ place len v (F.size e) := le_place hlen
    have hpos := F.hdr_pos
    have hsize := F.hdr_le_size e
    have hrest : advance F len v (e :: es) =
      advance F len (place len v (F.size e) + F.size e) es := rfl
    refine List.nodup_cons.mpr ⟨fun hmem => ?_, ih (by omega)⟩
    obtain ⟨p, hlo, hhi, hp⟩ := exists_position_of_mem_offsets hlen hmem
    exact mod_ne_of_lt (by omega) (by omega) hp.symm

/-- A place in the ring only depends on the offset that it is looked for from. -/
theorem place_mod_congr {v' L : Nat} (h : v % len = v' % len) :
    place len v L % len = place len v' L % len := by
  unfold place
  rw [h]
  split
  · exact h
  · rw [Nat.mul_mod_left, Nat.mul_mod_left]

/-- So do the offsets of records. -/
theorem offsets_congr {v' : Nat} (h : v % len = v' % len) (es : List α) :
    offsets F len v es = offsets F len v' es := by
  induction es generalizing v v' with
  | nil => rfl
  | cons e es ih =>
    have hplace : place len v (F.size e) % len = place len v' (F.size e) % len := place_mod_congr h
    have hnext : (place len v (F.size e) + F.size e) % len =
        (place len v' (F.size e) + F.size e) % len := Nat.ModEq.add_right _ hplace
    rw [offsets, offsets, hplace, ih hnext]

/-- The records of a chain are stored at its offsets. -/
theorem Chain.stored_offsets {es : List α} (hc : Chain F m len v es) :
    List.Forall₂ (F.stored m) (offsets F len v es) es := by
  induction es generalizing v with
  | nil => exact List.Forall₂.nil
  | cons e es ih => exact List.Forall₂.cons hc.1.stored (ih hc.2)

end Offsets

end Apus.Lib
