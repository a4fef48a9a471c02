import Apus.Lib.Ring

namespace Apus.Lib

/-!
# Timelines

A timeline is the list of all the records ever laid out in a ring, the first one at position
`0`; the ring only holds a window of it.  A cursor of the ring denotes a place between two
records of the timeline:

* `pos F len es n` — the position after the first `n` records;
* `Mark F len es n v` — `v` is a position of the place after the first `n` records: that
  position itself, or the start of the next record if it was moved to the next lap;
* `SoftMark F len es n v` — the same, moved only where a header is left for a reader to find;
* `Window F m len es lo u` — the memory holds the records from the mark `u` on, which is less
  than a lap before the end of the timeline; it does so from every later mark (`Window.advance`),
  after an append (`Window.append`), after a copy of further records (`Window.copy`) and for a
  shorter timeline (`Window.take`).
-/

variable {α : Type} {F : RecordFormat α} {m m' : Mem} {len n k v w : Nat} {e : α} {es fs : List α}

/-- The position after the first `n` records. -/
def pos (F : RecordFormat α) (len : Nat) (es : List α) (n : Nat) : Nat :=
  advance F len 0 (es.take n)

/-- `v` is a position of the place after the first `n` records. -/
def Mark (F : RecordFormat α) (len : Nat) (es : List α) (n v : Nat) : Prop :=
  v = pos F len es n ∨ ∃ e, es[n]? = some e ∧ v = place len (pos F len es n) (F.size e)

/-- A mark that is moved to the next lap only past a header. -/
def SoftMark (F : RecordFormat α) (len : Nat) (es : List α) (n v : Nat) : Prop :=
  v = pos F len es n ∨ ∃ e, es[n]? = some e ∧ pos F len es n % len + F.hdr ≤ len ∧
    v = place len (pos F len es n) (F.size e)

/-! ### Positions -/

@[simp] theorem pos_zero : pos F len es 0 = 0 := by simp [pos, advance]

theorem pos_succ (h : es[n]? = some e) :
    pos F len es (n + 1) = place len (pos F len es n) (F.size e) + F.size e := by
  rw [pos, List.take_add_one, h, Option.toList_some, advance_append, advance_singleton, pos]

theorem pos_append (h : n ≤ es.length) : pos F len (es ++ fs) n = pos F len es n := by
  rw [pos, List.take_append_of_le_length h, pos]

theorem pos_take (h : n ≤ k) : pos F len (es.take k) n = pos F len es n := by
  rw [pos, List.take_take, Nat.min_eq_left h, pos]

theorem pos_length : pos F len es es.length = advance F len 0 es := by
  rw [pos, List.take_length]

theorem pos_length_append (e : α) : pos F len (es ++ [e]) (es.length + 1) =
    place len (pos F len es es.length) (F.size e) + F.size e := by
  have h : (es ++ [e])[es.length]? = some e := by simp
  rw [pos_succ h, pos_append (le_refl _)]

/-- Past the last record the position does not grow. -/
theorem pos_of_length_le (h : es.length ≤ n) : pos F len es n = pos F len es es.length := by
  rw [pos, pos, List.take_of_length_le h, List.take_length]

theorem advance_drop_eq_pos (h : n ≤ k) :
    advance F len (pos F len es n) ((es.drop n).take (k - n)) = pos F len es k := by
  obtain ⟨d, rfl⟩ := Nat.exists_eq_add_of_le h
  rw [Nat.add_sub_cancel_left, pos, ← advance_append, ← List.take_add, pos]

theorem pos_mono (hlen : 0 < len) (h : n ≤ k) : pos F len es n ≤ pos F len es k := by
  rw [← advance_drop_eq_pos h]
  exact le_advance hlen _

/-- The records that start before the end of the timeline take at least a header. -/
theorem pos_add_hdr_le (hlen : 0 < len) (h : n < k) (hn : n < es.length) :
    pos F len es n + F.hdr ≤ pos F len es k := by
  have hget : es[n]? = some es[n] := List.getElem?_eq_getElem hn
  have hplace : pos F len es n ≤ place len (pos F len es n) (F.size es[n]) := le_place hlen
  have hsize := F.hdr_le_size es[n]
  have hstep : pos F len es (n + 1) = place len (pos F len es n) _ + _ := pos_succ hget
  have hmono : pos F len es (n + 1) ≤ pos F len es k := pos_mono hlen h
  omega

/-! ### Marks -/

theorem Mark.pos (n : Nat) : Mark F len es n (pos F len es n) := .inl rfl
theorem SoftMark.pos (n : Nat) : SoftMark F len es n (pos F len es n) := .inl rfl

theorem SoftMark.mark (h : SoftMark F len es n v) : Mark F len es n v := by
  rcases h with h | ⟨e, he, -, hv⟩
  · exact .inl h
  · exact .inr ⟨e, he, hv⟩

theorem Mark.pos_le (hlen : 0 < len) (h : Mark F len es n v) : Lib.pos F len es n ≤ v := by
  rcases h with rfl | ⟨e, -, rfl⟩
  · exact le_refl _
  · exact le_place hlen

/-- A mark at the offset of the end of the records before it is that end. -/
theorem Mark.eq_pos (hv : Mark F len es n v) (hsize : ∀ e ∈ es, F.size e ≤ len)
    (hmod : v % len = Lib.pos F len es n % len) : v = Lib.pos F len es n := by
  rcases hv with rfl | ⟨e, he, rfl⟩
  · rfl
  · have hle := hsize e (List.mem_of_getElem? he)
    by_cases hfit : Lib.pos F len es n % len + F.size e ≤ len
    · exact place_of_fit hfit
    · -- the record is at offset `0`, where it fits
      rw [place_mod_of_not_fit (Nat.lt_of_not_le hfit)] at hmod
      omega

/-- A place before a record is before the places after it. -/
theorem Mark.lt (hlen : 0 < len) (hv : Mark F len es n v) (hw : Mark F len es k w) (h : n < k)
    (hn : n < es.length) : v < w := by
  have hpos := F.hdr_pos
  have hk := hw.pos_le hlen
  rcases hv with rfl | ⟨e, he, rfl⟩
  · have hlt : Lib.pos F len es n + F.hdr ≤ Lib.pos F len es k := pos_add_hdr_le hlen h hn
    omega
  · have hsize := F.hdr_le_size e
    have hstep : Lib.pos F len es (n + 1) = place len (Lib.pos F len es n) _ + _ := pos_succ he
    have hmono : Lib.pos F len es (n + 1) ≤ Lib.pos F len es k := pos_mono hlen h
    omega

/-- Places are ordered by the number of records before them. -/
theorem Mark.le_of_le (hlen : 0 < len) (hv : Mark F len es n v) (hw : Mark F len es k w)
    (h : v ≤ w) (hn : n ≤ es.length) : n ≤ k := by
  by_contra hcon
  exact absurd (hw.lt hlen hv (Nat.lt_of_not_le hcon) (by omega)) (Nat.not_lt.mpr h)

theorem Mark.append (hn : n ≤ es.length) (h : Mark F len es n v) : Mark F len (es ++ fs) n v := by
  rcases h with h | ⟨e, he, hv⟩
  · exact .inl (by rw [h, pos_append hn])
  · refine .inr ⟨e, ?_, by rw [hv, pos_append hn]⟩
    rw [List.getElem?_append_left (List.getElem?_eq_some_iff.mp he).1]
    exact he

/-- A mark of a longer timeline, for a shorter one that reaches it. -/
theorem Mark.take (hlen : 0 < len) (h : Mark F len es n v) (hn : n ≤ k)
    (hend : v ≤ Lib.pos F len es k) : Mark F len (es.take k) n v := by
  rcases Nat.lt_or_eq_of_le hn with hlt | rfl
  · rcases h with h | ⟨e, he, hv⟩
    · exact .inl (by rw [h, pos_take hn])
    · exact .inr ⟨e, by rw [List.getElem?_take_of_lt hlt]; exact he, by rw [hv, pos_take hn]⟩
  · exact .inl (by rw [pos_take (le_refl n)]; exact le_antisymm hend (h.pos_le hlen))

theorem SoftMark.append (hn : n ≤ es.length) (h : SoftMark F len es n v) :
    SoftMark F len (es ++ fs) n v := by
  rcases h with h | ⟨e, he, hfit, hv⟩
  · exact .inl (by rw [h, pos_append hn])
  · refine .inr ⟨e, ?_, by rw [pos_append hn]; exact hfit, by rw [hv, pos_append hn]⟩
    rw [List.getElem?_append_left (List.getElem?_eq_some_iff.mp he).1]
    exact he

theorem SoftMark.take (hlen : 0 < len) (h : SoftMark F len es n v) (hn : n ≤ k)
    (hend : v ≤ Lib.pos F len es k) : SoftMark F len (es.take k) n v := by
  rcases Nat.lt_or_eq_of_le hn with hlt | rfl
  · rcases h with h | ⟨e, he, hfit, hv⟩
    · exact .inl (by rw [h, pos_take hn])
    · refine .inr ⟨e, ?_, by rw [pos_take hn]; exact hfit, by rw [hv, pos_take hn]⟩
      rw [List.getElem?_take_of_lt hlt]
      exact he
  · exact .inl (by rw [pos_take (le_refl n)]; exact le_antisymm hend (h.mark.pos_le hlen))

/-- A mark of a shorter timeline is one of the longer timeline. -/
theorem SoftMark.of_take (h : SoftMark F len (es.take k) n v) (hn : n ≤ k) (hk : k ≤ es.length) :
    SoftMark F len es n v := by
  rw [← List.take_append_drop k es]
  exact h.append (by rw [List.length_take_of_le hk]; exact hn)

/-- From a mark where a header fits but the next record does not, the record is at a mark. -/
theorem SoftMark.rewound (he : es[n]? = some e) (hv : Mark F len es n v)
    (hheader : v % len + F.hdr ≤ len) (hnot : len < v % len + F.size e) (hsize : F.size e ≤ len) :
    SoftMark F len es n (place len v (F.size e)) := by
  rcases hv with rfl | ⟨e', he', rfl⟩
  · exact .inr ⟨e, he, hheader, rfl⟩
  · obtain rfl := Option.some.inj (he.symm.trans he')
    exact absurd (place_mod_add_le (v := Lib.pos F len es n) hsize) (Nat.not_le.mpr hnot)

/-- Of two marks of the same place, the later one is behind a header. -/
theorem SoftMark.eq_place (hlen : 0 < len) (hv : SoftMark F len es n v)
    (hw : SoftMark F len es n w) (hvw : v < w) (he : es[n]? = some e) :
    w = place len v (F.size e) ∧ v % len + F.hdr ≤ len := by
  rcases hw with hw | ⟨e', he', hheader, hw⟩
  · exact absurd (hv.mark.pos_le hlen) (by omega)
  · obtain rfl := Option.some.inj (he.symm.trans he')
    rcases hv with hv | ⟨e'', he'', -, hv⟩
    · rw [hv]
      exact ⟨hw, hheader⟩
    · obtain rfl := Option.some.inj (he.symm.trans he'')
      omega

/-! ### Chains from a mark -/

theorem drop_eq_cons (h : es[n]? = some e) : es.drop n = e :: es.drop (n + 1) := by
  obtain ⟨hlt, rfl⟩ := List.getElem?_eq_some_iff.mp h
  exact List.drop_eq_getElem_cons hlt

/-- From the start of the next record, some records end where they end from the place before. -/
theorem Mark.advance_take (hv : Mark F len es n v) (h : n < k) (hsize : ∀ e ∈ es, F.size e ≤ len) :
    advance F len v ((es.drop n).take (k - n)) = Lib.pos F len es k := by
  have hraw : advance F len (Lib.pos F len es n) _ = Lib.pos F len es k := advance_drop_eq_pos h.le
  rcases hv with rfl | ⟨e, he, rfl⟩
  · exact hraw
  · rw [drop_eq_cons he, show k - n = (k - (n + 1)) + 1 by omega, List.take_succ_cons] at hraw ⊢
    rw [← hraw]
    exact advance_at_place (hsize e (List.mem_of_getElem? he))

/-- From a mark, the rest of the records ends at the end of the timeline. -/
theorem Mark.advance_drop (hv : Mark F len es n v) (hn : n ≤ es.length)
    (hle : v ≤ Lib.pos F len es es.length) (hlen : 0 < len) (hsize : ∀ e ∈ es, F.size e ≤ len) :
    advance F len v (es.drop n) = Lib.pos F len es es.length := by
  rcases Nat.lt_or_eq_of_le hn with hlt | rfl
  · have h := hv.advance_take hlt hsize
    rwa [← List.length_drop, List.take_length] at h
  · rw [List.drop_length]
    exact le_antisymm hle (hv.pos_le hlen)

/-- A chain from a mark holds the records behind every later mark. -/
theorem Chain.of_mark (hlen : 0 < len) (hsize : ∀ e ∈ es, F.size e ≤ len)
    (hc : Chain F m len v (es.drop n)) (hv : Mark F len es n v) (hw : Mark F len es k w)
    (hvw : v ≤ w) (hn : n ≤ es.length) : Chain F m len w (es.drop k) := by
  rcases Nat.lt_trichotomy n k with hlt | rfl | hgt
  · have hsplit := List.take_append_drop (k - n) (es.drop n)
    rw [List.drop_drop, Nat.add_sub_cancel' hlt.le] at hsplit
    rw [← hsplit, chain_append, hv.advance_take hlt hsize] at hc
    rcases hw with rfl | ⟨e, he, rfl⟩
    · exact hc.2
    · rw [drop_eq_cons he] at hc ⊢
      exact hc.2.at_place
  · rcases hw with rfl | ⟨e, he, rfl⟩
    · rwa [le_antisymm hvw (hv.pos_le hlen)] at hc
    · rw [drop_eq_cons he] at hc ⊢
      rcases hv with rfl | ⟨e', he', rfl⟩
      · exact hc.at_place
      · rw [he] at he'
        rwa [← Option.some.inj he'] at hc
  · rcases Nat.lt_or_ge k es.length with hk | hk
    · exact absurd (hw.lt hlen hv hgt hk) (Nat.not_lt.mpr hvw)
    · omega

/-- From every mark, the next record has the same place. -/
theorem Mark.place_eq (hv : Mark F len es n v) (he : es[n]? = some e) (hsize : F.size e ≤ len) :
    place len v (F.size e) = place len (Lib.pos F len es n) (F.size e) := by
  rcases hv with rfl | ⟨e', he', rfl⟩
  · rfl
  · obtain rfl := Option.some.inj (he.symm.trans he')
    exact place_place hsize

/-- From every mark, the records behind it have the same offsets. -/
theorem Mark.offsets_drop (hv : Mark F len es n v) (hsize : ∀ e ∈ es, F.size e ≤ len) :
    offsets F len v (es.drop n) = offsets F len (Lib.pos F len es n) (es.drop n) := by
  rcases Nat.lt_or_ge n es.length with hlt | hge
  · have he : es[n]? = some es[n] := List.getElem?_eq_getElem hlt
    rw [drop_eq_cons he, offsets, offsets, hv.place_eq he (hsize _ (List.getElem_mem hlt))]
  · rw [List.drop_of_length_le hge]
    rfl

/-! ### Windows -/

/-- The memory holds the records behind the mark `u`, which has `lo` records before it. -/
structure Window (F : RecordFormat α) (m : Mem) (len : Nat) (es : List α) (lo u : Nat) : Prop where
  hdr_le_len : F.hdr ≤ len
  size_le : ∀ e ∈ es, F.size e ≤ len
  lo_le : lo ≤ es.length
  mark : Mark F len es lo u
  le_end : u ≤ pos F len es es.length
  window : pos F len es es.length < u + len
  chain : Chain F m len u (es.drop lo)

section Window

variable {lo u : Nat}

theorem Window.len_pos (h : Window F m len es lo u) : 0 < len :=
  Nat.lt_of_lt_of_le F.hdr_pos h.hdr_le_len

/-- An empty timeline. -/
theorem window_nil (m : Mem) (h : F.hdr ≤ len) : Window F m len [] 0 0 where
  hdr_le_len := h
  size_le := by simp
  lo_le := le_refl _
  mark := Mark.pos 0
  le_end := Nat.zero_le _
  window := by
    have hpos := F.hdr_pos
    rw [List.length_nil, pos_zero]
    omega
  chain := trivial

/-- The records behind the mark end at the end of the timeline. -/
theorem Window.stop (h : Window F m len es lo u) :
    advance F len u (es.drop lo) = pos F len es es.length :=
  h.mark.advance_drop h.lo_le h.le_end h.len_pos h.size_le

/-- A window from a later mark. -/
theorem Window.advance (h : Window F m len es lo u) (hv : Mark F len es n v) (hn : n ≤ es.length)
    (huv : u ≤ v) (hend : v ≤ pos F len es es.length) : Window F m len es n v where
  hdr_le_len := h.hdr_le_len
  size_le := h.size_le
  lo_le := hn
  mark := hv
  le_end := hend
  window := by have := h.window; omega
  chain := h.chain.of_mark h.len_pos h.size_le h.mark hv huv h.lo_le

/-- A window of the first `n` records. -/
theorem Window.take (h : Window F m len es lo u) (hlo : lo ≤ n) (hn : n ≤ es.length)
    (hend : u ≤ pos F len es n) : Window F m len (es.take n) lo u := by
  have hlength : (es.take n).length = n := List.length_take_of_le hn
  have hmono : pos F len es n ≤ pos F len es es.length := pos_mono h.len_pos hn
  have hwindow := h.window
  refine ⟨h.hdr_le_len, fun e he => h.size_le e (List.mem_of_mem_take he), by omega, ?_, ?_, ?_, ?_⟩
  · exact h.mark.take h.len_pos hlo hend
  · rw [hlength, pos_take (le_refl n)]
    exact hend
  · rw [hlength, pos_take (le_refl n)]
    omega
  · rw [List.drop_take]
    have hchain := h.chain
    rw [← List.take_append_drop (n - lo) (es.drop lo), chain_append] at hchain
    exact hchain.1

/-- A new record that is in place and leaves the window alone extends the timeline. -/
theorem Window.append (h : Window F m len es lo u)
    (hin : InPlace F m' len (pos F len es es.length) e)
    (hroom : place len (pos F len es es.length) (F.size e) + F.size e < u + len)
    (hframe : ∀ y, u ≤ y → y < pos F len es es.length → m' (y % len) = m (y % len)) :
    Window F m' len (es ++ [e]) lo u := by
  have hlength : (es ++ [e]).length = es.length + 1 := by simp
  have hend : pos F len (es ++ [e]) (es ++ [e]).length =
      place len (pos F len es es.length) (F.size e) + F.size e := by
    rw [hlength, pos_length_append]
  have hplace : pos F len es es.length ≤ place len (pos F len es es.length) (F.size e) :=
    le_place h.len_pos
  have hle := h.le_end
  have hlo := h.lo_le
  refine ⟨h.hdr_le_len, ?_, by omega, h.mark.append hlo, by omega, by omega, ?_⟩
  · intro x hx
    rcases List.mem_append.mp hx with hx | hx
    · exact h.size_le x hx
    · rw [List.mem_singleton.mp hx]; exact hin.size_le
  · rw [List.drop_append_of_le_length hlo, chain_append, h.stop, chain_singleton]
    refine ⟨h.chain.congr h.len_pos fun x hlo hhi => ?_, hin⟩
    rw [h.stop] at hhi
    exact (hframe x hlo hhi).symm

/-- The offsets of the last records of a window are among those of the window. -/
theorem Window.offsets_drop (h : Window F m len es lo u) (hlo : lo ≤ n) (hv : Mark F len es n v) :
    ∃ os, offsets F len u (es.drop lo) = os ++ offsets F len v (es.drop n) := by
  rw [hv.offsets_drop h.size_le, h.mark.offsets_drop h.size_le]
  refine ⟨offsets F len (pos F len es lo) ((es.drop lo).take (n - lo)), ?_⟩
  have hsplit := List.take_append_drop (n - lo) (es.drop lo)
  rw [List.drop_drop, Nat.add_sub_cancel' hlo] at hsplit
  conv_lhs => rw [← hsplit]
  rw [offsets_append, advance_drop_eq_pos hlo]

/-- The records of a chain fit in the ring. -/
theorem Chain.size_le {u : Nat} (hc : Chain F m len u fs) : ∀ e ∈ fs, F.size e ≤ len := by
  induction fs generalizing u with
  | nil => simp
  | cons e fs ih =>
    intro x hx
    rcases List.mem_cons.mp hx with rfl | hx
    · exact hc.1.size_le
    · exact ih hc.2 x hx

/-- The end of a timeline with the records `fs` added. -/
theorem pos_append_length : pos F len (es ++ fs) (es ++ fs).length =
    Lib.advance F len (pos F len es es.length) fs := by
  rw [pos, List.take_length, advance_append, pos_length]

/-- Copying the records behind the end from another ring extends the timeline. -/
theorem Window.copy {start stop : Nat} (h : Window F m len es lo u) {src : Mem}
    (hc : Chain F src len (pos F len es es.length) fs) (hne : fs ≠ [])
    (hroom : Lib.advance F len (pos F len es es.length) fs < u + len)
    (hstart : start = pos F len es es.length % len)
    (hstop : stop = Lib.advance F len (pos F len es es.length) fs % len) :
    Window F (ringCopy len m src start stop) len (es ++ fs) lo u := by
  have hlen := h.len_pos
  have hle := h.le_end
  have hlo := h.lo_le
  have hlt : pos F len es es.length < Lib.advance F len (pos F len es es.length) fs := by
    obtain ⟨e, rest, rfl⟩ := List.exists_cons_of_ne_nil hne
    exact lt_advance_cons hlen e rest
  refine ⟨h.hdr_le_len, ?_, by rw [List.length_append]; omega, h.mark.append hlo, ?_, ?_, ?_⟩
  · intro e he
    rcases List.mem_append.mp he with he | he
    · exact h.size_le e he
    · exact hc.size_le e he
  · rw [pos_append_length]
    omega
  · rw [pos_append_length]
    exact hroom
  · rw [List.drop_append_of_le_length hlo, chain_append, h.stop]
    refine ⟨h.chain.congr hlen fun x hxlo hxhi => ?_, hc.congr hlen fun x hxlo hxhi => ?_⟩
    · rw [h.stop] at hxhi
      rw [← Nat.add_mod_right x len]
      exact (ringCopy_of_outside hstart hstop (by omega) (by omega) (by omega)).symm
    · exact (ringCopy_of_inside hstart hstop (by omega) hxlo hxhi).symm

end Window

end Apus.Lib
