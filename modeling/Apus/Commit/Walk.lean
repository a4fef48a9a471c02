import Apus.Commit.Model

namespace Apus

open Lib

/-!
# What the commit and apply loops do

The two loops of the previous module on a log that is a window of its history:

* `commitWalk_spec` — the loop over the not committed entries passes acknowledged entries only,
  and stops at a mark;
* `LogWindow.applies` — an iteration of an apply loop goes past the next entry of the history,
  which is before the commit offset, or moves to where that entry is.

Both need the commit offset to be a `SoftMark`: not the offset `0` of an entry whose header does
not fit at the buffer end.  `CommitOkFrom` says when the loop does not stop there.
-/

variable {log : DareLog} {hist : List DareLogEntry} {n v k w off fuel idx size : Nat}
  {e : DareLogEntry}

/-- Enough servers acknowledged the entry at `o`. -/
def Majority (log : DareLog) (idx size o : Nat) : Prop :=
  size / 2 + 1 ≤ countReplies log.entries o idx size

/-- A walk from `start` over acknowledged entries does not come to an offset where no header
    fits, with an entry behind it that is not acknowledged. -/
def CommitOkFrom (log : DareLog) (idx size start : Nat) : Prop :=
  ∀ visited off entry, WalkTo log start visited off → (∀ o ∈ visited, Majority log idx size o) →
    off < log.len → logFitEntryHeader log off = false → logGetEntry log off = some entry →
    Majority log idx size entry

/-- An entry that does not fit where its header was found has a header there. -/
theorem Found.header_fits {entry : Nat} (hf : Found log v entry e)
    (hnot : logFitEntry log entry entry = false) :
    v % log.len + ENTRY_SIZE ≤ log.len ∧ log.len < v % log.len + e.size := by
  have hplace : ¬ place log.len v e.size % log.len = entry := by
    rw [← hf.fit_iff, hnot]
    exact Bool.false_ne_true
  rw [hf.rewind hnot, hf.entry_eq] at hplace
  unfold Lib.headerOffset at hplace
  split at hplace
  · refine ⟨‹_›, ?_⟩
    by_contra hcon
    have hzero := hf.rewind hnot
    rw [place_of_fit (by omega)] at hzero
    exact hplace hzero.symm
  · exact absurd rfl hplace

/-- The pointer to an entry whose header was not moved is the offset of the mark. -/
theorem Found.isOffset_of_header {entry : Nat} (hf : Found log v entry e) (hlen : 0 < log.len)
    (hheader : v % log.len + ENTRY_SIZE ≤ log.len) : IsOffset log.len v entry := by
  rw [hf.entry_eq, Lib.headerOffset, entryFormat_hdr, if_pos hheader]
  exact isOffset_mod hlen

/-! ### The commit offset -/

theorem CommitOkFrom.rewind {entry : Nat} (h : CommitOkFrom log idx size off)
    (hget : logGetEntry log off = some entry) (hnot : logFitEntry log entry entry = false) :
    CommitOkFrom log idx size 0 :=
  fun visited off' entry' hw => h visited off' entry' (.rewind hget hnot hw)

theorem CommitOkFrom.visit {entry : Nat} (h : CommitOkFrom log idx size off)
    (hget : logGetEntry log off = some entry) (hfit : logFitEntry log entry entry = true)
    (hmaj : Majority log idx size entry) :
    CommitOkFrom log idx size (entry + logEntryLen log.entries entry) := by
  intro visited off' entry' hw hall
  refine h (entry :: visited) off' entry' (.visit hget hfit hw) fun o ho => ?_
  rcases List.mem_cons.mp ho with rfl | ho
  · exact hmaj
  · exact hall o ho

/-- The loop, started at the mark `v` before the `n`-th entry, passes acknowledged entries only
    and stops at a mark. -/
def StopsAtMark (log : DareLog) (hist : List DareLogEntry) (n v : Nat)
    (r : Option (Nat × List Pass)) : Prop :=
  ∃ stop passes j w, r = some (stop, passes) ∧ LogWindow log hist j w ∧
    SoftMark entryFormat log.len hist j w ∧ IsOffset log.len w stop ∧ n ≤ j ∧ v ≤ w ∧
    hist.take j = hist.take n ++ passes.map Pass.entry ∧ ∀ p ∈ passes, p.Acked

/-- It may stop where it starts. -/
theorem StopsAtMark.here (h : LogWindow log hist n v)
    (hsoft : SoftMark entryFormat log.len hist n v) (hoff : IsOffset log.len v off) :
    StopsAtMark log hist n v (some (off, [])) :=
  ⟨off, [], n, v, rfl, h, hsoft, hoff, le_refl n, le_refl v, by simp, by simp⟩

/-- It goes past an acknowledged entry. -/
theorem StopsAtMark.pass {p : Pass} {r : Option (Nat × List Pass)}
    (he : hist[n]? = some p.entry) (hp : p.Acked) (hvw : v ≤ w)
    (h : StopsAtMark log hist (n + 1) w r) :
    StopsAtMark log hist n v (r.map fun r => (r.1, p :: r.2)) := by
  obtain ⟨stop, passes, j, w', rfl, hwin, hsoft, hoff, hnj, hw, htake, hacked⟩ := h
  refine ⟨stop, p :: passes, j, w', rfl, hwin, hsoft, hoff, by omega, by omega, ?_, ?_⟩
  · rw [htake, List.take_add_one, he, List.append_assoc]
    rfl
  · intro q hq
    rcases List.mem_cons.mp hq with rfl | hq
    · exact hp
    · exact hacked q hq

theorem commitWalk_spec (hE : EndsAt log (logPos log hist hist.length))
    (hne : log.end_ ≠ log.len) (h : LogWindow log hist n v) (hoff : IsOffset log.len v off)
    (hsoft : SoftMark entryFormat log.len hist n v) (hok : CommitOkFrom log idx size off)
    (hfuel : 2 * (hist.length - n) + 1 ≤ fuel) :
    StopsAtMark log hist n v (commitWalk log idx size fuel off) := by
  obtain ⟨d, hd⟩ : ∃ d, d = hist.length - n := ⟨_, rfl⟩
  induction d generalizing n v off fuel with
  | zero =>
    obtain ⟨fuel, rfl⟩ : ∃ f, fuel = f + 1 := ⟨fuel - 1, by omega⟩
    have hc := h.cursor hoff
    rw [List.drop_of_length_le (by omega)] at hc
    rw [commitWalk, hc.getEntry_nil hE]
    exact .here h hsoft hoff
  | succ d ih =>
    have hn : n < hist.length := by omega
    obtain ⟨e, he⟩ : ∃ e, hist[n]? = some e := ⟨hist[n], List.getElem?_eq_getElem hn⟩
    -- an entry that fits where it is found is passed, or the loop stops at it
    have hfits : ∀ {v off entry} (fuel : Nat), LogWindow log hist n v → IsOffset log.len v off →
        SoftMark entryFormat log.len hist n v → CommitOkFrom log idx size off →
        2 * (hist.length - n) ≤ fuel + 1 → logGetEntry log off = some entry →
        Found log v entry e → logFitEntry log entry entry = true →
        StopsAtMark log hist n v (commitWalk log idx size (fuel + 1) off) := by
      intro v off entry fuel h hoff hsoft hok hfuel hget hfound hfit
      rw [commitWalk, hget]
      simp only [hfit, Bool.not_true, Bool.false_eq_true, if_false]
      have hplace : v ≤ place log.len v e.size := le_place h.len_pos
      have hnext := (h.place_add_le he).2
      by_cases hmaj : Majority log idx size entry
      · rw [if_neg (Nat.not_lt.mpr hmaj)]
        have hread := hfound.read
        rw [hfound.fit_iff.mp hfit] at hread
        refine .pass (w := logPos log hist (n + 1)) (by rw [hread]; exact he) hmaj (by omega) ?_
        exact ih (h.next he) (h.isOffset_next he hfound hfit) (SoftMark.pos _)
          (hok.visit hget hfit hmaj) (by omega) (by omega)
      · rw [if_pos (Nat.lt_of_not_le hmaj)]
        by_cases hheader : v % log.len + ENTRY_SIZE ≤ log.len
        · exact .here h hsoft (hfound.isOffset_of_header h.len_pos hheader)
        · -- no header fits at `off`, so the condition makes the entry acknowledged
          exfalso
          have hmod := Nat.mod_lt v h.len_pos
          rcases hoff.cases h.len_pos with heq | ⟨-, hzero⟩
          · refine hmaj (hok [] off entry (.refl off) (by simp) (by omega) ?_ hget)
            rw [Bool.eq_false_iff, heq]
            exact fun hcon => hheader ((logFitEntryHeader_iff log _ (by omega)).mp hcon)
          · rw [hzero, Nat.zero_add] at hheader
            exact hheader h.hdr_le_len
    obtain ⟨fuel, rfl⟩ : ∃ f, fuel = f + 2 := ⟨fuel - 2, by omega⟩
    obtain ⟨entry, hget, hfound⟩ := h.found hE hne hoff he
    by_cases hfit : logFitEntry log entry entry = true
    · exact hfits _ h hoff hsoft hok (by omega) hget hfound hfit
    · rw [Bool.not_eq_true] at hfit
      obtain ⟨hheader, hnot⟩ := hfound.header_fits hfit
      have hzero := hfound.rewind hfit
      have hoff0 : IsOffset log.len (place log.len v e.size) 0 :=
        ⟨Nat.zero_le _, by rw [hzero, Nat.zero_mod]⟩
      have hwin := h.at_place he
      obtain ⟨entry0, hget0, hfound0⟩ := hwin.found hE hne hoff0 he
      have hentry0 : entry0 = 0 := by
        rw [hfound0.entry_eq, Lib.headerOffset, hzero, entryFormat_hdr, ite_self]
      have hfit0 : logFitEntry log entry0 entry0 = true := by
        rw [hfound0.fit_iff, place_place hfound.size_le, hzero, hentry0]
      rw [commitWalk, hget]
      simp only [hfit, Bool.not_false, if_true]
      obtain ⟨stop, passes, j, w, hr, hwj, hsj, hoj, hnj, hw, htake, hacked⟩ :=
        hfits fuel hwin hoff0 (SoftMark.rewound he h.mark hheader hnot hfound.size_le)
          (hok.rewind hget hfit) (by omega) hget0 hfound0 hfit0
      exact ⟨stop, passes, j, w, hr, hwj, hsj, hoj, hnj, le_trans (le_place h.len_pos) hw, htake,
        hacked⟩

/-- The loop stops at a value its variable takes. -/
theorem walkTo_of_commitWalk {stop : Nat} {passes : List Pass}
    (h : commitWalk log idx size fuel off = some (stop, passes)) :
    ∃ visited, WalkTo log off visited stop := by
  induction fuel generalizing off stop passes with
  | zero => cases h
  | succ fuel ih =>
    rw [commitWalk] at h
    split at h
    · obtain ⟨rfl, -⟩ := Prod.mk.inj (Option.some.inj h)
      exact ⟨[], .refl off⟩
    · rename_i entry hget
      split at h
      · rename_i hnot
        obtain ⟨visited, hwalk⟩ := ih h
        exact ⟨visited, .rewind hget (by simpa using hnot) hwalk⟩
      · rename_i hfit
        simp only at h
        split at h
        · obtain ⟨rfl, -⟩ := Prod.mk.inj (Option.some.inj h)
          exact ⟨[], .found hget (.refl entry)⟩
        · obtain ⟨⟨stop', passes'⟩, hrest, heq⟩ := Option.map_eq_some_iff.mp h
          obtain ⟨rfl, -⟩ := Prod.mk.inj heq
          obtain ⟨visited, hwalk⟩ := ih hrest
          exact ⟨entry :: visited, .visit hget (by simpa using hfit) hwalk⟩

/-! ### Logs that did not wrap -/

/-- From the end the loop over the not committed entries stops nowhere else. -/
theorem commitOkFrom_end (log : DareLog) (idx size : Nat) :
    CommitOkFrom log idx size log.end_ := by
  intro visited off entry hw _ _ _ hget
  have hnone := logGetEntry_end log
  cases hw with
  | refl => rw [hnone] at hget; cases hget
  | found h => rw [hnone] at h; cases h
  | rewind h => rw [hnone] at h; cases h
  | visit h => rw [hnone] at h; cases h

/-- Nor does it from a last entry whose header fits. -/
theorem CommitOkFrom.of_last {idx size : Nat} (hfit : off + ENTRY_SIZE ≤ log.len)
    (hget : logGetEntry log off = some off) (hgo : logFitEntry log off off = true)
    (hend : off + logEntryLen log.entries off = log.end_) : CommitOkFrom log idx size off := by
  intro visited off' entry hw hall hlt hheader hentry
  induction hw with
  | refl off =>
    rw [(logFitEntryHeader_iff log off (by omega)).mpr hfit] at hheader
    cases hheader
  | found h _ ih =>
    obtain rfl := Option.some.inj (hget.symm.trans h)
    exact ih hfit hget hgo hend hall hlt hheader hentry
  | rewind h hnot =>
    obtain rfl := Option.some.inj (hget.symm.trans h)
    rw [hgo] at hnot
    cases hnot
  | visit h _ hrest =>
    obtain rfl := Option.some.inj (hget.symm.trans h)
    rw [hend] at hrest
    exact commitOkFrom_end log idx size _ _ _ hrest
      (fun o ho => hall o (List.mem_cons_of_mem _ ho)) hlt hheader hentry

/-- The loop passes an acknowledged entry. -/
theorem commitWalk_of_majority {idx size fuel entry : Nat} (hget : logGetEntry log off = some entry)
    (hfit : logFitEntry log entry entry = true) (hmaj : Majority log idx size entry) :
    commitWalk log idx size (fuel + 1) off =
      (commitWalk log idx size fuel (entry + logEntryLen log.entries entry)).map fun r =>
        (r.1, ⟨readEntry log.entries entry, countReplies log.entries entry idx size, size⟩ :: r.2) := by
  rw [commitWalk, hget]
  simp only [hfit, Bool.not_true, Bool.false_eq_true, if_false]
  rw [if_neg (Nat.not_lt.mpr hmaj)]

/-! ### The apply offset -/

/-- The entry that an apply loop finds at the mark `v` is at offset `0`: the loop moves there,
    which is not past the commit offset `k`. -/
structure Rewinds (log : DareLog) (hist : List DareLogEntry) (n v k entry : Nat)
    (e : DareLogEntry) : Prop where
  fit : logFitEntry log entry entry = false
  soft : SoftMark entryFormat log.len hist n (place log.len v e.size)
  offset : IsOffset log.len (place log.len v e.size) 0
  le : place log.len v e.size ≤ k

/-- The entry that an apply loop finds at the mark `v` is before the commit offset `k`, which is
    the place after the first `m` entries: the loop goes past the entry. -/
structure Applies (log : DareLog) (hist : List DareLogEntry) (n m v k entry : Nat)
    (e : DareLogEntry) : Prop where
  fit : logFitEntry log entry entry = true
  lt : n < m
  read : readEntry log.entries entry = e
  place_eq : place log.len v e.size % log.len = entry
  offset : IsOffset log.len (logPos log hist (n + 1)) (entry + logEntryLen log.entries entry)
  le : logPos log hist (n + 1) ≤ k

/-- One iteration of an apply loop, at a mark before the commit offset. -/
theorem LogWindow.applies {m : Nat} (h : LogWindow log hist n v)
    (hE : EndsAt log (logPos log hist hist.length)) (hne : log.end_ ≠ log.len)
    (hoff : IsOffset log.len v off) (hv : SoftMark entryFormat log.len hist n v)
    (hk : SoftMark entryFormat log.len hist m k) (hvk : v < k)
    (hend : k ≤ logPos log hist hist.length) :
    ∃ e entry, hist[n]? = some e ∧ logGetEntry log off = some entry ∧
      (Rewinds log hist n v k entry e ∨ Applies log hist n m v k entry e) := by
  have hlen := h.len_pos
  obtain ⟨e, he⟩ := h.exists_entry (by omega)
  obtain ⟨entry, hget, hfound⟩ := h.found hE hne hoff he
  refine ⟨e, entry, he, hget, ?_⟩
  have hnext := (h.place_add_le he).2
  have hnm : n ≤ m := hv.mark.le_of_le hlen hk.mark hvk.le h.lo_le
  by_cases hfit : logFitEntry log entry entry = true
  · right
    have hlt : n < m := by
      refine Nat.lt_of_le_of_ne hnm fun heq => ?_
      -- the commit offset is where an entry that does not fit here is
      obtain ⟨hkplace, hheader⟩ := hv.eq_place hlen (heq ▸ hk) hvk he
      have hat := hfound.fit_iff.mp hfit
      rw [hfound.entry_eq, Lib.headerOffset, if_pos hheader] at hat
      rw [entryFormat_size] at hkplace
      by_cases hplace : v % log.len + e.size ≤ log.len
      · rw [place_of_fit hplace] at hkplace
        omega
      · have hzero : place log.len v e.size % log.len = 0 := Lib.place_mod_of_not_fit (by omega)
        have hsize := hfound.size_le
        omega
    have hread := hfound.read
    rw [hfound.fit_iff.mp hfit] at hread
    refine ⟨hfit, hlt, hread, hfound.fit_iff.mp hfit, h.isOffset_next he hfound hfit, ?_⟩
    exact le_trans (pos_mono hlen hlt) (hk.mark.pos_le hlen)
  · left
    rw [Bool.not_eq_true] at hfit
    obtain ⟨hheader, hnot⟩ := hfound.header_fits hfit
    refine ⟨hfit, SoftMark.rewound he hv.mark hheader hnot hfound.size_le,
      ⟨Nat.zero_le _, by rw [hfound.rewind hfit, Nat.zero_mod]⟩, ?_⟩
    rcases Nat.lt_or_eq_of_le hnm with hlt | rfl
    · have hmono : logPos log hist (n + 1) ≤ logPos log hist m := pos_mono hlen hlt
      have hkpos : logPos log hist m ≤ k := hk.mark.pos_le hlen
      omega
    · exact (hv.eq_place hlen hk hvk he).1.ge

end Apus
