import Apus.Election.Calls
import Apus.Log.NcBuf

namespace Apus

open Lib

/-!
# Votes for up-to-date candidates

`poll_vote_requests` compares the requests with the last entry of the local log, and then each with
the best one before it.  The last entry is that of the buffer of determinants, or the tail if nothing
is there to be committed; in a log whose end is equal to `len` neither is found, so that the first
candidate in a higher term counts as up to date.

* `localLast_eq` — the entry that the requests are compared with;
* `Weighed` — what the loop over the requests has found;
* `votesUpToDate_iff` — for which logs the votes go to up-to-date candidates only.
-/

/-! ### The last entry -/

/-- A log with the entries `es` from its head to its end: the apply and the commit offset are at the
    boundary of an entry, and the tail is not known or that of the last entry. -/
structure LocalLog (log : DareLog) (V : Nat) (es : List DareLogEntry) : Prop where
  ends : EndsAt log V
  head : ∃ v, Cursor log V v log.head es
  apply : ∃ v gs fs, es = gs ++ fs ∧ Cursor log V v log.apply fs
  commit : ∃ v gs fs, es = gs ++ fs ∧ Cursor log V v log.commit fs
  tail : log.tail = log.len ∨ ∃ v gs e, es = gs ++ [e] ∧ Cursor log V v log.tail [e]
  idx : ∀ e ∈ es, 0 < e.idx

/-- Index and term of the last entry, zero if there is none. -/
def lastIdxTerm (es : List DareLogEntry) : UInt64 × UInt64 :=
  (es.getLast?.map fun e => (e.idx, e.term)).getD (0, 0)

/-- What the search for the tail finds: the header of the last entry. -/
def TailHeader (log : DareLog) (es : List DareLogEntry) (t : Nat) : Prop :=
  es = [] ∧ t = log.len ∨ ∃ gs e entry, es = gs ++ [e] ∧ t ≠ log.len ∧
    logGetEntry log t = some entry ∧ headerLeft log.entries entry e

variable {log : DareLog} {V v off : Nat} {e : DareLogEntry} {es fs gs : List DareLogEntry}

theorem lastIdxTerm_append_singleton (gs : List DareLogEntry) (e : DareLogEntry) :
    lastIdxTerm (gs ++ [e]) = (e.idx, e.term) := by
  simp [lastIdxTerm]

/-- A cursor goes over the first entries. -/
theorem Cursor.skip (hV : EndsAt log V) (hc : Cursor log V v off (gs ++ fs)) :
    Cursor log V (advance entryFormat log.len v gs) (advance entryFormat log.len v gs % log.len) fs := by
  have hle := le_advance (F := entryFormat) hV.len_pos (v := v) gs
  have hwindow := hc.window
  have hstop := hc.stop
  have hchain := hc.chain
  rw [advance_append] at hstop
  rw [chain_append] at hchain
  exact ⟨isOffset_mod hV.len_pos, by omega, hchain.2, hstop⟩

/-- The header in front of a cursor is found at the offset it is at. -/
theorem Cursor.tailHeader (hV : EndsAt log V) (hne : log.end_ ≠ log.len)
    (hc : Cursor log V v off [e]) (gs : List DareLogEntry) :
    TailHeader log (gs ++ [e]) (headerOffset entryFormat log.len v) := by
  refine .inr ⟨gs, e, _, rfl, ?_, hc.getEntry_headerOffset hV hne, hc.header⟩
  have hfit := headerOffset_add_le hV.entrySize_le_len v
  have hpos : 0 < ENTRY_SIZE := by decide
  omega

/-- A walk finds the header of the last entry behind its offset, if there is one. -/
theorem Cursor.getLast_headerWalk (hV : EndsAt log V) (hne : log.end_ ≠ log.len)
    (hc : Cursor log V v off fs) (gs : List DareLogEntry) :
    ∃ visited stop, Apus.headerWalk log (walkFuel log) off = some (visited, stop) ∧
      (fs = [] ∧ visited = [] ∨
        ∃ t, visited.getLast? = some t ∧ TailHeader log (gs ++ fs) t) := by
  have hfuel := hc.fuel hV
  obtain ⟨stop, hwalk, -⟩ := hc.headerWalk hV hne (show fs.length + 1 ≤ walkFuel log by omega)
  refine ⟨_, stop, hwalk, ?_⟩
  rcases List.eq_nil_or_concat fs with rfl | ⟨hs, e, rfl⟩
  · exact .inl ⟨rfl, rfl⟩
  · rw [List.concat_eq_append] at hc ⊢
    have hlast := (hc.skip hV).tailHeader hV hne (gs ++ hs)
    rw [List.append_assoc] at hlast
    refine .inr ⟨_, ?_, hlast⟩
    rw [headerOffsets_append, headerOffsets, headerOffsets, List.getLast?_concat]

/-- The search for the tail ends at the last entry. -/
theorem LocalLog.logGetTail (h : LocalLog log V es) (hne : log.end_ ≠ log.len) :
    ∃ t, Apus.logGetTail log = some t ∧ TailHeader log es t := by
  by_cases htail : log.tail = log.len
  · obtain ⟨u, hhead⟩ := h.head
    obtain ⟨a, as, bs, happly, hacur⟩ := h.apply
    obtain ⟨c, cs, ds, hcommit, hccur⟩ := h.commit
    obtain ⟨vc, stopC, hwalkC, hC⟩ := hccur.getLast_headerWalk h.ends hne cs
    obtain ⟨va, stopA, hwalkA, hA⟩ := hacur.getLast_headerWalk h.ends hne as
    obtain ⟨vh, stopH, hwalkH, hH⟩ := hhead.getLast_headerWalk h.ends hne []
    rw [← hcommit] at hC
    rw [← happly] at hA
    rw [List.nil_append] at hH
    have hempty : isLogEmpty log = false := by simp [isLogEmpty, hne]
    unfold Apus.logGetTail
    simp only [htail, ne_eq, not_true_eq_false, if_false, hempty, Bool.false_eq_true, hwalkC, hwalkA,
      hwalkH, Option.bind_eq_bind, Option.bind_some]
    -- the first of the three walks that finds an entry
    rcases hC with ⟨-, rfl⟩ | ⟨t, ht, hfound⟩
    · rcases hA with ⟨-, rfl⟩ | ⟨t, ht, hfound⟩
      · rcases hH with ⟨hnil, rfl⟩ | ⟨t, ht, hfound⟩
        · exact ⟨log.len, rfl, .inl ⟨hnil, rfl⟩⟩
        · exact ⟨t, by simp [ht], hfound⟩
      · exact ⟨t, by simp [ht], hfound⟩
    · exact ⟨t, by simp [ht], hfound⟩
  · obtain ⟨w, gs, e, hes, hc⟩ := h.tail.resolve_left htail
    refine ⟨log.tail, by rw [Apus.logGetTail, if_pos htail], .inr ⟨gs, e, _, hes, htail, ?_, hc.header⟩⟩
    exact hc.getEntry_cons h.ends hne

/-- **The entry that the requests are compared with** is the last one. -/
theorem localLast_eq (h : LocalLog log V es) (hne : log.end_ ≠ log.len) :
    Server.localLast log = some (lastIdxTerm es) := by
  obtain ⟨c, cs, ds, hcommit, hc⟩ := h.commit
  rw [Server.localLast, logEntriesToNcBuf_eq h.ends hne hc, Option.bind_eq_bind, Option.bind_some]
  rcases List.eq_nil_or_concat ds with rfl | ⟨hs, e, rfl⟩
  · -- nothing is there to be committed
    obtain ⟨t, ht, hfound⟩ := h.logGetTail hne
    rw [dets, List.getLast?_nil]
    simp only [ht, Option.bind_eq_bind, Option.bind_some]
    rcases hfound with ⟨rfl, heq⟩ | ⟨gs, e, entry, rfl, htne, hget, hheader⟩
    · rw [if_pos heq]
      rfl
    · rw [if_neg htne, hget, Option.bind_some, hheader.1, hheader.2.1, lastIdxTerm_append_singleton]
      rfl
  · rw [List.concat_eq_append] at hc hcommit ⊢
    have hlast : ((dets log.len c (hs ++ [e])).map fun det => (det.idx, det.term)).getLast? =
        some (e.idx, e.term) := by
      rw [map_dets, List.map_append, List.map_singleton, List.getLast?_concat]
    rw [List.getLast?_map] at hlast
    obtain ⟨det, hdet, hpair⟩ := Option.map_eq_some_iff.mp hlast
    rw [hdet, hcommit, ← List.append_assoc, lastIdxTerm_append_singleton, ← hpair]
    rfl

/-- In a log whose end is equal to `len` nothing is found; a tail that is known is not an entry. -/
theorem localLast_of_end_eq_len (hend : log.end_ = log.len) :
    Server.localLast log = if log.tail = log.len then some (0, 0) else none := by
  rw [Server.localLast, logEntriesToNcBuf_of_end_eq_len hend, Option.bind_eq_bind, Option.bind_some,
    List.getLast?_nil]
  have hempty : isLogEmpty log = true := by simp [isLogEmpty, hend]
  by_cases htail : log.tail = log.len
  · have htail' : logGetTail log = some log.len := by
      rw [logGetTail, if_neg (not_not.mpr htail), if_pos hempty]
    simp only [if_pos htail, htail', Option.bind_eq_bind, Option.bind_some, if_true]
    rfl
  · have htail' : logGetTail log = some log.tail := by
      rw [logGetTail, if_pos htail]
    simp only [if_neg htail, htail', Option.bind_eq_bind, Option.bind_some,
      logGetEntry_of_end_eq_len hend]
    rfl

/-! ### What is claimed -/

/-- Index and term of the request are not behind. -/
def NotBehind (last : UInt64 × UInt64) (r : VoteReq) : Prop :=
  last.2 < r.term ∨ last.2 = r.term ∧ last.1 ≤ r.index

/-- The request is at least as up to date as the last entry. -/
def UpToDate (es : List DareLogEntry) (r : VoteReq) : Prop :=
  ∀ e ∈ es.getLast?, NotBehind (e.idx, e.term) r

namespace Server

variable (s : Server)

/-- The requests are those of candidates, which do not set the L flag; in its own slot the server has
    the last one it has sent itself. -/
structure FromCandidates : Prop where
  noL : ∀ i, sidGetL (s.ctrl.voteReq i).sid = false
  own : sidGetTerm (s.ctrl.voteReq s.idx).sid ≤ sidGetTerm s.sid

/-- No leader is known. -/
def LooksForVotes : Prop :=
  sidGetL s.sid = false ∧ ¬(s.ctrl.hb (sidGetIdx s.sid).toNat ≠ 0 ∧
    sidGetTerm (s.ctrl.hb (sidGetIdx s.sid).toNat) = sidGetTerm s.sid)

/-- The request in slot `i` is in a higher term. -/
def Higher (i : Nat) : Prop := i < s.size ∧ sidGetTerm s.sid < sidGetTerm (s.ctrl.voteReq i).sid

/-- Votes go to requests in a higher term that are up to date; if there are only others in a higher
    term, the server takes the highest of their terms, and does not vote. -/
structure VotesUpToDate (es : List DareLogEntry) : Prop where
  vote : ∀ s' best, s.pollVoteRequests = some (.vote s' best) →
    ∃ i, s.Higher i ∧ best = s.ctrl.voteReq i ∧ UpToDate es best
  raise : s.LooksForVotes → (∃ i, s.Higher i) → (∀ i, s.Higher i → ¬UpToDate es (s.ctrl.voteReq i)) →
    ∃ s', s.pollVoteRequests = some (.raise s') ∧
      (∃ i, s.Higher i ∧ sidGetTerm s'.sid = sidGetTerm (s.ctrl.voteReq i).sid) ∧
      ∀ i, s.Higher i → sidGetTerm (s.ctrl.voteReq i).sid ≤ sidGetTerm s'.sid

end Server

variable {s : Server} {q q' : Nat → VoteReq} {old t best : UInt64} {last : UInt64 × UInt64} {n i : Nat}
  {b : Server.BestRequest} {r : VoteReq}

/-! ### The order of the requests -/

/-- Without a last entry every request is up to date. -/
theorem notBehind_lastIdxTerm : NotBehind (lastIdxTerm es) r ↔ UpToDate es r := by
  rw [UpToDate, lastIdxTerm]
  cases es.getLast? with
  | some e => simp
  | none =>
    refine iff_of_true ?_ (by simp)
    by_cases hzero : r.term = 0
    · exact .inr ⟨hzero.symm, UInt64.zero_le⟩
    · exact .inl (UInt64.pos_iff_ne_zero.mpr hzero)

theorem NotBehind.trans {r' : VoteReq} (h : NotBehind last r) (h' : NotBehind (r.index, r.term) r') :
    NotBehind last r' := by
  rcases h with hlt | ⟨heq, hle⟩
  · rcases h' with hlt' | ⟨heq', -⟩
    · exact .inl (UInt64.lt_trans hlt hlt')
    · exact .inl (heq' ▸ hlt)
  · rcases h' with hlt' | ⟨heq', hle'⟩
    · exact .inl (heq ▸ hlt')
    · exact .inr ⟨heq.trans heq', UInt64.le_trans hle hle'⟩

/-- The test of `poll_vote_requests` for a log that is not good enough. -/
theorem not_notBehind_iff : ¬NotBehind last r ↔
    last.2 > r.term ∨ last.2 = r.term ∧ last.1 > r.index := by
  simp only [NotBehind, UInt64.lt_iff_toNat_lt, UInt64.le_iff_toNat_le, gt_iff_lt, ← UInt64.toNat_inj]
  omega

/-- A candidate's SID is above the own one with the L flag if it is in a higher term. -/
theorem sidSetL_lt_iff {u v : UInt64} (hl : sidGetL v = false) :
    sidSetL u < v ↔ sidGetTerm u < sidGetTerm v := by
  refine ⟨fun h => sidGetTerm_lt_of_sidSetL_lt h hl, fun h => ?_⟩
  rw [sidGetTerm_lt_iff] at h
  rw [UInt64.lt_iff_toNat_lt, toNat_sidSetL]
  omega

/-- It is never equal. -/
theorem sidSetL_le_iff {u v : UInt64} (hl : sidGetL v = false) :
    sidSetL u ≤ v ↔ sidGetTerm u < sidGetTerm v := by
  rw [← sidSetL_lt_iff hl]
  refine ⟨fun h => UInt64.lt_of_le_of_ne h ?_, UInt64.le_of_lt⟩
  rintro rfl
  rw [sidGetL_sidSetL] at hl
  cases hl

/-! ### The loops -/

/-- The best SID is not below those of the other servers. -/
theorem le_bestSid (s : Server) (is : List Nat) (best : UInt64) (q' : Nat → VoteReq) :
    best ≤ (s.bestSid is best q').1 ∧
      ∀ i ∈ is, i ≠ s.idx → (q' i).sid ≤ (s.bestSid is best q').1 := by
  induction is generalizing best q' with
  | nil => exact ⟨UInt64.le_refl best, fun i hi => absurd hi List.not_mem_nil⟩
  | cons j is ih =>
    rw [Server.bestSid]
    split
    · rename_i hown
      obtain ⟨hle, hall⟩ := ih best q'
      exact ⟨hle, List.forall_mem_cons.mpr ⟨fun hne => absurd hown hne, hall⟩⟩
    · split
      · rename_i hnot
        obtain ⟨hle, hall⟩ := ih best (Function.update q' j { q' j with sid := 0 })
        have hj : (q' j).sid ≤ (s.bestSid is best
            (Function.update q' j { q' j with sid := 0 })).1 := UInt64.le_trans hnot hle
        refine ⟨hle, List.forall_mem_cons.mpr ⟨fun _ => hj, fun i hi hown => ?_⟩⟩
        by_cases hij : i = j
        · rw [hij]
          exact hj
        · have hothers := hall i hi hown
          rwa [Function.update_of_ne hij] at hothers
      · rename_i hbetter
        obtain ⟨hle, hall⟩ := ih (q' j).sid q'
        exact ⟨UInt64.le_trans (UInt64.le_of_lt (UInt64.not_le.mp hbetter)) hle,
          List.forall_mem_cons.mpr ⟨fun _ => hle, hall⟩⟩

/-- What the second loop has found, with the last entry of the local log. -/
structure Weighed (n : Nat) (q : Nat → VoteReq) (old t : UInt64) (last : UInt64 × UInt64)
    (b : Server.BestRequest) : Prop extends Chosen n q old t b where
  notBehind : NotBehind last b.best
  /-- Requests that are behind are not taken. -/
  same : (∀ j < n, old ≤ (q j).sid → ¬NotBehind last (q j)) →
    b.best.sid = old ∧ (b.best.index, b.best.term) = last
  highest : b.highestTerm = t ∨ ∃ j < n, old ≤ (q j).sid ∧ b.highestTerm = sidGetTerm (q j).sid

theorem Weighed.step (h : Weighed n q old t last b) (hpos : 0 < old) (hi : i < n) :
    Weighed n q old t last (Server.chooseStep b i) := by
  refine ⟨h.toChosen.step hpos hi, ?_, fun hall => ?_, ?_⟩
  all_goals
    rw [Server.chooseStep]
    dsimp only
  · split
    · exact h.notBehind
    · split
      · exact h.notBehind
      · rename_i hgood
        exact h.notBehind.trans (not_not.mp fun hbehind => hgood (not_notBehind_iff.mp hbehind))
  · obtain ⟨hsid, hlast⟩ := h.same hall
    split
    · exact ⟨hsid, hlast⟩
    · rename_i hnot
      have hle : old ≤ (b.requests i).sid := UInt64.le_trans h.le (UInt64.not_lt.mp hnot)
      have hq := h.requests.eq_of_pos (UInt64.lt_of_lt_of_le hpos hle)
      rw [hq] at hle
      -- a request that is not dropped is behind
      rw [if_pos]
      · exact ⟨hsid, hlast⟩
      · have hbehind := hall i hi hle
        rw [← hlast, ← hq] at hbehind
        exact not_notBehind_iff.mp hbehind
  · split
    · exact h.highest
    · rename_i hnot
      have hle : old ≤ (b.requests i).sid := UInt64.le_trans h.le (UInt64.not_lt.mp hnot)
      have hq := h.requests.eq_of_pos (UInt64.lt_of_lt_of_le hpos hle)
      rw [hq] at hle
      have hmax : (if b.highestTerm < sidGetTerm (b.requests i).sid then
          sidGetTerm (b.requests i).sid else b.highestTerm) = t ∨
          ∃ j < n, old ≤ (q j).sid ∧ (if b.highestTerm < sidGetTerm (b.requests i).sid then
            sidGetTerm (b.requests i).sid else b.highestTerm) = sidGetTerm (q j).sid := by
        split
        · exact .inr ⟨i, hi, hle, by rw [hq]⟩
        · exact h.highest
      split
      · exact hmax
      · exact hmax

/-! ### The votes -/

namespace Server

/-- The SID that the requests are compared with is not zero. -/
theorem sidSetL_pos (u : UInt64) : 0 < sidSetL u := by
  have hzero : (0 : UInt64).toNat = 0 := rfl
  rw [UInt64.lt_iff_toNat_lt, toNat_sidSetL, hzero]
  omega

/-- What the second loop leaves, if the first finds `first`. -/
def chosen (s : Server) (first : UInt64 × (Nat → VoteReq)) (last : UInt64 × UInt64) : BestRequest :=
  (List.range s.size).foldl chooseStep
    ⟨⟨sidSetL s.sid, last.1, last.2, default⟩, sidGetTerm first.1, first.2⟩

/-- `poll_vote_requests` with a better SID. -/
theorem pollVoteRequests_eq (hlooks : s.LooksForVotes) {first : UInt64 × (Nat → VoteReq)}
    (hfirst : s.bestSid (List.range s.size) (sidSetL s.sid) s.ctrl.voteReq = first)
    (hne : first.1 ≠ sidSetL s.sid) :
    s.pollVoteRequests = (localLast s.log).map fun last =>
      let b := s.chosen first last
      let left := { s with ctrl := { s.ctrl with voteReq := b.requests } }
      if b.best.sid = sidSetL s.sid then
        .raise (left.setSid (sidSetIdx (sidSetTerm s.sid b.highestTerm) (UInt8.ofNat s.idx)))
      else .vote (left.setSid b.best.sid) b.best := by
  rw [pollVoteRequests, if_neg (by rw [hlooks.1]; exact Bool.false_ne_true)]
  dsimp only
  rw [if_neg hlooks.2, hfirst, if_neg hne]
  cases localLast s.log with
  | none => rfl
  | some last =>
    rw [Option.bind_eq_bind, Option.bind_some, Option.map_some, apply_ite some]
    rfl

/-- What `poll_vote_requests` comes to with a request in a higher term. -/
theorem FromCandidates.poll (hc : s.FromCandidates) (hlooks : s.LooksForVotes)
    (hlast : localLast s.log = some last) {k : Nat} (hk : s.Higher k) :
    ∃ b j, s.Higher j ∧ (∀ i, s.Higher i →
        sidGetTerm (s.ctrl.voteReq i).sid ≤ sidGetTerm (s.ctrl.voteReq j).sid) ∧
      Weighed s.size s.ctrl.voteReq (sidSetL s.sid) (sidGetTerm (s.ctrl.voteReq j).sid) last b ∧
      s.pollVoteRequests = some (
        let left := { s with ctrl := { s.ctrl with voteReq := b.requests } }
        if b.best.sid = sidSetL s.sid then
          .raise (left.setSid (sidSetIdx (sidSetTerm s.sid b.highestTerm) (UInt8.ofNat s.idx)))
        else .vote (left.setSid b.best.sid) b.best) := by
  -- every request in a higher term is weighed
  have hhigher {i : Nat} (hi : s.Higher i) :
      (s.ctrl.voteReq i).sid ≤ (s.bestSid (List.range s.size) (sidSetL s.sid) s.ctrl.voteReq).1 := by
    refine (le_bestSid s _ _ _).2 i (List.mem_range.mpr hi.1) ?_
    rintro rfl
    exact absurd hi.2 (UInt64.not_lt.mpr hc.own)
  have hbetter : sidSetL s.sid <
      (s.bestSid (List.range s.size) (sidSetL s.sid) s.ctrl.voteReq).1 :=
    UInt64.lt_of_lt_of_le ((sidSetL_lt_iff (hc.noL k)).mpr hk.2) (hhigher hk)
  have hne : (s.bestSid (List.range s.size) (sidSetL s.sid) s.ctrl.voteReq).1 ≠ sidSetL s.sid :=
    fun heq => UInt64.lt_irrefl _ (heq ▸ hbetter)
  obtain ⟨hdrop, hbest⟩ := bestSid_spec s (List.range s.size) (sidSetL s.sid)
    (dropped_refl s.ctrl.voteReq)
  obtain ⟨-, j, hj, heq⟩ := hbest.resolve_left hne
  refine ⟨s.chosen _ last, j, ?_, ?_, ?_, by rw [pollVoteRequests_eq hlooks rfl hne, hlast]; rfl⟩
  · rw [heq, sidSetL_lt_iff (hc.noL j)] at hbetter
    exact ⟨List.mem_range.mp hj, hbetter⟩
  · intro i hi
    rw [← heq]
    exact sidGetTerm_mono (hhigher hi)
  · -- the loop over the requests keeps what it has weighed
    rw [← heq]
    refine List.foldlRecOn _ _ ?_ fun b hb i hi => hb.step (sidSetL_pos s.sid) (List.mem_range.mp hi)
    exact ⟨⟨UInt64.le_refl _, .inl rfl, UInt64.le_refl _, sidGetTerm_toNat_lt _, hdrop⟩,
      .inr ⟨rfl, UInt64.le_refl _⟩, fun _ => ⟨rfl, rfl⟩, .inl rfl⟩

/-- Only a server that does not know a leader votes, and for a candidate in a higher term. -/
theorem FromCandidates.looksForVotes (hc : s.FromCandidates) {s' : Server} {best : VoteReq}
    (h : s.pollVoteRequests = some (.vote s' best)) : s.LooksForVotes ∧ ∃ i, s.Higher i := by
  constructor
  · rw [pollVoteRequests] at h
    split at h
    · cases h
    · rename_i hl
      dsimp only at h
      split at h
      · cases h
      · rename_i hhb
        exact ⟨Bool.not_eq_true _ ▸ hl, hhb⟩
  · rcases pollVoteRequests_cases h with ⟨q, -, heq⟩ | ⟨-, -, -, heq⟩ |
      ⟨q, term, j, -, -, -, -, -, heq⟩ | ⟨q, j, hj, -, -, hlt, -⟩
    · cases heq
    · cases heq
    · cases heq
    · exact ⟨j, hj, (sidSetL_lt_iff (hc.noL j)).mp hlt⟩

theorem setSid_sid (s : Server) (v : UInt64) : (s.setSid v).sid = v := rfl

/-- **Votes go to up-to-date candidates** of a server that finds the last entry of its log. -/
theorem FromCandidates.votesUpToDate (hc : s.FromCandidates)
    (hlast : localLast s.log = some (lastIdxTerm es)) : s.VotesUpToDate es where
  vote := by
    intro s' best hvote
    obtain ⟨hlooks, k, hk⟩ := hc.looksForVotes hvote
    obtain ⟨b, j, -, -, hb, hpoll⟩ := hc.poll hlooks hlast hk
    rw [hpoll, Option.some.injEq] at hvote
    dsimp only at hvote
    split at hvote
    · cases hvote
    · rename_i hnew
      obtain ⟨-, rfl⟩ := Poll.vote.inj hvote
      obtain ⟨i, hi, heq⟩ := hb.best.resolve_left hnew
      have hle := hb.le
      rw [heq, sidSetL_le_iff (hc.noL i)] at hle
      exact ⟨i, ⟨hi, hle⟩, heq, notBehind_lastIdxTerm.mp hb.notBehind⟩
  raise := by
    rintro hlooks ⟨k, hk⟩ hbehind
    obtain ⟨b, j, hj, hmax, hb, hpoll⟩ := hc.poll hlooks hlast hk
    have hsame := (hb.same fun i hi hle => ?_).1
    · rw [hpoll]
      dsimp only
      rw [if_pos hsame]
      have hterm := (raise_spec (s := s) hlooks.1 hb.bound).2.2
      refine ⟨_, rfl, ?_, fun i hi => ?_⟩
      · rw [setSid_sid, hterm]
        -- the term is that of a request
        rcases hb.highest with heq | ⟨i, hi, hle, heq⟩
        · exact ⟨j, hj, heq⟩
        · exact ⟨i, ⟨hi, (sidSetL_le_iff (hc.noL i)).mp hle⟩, heq⟩
      · rw [setSid_sid, hterm]
        exact UInt64.le_trans (hmax i hi) hb.term
    · rw [notBehind_lastIdxTerm]
      exact hbehind i ⟨hi, (sidSetL_le_iff (hc.noL i)).mp hle⟩

end Server

/-! ### Logs whose end is equal to `len` -/

/-- The request of server 1 in term 2, with an empty log. -/
def emptyHanded : VoteReq := ⟨1025, 0, 0, ⟨0, 3, 0, CID_STABLE, 7⟩⟩

/-- The memory of server 0, which has stood for election in term 1, and gets this request. -/
def candidateCtrl : CtrlData :=
  let fresh := (newServer 0 ⟨0, 3, 0, CID_STABLE, 7⟩).ctrl
  { fresh with sid := 512, voteReq := Function.update fresh.voteReq 1 emptyHanded }

def formerCandidate (log : DareLog) : Server :=
  { newServer 0 ⟨0, 3, 0, CID_STABLE, 7⟩ with log := log, ctrl := candidateCtrl }

theorem voteReq_candidateCtrl (i : Nat) :
    candidateCtrl.voteReq i = emptyHanded ∧ i = 1 ∨ (candidateCtrl.voteReq i).sid = 0 := by
  by_cases hi : i = 1
  · exact .inl ⟨by rw [hi]; rfl, hi⟩
  · have heq : candidateCtrl.voteReq i = ⟨0, 0, 0, ⟨0, 0, 0, 0, 0⟩⟩ := Function.update_of_ne hi _ _
    exact .inr (by rw [heq])

theorem fromCandidates_formerCandidate (log : DareLog) : (formerCandidate log).FromCandidates where
  noL := by
    intro i
    show sidGetL (candidateCtrl.voteReq i).sid = false
    rcases voteReq_candidateCtrl i with ⟨heq, -⟩ | heq
    · rw [heq]
      decide
    · rw [heq]
      decide
  own := by
    show sidGetTerm (candidateCtrl.voteReq 0).sid ≤ sidGetTerm candidateCtrl.sid
    decide

theorem higher_formerCandidate (log : DareLog) (i : Nat) : (formerCandidate log).Higher i ↔ i = 1 := by
  constructor
  · rintro ⟨-, hlt⟩
    have hlt' : sidGetTerm candidateCtrl.sid < sidGetTerm (candidateCtrl.voteReq i).sid := hlt
    rcases voteReq_candidateCtrl i with ⟨-, hi⟩ | heq
    · exact hi
    · rw [heq] at hlt'
      exact absurd hlt' (by decide)
  · rintro rfl
    show 1 < (getGroupSize ⟨0, 3, 0, CID_STABLE, 7⟩).toNat ∧
      sidGetTerm candidateCtrl.sid < sidGetTerm (candidateCtrl.voteReq 1).sid
    decide

/-- It is not up to date with any entry. -/
theorem not_upToDate_emptyHanded (h : LocalLog log V es) (hne : es ≠ []) : ¬UpToDate es emptyHanded := by
  intro hup
  have hlast := List.getLast?_eq_some_getLast hne
  have hpos := h.idx _ (List.getLast_mem hne)
  rcases hup _ hlast with hlt | ⟨-, hle⟩
  · exact absurd hlt (by simp [emptyHanded])
  · exact absurd hpos (UInt64.not_lt.mpr hle)

theorem looksForVotes_formerCandidate (log : DareLog) : (formerCandidate log).LooksForVotes := by
  refine ⟨?_, fun h => h.1 rfl⟩
  show sidGetL 512 = false
  decide

/-- The first loop goes over the slots of the three servers. -/
theorem bestSid_formerCandidate (log : DareLog) :
    ((formerCandidate log).bestSid (List.range (formerCandidate log).size)
      (sidSetL (formerCandidate log).sid) (formerCandidate log).ctrl.voteReq) =
        (1025, Function.update candidateCtrl.voteReq 2 { candidateCtrl.voteReq 2 with sid := 0 }) := by
  show (formerCandidate log).bestSid [0, 1, 2] (sidSetL 512) candidateCtrl.voteReq = _
  have hidx : (formerCandidate log).idx = 0 := rfl
  rw [Server.bestSid, hidx, if_pos rfl, Server.bestSid, hidx, if_neg (by decide), if_neg (by decide),
    Server.bestSid, hidx, if_neg (by decide), if_pos (by decide), Server.bestSid]
  rfl

/-- The server looks at the last entry of its log. -/
theorem pollVoteRequests_formerCandidate (log : DareLog) :
    ((formerCandidate log).pollVoteRequests = none ↔ Server.localLast log = none) ∧
    (Server.localLast log = some (0, 0) →
      ∃ s', (formerCandidate log).pollVoteRequests = some (.vote s' emptyHanded)) := by
  have hold : sidSetL (formerCandidate log).sid = 768 := by
    show sidSetL 512 = 768
    decide
  have heq := Server.pollVoteRequests_eq (looksForVotes_formerCandidate log) (bestSid_formerCandidate log)
    (by rw [hold]; decide)
  have hlog : (formerCandidate log).log = log := rfl
  rw [heq, hlog]
  refine ⟨Option.map_eq_none_iff, fun hlast => ?_⟩
  rw [hlast, Option.map_some]
  dsimp only
  have hbest : (Server.chosen (formerCandidate log) (1025, Function.update candidateCtrl.voteReq 2
      { candidateCtrl.voteReq 2 with sid := 0 }) (0, 0)).best = emptyHanded := by
    show (List.foldl Server.chooseStep ⟨⟨sidSetL 512, 0, 0, default⟩, sidGetTerm 1025,
      Function.update candidateCtrl.voteReq 2 { candidateCtrl.voteReq 2 with sid := 0 }⟩ [0, 1, 2]).best = _
    rfl
  rw [hbest, hold, if_neg (by decide)]
  exact ⟨_, rfl⟩

/-- A log with an entry whose end is equal to `len` does not keep the server from this vote; if the
    tail is known, the server does not come to an end. -/
theorem not_votesUpToDate_of_end_eq_len (h : LocalLog log V es) (hend : log.end_ = log.len)
    (hne : es ≠ []) : ¬(formerCandidate log).VotesUpToDate es := by
  intro hvotes
  have hbehind := not_upToDate_emptyHanded h hne
  obtain ⟨hnone, hvote⟩ := pollVoteRequests_formerCandidate log
  rw [localLast_of_end_eq_len hend] at hnone hvote
  by_cases htail : log.tail = log.len
  · obtain ⟨s', hpoll⟩ := hvote (if_pos htail)
    obtain ⟨i, -, -, hup⟩ := hvotes.vote s' emptyHanded hpoll
    exact hbehind hup
  · obtain ⟨s', hpoll, -⟩ := hvotes.raise (looksForVotes_formerCandidate log)
      ⟨1, (higher_formerCandidate log 1).mpr rfl⟩ fun i hi => by
        rw [(higher_formerCandidate log i).mp hi]
        exact hbehind
    rw [hnone.mpr (if_neg htail)] at hpoll
    cases hpoll

/-- **For which logs votes go to up-to-date candidates only**: the end is not equal to `len`, or there
    is no entry. -/
theorem votesUpToDate_iff (h : LocalLog log V es) :
    (∀ s : Server, s.log = log → s.FromCandidates → s.VotesUpToDate es) ↔
      log.end_ ≠ log.len ∨ es = [] := by
  constructor
  · intro hall
    by_contra hcon
    rw [not_or, not_not] at hcon
    exact not_votesUpToDate_of_end_eq_len h hcon.1 hcon.2
      (hall (formerCandidate log) rfl (fromCandidates_formerCandidate log))
  · rintro hok s rfl hc
    refine hc.votesUpToDate ?_
    by_cases hend : s.log.end_ = s.log.len
    · obtain rfl := hok.resolve_left (not_not.mpr hend)
      have htail : s.log.tail = s.log.len :=
        h.tail.resolve_right fun ⟨_, gs, e, heq, _⟩ => absurd heq (by simp)
      rw [localLast_of_end_eq_len hend, if_pos htail]
      rfl
    · exact localLast_eq h hend

/-- A log with one entry. -/
theorem localLog_shortLeader : LocalLog shortLeader 64 [noop 1] where
  ends := endsAt_logOf ⟨by decide, rfl⟩
  head := ⟨0, cursor_shortLeader⟩
  apply := ⟨0, [], [noop 1], rfl, cursor_shortLeader⟩
  commit := ⟨0, [], [noop 1], rfl, cursor_shortLeader⟩
  tail := .inl rfl
  idx := by decide

theorem votesUpToDate_shortLeader : (formerCandidate shortLeader).VotesUpToDate [noop 1] :=
  (votesUpToDate_iff localLog_shortLeader).mpr (.inl (by decide)) _ rfl
    (fromCandidates_formerCandidate shortLeader)

/-- The same entry at the end of the buffer. -/
def lastLog : DareLog :=
  logOf (LOG_SIZE - 64) (LOG_SIZE - 64) LOG_SIZE (writeNoop zeroMem (LOG_SIZE - 64) 1)

theorem cursor_lastLog : Cursor lastLog LOG_SIZE (LOG_SIZE - 64) (LOG_SIZE - 64) [noop 1] :=
  cursor_logOf ⟨by decide, rfl⟩ (by decide)
    (chain_writeNoop [] (by decide) trivial rfl (by decide) (by decide)) (by decide)

theorem localLog_lastLog : LocalLog lastLog LOG_SIZE [noop 1] where
  ends := endsAt_logOf ⟨by decide, rfl⟩
  head := ⟨_, cursor_lastLog⟩
  apply := ⟨_, [], [noop 1], rfl, cursor_lastLog⟩
  commit := ⟨_, [], [noop 1], rfl, cursor_lastLog⟩
  tail := .inl rfl
  idx := by decide

/-- A server with it votes for a candidate with an empty log. -/
theorem not_votesUpToDate : (formerCandidate lastLog).FromCandidates ∧
    (∃ s', (formerCandidate lastLog).pollVoteRequests = some (.vote s' emptyHanded)) ∧
    ¬(formerCandidate lastLog).VotesUpToDate [noop 1] := by
  have hlast : Server.localLast lastLog = some (0, 0) := by
    rw [localLast_of_end_eq_len rfl]
    exact if_pos rfl
  exact ⟨fromCandidates_formerCandidate lastLog, (pollVoteRequests_formerCandidate lastLog).2 hlast,
    not_votesUpToDate_of_end_eq_len localLog_lastLog rfl (by simp)⟩

end Apus
