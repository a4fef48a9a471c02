import Apus.Group.Removal
import Apus.Group.TakeOver

namespace Apus

open Lib

/-!
# JOIN requests

A server that wants to join sends a JOIN request, again and again, until it gets a reply.  The leader
knows it by the LID in the request in the endpoint DB and in the table of servers, but looks for it in
that table by the LID in the completion of the receive.  Where the two are not the same, a repeated
request gets another slot.

* `JoinState`, `joinStep` — a leader that handles JOIN requests, applies CONFIG entries, removes servers
  and connects to them;
* `JoinState.Idempotent` — what is claimed of every run, and `JoinState.Ok` when it holds;
* `TableOk` — the table of servers, and what changes of it keep.
-/

/-! ### The leader -/

/-- What `dare_ep_t` has of a JOIN request. -/
structure Endpoint where
  lastReqId : UInt64
  cidIdx : UInt64
  committed : Bool

/-- `reconf_rep_t`, with the LID of the endpoint it is sent to. -/
structure JoinReply where
  slid : UInt16
  reqId : UInt64
  cid : DareCid
  cidIdx : UInt64
  head : Nat
  idx : Nat

/-- A request that was granted, and the slot that was set for it. -/
structure Grant where
  slid : UInt16
  reqId : UInt64
  slot : Nat
  deriving DecidableEq

/-- A leader, and what it has granted and answered. -/
structure JoinState where
  leader : Member
  /-- `ud_ep.lid` of the servers. -/
  lids : Nat → UInt16
  /-- `rc_connected` of the servers. -/
  connected : Nat → Bool
  /-- The endpoint DB. -/
  endpoints : UInt16 → Option Endpoint
  /-- `log->head`. -/
  head : Nat
  replies : List JoinReply
  grants : List Grant

inductive JoinLabel
  /-- A JOIN request of the endpoint `slid`; `wcSlid` is the source LID of the completion. -/
  | join (wcSlid slid : UInt16) (id : UInt64)
  /-- The next entry of the log is applied. -/
  | apply
  | checkFailureCount (failed : Nat → Bool)
  | forceLogPruning (log : DareLog) (applyOffsets : Nat → Nat)
  /-- A RC_SYN message that has the QP numbers of this server, or a RC_SYNACK message. -/
  | rcSyn (i : Nat) (slid : UInt16) (ack : Bool)
  | rcAck (i : Nat)
  /-- An entry is appended that is not CONFIG. -/
  | append (reqId : UInt64) (cltId : UInt16) (type : UInt8) (data : EntryData)
  /-- The log is pruned. -/
  | prune (head : Nat)

namespace JoinState

variable (s : JoinState)

/-- The servers of the table. -/
def isOn (i : Nat) : Bool := cidIsServerOn s.leader.cid i

/-- The slot that `ud_send_clt_reply` looks up: the first with the LID, or the size of the group. -/
def replySlot (lid : UInt16) : Nat :=
  let size := (getExtendedGroupSize s.leader.cid).toNat
  ((List.range size).find? fun i => s.lids i == lid).getD size

/-- `ud_send_clt_reply`; `none` if there is no such endpoint, which is a NULL dereference. -/
def sendCltReply (lid : UInt16) (reqId : UInt64) : Option JoinState :=
  (s.endpoints lid).map fun ep =>
    { s with
      endpoints := Function.update s.endpoints lid
        (some { ep with lastReqId := reqId, committed := true })
      replies := s.replies ++ [⟨lid, reqId, s.leader.cid, ep.cidIdx, s.head, s.replySlot lid⟩] }

/-- `rc_disconnect_server`, for several servers. -/
def disconnect (is : Nat → Bool) : JoinState :=
  { s with
    lids := fun i => if is i && s.connected i then 0 else s.lids i
    connected := fun i => s.connected i && !is i }

/-- The endpoint of a JOIN request; it is created with its first one. -/
def endpoint (slid : UInt16) : Endpoint := (s.endpoints slid).getD ⟨0, 0, false⟩

/-- `handle_server_join_request`. -/
def join (wcSlid slid : UInt16) (id : UInt64) : Option JoinState :=
  if s.leader.cid.state ≠ CID_STABLE then some s
  else
    let ep := s.endpoint slid
    let known := { s with endpoints := Function.update s.endpoints slid (some ep) }
    match joinSlot s.leader.cid s.lids wcSlid with
    | none =>
      -- check if the JOIN request is repeated, and its entry committed
      if ep.lastReqId = id ∧ ep.committed = true then known.sendCltReply wcSlid id else some known
    | some empty =>
      some { s with
        leader := s.leader.join s.lids wcSlid slid id
        lids := Function.update s.lids empty slid
        connected := Function.update s.connected empty false
        endpoints := Function.update s.endpoints slid (some ⟨id, s.leader.newIdx, false⟩)
        grants := ⟨slid, id, empty⟩ :: s.grants }

/-- The leader sends a reply when it applies the entry. -/
def answers (e : DareLogEntry) : Bool :=
  e.type == CONFIG && e.reqId != 0 &&
    (e.cid.state == CID_STABLE ||
      isUnstableConfig s.leader.cid e && e.cid.state == CID_EXTENDED)

/-- The servers that are removed when the entry is applied. -/
def extra (e : DareLogEntry) (i : Nat) : Bool :=
  isUnstableConfig s.leader.cid e && e.cid.state == CID_TRANSIT &&
    decide (s.leader.cid.size1.toNat ≤ i ∧ i < s.leader.cid.size0.toNat) && i != s.leader.idx && s.isOn i

/-- An iteration of `apply_committed_entries`. -/
def apply : Option JoinState :=
  match s.leader.log[s.leader.apply]? with
  | none => none
  | some e =>
    let applied := { s.disconnect (s.extra e) with leader := s.leader.applyEntry }
    if s.answers e then applied.sendCltReply e.cltId e.reqId else some applied

/-- `check_failure_count`. -/
def checkFailureCount (failed : Nat → Bool) : JoinState :=
  let suspected := fun i => decide (s.leader.cid.state = CID_STABLE) &&
    decide (i < (getGroupSize s.leader.cid).toNat) && s.isOn i && failed i
  { s.disconnect suspected with leader := s.leader.checkFailureCount failed }

/-- `force_log_pruning`, without the pruning. -/
def forceLogPruning (log : DareLog) (applyOffsets : Nat → Nat) : JoinState :=
  let target := forceRemoved log applyOffsets s.leader.cid s.leader.idx
  { s.disconnect (fun i => target == some i) with leader := s.leader.forceLogPruning log applyOffsets }

/-- `handle_rc_syn` and `handle_rc_synack`. -/
def rcSyn (i : Nat) (slid : UInt16) (ack : Bool) : JoinState :=
  if s.isOn i && !s.connected i then
    { s with
      lids := Function.update s.lids i slid
      connected := Function.update s.connected i ack }
  else s

/-- `handle_rc_ack`. -/
def rcAck (i : Nat) : JoinState :=
  if s.isOn i then { s with connected := Function.update s.connected i true } else s

/-- One step; `none` if it is not possible, or does not come to an end. -/
def step : JoinLabel → Option JoinState
  | .join wcSlid slid id => s.join wcSlid slid id
  | .apply => s.apply
  | .checkFailureCount failed => some (s.checkFailureCount failed)
  | .forceLogPruning log applyOffsets => some (s.forceLogPruning log applyOffsets)
  | .rcSyn i slid ack => some (s.rcSyn i slid ack)
  | .rcAck i => some (s.rcAck i)
  | .append reqId cltId type data =>
    if type = CONFIG then none
    else some { s with leader := s.leader.append reqId cltId type data }
  | .prune head => some { s with head := head }

end JoinState

/-- The step relation. -/
def JoinStep (s : JoinState) (l : JoinLabel) (s' : JoinState) : Prop := s.step l = some s'

/-- A leader that has no endpoints yet, and nothing left to apply.  Any servers are ON, each with a LID
    of its own, unless its LID is not known. -/
structure joinInit (s : JoinState) : Prop where
  isLeader : s.leader.isLeader = true
  sizes : SizesFit s.leader.cid
  on_lt : ∀ i < 32, s.isOn i = true → i < (getExtendedGroupSize s.leader.cid).toNat
  lids : ∀ i < MAX_SERVER_COUNT, ∀ j < MAX_SERVER_COUNT, s.isOn i = true → s.lids i ≠ 0 →
    s.lids i = s.lids j → i = j
  endpoints : ∀ lid, s.endpoints lid = none
  apply : s.leader.apply = s.leader.log.length
  replies : s.replies = []
  grants : s.grants = []

/-! ### What is claimed -/

/-- An endpoint has at most one slot, a request is granted at most once, and a reply carries the slot
    that was set for its request. -/
structure JoinState.Idempotent (s : JoinState) : Prop where
  oneSlot : ∀ i < MAX_SERVER_COUNT, ∀ j < MAX_SERVER_COUNT, s.isOn i = true → s.isOn j = true →
    s.lids i ≠ 0 → s.lids i = s.lids j → i = j
  once : (s.grants.map fun g => (g.slid, g.reqId)).Nodup
  replied : ∀ r ∈ s.replies, ⟨r.slid, r.reqId, r.idx⟩ ∈ s.grants

namespace JoinState

variable (s : JoinState)

/-- A server that is ON has the LID. -/
def Occupies (lid : UInt16) : Prop := ∃ i < MAX_SERVER_COUNT, s.isOn i = true ∧ s.lids i = lid

/-- The request was granted before. -/
def Granted (slid : UInt16) (id : UInt64) : Prop := ∃ g ∈ s.grants, g.slid = slid ∧ g.reqId = id

/-- The request was the last one of the endpoint that was answered. -/
def Answered (slid : UInt16) (id : UInt64) : Prop :=
  (s.endpoint slid).lastReqId = id ∧ (s.endpoint slid).committed = true

instance (lid : UInt16) : Decidable (s.Occupies lid) :=
  inferInstanceAs (Decidable (∃ i < MAX_SERVER_COUNT, s.isOn i = true ∧ s.lids i = lid))

instance (slid : UInt16) (id : UInt64) : Decidable (s.Granted slid id) :=
  inferInstanceAs (Decidable (∃ g ∈ s.grants, g.slid = slid ∧ g.reqId = id))

instance (slid : UInt16) (id : UInt64) : Decidable (s.Answered slid id) :=
  inferInstanceAs (Decidable (_ ∧ _))

/-- The source LID of a JOIN request is that of a server if the endpoint has a slot or if the request
    was granted before, and it is the LID of the endpoint if the request was answered; the table has
    a slot left for a new server.  An entry with a request is applied while the server is ON in the slot
    that was set for it, and a server only sends LIDs that are its own. -/
def Ok : JoinLabel → Prop
  | .join wcSlid slid id =>
    slid ≠ 0 ∧ (s.Occupies slid ∨ s.Granted slid id → s.Occupies wcSlid) ∧
      (s.Answered slid id → s.Occupies wcSlid → wcSlid = slid) ∧
      ((∀ i < s.leader.cid.size0.toNat, s.isOn i = true) →
        s.leader.cid.size0.toNat < MAX_SERVER_COUNT)
  | .apply => ∀ e ∈ s.leader.log[s.leader.apply]?, s.answers e = true →
    ∀ g ∈ s.grants, g.slid = e.cltId → g.reqId = e.reqId → s.isOn g.slot = true ∧ s.lids g.slot = g.slid
  | .rcSyn i slid _ => s.lids i = slid ∨ (∀ j < MAX_SERVER_COUNT, s.lids j ≠ slid) ∧
    ∀ g ∈ s.grants, g.slid ≠ slid
  | _ => True

instance : (l : JoinLabel) → Decidable (s.Ok l)
  | .join .. => inferInstanceAs (Decidable (_ ∧ _ ∧ _ ∧ _))
  | .apply => inferInstanceAs (Decidable (∀ e ∈ s.leader.log[s.leader.apply]?, _))
  | .rcSyn .. => inferInstanceAs (Decidable (_ ∨ _ ∧ _))
  | .checkFailureCount _ => isTrue trivial
  | .forceLogPruning .. => isTrue trivial
  | .rcAck _ => isTrue trivial
  | .append .. => isTrue trivial
  | .prune _ => isTrue trivial

end JoinState

/-! ### The table of servers -/

/-- The servers that are ON have LIDs of their own, and come before the slots that still have the LID
    of one of them. -/
structure TableOk (cid : DareCid) (lids : Nat → UInt16) : Prop where
  sizes : SizesFit cid
  on_lt : ∀ i < 32, cidIsServerOn cid i = true → i < (getExtendedGroupSize cid).toNat
  distinct : ∀ i < MAX_SERVER_COUNT, ∀ j < MAX_SERVER_COUNT, cidIsServerOn cid i = true →
    cidIsServerOn cid j = true → lids i ≠ 0 → lids i = lids j → i = j
  stale : ∀ i < MAX_SERVER_COUNT, ∀ j < MAX_SERVER_COUNT, cidIsServerOn cid i = true →
    cidIsServerOn cid j = false → lids i ≠ 0 → lids i = lids j → i < j

variable {cid cid' : DareCid} {lids lids' : Nat → UInt16} {lid wcSlid slid : UInt16} {id : UInt64}
  {n i j slot empty : Nat} {s s' : JoinState} {l : JoinLabel}

/-- The lookup of a reply finds the server that is ON. -/
theorem TableOk.find (h : TableOk cid lids) (hi : i < MAX_SERVER_COUNT)
    (hon : cidIsServerOn cid i = true) (hne : lids i ≠ 0) :
    (List.range (getExtendedGroupSize cid).toNat).find? (fun j => lids j == lids i) = some i := by
  have hsize := h.sizes.getExtendedGroupSize
  have hmax : MAX_SERVER_COUNT ≤ 32 := by decide
  rw [List.find?_range_eq_some]
  refine ⟨beq_self_eq_true _, List.mem_range.mpr (h.on_lt i (by omega) hon), fun j hj => ?_⟩
  rw [Bool.not_eq_true', beq_eq_false_iff_ne]
  intro heq
  by_cases honj : cidIsServerOn cid j = true
  · have := h.distinct i hi j (by omega) hon honj hne heq.symm
    omega
  · have := h.stale i hi j (by omega) hon (Bool.not_eq_true _ ▸ honj) hne heq.symm
    omega

/-- Servers are removed; the LID of a slot is kept, or cleared if its server is OFF. -/
theorem TableOk.remove (h : TableOk cid lids) (hsizes : SizesFit cid')
    (hlt : ∀ i < 32, cidIsServerOn cid' i = true → i < (getExtendedGroupSize cid').toNat)
    (hon : ∀ i < 32, cidIsServerOn cid' i = true → cidIsServerOn cid i = true)
    (hlids : ∀ i < MAX_SERVER_COUNT, lids' i = lids i ∨ lids' i = 0 ∧ cidIsServerOn cid' i = false) :
    TableOk cid' lids' := by
  have hmax : MAX_SERVER_COUNT ≤ 32 := by decide
  refine ⟨hsizes, hlt, ?_, ?_⟩
  · intro i hi j hj honi honj hne heq
    rcases hlids i hi with hi' | ⟨hzero, -⟩
    · rcases hlids j hj with hj' | ⟨hzero, -⟩
      · exact h.distinct i hi j hj (hon i (by omega) honi) (hon j (by omega) honj) (hi' ▸ hne)
          (by rw [← hi', heq, hj'])
      · exact absurd (heq.trans hzero) hne
    · exact absurd hzero hne
  · intro i hi j hj honi hoffj hne heq
    rcases hlids i hi with hi' | ⟨hzero, -⟩
    · rcases hlids j hj with hj' | ⟨hzero, -⟩
      · have heq' : lids i = lids j := by rw [← hi', heq, hj']
        -- a server that was removed now did not have the LID of another one
        by_cases honj : cidIsServerOn cid j = true
        · have hij := h.distinct i hi j hj (hon i (by omega) honi) honj (hi' ▸ hne) heq'
          rw [← hij, honi] at hoffj
          cases hoffj
        · exact h.stale i hi j hj (hon i (by omega) honi) (Bool.not_eq_true _ ▸ honj) (hi' ▸ hne) heq'
      · exact absurd (heq.trans hzero) hne
    · exact absurd hzero hne

/-! ### The slot of a request -/

/-- No slot is set if a server has the LID. -/
theorem joinScan_eq_none_iff :
    joinScan cid lids lid n empty = none ↔ ∃ i < n, cidIsServerOn cid i = true ∧ lids i = lid := by
  induction n generalizing empty with
  | zero => simp [joinScan]
  | succ n ih =>
    rw [joinScan]
    split
    · rename_i hon
      split
      · rename_i hlid
        exact iff_of_true rfl ⟨n, Nat.lt_succ_self n, hon, hlid⟩
      · rename_i hlid
        rw [ih]
        constructor
        · rintro ⟨i, hi, honi, hlidi⟩
          exact ⟨i, Nat.lt_succ_of_lt hi, honi, hlidi⟩
        · rintro ⟨i, hi, honi, hlidi⟩
          refine ⟨i, ?_, honi, hlidi⟩
          rcases Nat.lt_succ_iff_lt_or_eq.mp hi with hlt | rfl
          · exact hlt
          · exact absurd hlidi hlid
    · rename_i hoff
      rw [ih]
      constructor
      · rintro ⟨i, hi, honi, hlidi⟩
        exact ⟨i, Nat.lt_succ_of_lt hi, honi, hlidi⟩
      · rintro ⟨i, hi, honi, hlidi⟩
        refine ⟨i, ?_, honi, hlidi⟩
        rcases Nat.lt_succ_iff_lt_or_eq.mp hi with hlt | rfl
        · exact hlt
        · exact absurd honi hoff

/-- It is the first that is OFF. -/
theorem joinScan_le_off (h : joinScan cid lids lid n empty = some slot) (hj : j < n)
    (hoff : cidIsServerOn cid j = false) : slot ≤ j := by
  induction n generalizing empty with
  | zero => exact absurd hj (Nat.not_lt_zero j)
  | succ n ih =>
    rw [joinScan] at h
    split at h
    · rename_i hon
      split at h
      · cases h
      · refine ih h ?_
        rcases Nat.lt_succ_iff_lt_or_eq.mp hj with hlt | rfl
        · exact hlt
        · rw [hoff] at hon
          cases hon
    · rcases Nat.lt_succ_iff_lt_or_eq.mp hj with hlt | rfl
      · exact ih h hlt
      · rcases joinScan_le h with heq | hlt
        · exact heq.le
        · exact hlt.le

/-- In a stable configuration no slot is set if the LID is that of a server. -/
theorem joinSlot_eq_none_iff (h : TableOk cid lids) (hstable : cid.state = CID_STABLE) :
    joinSlot cid lids lid = none ↔
      ∃ i < MAX_SERVER_COUNT, cidIsServerOn cid i = true ∧ lids i = lid := by
  have hsize := h.sizes.1
  have hmax : MAX_SERVER_COUNT ≤ 32 := by decide
  rw [joinSlot, if_neg (not_not.mpr hstable), joinScan_eq_none_iff]
  constructor
  · rintro ⟨i, hi, hon⟩
    exact ⟨i, by omega, hon⟩
  · rintro ⟨i, hi, hon, hlid⟩
    have hlt := h.on_lt i (by omega) hon
    rw [getExtendedGroupSize, if_pos hstable] at hlt
    exact ⟨i, hlt, hon, hlid⟩

/-- What is known of the slot that is set. -/
structure SlotFree (cid : DareCid) (empty : Nat) : Prop where
  lt : empty < MAX_SERVER_COUNT
  le_size : empty ≤ cid.size0.toNat
  off : cidIsServerOn cid empty = false
  first : ∀ j < cid.size0.toNat, cidIsServerOn cid j = false → empty ≤ j

theorem TableOk.slotFree (h : TableOk cid lids) (hslot : joinSlot cid lids lid = some empty)
    (hroom : (∀ i < cid.size0.toNat, cidIsServerOn cid i = true) →
      cid.size0.toNat < MAX_SERVER_COUNT) : SlotFree cid empty := by
  have hsize := h.sizes.1
  have hmax : MAX_SERVER_COUNT ≤ 32 := by decide
  rw [joinSlot] at hslot
  split at hslot
  · cases hslot
  · rename_i hstate
    have hext : (getExtendedGroupSize cid).toNat = cid.size0.toNat := by
      rw [getExtendedGroupSize, if_pos (not_not.mp hstate)]
    have hfirst : ∀ j < cid.size0.toNat, cidIsServerOn cid j = false → empty ≤ j :=
      fun j hj hoff => joinScan_le_off hslot hj hoff
    rcases joinScan_le hslot with rfl | hlt
    · -- every slot of the group is taken
      have hlt := hroom fun i hi => by
        by_contra hoff
        have hle := hfirst i hi (Bool.not_eq_true _ ▸ hoff)
        omega
      refine ⟨hlt, le_refl _, ?_, hfirst⟩
      by_contra hon
      have := h.on_lt _ (by omega) (Bool.not_eq_false _ ▸ hon)
      omega
    · exact ⟨by omega, hlt.le, (joinScan_off hslot).resolve_left (Nat.ne_of_lt hlt), hfirst⟩

/-- It is not that of a server that is ON. -/
theorem SlotFree.ne (h : SlotFree cid empty) (hon : cidIsServerOn cid j = true) : j ≠ empty := by
  rintro rfl
  rw [h.off] at hon
  cases hon

/-- The bitmask with the new server. -/
theorem cidIsServerOn_joinCid (he : empty < 32) (hj : j < 32) :
    cidIsServerOn (joinCid cid empty) j = (decide (empty = j) || cidIsServerOn cid j) := by
  rw [← cidIsServerOn_add cid he hj, joinCid]
  split <;> rfl

theorem TableOk.join (h : TableOk cid lids) (hstable : cid.state = CID_STABLE)
    (hfree : SlotFree cid empty) (hnew : ∀ i < MAX_SERVER_COUNT, cidIsServerOn cid i = true →
      lids i ≠ slid) : TableOk (joinCid cid empty) (Function.update lids empty slid) := by
  have hmax : MAX_SERVER_COUNT ≤ 32 := by decide
  have hempty := hfree.lt
  have hle := hfree.le_size
  have hon {j : Nat} (hj : j < 32) : cidIsServerOn (joinCid cid empty) j = true ↔
      empty = j ∨ cidIsServerOn cid j = true := by
    rw [cidIsServerOn_joinCid (by omega) hj, Bool.or_eq_true, decide_eq_true_iff]
  have hext : (getExtendedGroupSize cid).toNat = cid.size0.toNat := by
    rw [getExtendedGroupSize, if_pos hstable]
  refine ⟨h.sizes.join fun heq => heq ▸ hempty, ?_, ?_, ?_⟩
  · intro i hi honi
    rw [joinCid]
    split
    · rename_i heq
      -- one more server than the size of the group
      have hsize : (cid.size0 + 1).toNat = cid.size0.toNat + 1 := by
        rw [UInt8.toNat_add, UInt8.toNat_one]
        omega
      have hext' : (getExtendedGroupSize { cidServerAdd cid empty with
          state := CID_EXTENDED, size1 := cid.size0 + 1, epoch := cid.epoch + 1 }).toNat =
            cid.size0.toNat + 1 := by
        have hstate : CID_EXTENDED ≠ CID_STABLE := by decide
        have hlt : cid.size0 < cid.size0 + 1 := by
          rw [UInt8.lt_iff_toNat_lt]
          omega
        rw [getExtendedGroupSize, if_neg hstate]
        exact (congrArg UInt8.toNat (if_pos hlt)).trans hsize
      rw [hext']
      rcases (hon hi).mp honi with rfl | honi
      · omega
      · have := h.on_lt i hi honi
        omega
    · rename_i hne
      have hext' : getExtendedGroupSize (cidServerAdd cid empty) = getExtendedGroupSize cid := rfl
      rw [hext']
      rcases (hon hi).mp honi with rfl | honi
      · omega
      · exact h.on_lt i hi honi
  · intro i hi j hj honi honj hne heq
    rcases (hon (by omega)).mp honi with rfl | honi
    · rcases (hon (by omega)).mp honj with rfl | honj
      · rfl
      · by_contra hij
        rw [Function.update_self, Function.update_of_ne (Ne.symm hij)] at heq
        exact hnew j hj honj heq.symm
    · rcases (hon (by omega)).mp honj with rfl | honj
      · by_contra hij
        rw [Function.update_self, Function.update_of_ne hij] at heq
        exact hnew i hi honi heq
      · rw [Function.update_of_ne (hfree.ne honi)] at hne heq
        rw [Function.update_of_ne (hfree.ne honj)] at heq
        exact h.distinct i hi j hj honi honj hne heq
  · intro i hi j hj honi hoffj hne heq
    have hnot : ¬(empty = j ∨ cidIsServerOn cid j = true) := by
      rw [← hon (by omega), hoffj]
      exact Bool.false_ne_true
    rw [not_or, Bool.not_eq_true] at hnot
    obtain ⟨hj', hoff⟩ := hnot
    rcases (hon (by omega)).mp honi with rfl | honi
    · rcases Nat.lt_or_ge j cid.size0.toNat with hlt | hge
      · have := hfree.first j hlt hoff
        omega
      · omega
    · rw [Function.update_of_ne (hfree.ne honi)] at hne heq
      rw [Function.update_of_ne (Ne.symm hj')] at heq
      exact h.stale i hi j hj honi hoff hne heq

/-- A server sends its LID. -/
theorem TableOk.rcSyn (h : TableOk cid lids) (hnew : ∀ j < MAX_SERVER_COUNT, lids j ≠ slid) (i : Nat) :
    TableOk cid (Function.update lids i slid) := by
  refine ⟨h.sizes, h.on_lt, ?_, ?_⟩
  · -- a new LID is none of the others
    intro a ha b hb hona honb hne heq
    by_contra hab
    by_cases hai : a = i
    · subst hai
      rw [Function.update_self, Function.update_of_ne (Ne.symm hab)] at heq
      exact hnew b hb heq.symm
    · rw [Function.update_of_ne hai] at hne heq
      by_cases hbi : b = i
      · subst hbi
        rw [Function.update_self] at heq
        exact hnew a ha heq
      · rw [Function.update_of_ne hbi] at heq
        exact hab (h.distinct a ha b hb hona honb hne heq)
  · intro a ha b hb hona hoffb hne heq
    by_cases hai : a = i
    · subst hai
      by_cases hba : b = a
      · rw [hba, hona] at hoffb
        cases hoffb
      · rw [Function.update_self, Function.update_of_ne hba] at heq
        exact absurd heq.symm (hnew b hb)
    · rw [Function.update_of_ne hai] at hne heq
      by_cases hbi : b = i
      · subst hbi
        rw [Function.update_self] at heq
        exact absurd heq (hnew a ha)
      · rw [Function.update_of_ne hbi] at heq
        exact h.stale a ha b hb hona hoffb hne heq

end Apus
