import Apus.Group.Join

namespace Apus

open Lib

/-!
# Runs of JOIN requests

What a leader does about JOIN requests keeps the table of servers, the endpoint DB, the entries of its
log that are not applied and its replies together.

* `JoinInv` — the invariant; `JoinInv.join`, `JoinInv.apply` and the others are what each step keeps;
* `join_idempotent` — while `JoinState.Ok` is met, an endpoint has one slot, a request is granted
  once, and the replies carry the slots that were set.
-/

variable {cid : DareCid} {lids : Nat → UInt16} {lid wcSlid slid : UInt16} {id : UInt64}
  {i j empty : Nat} {s s' : JoinState} {l : JoinLabel}

/-! ### Servers that are removed -/

theorem on_of_nextCid {state : UInt8} (h : cidIsServerOn (nextCid cid state) j = true) :
    cidIsServerOn cid j = true := by
  rw [nextCid] at h
  split at h
  · exact h
  · split at h
    · exact ((cidIsServerOn_foldl_rm _ _ j).mp h).1
    · exact h

/-- The servers of the next configuration are in its group. -/
theorem TableOk.on_lt_nextCid (h : TableOk cid lids) (state : UInt8) (i : Nat) (hi : i < 32)
    (hon : cidIsServerOn (nextCid cid state) i = true) :
    i < (getExtendedGroupSize (nextCid cid state)).toNat := by
  have hlt := h.on_lt i hi (on_of_nextCid hon)
  have hstate : CID_TRANSIT ≠ CID_STABLE := by decide
  rcases nextCid_cases cid state with ⟨-, heq⟩ | ⟨rfl, b, heq⟩ | ⟨-, -, heq⟩
  · -- both sizes count
    have hmax : (getExtendedGroupSize { cid with state := CID_TRANSIT }) =
        if cid.size0 < cid.size1 then cid.size1 else cid.size0 := if_neg hstate
    rw [heq, hmax]
    rw [getExtendedGroupSize] at hlt
    by_cases hsize : cid.size0 < cid.size1
    · rw [if_pos hsize] at hlt ⊢
      rw [UInt8.lt_iff_toNat_lt] at hsize
      split at hlt
      · omega
      · exact hlt
    · rw [if_neg hsize, ite_self] at hlt
      rw [if_neg hsize]
      exact hlt
  · have hext : getExtendedGroupSize { cid with
        state := CID_STABLE, size0 := cid.size1, size1 := 0, bitmask := b } = cid.size1 := if_pos rfl
    have hkept : ∀ j ∈ List.range' cid.size1.toNat (cid.size0.toNat - cid.size1.toNat),
        j % 32 ≠ i % 32 := by
      rw [nextCid, if_neg (by decide), if_pos rfl] at hon
      exact ((cidIsServerOn_foldl_rm _ _ i).mp hon).2
    rw [heq, hext]
    -- a server between the sizes is removed
    by_contra hge
    refine hkept i (List.mem_range'_1.mpr ⟨Nat.not_lt.mp hge, ?_⟩) rfl
    rw [getExtendedGroupSize] at hlt
    split at hlt
    · omega
    · split at hlt
      · exact absurd hlt hge
      · omega
  · rw [heq]
    exact hlt

/-! ### The requests of the entries that are not applied -/

/-- The requests whose entries are not applied yet. -/
def Member.requests (m : Member) : List (UInt16 × UInt64) :=
  ((m.log.drop m.apply).filter fun e => e.type == CONFIG && e.reqId != 0).map fun e =>
    (e.cltId, e.reqId)

variable {m : Member} {p : UInt16 × UInt64} {reqId : UInt64} {cltId : UInt16} {type : UInt8}
  {data : EntryData} {e : DareLogEntry}

theorem mem_requests : p ∈ m.requests ↔ ∃ e ∈ m.log.drop m.apply,
    e.type = CONFIG ∧ e.reqId ≠ 0 ∧ (e.cltId, e.reqId) = p := by
  simp [Member.requests, and_assoc]

theorem mem_requests_append (h : p ∈ (m.append reqId cltId type data).requests) :
    p ∈ m.requests ∨ type = CONFIG ∧ reqId ≠ 0 ∧ p = (cltId, reqId) := by
  obtain ⟨e, he, htype, hreq, heq⟩ := mem_requests.mp h
  rw [Member.append, List.drop_append] at he
  rcases List.mem_append.mp he with he | he
  · exact .inl (mem_requests.mpr ⟨e, he, htype, hreq, heq⟩)
  · obtain rfl := List.mem_singleton.mp (List.mem_of_mem_drop he)
    exact .inr ⟨htype, hreq, heq.symm⟩

theorem mem_requests_reconfigure (h : p ∈ (m.reconfigure cid reqId cltId).requests) :
    p ∈ m.requests ∨ reqId ≠ 0 ∧ p = (cltId, reqId) :=
  (mem_requests_append h).imp_right And.right

theorem mem_requests_advance (h : p ∈ { m with apply := m.apply + 1 }.requests) :
    p ∈ m.requests := by
  obtain ⟨e, he, hrest⟩ := mem_requests.mp h
  refine mem_requests.mpr ⟨e, ?_, hrest⟩
  rw [← List.drop_drop] at he
  exact List.mem_of_mem_drop he

/-- The entry of a request goes on with it. -/
theorem mem_requests_applyEntry (h : p ∈ m.applyEntry.requests) : p ∈ m.requests := by
  rw [Member.applyEntry] at h
  split at h
  · exact h
  · rename_i e he
    split at h
    · rename_i hunstable
      rcases mem_requests_reconfigure (mem_requests_advance h) with h | ⟨hreq, rfl⟩
      · exact h
      · rw [Bool.and_eq_true, isUnstableConfig, Bool.and_eq_true, Bool.and_eq_true, beq_iff_eq]
          at hunstable
        split at hreq
        · exact absurd rfl hreq
        · rw [if_neg ‹_›, if_neg ‹_›]
          refine mem_requests.mpr ⟨e, ?_, hunstable.2.1.1, hreq, rfl⟩
          rw [drop_eq_cons he]
          exact List.mem_cons_self
    · exact mem_requests_advance h

/-- The configuration after an entry is applied. -/
theorem cid_applyEntry (hlead : m.isLeader = true) (he : m.log[m.apply]? = some e) :
    m.applyEntry.cid = if isUnstableConfig m.cid e then nextCid m.cid e.cid.state else m.cid := by
  rw [Member.applyEntry, he]
  simp only [hlead, Bool.true_and]
  split <;> rfl

/-- Removals are appended without a request. -/
theorem checkFailureCount_cases (m : Member) (failed : Nat → Bool) :
    m.checkFailureCount failed = m ∨ ∃ cid, m.checkFailureCount failed = m.reconfigure cid 0 0 := by
  rw [Member.checkFailureCount]
  generalize (if m.cid.state = CID_STABLE then removeFailed m.cid failed else m.cid) = cid
  by_cases hequal : equalCid cid m.cid = true
  · exact .inl (if_pos hequal)
  · exact .inr ⟨cid, if_neg hequal⟩

theorem state_removeFailed (cid : DareCid) (failed : Nat → Bool) :
    (removeFailed cid failed).state = cid.state := by
  unfold removeFailed
  refine List.foldlRecOn (motive := fun c : DareCid => c.state = cid.state) _ _ rfl ?_
  intro c hc i _
  split
  · exact hc
  · exact hc

theorem cid_checkFailureCount (failed : Nat → Bool) : (m.checkFailureCount failed).cid =
    if m.cid.state = CID_STABLE then removeFailed m.cid failed else m.cid := by
  rw [Member.checkFailureCount]
  generalize (if m.cid.state = CID_STABLE then removeFailed m.cid failed else m.cid) = cid
  by_cases hequal : equalCid cid m.cid = true
  · rw [if_pos hequal]
    exact ((equalCid_iff _ _).mp hequal).symm
  · rw [if_neg hequal]
    rfl

/-! ### The invariant -/

/-- What ties the table of servers, the endpoint DB, the log and the replies together. -/
structure JoinInv (s : JoinState) : Prop where
  isLeader : s.leader.isLeader = true
  table : TableOk s.leader.cid s.lids
  once : (s.grants.map fun g => (g.slid, g.reqId)).Nodup
  nonzero : ∀ g ∈ s.grants, g.slid ≠ 0
  slots : ∀ g ∈ s.grants, g.slot < MAX_SERVER_COUNT
  /-- An endpoint that was answered and is ON has the slot of the request that was answered. -/
  answered : ∀ slid ep, s.endpoints slid = some ep → ep.committed = true →
    ∃ g ∈ s.grants, g.slid = slid ∧ g.reqId = ep.lastReqId ∧
      ∀ i < MAX_SERVER_COUNT, s.isOn i = true → s.lids i = slid → i = g.slot
  pending : ∀ p ∈ s.leader.requests, s.Granted p.1 p.2
  replied : ∀ r ∈ s.replies, ⟨r.slid, r.reqId, r.idx⟩ ∈ s.grants

theorem joinInv_init (h : joinInit s) : JoinInv s where
  isLeader := h.isLeader
  table := by
    refine ⟨h.sizes, h.on_lt, fun i hi j hj hon _ => h.lids i hi j hj hon, ?_⟩
    intro i hi j hj hon hoff hne heq
    obtain rfl := h.lids i hi j hj hon hne heq
    rw [show cidIsServerOn s.leader.cid i = true from hon] at hoff
    cases hoff
  once := by
    rw [h.grants]
    exact List.nodup_nil
  nonzero := by simp [h.grants]
  slots := by simp [h.grants]
  answered := by simp [h.endpoints]
  pending := by simp [Member.requests, h.apply]
  replied := by simp [h.replies]

namespace JoinInv

/-- The leader changes its configuration and its log, and removes servers. -/
theorem change (h : JoinInv s) {leader : Member} {connected : Nat → Bool}
    (hlead : leader.isLeader = true) (htable : TableOk leader.cid lids)
    (hon : ∀ i < MAX_SERVER_COUNT, cidIsServerOn leader.cid i = true → s.isOn i = true ∧
      lids i = s.lids i)
    (hpending : ∀ p ∈ leader.requests, p ∈ s.leader.requests) :
    JoinInv { s with leader := leader, lids := lids, connected := connected } where
  isLeader := hlead
  table := htable
  once := h.once
  nonzero := h.nonzero
  slots := h.slots
  answered := by
    intro slid ep hep hcommitted
    obtain ⟨g, hg, hslid, hreq, hslot⟩ := h.answered slid ep hep hcommitted
    refine ⟨g, hg, hslid, hreq, fun i hi honi hlid => ?_⟩
    obtain ⟨hold, hkept⟩ := hon i hi honi
    exact hslot i hi hold (hkept ▸ hlid)
  pending := fun p hp => h.pending p (hpending p hp)
  replied := h.replied

/-- The leader goes on to a configuration in which the servers `is` are OFF, and disconnects them. -/
theorem remove (h : JoinInv s) {leader : Member} {is : Nat → Bool} (hlead : leader.isLeader = true)
    (hsizes : SizesFit leader.cid)
    (hlt : ∀ i < 32, cidIsServerOn leader.cid i = true →
      i < (getExtendedGroupSize leader.cid).toNat)
    (hon : ∀ i < 32, cidIsServerOn leader.cid i = true → s.isOn i = true)
    (hoff : ∀ i < MAX_SERVER_COUNT, is i = true → cidIsServerOn leader.cid i = false)
    (hpending : ∀ p ∈ leader.requests, p ∈ s.leader.requests) :
    JoinInv { s.disconnect is with leader := leader } := by
  have hmax : MAX_SERVER_COUNT ≤ 32 := by decide
  have hlids (i : Nat) (hi : i < MAX_SERVER_COUNT) : (s.disconnect is).lids i = s.lids i ∨
      (s.disconnect is).lids i = 0 ∧ cidIsServerOn leader.cid i = false := by
    by_cases hdisconnected : (is i && s.connected i) = true
    · exact .inr ⟨if_pos hdisconnected, hoff i hi (Bool.and_eq_true _ _ ▸ hdisconnected).1⟩
    · exact .inl (if_neg hdisconnected)
  refine h.change hlead (h.table.remove hsizes hlt hon hlids) (fun i hi honi => ?_) hpending
  refine ⟨hon i (by omega) honi, (hlids i hi).resolve_right fun hcleared => ?_⟩
  rw [hcleared.2] at honi
  cases honi

/-- A reply to a request whose server is ON in its slot. -/
theorem sendCltReply (h : JoinInv s) {g : Grant} (hg : g ∈ s.grants) (hon : s.isOn g.slot = true)
    (hlid : s.lids g.slot = g.slid) (hs : s.sendCltReply g.slid g.reqId = some s') : JoinInv s' := by
  obtain ⟨ep, -, rfl⟩ := Option.map_eq_some_iff.mp hs
  have hne : s.lids g.slot ≠ 0 := hlid ▸ h.nonzero g hg
  refine ⟨h.isLeader, h.table, h.once, h.nonzero, h.slots, ?_, h.pending, ?_⟩
  · intro slid ep' hep' hcommitted
    by_cases hslid : slid = g.slid
    · rw [hslid] at hep' ⊢
      dsimp only at hep'
      rw [Function.update_self] at hep'
      obtain rfl := Option.some.inj hep'
      refine ⟨g, hg, rfl, rfl, fun i hi honi hlidi => ?_⟩
      exact (h.table.distinct g.slot (h.slots g hg) i hi hon honi hne (hlid.trans hlidi.symm)).symm
    · dsimp only at hep'
      rw [Function.update_of_ne hslid] at hep'
      exact h.answered slid ep' hep' hcommitted
  · have hslot : s.replySlot g.slid = g.slot := by
      rw [JoinState.replySlot, ← hlid, h.table.find (h.slots g hg) hon hne]
      rfl
    intro r hr
    rcases List.mem_append.mp hr with hr | hr
    · exact h.replied r hr
    · obtain rfl := List.mem_singleton.mp hr
      dsimp only
      rw [hslot]
      exact hg

/-- A repeated request is answered again, or ignored. -/
theorem known (h : JoinInv s) (slid : UInt16) : JoinInv { s with
    endpoints := Function.update s.endpoints slid (some (s.endpoint slid)) } := by
  refine ⟨h.isLeader, h.table, h.once, h.nonzero, h.slots, ?_, h.pending, h.replied⟩
  intro slid' ep hep hcommitted
  refine h.answered slid' ep ?_ hcommitted
  by_cases heq : slid' = slid
  · subst heq
    dsimp only at hep
    rw [Function.update_self] at hep
    obtain rfl := Option.some.inj hep
    rw [JoinState.endpoint] at hcommitted ⊢
    cases hold : s.endpoints slid' with
    | some ep => rfl
    | none =>
      -- a new endpoint was not answered
      rw [hold] at hcommitted
      cases hcommitted
  · dsimp only at hep
    rwa [Function.update_of_ne heq] at hep

theorem occupies_iff (h : JoinInv s) (hstable : s.leader.cid.state = CID_STABLE) :
    joinSlot s.leader.cid s.lids lid = none ↔ s.Occupies lid :=
  joinSlot_eq_none_iff h.table hstable

/-- A request that is granted. -/
theorem grant (h : JoinInv s) (hstable : s.leader.cid.state = CID_STABLE)
    (hfree : SlotFree s.leader.cid empty) (hslid : slid ≠ 0) (hnot : ¬s.Occupies slid)
    (hnew : ¬s.Granted slid id) {leader : Member} {connected : Nat → Bool} {idx : UInt64}
    (hleader : leader = s.leader.reconfigure (joinCid s.leader.cid empty) id slid) :
    JoinInv { s with
      leader := leader
      lids := Function.update s.lids empty slid
      connected := connected
      endpoints := Function.update s.endpoints slid (some ⟨id, idx, false⟩)
      grants := ⟨slid, id, empty⟩ :: s.grants } := by
  subst hleader
  have hmax : MAX_SERVER_COUNT ≤ 32 := by decide
  have hempty := hfree.lt
  refine ⟨h.isLeader, ?_, ?_, ?_, ?_, ?_, ?_, ?_⟩
  · exact h.table.join hstable hfree fun i hi hon hlid => hnot ⟨i, hi, hon, hlid⟩
  · rw [List.map_cons, List.nodup_cons]
    -- the request was not granted before
    refine ⟨fun hmem => ?_, h.once⟩
    obtain ⟨g, hg, heq⟩ := List.mem_map.mp hmem
    obtain ⟨h1, h2⟩ := Prod.mk.inj heq
    exact hnew ⟨g, hg, h1, h2⟩
  · exact List.forall_mem_cons.mpr ⟨hslid, h.nonzero⟩
  · exact List.forall_mem_cons.mpr ⟨hfree.lt, h.slots⟩
  · intro slid' ep hep hcommitted
    by_cases heq : slid' = slid
    · subst heq
      dsimp only at hep
      rw [Function.update_self] at hep
      obtain rfl := Option.some.inj hep
      -- nothing is committed yet of the new server
      cases hcommitted
    · dsimp only at hep
      rw [Function.update_of_ne heq] at hep
      obtain ⟨g, hg, hgslid, hreq, hslot⟩ := h.answered slid' ep hep hcommitted
      refine ⟨g, List.mem_cons_of_mem _ hg, hgslid, hreq, fun i hi hon hlid => ?_⟩
      -- another server has kept its slot, as the new one has another LID
      by_cases hi' : i = empty
      · subst hi'
        dsimp only at hlid
        rw [Function.update_self] at hlid
        exact absurd hlid.symm heq
      · dsimp only at hlid
        rw [Function.update_of_ne hi'] at hlid
        have hon' : cidIsServerOn (joinCid s.leader.cid empty) i = true := hon
        rw [cidIsServerOn_joinCid (by omega) (by omega), Bool.or_eq_true, decide_eq_true_iff] at hon'
        exact hslot i hi (hon'.resolve_left (Ne.symm hi')) hlid
  · intro p hp
    rcases mem_requests_reconfigure hp with hp | ⟨-, rfl⟩
    · obtain ⟨g, hg, hrest⟩ := h.pending p hp
      exact ⟨g, List.mem_cons_of_mem _ hg, hrest⟩
    · exact ⟨_, List.mem_cons_self, rfl, rfl⟩
  · exact fun r hr => List.mem_cons_of_mem _ (h.replied r hr)

/-! ### The steps -/

theorem join (h : JoinInv s) (hok : s.Ok (.join wcSlid slid id))
    (hs : s.join wcSlid slid id = some s') : JoinInv s' := by
  obtain ⟨hslid, hoccupies, hanswered, hroom⟩ := hok
  rw [JoinState.join] at hs
  split at hs
  · obtain rfl := Option.some.inj hs
    exact h
  · rename_i hstate
    have hstable := not_not.mp hstate
    dsimp only at hs
    split at hs
    · rename_i hslot
      have hwc := (h.occupies_iff hstable).mp hslot
      split at hs
      · rename_i hrepeated
        -- the endpoint is ON in the slot of its last request
        obtain rfl := hanswered hrepeated hwc
        obtain ⟨i, hi, hon, hlid⟩ := hwc
        cases hep : s.endpoints wcSlid with
        | none =>
          rw [JoinState.endpoint, hep] at hrepeated
          cases hrepeated.2
        | some ep =>
          rw [JoinState.endpoint, hep, Option.getD_some] at hrepeated
          obtain ⟨g, hg, rfl, hreq, hgslot⟩ := h.answered wcSlid ep hep hrepeated.2
          obtain rfl := hgslot i hi hon hlid
          rw [← hrepeated.1, ← hreq] at hs
          exact (h.known g.slid).sendCltReply hg hon hlid hs
      · obtain rfl := Option.some.inj hs
        exact h.known slid
    · rename_i empty hslot
      have hwc : ¬s.Occupies wcSlid := by
        rw [← h.occupies_iff hstable, hslot]
        exact Option.some_ne_none empty
      obtain ⟨hnot, hnew⟩ := not_or.mp fun hcon => hwc (hoccupies hcon)
      obtain rfl := Option.some.inj hs
      refine h.grant hstable (h.table.slotFree hslot hroom) hslid hnot hnew ?_
      rw [Member.join, hslot]

/-- A server that is removed when an entry is applied is OFF then. -/
theorem off_of_extra (hlead : s.leader.isLeader = true) (he : s.leader.log[s.leader.apply]? = some e)
    (hextra : s.extra e i = true) : cidIsServerOn s.leader.applyEntry.cid i = false := by
  simp only [JoinState.extra, Bool.and_eq_true, beq_iff_eq, decide_eq_true_iff] at hextra
  obtain ⟨⟨⟨⟨hunstable, htransit⟩, hge, hlt⟩, -⟩, -⟩ := hextra
  rw [cid_applyEntry hlead he, if_pos hunstable, htransit, nextCid, if_neg (by decide), if_pos rfl,
    ← Bool.not_eq_true]
  intro hon
  refine ((cidIsServerOn_foldl_rm _ _ i).mp hon).2 i (List.mem_range'_1.mpr ⟨hge, ?_⟩) rfl
  omega

theorem applied (h : JoinInv s) (he : s.leader.log[s.leader.apply]? = some e) :
    JoinInv { s.disconnect (s.extra e) with leader := s.leader.applyEntry } := by
  have hcid := cid_applyEntry h.isLeader he
  refine h.remove ?_ ?_ ?_ ?_ (fun i _ => off_of_extra h.isLeader he)
    fun p hp => mem_requests_applyEntry hp
  · rw [Member.applyEntry, he]
    dsimp only
    split
    · exact h.isLeader
    · exact h.isLeader
  · rw [hcid]
    split
    · exact h.table.sizes.next _
    · exact h.table.sizes
  · intro i hi hon
    rw [hcid] at hon ⊢
    split at hon
    · rw [if_pos ‹_›]
      exact h.table.on_lt_nextCid _ i hi hon
    · rw [if_neg ‹_›]
      exact h.table.on_lt i hi hon
  · intro i _ hon
    rw [hcid] at hon
    split at hon
    · exact on_of_nextCid hon
    · exact hon

/-- An entry that is answered does not remove servers. -/
theorem on_of_answers (h : JoinInv s) (he : s.leader.log[s.leader.apply]? = some e)
    (hanswers : s.answers e = true) (i : Nat) :
    cidIsServerOn s.leader.applyEntry.cid i = s.isOn i ∧
      (s.disconnect (s.extra e)).lids i = s.lids i := by
  simp only [JoinState.answers, Bool.and_eq_true, Bool.or_eq_true, beq_iff_eq] at hanswers
  have hne : CID_STABLE ≠ CID_TRANSIT := by decide
  have hne' : CID_EXTENDED ≠ CID_TRANSIT := by decide
  rw [cid_applyEntry h.isLeader he]
  rcases hanswers.2 with hstable | ⟨hunstable, hextended⟩
  · have hnot : isUnstableConfig s.leader.cid e = false := by
      simp [isUnstableConfig, hstable]
    refine ⟨by rw [hnot]; rfl, if_neg ?_⟩
    simp [JoinState.extra, hnot]
  · refine ⟨?_, if_neg ?_⟩
    · rw [if_pos hunstable, hextended, nextCid, if_pos rfl]
      rfl
    · simp [JoinState.extra, hextended, hne']

theorem apply (h : JoinInv s) (hok : s.Ok .apply) (hs : s.apply = some s') : JoinInv s' := by
  rw [JoinState.apply] at hs
  split at hs
  · cases hs
  · rename_i e he
    have happlied := h.applied he
    dsimp only at hs
    split at hs
    · rename_i hanswers
      have hrequest := hanswers
      simp only [JoinState.answers, Bool.and_eq_true, beq_iff_eq, bne_iff_ne] at hrequest
      obtain ⟨g, hg, hslid, hreq⟩ := h.pending (e.cltId, e.reqId) (mem_requests.mpr
        ⟨e, by rw [drop_eq_cons he]; exact List.mem_cons_self, hrequest.1.1, hrequest.1.2, rfl⟩)
      obtain ⟨hon, hlid⟩ := hok e he hanswers g hg hslid hreq
      obtain ⟨hon', hlid'⟩ := h.on_of_answers he hanswers g.slot
      dsimp only at hslid hreq
      rw [← hslid, ← hreq] at hs
      exact happlied.sendCltReply hg (hon'.trans hon) (hlid'.trans hlid) hs
    · obtain rfl := Option.some.inj hs
      exact happlied

theorem checkFailureCount (h : JoinInv s) (failed : Nat → Bool) :
    JoinInv (s.checkFailureCount failed) := by
  have hcid := cid_checkFailureCount (m := s.leader) failed
  have hsize := h.table.sizes.getGroupSize
  have hmax : MAX_SERVER_COUNT ≤ 32 := by decide
  have hon {i : Nat} (hi : i < 32) : cidIsServerOn (removeFailed s.leader.cid failed) i =
      (s.isOn i && !(decide (i < (getGroupSize s.leader.cid).toNat) && failed i)) :=
    cidIsServerOn_removeFailed failed (by omega) hi
  -- servers are only removed
  have hkept {i : Nat} (hi : i < 32)
      (honi : cidIsServerOn (s.leader.checkFailureCount failed).cid i = true) : s.isOn i = true := by
    rw [hcid] at honi
    split at honi
    · rw [hon hi, Bool.and_eq_true] at honi
      exact honi.1
    · exact honi
  have hgroup : SizesFit (s.leader.checkFailureCount failed).cid ∧
      getExtendedGroupSize (s.leader.checkFailureCount failed).cid =
        getExtendedGroupSize s.leader.cid := by
    rw [hcid]
    split
    · rename_i hstable
      obtain ⟨-, h0, h1⟩ := getGroupSize_removeFailed s.leader.cid failed
      have hstate : (removeFailed s.leader.cid failed).state = s.leader.cid.state :=
        state_removeFailed s.leader.cid failed
      refine ⟨⟨h0 ▸ h.table.sizes.1, h1 ▸ h.table.sizes.2⟩, ?_⟩
      rw [getExtendedGroupSize, getExtendedGroupSize, hstate, h0, h1]
    · exact ⟨h.table.sizes, rfl⟩
  refine h.remove ?_ hgroup.1 (fun i hi honi => ?_) (fun i hi => hkept hi) ?_ fun p hp => ?_
  · rcases checkFailureCount_cases s.leader failed with heq | ⟨cid, heq⟩
    · rw [heq]
      exact h.isLeader
    · rw [heq]
      exact h.isLeader
  · rw [hgroup.2]
    exact h.table.on_lt i hi (hkept hi honi)
  · intro i hi hsuspected
    -- a suspect is removed
    simp only [Bool.and_eq_true, decide_eq_true_iff] at hsuspected
    obtain ⟨⟨⟨hstable, hlt⟩, -⟩, hfailed⟩ := hsuspected
    rw [hcid, if_pos hstable, hon (by omega), decide_eq_true hlt, hfailed]
    exact Bool.and_false _
  · rcases checkFailureCount_cases s.leader failed with heq | ⟨cid, heq⟩
    · rwa [heq] at hp
    · rw [heq] at hp
      exact (mem_requests_reconfigure hp).resolve_right fun hreq => hreq.1 rfl

theorem forceLogPruning (h : JoinInv s) (log : DareLog) (applyOffsets : Nat → Nat) :
    JoinInv (s.forceLogPruning log applyOffsets) := by
  rw [JoinState.forceLogPruning, Member.forceLogPruning]
  cases forceRemoved log applyOffsets s.leader.cid s.leader.idx with
  | none =>
    refine h.remove h.isLeader h.table.sizes h.table.on_lt (fun _ _ hon => hon) ?_ fun _ hp => hp
    intro i _ hi
    cases hi
  | some target =>
    have hon (i : Nat) (hon : cidIsServerOn (cidServerRm s.leader.cid target) i = true) :
        s.isOn i = true := ((cidIsServerOn_foldl_rm [target] s.leader.cid i).mp hon).1
    refine h.remove h.isLeader h.table.sizes (fun i hi honi => h.table.on_lt i hi (hon i honi))
      (fun i _ => hon i) ?_ fun p hp => ?_
    · intro i _ hi
      obtain rfl := Option.some.inj (beq_iff_eq.mp hi)
      have hmax : MAX_SERVER_COUNT ≤ 32 := by decide
      show cidIsServerOn (cidServerRm s.leader.cid target) target = false
      rw [cidIsServerOn_rm _ (by omega) (by omega), decide_eq_true rfl]
      rfl
    · exact (mem_requests_reconfigure hp).resolve_right fun hreq => hreq.1 rfl

theorem rcSyn (h : JoinInv s) {ack : Bool} (hok : s.Ok (.rcSyn i slid ack)) :
    JoinInv (s.rcSyn i slid ack) := by
  rw [JoinState.rcSyn]
  split
  · rcases hok with rfl | ⟨hnew, hgrants⟩
    · rw [Function.update_eq_self]
      exact h.change h.isLeader h.table (fun i _ hon => ⟨hon, rfl⟩) fun p hp => hp
    · refine ⟨h.isLeader, h.table.rcSyn hnew i, h.once, h.nonzero, h.slots, ?_, h.pending, h.replied⟩
      intro slid' ep hep hcommitted
      obtain ⟨g, hg, hgslid, hreq, hslot⟩ := h.answered slid' ep hep hcommitted
      refine ⟨g, hg, hgslid, hreq, fun j hj hon hlid => ?_⟩
      by_cases hji : j = i
      · subst hji
        dsimp only at hlid
        rw [Function.update_self] at hlid
        exact absurd (hgslid.trans hlid.symm) (hgrants g hg)
      · dsimp only at hlid
        rw [Function.update_of_ne hji] at hlid
        exact hslot j hj hon hlid
  · exact h

theorem step (h : JoinInv s) (hok : s.Ok l) (hs : JoinStep s l s') : JoinInv s' := by
  cases l with
  | join wcSlid slid id => exact h.join hok hs
  | apply => exact h.apply hok hs
  | checkFailureCount failed =>
    obtain rfl := Option.some.inj hs
    exact h.checkFailureCount failed
  | forceLogPruning log applyOffsets =>
    obtain rfl := Option.some.inj hs
    exact h.forceLogPruning log applyOffsets
  | rcSyn i slid ack =>
    obtain rfl := Option.some.inj hs
    exact h.rcSyn hok
  | rcAck i =>
    obtain rfl := Option.some.inj hs
    rw [JoinState.rcAck]
    split
    · exact h.change h.isLeader h.table (fun i _ hon => ⟨hon, rfl⟩) fun p hp => hp
    · exact h
  | append reqId cltId type data =>
    rw [JoinStep, JoinState.step] at hs
    split at hs
    · cases hs
    · rename_i htype
      obtain rfl := Option.some.inj hs
      exact h.change h.isLeader h.table (fun i _ hon => ⟨hon, rfl⟩) fun p hp =>
        (mem_requests_append hp).resolve_right fun hconfig => htype hconfig.1
  | prune head =>
    obtain rfl := Option.some.inj hs
    exact ⟨h.isLeader, h.table, h.once, h.nonzero, h.slots, h.answered, h.pending, h.replied⟩

theorem idempotent (h : JoinInv s) : s.Idempotent :=
  ⟨h.table.distinct, h.once, h.replied⟩

end JoinInv

/-! ### Every run -/

/-- A repeated request does not change the leader. -/
theorem leader_join (hslot : joinSlot s.leader.cid s.lids wcSlid = none)
    (hs : s.join wcSlid slid id = some s') : s'.leader = s.leader := by
  rw [JoinState.join] at hs
  split at hs
  · obtain rfl := Option.some.inj hs
    rfl
  · simp only [hslot] at hs
    split at hs
    · obtain ⟨ep, -, rfl⟩ := Option.map_eq_some_iff.mp hs
      rfl
    · obtain rfl := Option.some.inj hs
      rfl

/-- **JOIN requests are idempotent**: in every run whose steps meet the condition, an endpoint has at
    most one slot, a request is granted once, and a reply carries the slot that was set for its request;
    a request that was granted before changes neither the configuration nor the log. -/
theorem join_idempotent (h : Reach joinInit JoinStep JoinState.Ok s) : s.Idempotent ∧
    ∀ wcSlid slid id s', s.Ok (.join wcSlid slid id) → s.Granted slid id →
      JoinStep s (.join wcSlid slid id) s' →
        s'.leader.cid = s.leader.cid ∧ s'.leader.log = s.leader.log := by
  have hinv := h.invariant (fun _ => joinInv_init) fun _ _ _ hinv hok hs => hinv.step hok hs
  refine ⟨hinv.idempotent, fun wcSlid slid id s' hok hgranted hs => ?_⟩
  have hleader : s'.leader = s.leader := by
    by_cases hstable : s.leader.cid.state = CID_STABLE
    · exact leader_join ((hinv.occupies_iff hstable).mpr (hok.2.1 (.inr hgranted))) hs
    · rw [JoinStep, JoinState.step, JoinState.join, if_pos hstable] at hs
      obtain rfl := Option.some.inj hs
      rfl
  rw [hleader]
  exact ⟨rfl, rfl⟩

/-! ### A group of two with room for a third -/

/-- The leader of the servers 0 and 1; slot 2 is empty. -/
def twoOfThree : JoinState where
  leader := { initMember 2 0 with cid := ⟨0, 3, 0, CID_STABLE, 3⟩, isLeader := true }
  lids := fun i => if i = 1 then 5 else 0
  connected := fun i => i == 1
  endpoints := fun _ => none
  head := 0
  replies := []
  grants := []

theorem joinInit_twoOfThree : joinInit twoOfThree where
  isLeader := rfl
  sizes := ⟨by decide, by decide⟩
  on_lt := by decide
  lids := by decide
  endpoints := fun _ => rfl
  apply := rfl
  replies := rfl
  grants := rfl

/-- Endpoint 3 joins, with its own LID in the completion; its request comes again before and after the
    entry is applied. -/
def repeatedJoin : List JoinLabel := [.join 3 3 1, .join 3 3 1, .apply, .join 3 3 1]

/-- It is answered twice. -/
theorem join_idempotent_repeated : ∃ s, Steps JoinStep JoinState.Ok twoOfThree s ∧ s.Idempotent ∧
    s.replies.length = 2 := by
  have hrun : (execIf JoinState.step JoinState.Ok twoOfThree repeatedJoin).any
      (fun s => s.replies.length == 2) = true := by decide +kernel
  obtain ⟨s, hs, hreplies⟩ := (Option.any_eq_true _ _).mp hrun
  have hsteps : Steps JoinStep JoinState.Ok twoOfThree s := Steps.execIf .refl hs
  have hstart : Reach joinInit JoinStep JoinState.Ok twoOfThree := .start joinInit_twoOfThree
  exact ⟨s, hsteps, (join_idempotent (hstart.steps (fun _ _ h => h) hsteps)).1,
    beq_iff_eq.mp hreplies⟩

/-- With another LID in the completion, the repeated request gets another slot. -/
theorem not_join_idempotent : ∃ s, Reach joinInit JoinStep Always s ∧ ¬s.Idempotent := by
  have hrun : (exec JoinState.step twoOfThree [.join 7 3 1, .join 7 3 1]).any (fun s =>
      s.isOn 2 && s.isOn 3 && s.lids 2 == 3 && s.lids 3 == 3) = true := by decide +kernel
  obtain ⟨s, hs, hslots⟩ := (Option.any_eq_true _ _).mp hrun
  simp only [Bool.and_eq_true, beq_iff_eq] at hslots
  obtain ⟨⟨⟨h2, h3⟩, hlid2⟩, hlid3⟩ := hslots
  have hstart : Reach joinInit JoinStep Always twoOfThree := .start joinInit_twoOfThree
  refine ⟨s, hstart.exec hs, fun hidempotent => ?_⟩
  have heq := hidempotent.oneSlot 2 (by decide) 3 (by decide) h2 h3 (by rw [hlid2]; decide)
    (hlid2.trans hlid3.symm)
  cases heq

end Apus
