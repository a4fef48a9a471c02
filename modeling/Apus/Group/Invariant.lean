import Apus.Group.Model

namespace Apus

open Lib

/-!
# What every configuration of a run has

Configurations come into being in a few places only: a JOIN request, a removal, the application of
an unstable CONFIG entry, and the takeover of a log that has none left.  Everything else copies them:
from a log, from a vote request or a JOIN reply.

So a property `P` that these few places keep is one of every configuration that a server holds, has
in its log or sent; and a number `f` that none of them makes smaller does not get smaller while a
server leads (`KeepsCid`, `CidInv.step`).
-/

variable {P : DareCid → Prop} {f : DareCid → Nat} {m : Member} {s s' : GroupState}
  {l : GroupLabel} {cid : DareCid}

/-! ### One server -/

/-- The configurations of a server: the one it holds, those in its log, and those it held since it
    leads. -/
structure MemberInv (P : DareCid → Prop) (f : DareCid → Nat) (m : Member) : Prop where
  cid : P m.cid
  log : ∀ e ∈ m.log, e.type = CONFIG → P e.cid
  held : ∀ c ∈ m.held, P c
  grows : (m.held.map f).Pairwise (· ≤ ·)
  le : ∀ c ∈ m.held, f c ≤ f m.cid
  /-- Only a leader has a history. -/
  follower : m.isLeader = false → m.held = []

/-- Only the configurations and the role count. -/
theorem MemberInv.of_eq {m' : Member} (h : MemberInv P f m) (hcid : m'.cid = m.cid)
    (hlog : m'.log = m.log) (hheld : m'.held = m.held) (hrole : m'.isLeader = m.isLeader) :
    MemberInv P f m' := by
  obtain ⟨h1, h2, h3, h4, h5, h6⟩ := h
  rw [← hcid] at h1 h5
  rw [← hlog] at h2
  rw [← hheld] at h3 h4 h5 h6
  rw [← hrole] at h6
  exact ⟨h1, h2, h3, h4, h5, h6⟩

theorem mem_append {reqId : UInt64} {cltId : UInt16} {type : UInt8} {data : EntryData}
    {e : DareLogEntry} (he : e ∈ (m.append reqId cltId type data).log) :
    e ∈ m.log ∨ e = mkEntry m.newIdx m.term reqId cltId type data :=
  (List.mem_append.mp he).imp_right List.mem_singleton.mp

theorem MemberInv.append (h : MemberInv P f m) {reqId : UInt64} {cltId : UInt16} {type : UInt8}
    {d : EntryData} (htype : type = CONFIG → P d.cid) :
    MemberInv P f (m.append reqId cltId type d) := by
  refine ⟨h.cid, ?_, h.held, h.grows, h.le, h.follower⟩
  intro e he hconfig
  rcases mem_append he with he | rfl
  · exact h.log e he hconfig
  · have hcid : (mkEntry m.newIdx m.term reqId cltId type d).cid = d.cid := if_pos hconfig
    rw [hcid]
    exact htype hconfig

theorem MemberInv.reconfigure (h : MemberInv P f m) (hlead : m.isLeader = true) (hcid : P cid)
    (hle : f m.cid ≤ f cid) (reqId : UInt64) (cltId : UInt16) :
    MemberInv P f (m.reconfigure cid reqId cltId) := by
  have hheld : MemberInv P f { m with
      cid := cid, reqId := reqId, cltId := cltId, held := m.held ++ [cid] } := by
    refine ⟨hcid, h.log, ?_, ?_, ?_, ?_⟩
    · intro c hc
      rcases List.mem_append.mp hc with hc | hc
      · exact h.held c hc
      · exact List.mem_singleton.mp hc ▸ hcid
    · rw [List.map_append, List.pairwise_append]
      refine ⟨h.grows, List.pairwise_singleton _ _, ?_⟩
      intro a ha b hb
      obtain ⟨c, hc, rfl⟩ := List.mem_map.mp ha
      obtain rfl := List.mem_singleton.mp hb
      exact le_trans (h.le c hc) hle
    · intro c hc
      rcases List.mem_append.mp hc with hc | hc
      · exact le_trans (h.le c hc) hle
      · exact List.mem_singleton.mp hc ▸ le_refl _
    · intro hrole
      exact absurd (hlead.symm.trans hrole) (by decide)
  exact hheld.append (d := { cid := cid }) fun _ => hcid

/-- A follower has no history, so that it may take any configuration. -/
theorem MemberInv.adopt (h : MemberInv P f m) (hrole : m.isLeader = false) (hcid : P cid)
    (reqId : UInt64) (cltId : UInt16) :
    MemberInv P f { m with cid := cid, reqId := reqId, cltId := cltId } := by
  have hnil := h.follower hrole
  refine ⟨hcid, h.log, h.held, h.grows, ?_, h.follower⟩
  intro c hc
  rw [hnil] at hc
  cases hc

theorem MemberInv.stepDown (h : MemberInv P f m) : MemberInv P f m.stepDown := by
  refine ⟨h.cid, h.log, ?_, List.Pairwise.nil, ?_, fun _ => rfl⟩
  · intro c hc
    cases hc
  · intro c hc
    cases hc

/-- A log that only holds entries of others. -/
theorem MemberInv.withLog {log : List DareLogEntry} (h : MemberInv P f m)
    (hlog : ∀ e ∈ log, e.type = CONFIG → P e.cid) : MemberInv P f { m with log := log } :=
  ⟨h.cid, hlog, h.held, h.grows, h.le, h.follower⟩

/-- The configuration that `poll_config_entries` ends with. -/
theorem pollEntries_spec (es : List DareLogEntry) (hes : ∀ e ∈ es, e.type = CONFIG → P e.cid) :
    ∀ m : Member, P m.cid → ∃ cid reqId cltId, P cid ∧
      es.foldl Member.pollEntry m = { m with cid := cid, reqId := reqId, cltId := cltId } := by
  induction es with
  | nil => exact fun m hm => ⟨m.cid, m.reqId, m.cltId, hm, rfl⟩
  | cons e es ih =>
    intro m hm
    have hrest := ih fun e' he' => hes e' (List.mem_cons_of_mem _ he')
    rw [List.foldl_cons]
    by_cases hcond : (e.type == CONFIG && decide (m.cidIdx < e.idx) && !equalCid m.cid e.cid) = true
    · have hconfig : e.type = CONFIG := by
        simp only [Bool.and_eq_true, beq_iff_eq] at hcond
        exact hcond.1.1
      rw [Member.pollEntry, if_pos hcond]
      exact hrest { m with cid := e.cid, reqId := e.reqId, cltId := e.cltId }
        (hes e List.mem_cons_self hconfig)
    · rw [Member.pollEntry, if_neg hcond]
      exact hrest m hm

theorem MemberInv.pollConfigEntries (h : MemberInv P f m) (hrole : m.isLeader = false) :
    MemberInv P f m.pollConfigEntries := by
  obtain ⟨cid, reqId, cltId, hcid, hpoll⟩ := pollEntries_spec (m.log.drop m.cidOffset)
    (fun e he => h.log e (List.mem_of_mem_drop he)) m h.cid
  rw [Member.pollConfigEntries, hpoll]
  exact (h.adopt hrole hcid reqId cltId).of_eq rfl rfl rfl rfl

theorem MemberInv.win (h : MemberInv P f m) (term : UInt64) : MemberInv P f (m.win term) := by
  obtain ⟨cid, reqId, cltId, hcid, hpoll⟩ := pollEntries_spec (m.log.drop m.cidOffset)
    (fun e he => h.log e (List.mem_of_mem_drop he))
    { m with term := term, isLeader := true, takeover := true } h.cid
  simp only [Member.win, Member.pollConfigEntries, hpoll]
  refine ⟨hcid, h.log, ?_, List.pairwise_singleton _ _, ?_, ?_⟩
  · intro c hc
    exact List.mem_singleton.mp hc ▸ hcid
  · intro c hc
    exact List.mem_singleton.mp hc ▸ le_refl _
  · intro hrole
    cases hrole

/-! ### The group -/

/-- Every configuration of the group has the property. -/
structure CidInv (P : DareCid → Prop) (f : DareCid → Nat) (s : GroupState) : Prop where
  members : ∀ i, MemberInv P f (s.members i)
  sent : ∀ c ∈ s.sent, P c

theorem CidInv.set (h : CidInv P f s) {i : Nat} (hm : MemberInv P f m) : CidInv P f (s.set i m) := by
  refine ⟨?_, h.sent⟩
  intro j
  rcases eq_or_ne j i with rfl | hne
  · simpa [GroupState.set] using hm
  · simpa [GroupState.set, hne] using h.members j

theorem CidInv.send (h : CidInv P f s) (hcid : P cid) :
    CidInv P f { s with sent := cid :: s.sent } := by
  refine ⟨h.members, ?_⟩
  intro c hc
  rcases List.mem_cons.mp hc with rfl | hc
  · exact hcid
  · exact h.sent c hc

theorem CidInv.accessed (h : CidInv P f s) (as : List Access) : CidInv P f (s.accessed as) :=
  ⟨h.members, h.sent⟩

/-- The places where configurations come into being keep the property and do not decrease the
    number. -/
structure KeepsCid (P : DareCid → Prop) (f : DareCid → Nat) (s : GroupState) (l : GroupLabel) :
    Prop where
  join : ∀ i lids lid slid reqId empty, l = .join i lids lid slid reqId →
    joinSlot (s.members i).cid lids lid = some empty → P (s.members i).cid →
      P (joinCid (s.members i).cid empty) ∧
        f (s.members i).cid ≤ f (joinCid (s.members i).cid empty)
  remove : ∀ cid i, P cid → P (cidServerRm cid i) ∧ f cid ≤ f (cidServerRm cid i)
  next : ∀ i e, l = .apply i → (s.members i).isLeader = true →
    (s.members i).log[(s.members i).apply]? = some e →
      isUnstableConfig (s.members i).cid e = true → P (s.members i).cid →
        P (nextCid (s.members i).cid e.cid.state) ∧
          f (s.members i).cid ≤ f (nextCid (s.members i).cid e.cid.state)
  takeOver : ∀ cid state, cid.state ≠ CID_STABLE → P cid →
    P (Member.takeOverCid cid state) ∧ f cid ≤ f (Member.takeOverCid cid state)

theorem KeepsCid.removeFailed (hk : KeepsCid P f s l) (hcid : P cid) (failed : Nat → Bool) :
    P (removeFailed cid failed) ∧ f cid ≤ f (Apus.removeFailed cid failed) := by
  refine List.foldlRecOn (motive := fun c => P c ∧ f cid ≤ f c) _ _ ⟨hcid, le_refl _⟩ ?_
  intro c hc j _
  split
  · obtain ⟨hP, hle⟩ := hk.remove c j hc.1
    exact ⟨hP, le_trans hc.2 hle⟩
  · exact hc

theorem MemberInv.becomeLeader (h : MemberInv P f m) (hk : KeepsCid P f s l)
    (hlead : m.isLeader = true) (state : UInt8) : MemberInv P f (m.becomeLeader state) := by
  have hoff : MemberInv P f { m with takeover := false } := h.of_eq rfl rfl rfl rfl
  unfold Member.becomeLeader
  simp only
  split
  · have hreset : MemberInv P f { m with takeover := false, reqId := 0, cltId := 0 } :=
      hoff.of_eq rfl rfl rfl rfl
    exact hreset.append (d := { cid := m.cid }) fun _ => h.cid
  · rename_i hunstable
    split
    · exact hoff.append fun hcon => absurd hcon (by decide)
    · obtain ⟨hcid, hle⟩ := hk.takeOver m.cid state hunstable h.cid
      exact hoff.reconfigure hlead hcid hle _ _

theorem MemberInv.checkFailureCount (h : MemberInv P f m) (hk : KeepsCid P f s l)
    (hlead : m.isLeader = true) (failed : Nat → Bool) :
    MemberInv P f (m.checkFailureCount failed) := by
  have hcid : P (if m.cid.state = CID_STABLE then removeFailed m.cid failed else m.cid) ∧
      f m.cid ≤ f (if m.cid.state = CID_STABLE then removeFailed m.cid failed else m.cid) := by
    split
    · exact hk.removeFailed h.cid failed
    · exact ⟨h.cid, le_refl _⟩
  unfold Member.checkFailureCount
  simp only
  generalize (if m.cid.state = CID_STABLE then removeFailed m.cid failed else m.cid) = cid
    at hcid ⊢
  split
  · exact h
  · exact h.reconfigure hlead hcid.1 hcid.2 _ _

theorem Member.isLeader_of_inOffice (h : m.inOffice = true) : m.isLeader = true := by
  rw [Member.inOffice, Bool.and_eq_true] at h
  exact h.1

theorem MemberInv.applyEntry {i : Nat} (h : MemberInv P f (s.members i))
    (hk : KeepsCid P f s (.apply i)) : MemberInv P f (s.members i).applyEntry := by
  unfold Member.applyEntry
  split
  · exact h
  · rename_i e he
    split
    · rename_i hcond
      rw [Bool.and_eq_true] at hcond
      obtain ⟨hcid, hle⟩ := hk.next i e rfl hcond.1 he hcond.2 h.cid
      exact (h.reconfigure hcond.1 hcid hle _ _).of_eq rfl rfl rfl rfl
    · exact h.of_eq rfl rfl rfl rfl

theorem MemberInv.join {i : Nat} {lids : Nat → UInt16} {lid slid : UInt16} {reqId : UInt64}
    (h : MemberInv P f (s.members i)) (hk : KeepsCid P f s (.join i lids lid slid reqId))
    (hlead : (s.members i).isLeader = true) :
    MemberInv P f ((s.members i).join lids lid slid reqId) := by
  unfold Member.join
  split
  · exact h
  · rename_i empty hslot
    obtain ⟨hcid, hle⟩ := hk.join i lids lid slid reqId empty rfl hslot h.cid
    exact h.reconfigure hlead hcid hle _ _

theorem MemberInv.forceLogPruning (h : MemberInv P f m) (hk : KeepsCid P f s l)
    (hlead : m.isLeader = true) (log : DareLog) (applyOffsets : Nat → Nat) :
    MemberInv P f (m.forceLogPruning log applyOffsets) := by
  unfold Member.forceLogPruning
  split
  · exact h
  · rename_i target _
    obtain ⟨hcid, hle⟩ := hk.remove _ target h.cid
    exact h.reconfigure hlead hcid hle _ _

/-- The step by which a candidate that has applied all that is committed takes over. -/
theorem becomeLeader_cases {i : Nat} {state : UInt8} {s' : GroupState}
    (hs : groupStep s (.becomeLeader i state) = some s') :
    (s.members i).isLeader = true ∧ s' = s.set i ((s.members i).becomeLeader state) := by
  simp only [groupStep, Option.ite_none_right_eq_some, Bool.and_eq_true] at hs
  obtain ⟨hcond, hs⟩ := hs
  refine ⟨hcond.1.1, ?_⟩
  split at hs
  · simp only [Option.ite_none_left_eq_some, Option.some.injEq] at hs
    exact hs.2.symm
  · exact (Option.some.inj hs).symm

/-- One step. -/
theorem CidInv.step (hk : KeepsCid P f s l) (h : CidInv P f s) (hs : groupStep s l = some s') :
    CidInv P f s' := by
  cases l with
  | startElection i =>
    obtain rfl := Option.some.inj hs
    have hm := (h.members i).stepDown
    exact (h.set hm).send hm.cid
  | joinReply i =>
    simp only [groupStep, Option.ite_none_right_eq_some, Option.some.injEq] at hs
    obtain ⟨-, rfl⟩ := hs
    exact h.send (h.members i).cid
  | vote i cid =>
    simp only [groupStep, Option.ite_none_right_eq_some, Option.some.injEq] at hs
    obtain ⟨hsent, rfl⟩ := hs
    have hm := (h.members i).stepDown
    exact h.set ((hm.adopt rfl (h.sent cid hsent) _ _).of_eq rfl rfl rfl rfl)
  | joined i idx cid cidIdx head =>
    simp only [groupStep, Option.ite_none_right_eq_some, Option.some.injEq] at hs
    obtain ⟨hsent, rfl⟩ := hs
    have hm := (h.members i).stepDown
    exact h.set ((hm.adopt rfl (h.sent cid hsent) 0 0).of_eq rfl rfl rfl rfl)
  | follow i =>
    obtain rfl := Option.some.inj hs
    exact h.set (h.members i).stepDown
  | poll i =>
    simp only [groupStep, Option.ite_none_left_eq_some, Option.some.injEq] at hs
    obtain ⟨hrole, rfl⟩ := hs
    exact h.set ((h.members i).pollConfigEntries (by simpa using hrole))
  | win i term =>
    simp only [groupStep, Option.ite_none_left_eq_some, Option.some.injEq] at hs
    obtain ⟨-, rfl⟩ := hs
    exact h.set ((h.members i).win term)
  | becomeLeader i state =>
    obtain ⟨hlead, rfl⟩ := becomeLeader_cases hs
    exact h.set ((h.members i).becomeLeader hk hlead state)
  | apply i =>
    simp only [groupStep, Option.ite_none_right_eq_some, Option.some.injEq] at hs
    obtain ⟨-, rfl⟩ := hs
    exact h.set ((h.members i).applyEntry hk)
  | commit i n =>
    simp only [groupStep, Option.ite_none_right_eq_some, Option.some.injEq] at hs
    obtain ⟨-, rfl⟩ := hs
    exact h.set ((h.members i).of_eq rfl rfl rfl rfl)
  | append i reqId cltId type data =>
    simp only [groupStep, Option.ite_none_right_eq_some, Option.some.injEq, Bool.and_eq_true,
      bne_iff_ne] at hs
    obtain ⟨⟨-, htype⟩, rfl⟩ := hs
    exact h.set ((h.members i).append fun hcon => absurd hcon htype)
  | adjust i n =>
    obtain rfl := Option.some.inj hs
    exact h.set ((h.members i).withLog fun e he => (h.members i).log e (List.mem_of_mem_take he))
  | update i j =>
    simp only [groupStep, Option.ite_none_right_eq_some, Option.some.injEq] at hs
    obtain ⟨-, rfl⟩ := hs
    refine h.set ((h.members i).withLog ?_)
    intro e he
    -- the entries are its own, or those of `j`
    rcases List.mem_append.mp he with he | he
    · exact (h.members i).log e he
    · exact (h.members j).log e (List.mem_of_mem_drop he)
  | recover i j n =>
    simp only [groupStep, Option.ite_none_left_eq_some, Option.some.injEq] at hs
    obtain ⟨-, rfl⟩ := hs
    refine h.set (((h.members i).withLog ?_).of_eq rfl rfl rfl rfl)
    exact fun e he => (h.members j).log e (List.mem_of_mem_take he)
  | join i lids lid slid reqId =>
    simp only [groupStep, Option.ite_none_right_eq_some, Option.some.injEq] at hs
    obtain ⟨hoffice, rfl⟩ := hs
    exact (h.set ((h.members i).join hk (Member.isLeader_of_inOffice hoffice))).accessed _
  | checkFailureCount i failed =>
    simp only [groupStep, Option.ite_none_right_eq_some, Option.some.injEq] at hs
    obtain ⟨hoffice, rfl⟩ := hs
    exact h.set ((h.members i).checkFailureCount hk (Member.isLeader_of_inOffice hoffice) failed)
  | forceLogPruning i log applyOffsets =>
    simp only [groupStep, Option.ite_none_right_eq_some, Option.some.injEq] at hs
    obtain ⟨hoffice, rfl⟩ := hs
    have hm := (h.members i).forceLogPruning hk (Member.isLeader_of_inOffice hoffice) log
      applyOffsets
    exact ⟨(h.set hm).members, h.sent⟩
  | rcSyn i msgIdx msgSize =>
    obtain rfl := Option.some.inj hs
    exact h.accessed _
  | rcAck i msgIdx rcConnected =>
    obtain rfl := Option.some.inj hs
    exact h.accessed _

/-! ### The bitmask is not part of the sizes -/

/-- Additions and removals of servers only change the bitmask. -/
theorem foldl_bitmask {f : DareCid → Nat → DareCid}
    (hf : ∀ c i, ∃ b, f c i = { c with bitmask := b }) (is : List Nat) (cid : DareCid) :
    ∃ b, is.foldl f cid = { cid with bitmask := b } := by
  refine List.foldlRecOn (motive := fun c => ∃ b, c = { cid with bitmask := b }) _ _
    ⟨cid.bitmask, rfl⟩ ?_
  rintro c ⟨b, rfl⟩ i _
  obtain ⟨b', hb'⟩ := hf { cid with bitmask := b } i
  exact ⟨b', hb'⟩

theorem foldl_cidServerRm (is : List Nat) (cid : DareCid) :
    ∃ b, is.foldl cidServerRm cid = { cid with bitmask := b } :=
  foldl_bitmask (fun c i => ⟨c.bitmask &&& ~~~(1 <<< UInt32.ofNat i), rfl⟩) is cid

theorem foldl_cidServerAdd (is : List Nat) (cid : DareCid) :
    ∃ b, is.foldl cidServerAdd cid = { cid with bitmask := b } :=
  foldl_bitmask (fun c i => ⟨c.bitmask ||| (1 <<< UInt32.ofNat i), rfl⟩) is cid

/-- What the application of a CONFIG entry does to the sizes and the state. -/
theorem nextCid_cases (cid : DareCid) (state : UInt8) :
    (state = CID_EXTENDED ∧ nextCid cid state = { cid with state := CID_TRANSIT }) ∨
    (state = CID_TRANSIT ∧ ∃ b, nextCid cid state =
      { cid with state := CID_STABLE, size0 := cid.size1, size1 := 0, bitmask := b }) ∨
    (state ≠ CID_EXTENDED ∧ state ≠ CID_TRANSIT ∧ nextCid cid state = cid) := by
  unfold nextCid
  split
  · exact .inl ⟨‹_›, rfl⟩
  · split
    · obtain ⟨b, hb⟩ := foldl_cidServerRm
        (List.range' cid.size1.toNat (cid.size0.toNat - cid.size1.toNat))
        { cid with state := CID_STABLE }
      refine .inr (.inl ⟨‹_›, b, ?_⟩)
      simp only [hb]
    · exact .inr (.inr ⟨‹_›, ‹_›, rfl⟩)

/-- What the takeover of a log without CONFIG entries does to the sizes and the state. -/
theorem takeOverCid_cases (cid : DareCid) (state : UInt8) :
    Member.takeOverCid cid state = { cid with state := CID_TRANSIT } ∨
    ∃ b, Member.takeOverCid cid state =
      { cid with state := CID_STABLE, size0 := cid.size1, size1 := 0, bitmask := b } := by
  unfold Member.takeOverCid
  split
  · exact .inl rfl
  · obtain ⟨b, hb⟩ := foldl_cidServerRm
      (List.range' (cid.size1.toNat + 1) ((cid.size0 - 1).toNat - cid.size1.toNat)).reverse
      { cid with state := CID_STABLE }
    refine .inr ⟨b, ?_⟩
    simp only [hb]

/-- The initial configuration. -/
theorem initCid_eq (n : Nat) : ∃ b, initCid n =
    { epoch := 0, size0 := UInt8.ofNat n, size1 := 0, state := CID_STABLE, bitmask := b } :=
  foldl_cidServerAdd (List.range n) _

/-- At the start every server has the initial configuration and nothing else. -/
theorem cidInv_init {n : Nat} (h : P (initCid n)) : CidInv P f (initGroup n) := by
  refine ⟨?_, ?_⟩
  · intro i
    refine ⟨h, ?_, ?_, List.Pairwise.nil, ?_, fun _ => rfl⟩
    · intro e he
      cases he
    · intro c hc
      cases hc
    · intro c hc
      cases hc
  · intro c hc
    cases hc

end Apus
