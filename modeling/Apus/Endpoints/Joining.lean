import Apus.Endpoints.Runs
import Apus.Group.JoinRuns

namespace Apus

open Lib
open scoped EpDb

/-!
# JOIN requests on the database

The leader of `JoinState` looks an endpoint up by its LID, and finds it or does not.  The server has the
tree instead (`TreeLeader`): it searches, inserts what it does not find, and writes through the pointer.

* `TreeLeader.Denotes` — the endpoints of a `JoinState` are those in the tree;
* `treeLeader_refines` — in every run the two do the same; `ep_insert` never returns a NULL that is
  written through.
-/

/-- A leader with the endpoints in the database.  The `endpoints` of `base` are not used. -/
structure TreeLeader where
  base : JoinState
  db : EpDb

/-- A step, with what comes besides the LIDs and the ID in a JOIN request: the GID, the QP number of the
    completion, and the block if one is needed. -/
inductive TreeLabel
  | join (wcSlid slid : UInt16) (id : UInt64) (gid : List UInt8) (srcQp : UInt32) (alloc : EpAlloc)
  | apply
  /-- A step that does not concern the endpoints. -/
  | other (l : JoinLabel) (h : ∀ wcSlid slid id, l ≠ .join wcSlid slid id) (h' : l ≠ .apply)

def TreeLabel.label : TreeLabel → JoinLabel
  | .join wcSlid slid id _ _ _ => .join wcSlid slid id
  | .apply => .apply
  | .other l _ _ => l

namespace TreeLeader

variable (rounds : Nat) (s : TreeLeader)

/-- `ud_send_clt_reply`. -/
def sendCltReply (lid : UInt16) (reqId : UInt64) : Option TreeLeader := do
  let p ← s.db.epSearch rounds lid
  let db ← s.db.modifyEp p fun ep => { ep with lastReqId := reqId, committed := true }
  let ep ← db.ep p
  let reply := ⟨lid, reqId, s.base.leader.cid, ep.cidIdx, s.base.head, s.base.replySlot lid⟩
  some ⟨{ s.base with replies := s.base.replies ++ [reply] }, db⟩

/-- The endpoint of a JOIN request, which is created with its first one. -/
def endpoint (db : EpDb) (slid : UInt16) (gid : List UInt8) (alloc : EpAlloc) : Option (EpDb × Ptr) := do
  let p ← db.epSearch rounds slid
  if p = NULL then db.epInsert rounds slid gid alloc else some (db, p)

/-- `handle_server_join_request`. -/
def join (wcSlid slid : UInt16) (id : UInt64) (gid : List UInt8) (srcQp : UInt32) (alloc : EpAlloc) :
    Option TreeLeader :=
  if s.base.leader.cid.state ≠ CID_STABLE then some s
  else do
    let (db, p) ← endpoint rounds s.db slid gid alloc
    let db ← db.modifyEp p fun ep => { ep with udEp := { ep.udEp with qpn := srcQp } }
    match joinSlot s.base.leader.cid s.base.lids wcSlid with
    | none =>
      let ep ← db.ep p
      if ep.lastReqId = id then
        if ep.committed = false then some ⟨s.base, db⟩
        else sendCltReply rounds ⟨s.base, db⟩ wcSlid id
      else some ⟨s.base, db⟩
    | some empty =>
      let db ← db.modifyEp p fun ep =>
        { ep with lastReqId := id, cidIdx := s.base.leader.newIdx, committed := false }
      some ⟨{ s.base with
        leader := s.base.leader.join s.base.lids wcSlid slid id
        lids := Function.update s.base.lids empty slid
        connected := Function.update s.base.connected empty false
        grants := ⟨slid, id, empty⟩ :: s.base.grants }, db⟩

/-- An iteration of `apply_committed_entries`. -/
def apply : Option TreeLeader :=
  match s.base.leader.log[s.base.leader.apply]? with
  | none => none
  | some e =>
    let applied := { s.base.disconnect (s.base.extra e) with leader := s.base.leader.applyEntry }
    if s.base.answers e then sendCltReply rounds ⟨applied, s.db⟩ e.cltId e.reqId
    else some ⟨applied, s.db⟩

/-- One step; `none` if it is not possible, or dereferences NULL, or does not come to an end. -/
def step : TreeLabel → Option TreeLeader
  | .join wcSlid slid id gid srcQp alloc => s.join rounds wcSlid slid id gid srcQp alloc
  | .apply => s.apply rounds
  | .other l _ _ => (s.base.step l).map fun base => ⟨base, s.db⟩

/-- The block for a new endpoint is not in use. -/
def Allocates : TreeLabel → Prop
  | .join _ _ _ _ _ alloc => alloc.Fresh s.db
  | _ => True

/-- The state with the endpoints of a table. -/
def withTable (base : JoinState) (t : EpTable) : JoinState :=
  { base with endpoints := fun lid => (t.find lid).map DareEp.toEndpoint }

/-- The endpoints of the state are those in the tree. -/
def Denotes (c : TreeLeader) (s : JoinState) : Prop := ∃ t, c.db.Holds t ∧ s = withTable c.base t

variable {rounds : Nat} {c c' : TreeLeader} {s s' : JoinState} {t : EpTable} {base : JoinState} {db : EpDb}
  {lid slid wcSlid : UInt16} {ep ep' : DareEp} {p : Ptr} {ls : List Ptr} {id reqId : UInt64}

theorem eq_withTable (hs : s = { base with endpoints := s.endpoints })
    (h : s.endpoints = fun lid => (t.find lid).map DareEp.toEndpoint) : s = withTable base t := by
  rw [withTable, ← h]
  exact hs

/-- An endpoint is changed. -/
theorem withTable_insert :
    withTable base (t.insert ep) = { withTable base t with
      endpoints := Function.update (withTable base t).endpoints ep.lid (some ep.toEndpoint) } := by
  simp only [withTable, JoinState.mk.injEq, true_and, and_true]
  funext lid
  rw [KeyTable.find_insert, Function.update_apply]
  by_cases h : ep.lid = lid
  · rw [if_pos h, if_pos h.symm, Option.map_some]
  · rw [if_neg h, if_neg fun h' => h h'.symm]

/-- A search. -/
theorem search_lists (h : db.Lists ls t) (hrounds : 32 < rounds) (lid : UInt16) :
    ∃ p, db.epSearch rounds lid = some p ∧ db.ep p = t.find lid ∧ (p = NULL ↔ t.find lid = none) := by
  have hfuel : 2 * Nat.log 2 (ls.length + 1) < rounds := Nat.lt_of_le_of_lt h.log_le hrounds
  obtain ⟨p, hsearch, hp, hnull, -⟩ := EpDb.epSearch_lists h hfuel lid
  exact ⟨p, hsearch, hp, hnull⟩

/-- A change through a pointer. -/
theorem modify_lists {f : DareEp → DareEp} (h : db.Lists ls t) (hp : db.ep p = some ep)
    (hf : (f ep).lid = ep.lid) :
    ∃ db', db.modifyEp p f = some db' ∧ db'.ep p = some (f ep) ∧ db'.Lists ls (t.insert (f ep)) :=
  ⟨db.setEp p (f ep), by simp [EpDb.modifyEp, hp], Function.update_self .., h.setEp hp hf⟩

/-- A reply. -/
theorem sendCltReply_denotes (h : db.Holds t) (hrounds : 32 < rounds) (lid : UInt16) (reqId : UInt64) :
    Option.Rel Denotes (sendCltReply rounds ⟨base, db⟩ lid reqId)
      ((withTable base t).sendCltReply lid reqId) := by
  obtain ⟨ls, h⟩ := h
  obtain ⟨p, hsearch, hp, -⟩ := search_lists h hrounds lid
  cases hfind : t.find lid with
  | none =>
    rw [hfind] at hp
    have hsent : sendCltReply rounds ⟨base, db⟩ lid reqId = none := by
      simp [sendCltReply, hsearch, EpDb.modifyEp, hp]
    have hsent' : (withTable base t).sendCltReply lid reqId = none := by
      simp [JoinState.sendCltReply, withTable, hfind]
    rw [hsent, hsent']
    exact .none
  | some ep =>
    rw [hfind] at hp
    have hlid := (KeyTable.find_eq_some.mp hfind).2
    subst hlid
    obtain ⟨db', hmodify, hp', h'⟩ :=
      modify_lists (f := fun ep => { ep with lastReqId := reqId, committed := true }) h hp rfl
    simp only [sendCltReply, JoinState.sendCltReply, withTable, hsearch, hmodify, hp', hfind,
      Option.bind_eq_bind, Option.bind_some, Option.map_some]
    refine .some ⟨_, ⟨ls, h'⟩, ?_⟩
    rw [withTable_insert]
    rfl

/-- The endpoint of a JOIN request is there in the end, and the others are as before. -/
theorem endpoint_lists (h : db.Holds t) (hrounds : 32 < rounds) {alloc : EpAlloc} (hnew : alloc.Fresh db)
    (slid : UInt16) (gid : List UInt8) (base : JoinState) :
    ∃ db' p ep ls t', endpoint rounds db slid gid alloc = some (db', p) ∧ db'.Lists ls t' ∧
      db'.ep p = some ep ∧ ep.lid = slid ∧ ep.toEndpoint = (withTable base t).endpoint slid ∧
      ∀ lid, lid ≠ slid → t'.find lid = t.find lid := by
  obtain ⟨ls, h⟩ := h
  obtain ⟨p, hsearch, hp, hnull⟩ := search_lists h hrounds slid
  cases hfind : t.find slid with
  | none =>
    have hfuel : 2 * Nat.log 2 (ls.length + 1) < rounds := Nat.lt_of_le_of_lt h.log_le hrounds
    rcases EpDb.epInsert_lists h hfuel hnew slid gid with ⟨hthere, -⟩ | hinserted
    · exact absurd hfind hthere
    · obtain ⟨-, db', ls', hinsert, hep, h'⟩ := hinserted
      refine ⟨db', alloc.addr, EpDb.newEp slid gid alloc, ls', _, ?_, h', ?_, rfl, ?_, ?_⟩
      · simp [endpoint, hsearch, hnull.mpr hfind, hinsert]
      · rw [hep, Function.update_self]
      · simp [JoinState.endpoint, withTable, hfind, EpDb.newEp]
      · intro lid hlid
        rw [KeyTable.find_insert, if_neg fun heq => hlid heq.symm]
  | some ep =>
    have hne : p ≠ NULL := fun heq => by
      rw [hnull.mp heq] at hfind
      cases hfind
    refine ⟨db, p, ep, ls, t, ?_, h, hp.trans hfind, (KeyTable.find_eq_some.mp hfind).2, ?_,
      fun _ _ => rfl⟩
    · simp [endpoint, hsearch, hne]
    · simp [JoinState.endpoint, withTable, hfind]

/-- A JOIN request. -/
theorem join_denotes (h : c.Denotes s) (hrounds : 32 < rounds) {alloc : EpAlloc}
    (hnew : alloc.Fresh c.db) (wcSlid slid : UInt16) (id : UInt64) (gid : List UInt8) (srcQp : UInt32) :
    Option.Rel Denotes (c.join rounds wcSlid slid id gid srcQp alloc) (s.join wcSlid slid id) := by
  obtain ⟨t, h, rfl⟩ := h
  obtain ⟨base, db⟩ := c
  by_cases hstable : base.leader.cid.state ≠ CID_STABLE
  · have hstable' : (withTable base t).leader.cid.state ≠ CID_STABLE := hstable
    rw [join, if_pos hstable, JoinState.join, if_pos hstable']
    exact .some ⟨t, h, rfl⟩
  · have hstable' : ¬ (withTable base t).leader.cid.state ≠ CID_STABLE := hstable
    obtain ⟨db₁, p, ep, ls, t₁, hpointer, h₁, hp, hlid, hendpoint, hother⟩ :=
      endpoint_lists h hrounds hnew slid gid base
    obtain ⟨db₂, hmodify, hp₂, h₂⟩ :=
      modify_lists (f := fun ep => { ep with udEp := { ep.udEp with qpn := srcQp } }) h₁ hp rfl
    -- the endpoints with this one, whatever becomes of it
    have hknown : ∀ (t₂ : EpTable) (ep₂ : DareEp), ep₂.lid = slid →
        (∀ lid, lid ≠ slid → t₂.find lid = t.find lid) →
        Function.update (withTable base t).endpoints slid (some ep₂.toEndpoint) =
          fun lid => ((t₂.insert ep₂).find lid).map DareEp.toEndpoint := by
      intro t₂ ep₂ hlid₂ hother₂
      funext lid
      rw [KeyTable.find_insert, Function.update_apply]
      by_cases heq : lid = slid
      · rw [if_pos heq, if_pos (hlid₂.trans heq.symm), Option.map_some]
      · rw [if_neg heq, if_neg fun heq' => heq (heq'.symm.trans hlid₂), hother₂ lid heq]
        rfl
    rw [join, if_neg hstable, JoinState.join, if_neg hstable']
    simp only [hpointer, hmodify, Option.bind_eq_bind, Option.bind_some, ← hendpoint]
    cases hslot : joinSlot base.leader.cid base.lids wcSlid with
    | none =>
      have hslot' : joinSlot (withTable base t).leader.cid (withTable base t).lids wcSlid = none := hslot
      have hsame := hknown t₁ { ep with udEp := { ep.udEp with qpn := srcQp } } hlid hother
      simp only [hslot', hp₂, Option.bind_some, hsame]
      by_cases hid : ep.lastReqId = id
      · by_cases hcommitted : ep.committed = false
        · have hnot : ¬ (ep.lastReqId = id ∧ ep.committed = true) := fun h => by simp [hcommitted] at h
          rw [if_pos hid, if_pos hcommitted, if_neg hnot]
          exact .some ⟨_, ⟨ls, h₂⟩, rfl⟩
        · rw [if_pos hid, if_neg hcommitted, if_pos ⟨hid, Bool.eq_true_of_not_eq_false hcommitted⟩]
          exact sendCltReply_denotes ⟨ls, h₂⟩ hrounds wcSlid id
      · rw [if_neg hid, if_neg fun h => hid h.1]
        exact .some ⟨_, ⟨ls, h₂⟩, rfl⟩
    | some empty =>
      have hslot' : joinSlot (withTable base t).leader.cid (withTable base t).lids wcSlid = some empty :=
        hslot
      obtain ⟨db₃, hmodify₃, -, h₃⟩ := modify_lists (f := fun ep =>
        { ep with lastReqId := id, cidIdx := base.leader.newIdx, committed := false }) h₂ hp₂ rfl
      have hother₂ : ∀ lid, lid ≠ slid →
          (t₁.insert { ep with udEp := { ep.udEp with qpn := srcQp } }).find lid = t.find lid := by
        intro lid hne
        rw [KeyTable.find_insert, if_neg fun heq => hne (heq.symm.trans hlid), hother lid hne]
      have hsame := hknown _ { ep with
        lastReqId := id
        cidIdx := base.leader.newIdx
        committed := false
        udEp := { ep.udEp with qpn := srcQp } } hlid hother₂
      simp only [hslot', hmodify₃, Option.bind_some]
      exact .some ⟨_, ⟨ls, h₃⟩, eq_withTable rfl hsame⟩

/-- An iteration of `apply_committed_entries`. -/
theorem apply_denotes (h : c.Denotes s) (hrounds : 32 < rounds) :
    Option.Rel Denotes (c.apply rounds) s.apply := by
  obtain ⟨t, h, rfl⟩ := h
  obtain ⟨base, db⟩ := c
  cases hentry : base.leader.log[base.leader.apply]? with
  | none =>
    have hentry' : (withTable base t).leader.log[(withTable base t).leader.apply]? = none := hentry
    simp only [apply, JoinState.apply, hentry, hentry']
    exact .none
  | some e =>
    have hentry' : (withTable base t).leader.log[(withTable base t).leader.apply]? = some e := hentry
    simp only [apply, JoinState.apply, hentry, hentry']
    by_cases hanswers : base.answers e = true
    · have hanswers' : (withTable base t).answers e = true := hanswers
      rw [if_pos hanswers, if_pos hanswers']
      exact sendCltReply_denotes h hrounds e.cltId e.reqId
    · have hanswers' : ¬ (withTable base t).answers e = true := hanswers
      rw [if_neg hanswers, if_neg hanswers']
      exact .some ⟨t, h, rfl⟩

/-- A step that does not concern the endpoints. -/
theorem withTable_step {l : JoinLabel} (h : ∀ wcSlid slid id, l ≠ .join wcSlid slid id) (h' : l ≠ .apply) :
    (withTable base t).step l = (base.step l).map fun base => withTable base t := by
  cases l with
  | join wcSlid slid id => exact absurd rfl (h wcSlid slid id)
  | apply => exact absurd rfl h'
  | checkFailureCount failed => rfl
  | forceLogPruning log applyOffsets => rfl
  | rcSyn i slid ack =>
    show some (if base.isOn i && !base.connected i then _ else _) = _
    rw [JoinState.step, JoinState.rcSyn, Option.map_some]
    split <;> rfl
  | rcAck i =>
    show some (if base.isOn i then _ else _) = _
    rw [JoinState.step, JoinState.rcAck, Option.map_some]
    split <;> rfl
  | append reqId cltId type data =>
    rw [JoinState.step, JoinState.step]
    split <;> rfl
  | prune head => rfl

/-- **A step is that of the state.** -/
theorem step_denotes (h : c.Denotes s) (hrounds : 32 < rounds) {l : TreeLabel} (hl : c.Allocates l) :
    Option.Rel Denotes (c.step rounds l) (s.step l.label) := by
  cases l with
  | join wcSlid slid id gid srcQp alloc => exact join_denotes h hrounds hl wcSlid slid id gid srcQp
  | apply => exact apply_denotes h hrounds
  | other l hjoin happly =>
    obtain ⟨t, ht, rfl⟩ := h
    rw [step, TreeLabel.label, withTable_step hjoin happly]
    cases c.base.step l with
    | none => exact .none
    | some base => exact .some ⟨t, ht, rfl⟩

/-- Every block is not in use when it is allocated. -/
def AllocatesAll (rounds : Nat) : TreeLeader → List TreeLabel → Prop
  | _, [] => True
  | c, l :: ls => c.Allocates l ∧ ∀ c', c.step rounds l = some c' → AllocatesAll rounds c' ls

theorem exec_denotes (hrounds : 32 < rounds) (ls : List TreeLabel) : ∀ {c : TreeLeader} {s : JoinState},
    c.Denotes s → AllocatesAll rounds c ls →
      Option.Rel Denotes (exec (step rounds) c ls) (exec JoinState.step s (ls.map TreeLabel.label)) := by
  induction ls with
  | nil => exact fun h _ => .some h
  | cons l ls ih =>
    intro c s h hall
    have hstep := step_denotes h hrounds hall.1
    rw [exec, List.map_cons, exec]
    generalize hc : step rounds c l = oc at hstep
    generalize s.step l.label = os at hstep
    cases hstep with
    | none => exact .none
    | some h' => exact ih h' (hall.2 _ hc)

end TreeLeader

open TreeLeader

/-- **The leader with the tree does what the leader with a map of endpoints does**, in every run: it stops
    where that one stops, and its tree has the endpoints of that one. -/
theorem treeLeader_refines {rounds : Nat} {s : JoinState} {ls : List TreeLabel} (hrounds : 32 < rounds)
    (hs : ∀ lid, s.endpoints lid = none) (halloc : AllocatesAll rounds ⟨s, .empty⟩ ls) :
    Option.Rel TreeLeader.Denotes (exec (TreeLeader.step rounds) ⟨s, .empty⟩ ls)
      (exec JoinState.step s (ls.map TreeLabel.label)) :=
  exec_denotes hrounds ls ⟨.empty, ⟨[], EpDb.empty_lists⟩, eq_withTable rfl (funext hs)⟩ halloc

/-- A server joins, and gets its reply. -/
def joinAndApply : List TreeLabel := [.join 3 3 1 [] 9 (blockAt 16), .apply]

theorem treeLeader_refines_joinAndApply :
    (exec (TreeLeader.step 33) ⟨twoOfThree, .empty⟩ joinAndApply).isSome = true ∧
      Option.Rel TreeLeader.Denotes (exec (TreeLeader.step 33) ⟨twoOfThree, .empty⟩ joinAndApply)
        (exec JoinState.step twoOfThree (joinAndApply.map TreeLabel.label)) :=
  ⟨by decide +kernel, treeLeader_refines (by decide) (fun _ => rfl)
    ⟨⟨⟨by decide, by decide⟩, rfl⟩, fun _ _ => ⟨trivial, fun _ _ => trivial⟩⟩⟩

end Apus
