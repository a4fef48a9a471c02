import Apus.Endpoints.Database

namespace Apus

open Lib
open scoped EpDb

/-!
# Going through the database

The functions that go through all endpoints, as operations on the table.

* `epDbPrint_lists`, `epDpResetWaitIdx_lists`, `epDpReplyReadReq_lists` — in the order of the LIDs;
* `epDbFree_lists` — all endpoints are freed, each one once, and nothing is read that was freed.
-/

/-- A part of the endpoints is changed, but for their LIDs. -/
def DareEp.resetWaitIdx (ep : DareEp) : DareEp := { ep with waitForIdx := 0 }

/-- The endpoint waits for an index that is passed. -/
def DareEp.Due (idx : UInt64) (ep : DareEp) : Prop := ep.waitForIdx ≠ 0 ∧ ep.waitForIdx < idx

instance (idx : UInt64) : DecidablePred (DareEp.Due idx) :=
  fun _ => inferInstanceAs (Decidable (_ ∧ _))

/-- The endpoint after its answer, if it gets one. -/
def DareEp.answer (idx : UInt64) (ep : DareEp) : DareEp := if ep.Due idx then ep.resetWaitIdx else ep

namespace DareEp

variable {idx : UInt64} {ep : DareEp}

theorem answer_of_due (h : ep.Due idx) : ep.answer idx = ep.resetWaitIdx := if_pos h

theorem answer_of_not_due (h : ¬ ep.Due idx) : ep.answer idx = ep := if_neg h

theorem answer_lid (idx : UInt64) (ep : DareEp) : (ep.answer idx).lid = ep.lid := by
  by_cases h : ep.Due idx
  · rw [answer_of_due h]
    rfl
  · rw [answer_of_not_due h]

theorem answer_ah (idx : UInt64) (ep : DareEp) : (ep.answer idx).udEp.ah = ep.udEp.ah := by
  by_cases h : ep.Due idx
  · rw [answer_of_due h]
    rfl
  · rw [answer_of_not_due h]

end DareEp

namespace EpTable

/-- Nobody waits any more. -/
def resetWaitIdx (t : EpTable) : EpTable := t.map DareEp.resetWaitIdx fun _ => rfl

/-- Those get an answer that wait for an index that is passed; if it turns out that the server is not the
    leader, nobody gets one, and nobody waits any more. -/
def replyReadReq (t : EpTable) (idx : UInt64) (leader : Bool) : EpTable × List DareEp :=
  if leader then (t.map (DareEp.answer idx) (DareEp.answer_lid idx), t.entries.filter (DareEp.Due idx ·))
  else (resetWaitIdx t, [])

/-- Somebody waits. -/
def waiting (t : EpTable) : Bool := t.entries.any (·.waitForIdx != 0)

theorem resetWaitIdx_eq_self {t : EpTable} (h : waiting t = false) : resetWaitIdx t = t := by
  refine KeyTable.ext ((List.map_congr_left fun ep hep => ?_).trans (List.map_id _))
  have hwait := List.any_eq_false.mp h ep hep
  rw [DareEp.resetWaitIdx, ← show ep.waitForIdx = 0 by simpa using hwait]
  rfl

end EpTable

namespace EpDb

variable {db db' : EpDb} {t : EpTable} {ls ps xs ys : List Ptr} {p q : Ptr} {fuel n : Nat} {ep : DareEp}
  {es : List DareEp} {m : RbMem} {f g : DareEp → DareEp} {idx : UInt64} {leader : Bool}

/-! ### Changes at some nodes -/

/-- The endpoints at some nodes are changed. -/
def mapAt (db : EpDb) (ps : List Ptr) (f : DareEp → DareEp) : EpDb :=
  { db with ep := fun p => if p ∈ ps then (db.ep p).map f else db.ep p }

@[simp] theorem mapAt_mem : (db.mapAt ps f).mem = db.mem := rfl

theorem mapAt_ep_of_notMem (h : q ∉ ps) : (db.mapAt ps f).ep q = db.ep q := if_neg h

@[simp] theorem mapAt_nil : db.mapAt [] f = db := by simp [mapAt]

theorem mapAt_cons (hp : p ∉ ps) : (db.mapAt [p] f).mapAt ps f = db.mapAt (p :: ps) f := by
  simp only [mapAt, EpDb.mk.injEq, true_and]
  funext q
  by_cases hq : q = p
  · subst hq
    simp [hp]
  · simp [hq]

/-- An endpoint that does not change. -/
theorem mapAt_cons_of_eq (hep : db.ep p = some ep) (hf : f ep = ep) (hp : p ∉ ps) :
    db.mapAt (p :: ps) f = db.mapAt ps f := by
  simp only [mapAt, EpDb.mk.injEq, true_and]
  funext q
  by_cases hq : q = p
  · subst hq
    simp [hp, hep, hf]
  · simp [hq]

/-- One endpoint is changed. -/
theorem modifyEp_eq (hep : db.ep p = some ep) (hf : f ep = g ep) :
    db.modifyEp p f = some (db.mapAt [p] g) := by
  rw [modifyEp, hep, Option.map_some, setEp, mapAt, Option.some.injEq, EpDb.mk.injEq]
  refine ⟨rfl, funext fun q => ?_⟩
  by_cases hq : q = p
  · subst hq
    simp [hep, hf]
  · simp [hq]

/-- The others are as before. -/
theorem map_mapAt (hp : p ∉ ps) (heps : ps.map db.ep = es.map some) :
    ps.map (db.mapAt [p] f).ep = es.map some := by
  rw [← heps]
  exact List.map_congr_left fun q hq => mapAt_ep_of_notMem fun hqp =>
    hp (List.mem_singleton.mp hqp ▸ hq)

theorem Lists.mapAt (h : db.Lists ls t) (hf : ∀ e, (f e).lid = e.lid) :
    (db.mapAt ls f).Lists ls (t.map f hf) := by
  refine ⟨h.tree, ?_, fun q hq => ?_⟩
  · have hmap : ls.map (db.mapAt ls f).ep = (ls.map db.ep).map (Option.map f) := by
      rw [List.map_map]
      exact List.map_congr_left fun q hq => if_pos hq
    rw [hmap, h.eps, List.map_map]
    exact (List.map_map (f := f) (g := some)).symm
  · by_contra hmem
    exact hmem (h.here q (mapAt_ep_of_notMem hmem ▸ hq))

/-! ### In the order of the LIDs -/

/-- The iteration has come to the nodes `ys`. -/
structure Ahead (m : RbMem) (fuel : Nat) (xs ys : List Ptr) : Prop where
  tree : RbTree m (xs ++ ys)
  rounds : 2 * Nat.log 2 ((xs ++ ys).length + 1) ≤ fuel

namespace Ahead

/-- `rb_first`. -/
theorem first (h : Ahead m fuel [] ys) : m.rbFirst fuel = some (ys.headD NULL) :=
  rbEnd_tree (d := .left) h.tree h.rounds

theorem addrs (h : Ahead m fuel xs ys) : Addresses (xs ++ ys) := by
  obtain ⟨⟨u, _, hat, -, hu⟩, -⟩ := h
  exact hu ▸ hat.addrs

theorem ne_null (h : Ahead m fuel xs (p :: ys)) : p ≠ NULL :=
  (h.addrs.addr p (List.mem_append_right xs (List.mem_cons_self ..))).1

theorem notMem (h : Ahead m fuel xs (p :: ys)) : p ∉ ys :=
  (List.nodup_cons.mp (List.nodup_append.mp h.addrs.nodup).2.1).1

/-- `rb_next`. -/
theorem next (h : Ahead m fuel xs (p :: ys)) : m.rbNext fuel p = some (ys.headD NULL) :=
  rbBeside_tree (d := .right) h.tree rfl h.rounds

theorem step (h : Ahead m fuel xs (p :: ys)) : Ahead m fuel (xs ++ [p]) ys := by
  obtain ⟨htree, hrounds⟩ := h
  rw [List.append_cons] at htree hrounds
  exact ⟨htree, hrounds⟩

end Ahead

/-- `ep_db_print` from a node on. -/
theorem epDbPrintLoop_spec (h : Ahead db.mem fuel xs ys) (heps : ys.map db.ep = es.map some)
    (hn : ys.length < n) :
    db.epDbPrintLoop fuel n (ys.headD NULL) = some (es.map fun ep => (ep.lid, ep.udEp.qpn)) := by
  induction ys generalizing xs es n with
  | nil =>
    obtain rfl : es = [] := List.map_eq_nil_iff.mp heps.symm
    obtain ⟨n, rfl⟩ := Nat.exists_eq_add_one.mpr hn
    simp [epDbPrintLoop]
  | cons p ys ih =>
    obtain ⟨n, rfl⟩ := Nat.exists_eq_add_one.mpr (Nat.lt_of_le_of_lt (Nat.zero_le _) hn)
    obtain ⟨e, es, rfl, hp, heps⟩ := List.map_eq_cons_iff.mp heps.symm
    have hrest := ih h.step heps.symm (Nat.lt_of_succ_lt_succ hn)
    simp [epDbPrintLoop, h.ne_null, ← hp, h.next, hrest, -List.headD_eq_head?_getD]

/-- `ep_dp_reset_wait_idx` from a node on. -/
theorem epDpResetLoop_spec (h : Ahead db.mem fuel xs ys) (heps : ys.map db.ep = es.map some)
    (hn : ys.length < n) :
    epDpResetLoop fuel n db (ys.headD NULL) = some (db.mapAt ys DareEp.resetWaitIdx) := by
  induction ys generalizing xs es db n with
  | nil =>
    obtain ⟨n, rfl⟩ := Nat.exists_eq_add_one.mpr hn
    simp [epDpResetLoop]
  | cons p ys ih =>
    obtain ⟨n, rfl⟩ := Nat.exists_eq_add_one.mpr (Nat.lt_of_le_of_lt (Nat.zero_le _) hn)
    obtain ⟨e, es, rfl, hp, heps⟩ := List.map_eq_cons_iff.mp heps.symm
    have hmodify : db.modifyEp p (fun ep => { ep with waitForIdx := 0 }) =
      some (db.mapAt [p] DareEp.resetWaitIdx) := modifyEp_eq hp.symm rfl
    have hstep : Ahead (db.mapAt [p] DareEp.resetWaitIdx).mem fuel (xs ++ [p]) ys := h.step
    have hrest := ih hstep (map_mapAt h.notMem heps.symm) (Nat.lt_of_succ_lt_succ hn)
    rw [mapAt_cons h.notMem] at hrest
    simp [epDpResetLoop, h.ne_null, hmodify, h.next, hrest, -List.headD_eq_head?_getD]

/-- The answers from a node on, when the server is the leader or has not asked yet. -/
theorem epDpReplyLoop_leader (idx : UInt64) {s : ReadReplies} (h : Ahead s.db.mem fuel xs ys)
    (heps : ys.map s.db.ep = es.map some) (hn : ys.length < n) :
    epDpReplyLoop fuel idx true n s (ys.headD NULL) =
      some ⟨s.db.mapAt ys (DareEp.answer idx), s.verified || es.any (·.waitForIdx != 0),
        s.answered ++ es.filter (DareEp.Due idx ·)⟩ := by
  induction ys generalizing xs es s n with
  | nil =>
    obtain rfl : es = [] := List.map_eq_nil_iff.mp heps.symm
    obtain ⟨n, rfl⟩ := Nat.exists_eq_add_one.mpr hn
    simp [epDpReplyLoop]
  | cons p ys ih =>
    obtain ⟨n, rfl⟩ := Nat.exists_eq_add_one.mpr (Nat.lt_of_le_of_lt (Nat.zero_le _) hn)
    obtain ⟨e, es, rfl, hp, heps⟩ := List.map_eq_cons_iff.mp heps.symm
    have hn := Nat.lt_of_succ_lt_succ hn
    by_cases hwait : e.waitForIdx = 0
    · -- nobody to answer
      have hdue : ¬ e.Due idx := fun hdue => hdue.1 hwait
      have hrest := ih h.step heps.symm hn
      rw [mapAt_cons_of_eq hp.symm (DareEp.answer_of_not_due hdue) h.notMem]
      simp [epDpReplyLoop, h.ne_null, ← hp, hwait, h.next, hrest, hdue, -List.headD_eq_head?_getD]
    · by_cases hlt : e.waitForIdx < idx
      · have hdue : e.Due idx := ⟨hwait, hlt⟩
        have hmodify : s.db.modifyEp p (fun ep => { ep with waitForIdx := 0 }) =
            some (s.db.mapAt [p] (DareEp.answer idx)) :=
          modifyEp_eq hp.symm (DareEp.answer_of_due hdue).symm
        have hrest := ih (s := ⟨s.db.mapAt [p] (DareEp.answer idx), true, s.answered ++ [e]⟩)
          h.step (map_mapAt h.notMem heps.symm) hn
        rw [mapAt_cons h.notMem] at hrest
        simp [epDpReplyLoop, h.ne_null, ← hp, hwait, hlt, hmodify, h.next, hrest, hdue,
          -List.headD_eq_head?_getD]
      · have hdue : ¬ e.Due idx := fun hdue => hlt hdue.2
        have hrest := ih (s := { s with verified := true }) h.step heps.symm hn
        rw [mapAt_cons_of_eq hp.symm (DareEp.answer_of_not_due hdue) h.notMem]
        simp [epDpReplyLoop, h.ne_null, ← hp, hwait, hlt, h.next, hrest, hdue,
          -List.headD_eq_head?_getD]

/-- From a node on, when the server has not asked yet and is not the leader any more. -/
theorem epDpReplyLoop_follower (idx : UInt64) {s : ReadReplies} (h : Ahead s.db.mem fuel xs ys)
    (heps : ys.map s.db.ep = es.map some) (hn : ys.length < n) (hverified : s.verified = false)
    (hreset : s.db.epDpResetWaitIdx fuel = some db') :
    epDpReplyLoop fuel idx false n s (ys.headD NULL) =
      some (if es.any (·.waitForIdx != 0) then ⟨db', true, s.answered⟩ else s) := by
  induction ys generalizing xs es n with
  | nil =>
    obtain rfl : es = [] := List.map_eq_nil_iff.mp heps.symm
    obtain ⟨n, rfl⟩ := Nat.exists_eq_add_one.mpr hn
    simp [epDpReplyLoop]
  | cons p ys ih =>
    obtain ⟨n, rfl⟩ := Nat.exists_eq_add_one.mpr (Nat.lt_of_le_of_lt (Nat.zero_le _) hn)
    obtain ⟨e, es, rfl, hp, heps⟩ := List.map_eq_cons_iff.mp heps.symm
    by_cases hwait : e.waitForIdx = 0
    · have hrest := ih h.step heps.symm (Nat.lt_of_succ_lt_succ hn)
      simp [epDpReplyLoop, h.ne_null, ← hp, hwait, h.next, hrest, -List.headD_eq_head?_getD]
    · simp [epDpReplyLoop, h.ne_null, ← hp, hwait, hverified, hreset]

namespace Lists

variable (h : db.Lists ls t) (hlog : 2 * Nat.log 2 (ls.length + 1) ≤ fuel) (hlen : ls.length < fuel)

include h hlog hlen

/-- `ep_db_print` prints the LIDs in order. -/
theorem epDbPrint_eq : db.epDbPrint fuel = some (t.entries.map fun ep => (ep.lid, ep.udEp.qpn)) := by
  have hahead : Ahead db.mem fuel [] ls := ⟨h.tree, hlog⟩
  simp [epDbPrint, hahead.first, epDbPrintLoop_spec hahead h.eps hlen, -List.headD_eq_head?_getD]

theorem epDpResetWaitIdx_eq : db.epDpResetWaitIdx fuel = some (db.mapAt ls DareEp.resetWaitIdx) := by
  have hahead : Ahead db.mem fuel [] ls := ⟨h.tree, hlog⟩
  simp [epDpResetWaitIdx, hahead.first, epDpResetLoop_spec hahead h.eps hlen,
    -List.headD_eq_head?_getD]

/-- `ep_dp_reset_wait_idx` leaves nobody waiting. -/
theorem epDpResetWaitIdx_lists :
    ∃ db', db.epDpResetWaitIdx fuel = some db' ∧ db'.Lists ls (EpTable.resetWaitIdx t) :=
  ⟨_, h.epDpResetWaitIdx_eq hlog hlen, h.mapAt (f := DareEp.resetWaitIdx) fun _ => rfl⟩

/-- `ep_dp_reply_read_req` asks for the leadership when somebody waits, and then answers as the table says. -/
theorem epDpReplyReadReq_lists (idx : UInt64) (leader : Bool) :
    ∃ db', db.epDpReplyReadReq fuel idx leader =
        some ⟨db', EpTable.waiting t, (EpTable.replyReadReq t idx leader).2⟩ ∧
      db'.Lists ls (EpTable.replyReadReq t idx leader).1 := by
  have hahead : Ahead db.mem fuel [] ls := ⟨h.tree, hlog⟩
  cases leader with
  | true =>
    have hloop := epDpReplyLoop_leader idx (s := ⟨db, false, []⟩) hahead h.eps hlen
    refine ⟨_, ?_, h.mapAt (DareEp.answer_lid idx)⟩
    simpa [epDpReplyReadReq, hahead.first, EpTable.waiting, EpTable.replyReadReq,
      -List.headD_eq_head?_getD] using hloop
  | false =>
    have hreset := h.epDpResetWaitIdx_eq hlog hlen
    have hloop := epDpReplyLoop_follower idx (s := ⟨db, false, []⟩) hahead h.eps hlen rfl hreset
    cases hwaiting : EpTable.waiting t with
    | false =>
      refine ⟨db, ?_, by rw [EpTable.replyReadReq, EpTable.resetWaitIdx_eq_self hwaiting]; exact h⟩
      rw [show t.entries.any (·.waitForIdx != 0) = false from hwaiting] at hloop
      simpa [epDpReplyReadReq, hahead.first, EpTable.replyReadReq, -List.headD_eq_head?_getD] using hloop
    | true =>
      refine ⟨db.mapAt ls DareEp.resetWaitIdx, ?_, h.mapAt (f := DareEp.resetWaitIdx) fun _ => rfl⟩
      rw [show t.entries.any (·.waitForIdx != 0) = true from hwaiting] at hloop
      simpa [epDpReplyReadReq, hahead.first, EpTable.replyReadReq, -List.headD_eq_head?_getD] using hloop

end Lists

/-! ### Freeing -/

/-- What is freed is not there, and the rest is as before. -/
theorem freeEp_spec (hep : db.ep p = some ep) :
    ∃ db', db.freeEp p = some (db', ep.udEp.ah) ∧ db'.ep p = none ∧ db'.mem.node p = none ∧
      ∀ q, q ≠ p → db'.ep q = db.ep q ∧ db'.mem.node q = db.mem.node q := by
  refine ⟨⟨{ db.mem with node := Function.update db.mem.node p none }, Function.update db.ep p none⟩,
    by simp [freeEp, hep], Function.update_self .., Function.update_self .., fun q hq => ?_⟩
  exact ⟨Function.update_of_ne hq .., Function.update_of_ne hq ..⟩

/-- `ep_db_free` from a node on, when the nodes from there on are still there. -/
theorem epDbFreeLoop_spec
    (hnext : ∀ xs a ys (m' : RbMem), ps = xs ++ a :: ys → (∀ q ∈ a :: ys, m'.read q = m.read q) →
      m'.rbNextPostorder fuel a = some (ys.headD NULL))
    (hps : ps = xs ++ ys) (hnodup : ps.Nodup) (hnull : ∀ q ∈ ps, q ≠ NULL)
    (hsame : ∀ q ∈ ys, db.mem.node q = m.node q) (heps : ys.map db.ep = es.map some)
    (hn : ys.length < n) :
    ∃ db', epDbFreeLoop fuel n db (ys.headD NULL) = some (db', es.map fun ep => ep.udEp.ah) ∧
      (∀ q ∈ ys, db'.ep q = none ∧ db'.mem.node q = none) ∧
      ∀ q ∉ ys, db'.ep q = db.ep q ∧ db'.mem.node q = db.mem.node q := by
  induction ys generalizing xs es db n with
  | nil =>
    obtain rfl : es = [] := List.map_eq_nil_iff.mp heps.symm
    obtain ⟨n, rfl⟩ := Nat.exists_eq_add_one.mpr hn
    exact ⟨db, by simp [epDbFreeLoop], by simp, fun q _ => ⟨rfl, rfl⟩⟩
  | cons p ys ih =>
    obtain ⟨n, rfl⟩ := Nat.exists_eq_add_one.mpr (Nat.lt_of_le_of_lt (Nat.zero_le _) hn)
    obtain ⟨e, es, rfl, hp, heps⟩ := List.map_eq_cons_iff.mp heps.symm
    have hpnull : p ≠ NULL := hnull p (by simp [hps])
    have hpys : p ∉ ys := (List.nodup_cons.mp (List.nodup_append.mp (hps ▸ hnodup)).2.1).1
    have hnext' : db.mem.rbNextPostorder fuel p = some (ys.headD NULL) := by
      refine hnext xs p ys db.mem hps fun q hq => ?_
      simp only [RbMem.read, hsame q hq]
    -- the next node is taken before this one is freed
    obtain ⟨db₁, hfree, hep, hnode, hother⟩ := freeEp_spec hp.symm
    have hne : ∀ q ∈ ys, q ≠ p := fun q hq heq => hpys (heq ▸ hq)
    have hsame' : ∀ q ∈ ys, db₁.mem.node q = m.node q := fun q hq =>
      ((hother q (hne q hq)).2).trans (hsame q (List.mem_cons_of_mem _ hq))
    have heps' : ys.map db₁.ep = es.map some :=
      (List.map_congr_left fun q hq => (hother q (hne q hq)).1).trans heps.symm
    have hps' : ps = (xs ++ [p]) ++ ys := by simp [hps]
    obtain ⟨db', hloop, hgone, hrest⟩ := ih hps' hsame' heps' (Nat.lt_of_succ_lt_succ hn)
    refine ⟨db', ?_, fun q hq => ?_, fun q hq => ?_⟩
    · simp [epDbFreeLoop, hpnull, hnext', hfree, hloop, -List.headD_eq_head?_getD]
    · rcases List.mem_cons.mp hq with rfl | hq
      · exact ⟨(hrest q hpys).1.trans hep, (hrest q hpys).2.trans hnode⟩
      · exact hgone q hq
    · have hq' := not_or.mp fun hmem => hq (List.mem_cons.mpr hmem)
      exact ⟨(hrest q hq'.2).1.trans (hother q hq'.1).1, (hrest q hq'.2).2.trans (hother q hq'.1).2⟩

theorem map_eq_map_some (h : ∀ q ∈ ps, ∃ ep, db.ep q = some ep) :
    ps.map db.ep = (ps.filterMap db.ep).map some := by
  induction ps with
  | nil => rfl
  | cons p ps ih =>
    obtain ⟨ep, hep⟩ := h p (List.mem_cons_self ..)
    rw [List.map_cons, List.filterMap_cons_some hep, List.map_cons, hep,
      ih fun q hq => h q (List.mem_cons_of_mem _ hq)]

/-- `ep_db_free` frees every endpoint once, and destroys its address handle. -/
theorem epDbFree_lists (h : db.Lists ls t) (hlog : 2 * Nat.log 2 (ls.length + 1) ≤ fuel)
    (hlen : ls.length < fuel) :
    ∃ db' ahs, db.epDbFree fuel = some (db', ahs) ∧
      ahs.Perm (t.entries.map fun ep => ep.udEp.ah) ∧ (∀ p, db'.ep p = none) ∧
      ∀ p ∈ ls, db'.mem.node p = none := by
  obtain ⟨ps, hperm, hfirst, hnext⟩ := rbPostorder_tree h.tree hlog
  have hentries : ls.filterMap db.ep = t.entries := by
    have hmap := congrArg (List.filterMap id) h.eps
    simpa [List.filterMap_map] using hmap
  have heps : ps.map db.ep = (ps.filterMap db.ep).map some := map_eq_map_some fun q hq =>
    let ⟨ep, _, hep⟩ := h.exists_ep (hperm.mem_iff.mp hq)
    ⟨ep, hep⟩
  have hpsEntries : (ps.filterMap db.ep).Perm t.entries := hentries ▸ hperm.filterMap db.ep
  have hsplit : ps = [] ++ ps := rfl
  obtain ⟨db', hloop, hgone, hrest⟩ := epDbFreeLoop_spec (n := fuel) hnext hsplit
    (hperm.nodup_iff.mpr h.addrs.nodup) (fun q hq => (h.addrs.addr q (hperm.mem_iff.mp hq)).1)
    (fun _ _ => rfl) heps (hperm.length_eq ▸ hlen)
  refine ⟨db', _, ?_, hpsEntries.map _, fun p => ?_, fun p hp => (hgone p (hperm.mem_iff.mpr hp)).2⟩
  · simp [epDbFree, hfirst, hloop, -List.headD_eq_head?_getD]
  · by_cases hp : p ∈ ps
    · exact (hgone p hp).1
    · rw [(hrest p hp).1]
      by_contra hne
      exact hp (hperm.mem_iff.mpr (h.here p hne))

end EpDb

end Apus
